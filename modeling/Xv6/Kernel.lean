import Xv6.Exec

/-!
# The kernel

The whole state and the operations of processes on it: `kernel/proc.c` with the
memory it allocates and frees, and the system calls of `kernel/sysproc.c`,
`kernel/sysfile.c` and `kernel/trap.c` that change memory or the process table.

An operation runs to its end without interference (the source holds the locks that
make it so); one that has to wait leaves the process `sleeping`, and the process
goes on with its next operation once it has been woken and dispatched.
-/

namespace Xv6

open Xv6.Lib

/-- The state of the kernel. -/
structure Kernel where
  vm : Vm
  proc : ProcTable
  cpu : Fin NCPU → Option (Fin NPROC)
  nextpid : Int
  initproc : Option (Fin NPROC)
  /-- No process has entered user space yet: `first` of `forkret`. -/
  first : Bool
  /-- The pages the kernel took at boot: its page table, the kernel stacks and the
  virtio queues. -/
  kpages : List Nat

abbrev KernelM (α : Type) : Type := Prog Kernel Panic α

def Kernel.setVm (s : Kernel) (v : Vm) : Kernel := { s with vm := v }

def Kernel.setProc (s : Kernel) (i : Fin NPROC) (p : Proc) : Kernel :=
  { s with proc := upd s.proc i p }

def Kernel.setTable (s : Kernel) (t : ProcTable) : Kernel := { s with proc := t }

def Kernel.setCpu (s : Kernel) (c : Fin NCPU) (x : Option (Fin NPROC)) : Kernel :=
  { s with cpu := upd s.cpu c x }

def Kernel.setNextpid (s : Kernel) (n : Int) : Kernel := { s with nextpid := n }

section

variable (s : Kernel) (v w : Vm) (i : Fin NPROC) (p q : Proc) (t : ProcTable) (c : Fin NCPU)
  (x : Option (Fin NPROC)) (n : Int)

@[simp] theorem Kernel.setVm_vm : (s.setVm v).vm = v := rfl
@[simp] theorem Kernel.setVm_proc : (s.setVm v).proc = s.proc := rfl
@[simp] theorem Kernel.setVm_cpu : (s.setVm v).cpu = s.cpu := rfl
@[simp] theorem Kernel.setVm_setVm : (s.setVm v).setVm w = s.setVm w := rfl

@[simp] theorem Kernel.setProc_vm : (s.setProc i p).vm = s.vm := rfl
@[simp] theorem Kernel.setProc_cpu : (s.setProc i p).cpu = s.cpu := rfl
@[simp] theorem Kernel.setProc_proc_same : (s.setProc i p).proc i = p := upd_same _ _ _

@[simp] theorem Kernel.setProc_proc_other {j : Fin NPROC} (h : j ≠ i) :
    (s.setProc i p).proc j = s.proc j := upd_other _ _ h

@[simp] theorem Kernel.setVm_setProc : (s.setProc i p).setVm v = (s.setVm v).setProc i p := rfl

@[simp] theorem Kernel.setProc_setProc : (s.setProc i p).setProc i q = s.setProc i q := by
  simp only [Kernel.setProc, upd_upd]

@[simp] theorem Kernel.setTable_proc : (s.setTable t).proc = t := rfl
@[simp] theorem Kernel.setTable_cpu : (s.setTable t).cpu = s.cpu := rfl

@[simp] theorem Kernel.setCpu_proc : (s.setCpu c x).proc = s.proc := rfl
@[simp] theorem Kernel.setCpu_cpu : (s.setCpu c x).cpu = upd s.cpu c x := rfl

@[simp] theorem Kernel.setNextpid_proc : (s.setNextpid n).proc = s.proc := rfl

end

/-- Run an operation on memory. -/
def onVm {α : Type} (x : VmM α) : KernelM α := zoom Kernel.vm (fun v s => s.setVm v) id x

def setProc (i : Fin NPROC) (f : Proc → Proc) : KernelM Unit :=
  modify fun s => s.setProc i (f (s.proc i))

def setTable (f : ProcTable → ProcTable) : KernelM Unit :=
  modify fun s => s.setTable (f s.proc)

/-- Give up the CPU `c`. -/
def leaveCpu (c : Fin NCPU) : KernelM Unit :=
  modify fun s => s.setCpu c none

def getProc (i : Fin NPROC) : KernelM Proc := do
  let s ← get
  pure (s.proc i)

variable {E : Panic → Prop} {Q : PUnit → Kernel → Prop}

theorem wp_onVm {α : Type} {x : VmM α} {s : Kernel} {Q : α → Kernel → Prop} :
    wp (onVm x) s Q E ↔ wp x s.vm (fun a v => Q a (s.setVm v)) E := wp_zoom

theorem wp_onVm_any {α : Type} {x : VmM α} {s : Kernel} {Q : α → Kernel → Prop}
    (h : ∀ a v, Q a (s.setVm v)) : wp (onVm x) s Q (fun _ => True) := by
  rw [wp_onVm]
  exact wp_any fun a v => h a v

@[simp] theorem wp_setProc {i : Fin NPROC} {f : Proc → Proc} {s : Kernel} :
    wp (setProc i f) s Q E ↔ Q ⟨⟩ (s.setProc i (f (s.proc i))) := wp_modify

@[simp] theorem wp_getProc {i : Fin NPROC} {s : Kernel} {Q : Proc → Kernel → Prop} :
    wp (getProc i) s Q E ↔ Q (s.proc i) s := by
  rw [getProc, wp_bind, wp_get, wp_pure]

@[simp] theorem wp_setTable {f : ProcTable → ProcTable} {s : Kernel} :
    wp (setTable f) s Q E ↔ Q ⟨⟩ (s.setTable (f s.proc)) := wp_modify

@[simp] theorem wp_leaveCpu {c : Fin NCPU} {s : Kernel} :
    wp (leaveCpu c) s Q E ↔ Q ⟨⟩ (s.setCpu c none) := wp_modify

theorem wp_when_onVm_any {c : Prop} [Decidable c] {x : VmM PUnit} {s : Kernel}
    (h : ∀ v, Q ⟨⟩ (s.setVm v)) : wp (when c (onVm x)) s Q (fun _ => True) := by
  rw [wp_when]
  exact ⟨fun _ => wp_onVm_any fun _ v => h v, fun _ => h s.vm⟩

/-- The channel on which a process sleeps in `wait`: its own address. -/
def procChan (i : Fin NPROC) : Nat := i.val + 1

/-- The channel `&ticks`. -/
def ticksChan : Nat := NPROC + 1

section

variable [Image]

/-! ### Process slots -/

/-- The fields `freeproc` clears once the memory is gone. -/
def clearSlot (p : Proc) : Proc :=
  { p with
    pagetable := 0, sz := 0, pid := 0, nice := 20, parent := none, name := [], chan := 0
    killed := false, xstate := 0, state := .unused, weight := 0, runtime := 0, vruntime := 0
    vdeadline := 0, remainSlice := 0, eligible := false }

/-- `freeproc`. -/
def freeproc (i : Fin NPROC) : KernelM Unit := do
  let p ← getProc i
  when (p.trapframe ≠ 0) (onVm (onKmem (kfree p.trapframe)))
  setProc i fun p => { p with trapframe := 0 }
  onVm (mmapfreeproc i p.pagetable)
  when (p.pagetable ≠ 0) (onVm (onKmem (procFreepagetable p.pagetable p.sz)))
  setProc i clearSlot

/-- `allocpid`. -/
def allocpid : KernelM Int := do
  let s ← get
  set (s.setNextpid (i32 (s.nextpid + 1)))
  pure s.nextpid

/-- The fields `allocproc` sets before it allocates memory. -/
def initSlot (p : Proc) (pid : Int) : Proc :=
  eevdfRefreshDeadline
    { p with
      pid, state := .used, nice := NICE_DEFAULT, weight := niceToWeight NICE_DEFAULT
      runtime := 0, vruntime := 0, remainSlice := BASE_SLICE, eligible := false }

/-- `allocproc`: a slot with a trapframe and a page table, `none` if there is none. -/
def allocproc : KernelM (Option (Fin NPROC)) := do
  let s ← get
  match (List.finRange NPROC).find? fun i => (s.proc i).state == .unused with
  | none => pure none
  | some i => do
    let pid ← allocpid
    setProc i fun p => initSlot p pid
    match ← onVm (onKmem kalloc) with
    | none => do
      setProc i fun p => { p with trapframe := 0 }
      freeproc i
      pure none
    | some tf => do
      setProc i fun p => { p with trapframe := tf }
      match ← onVm (onKmem (procPagetable tf)) with
      | none => do
        setProc i fun p => { p with pagetable := 0 }
        freeproc i
        pure none
      | some pt => do
        setProc i fun p => { p with pagetable := pt }
        pure (some i)

/-! ### Growing and shrinking -/

/-- `growproc`. -/
def growproc (i : Fin NPROC) (n : Int) : KernelM Bool := do
  let p ← getProc i
  let sz := p.sz
  let sz' := u64 (sz + n)
  if 0 < n then
    if sz' < sz ∨ MMAPBASE < sz' then pure false
    else do
      let r ← onVm (onKmem (uvmalloc p.pagetable sz sz' PTE_W))
      if r = 0 then pure false
      else do
        setProc i fun p => { p with sz := r }
        pure true
  else if n < 0 then do
    let r ← onVm (onKmem (uvmdealloc p.pagetable sz sz'))
    setProc i fun p => { p with sz := r }
    pure true
  else pure true

/-- `sys_sbrk`; the eager variant is `t = SBRK_EAGER`. -/
def sysSbrk (i : Fin NPROC) (n t : Int) : KernelM Bool := do
  let p ← getProc i
  if t = 1 ∨ n < 0 then growproc i n
  else
    let sz' := u64 (p.sz + n)
    if sz' < p.sz then pure false
    else if MMAPBASE < sz' then pure false
    else do
      setProc i fun p => { p with sz := sz' }
      pure true

/-! ### Fork -/

/-- The loop of `kfork` that duplicates the open files. -/
def dupFiles (ofile : Fin NOFILE → Option (Fin NFILE)) : List (Fin NOFILE) → VmM Unit
  | [] => pure ()
  | fd :: fds => do
    filedupOpt (ofile fd)
    dupFiles ofile fds

/-- `*(np->trapframe) = *(p->trapframe); np->trapframe->a0 = 0`. -/
def copyTrapframe (dst src : Nat) : KmemM Unit := do
  modify fun m => m.setPage dst (blit (m.mem dst) 0 288 (byteAt (m.mem src)))
  storeWord dst TF_A0 0

/-- `kfork`: the child, `none` for `-1`. -/
def kfork (i : Fin NPROC) : KernelM (Option (Fin NPROC)) := do
  match ← allocproc with
  | none => pure none
  | some j => do
    let p ← getProc i
    let np ← getProc j
    if ← onVm (onKmem (uvmcopy p.pagetable np.pagetable p.sz)) then do
      setProc j fun q => { q with sz := p.sz }
      if ← onVm (mmapfork i j p.pagetable np.pagetable) then do
        setProc j fun q =>
          eevdfRefreshDeadline
            { q with
              nice := p.nice, weight := niceToWeight p.nice
              runtime := 0, vruntime := p.vruntime, remainSlice := BASE_SLICE }
        onVm (onKmem (copyTrapframe np.trapframe p.trapframe))
        onVm (dupFiles p.ofile (List.finRange NOFILE))
        setProc j fun q =>
          { q with ofile := p.ofile, name := p.name, parent := some i, state := .runnable }
        pure (some j)
      else do
        freeproc j
        pure none
    else do
      freeproc j
      pure none

/-! ### Exit and wait -/

/-- The loop of `kexit` that closes the open files. -/
def closeFiles (i : Fin NPROC) : List (Fin NOFILE) → KernelM Unit
  | [] => pure ()
  | fd :: fds => do
    let p ← getProc i
    onVm (filecloseOpt (p.ofile fd))
    setProc i fun p => { p with ofile := upd p.ofile fd none }
    closeFiles i fds

/-- `reparent`, without its wakeups. -/
def reparent (i : Fin NPROC) (init : Option (Fin NPROC)) (t : ProcTable) : ProcTable := fun j =>
  if (t j).parent = some i then { t j with parent := init } else t j

/-- The wakeups of `reparent`: one of `initproc` for each child handed over. -/
def reparentWakeups (i : Fin NPROC) (init : Option (Fin NPROC)) (t : ProcTable) : ProcTable :=
  match init with
  | none => t
  | some k =>
    if (List.finRange NPROC).any fun j => (t j).parent == some i then wakeup (some i) (procChan k) t
    else t

/-- `wakeup(p->parent)`. -/
def wakeupParent (i : Fin NPROC) (t : ProcTable) : ProcTable :=
  match (t i).parent with
  | none => t
  | some k => wakeup (some i) (procChan k) t

/-- `kexit`. -/
def kexit (c : Fin NCPU) (i : Fin NPROC) (status : Int) : KernelM Unit := do
  let s ← get
  if some i = s.initproc then throw .initExiting
  else do
    onVm (mmapfreeproc i (s.proc i).pagetable)
    closeFiles i (List.finRange NOFILE)
    setTable (fun t => reparent i s.initproc (reparentWakeups i s.initproc t))
    setTable (wakeupParent i)
    setProc i fun p => { p with xstate := status, state := .zombie }
    leaveCpu c

/-- `sleep(chan, lk)`. -/
def sleepOn (c : Fin NCPU) (i : Fin NPROC) (chan : Nat) : KernelM Unit := do
  setProc i fun p => { p with chan, state := .sleeping }
  leaveCpu c

/-- The `copyout` of the exit status in `kwait`. -/
def copyXstate (i : Fin NPROC) (sz pagetable addr : Nat) (xstate : Int) : VmM Bool :=
  if addr ≠ 0 then copyout i sz pagetable addr (wordBytes [u32 xstate]) 4 else pure true

/-- `kwait`: one scan of the table; `none` when the process went to sleep. -/
def kwait (c : Fin NCPU) (i : Fin NPROC) (addr : Nat) : KernelM (Option Int) := do
  let s ← get
  let p := s.proc i
  match (List.finRange NPROC).find? fun j =>
      (s.proc j).parent == some i && (s.proc j).state == .zombie with
  | some j =>
    let pp := s.proc j
    if ← onVm (copyXstate i p.sz p.pagetable addr pp.xstate) then do
      freeproc j
      pure (some pp.pid)
    else pure (some (-1))
  | none =>
    if !((List.finRange NPROC).any fun j => (s.proc j).parent == some i) || p.killed then
      pure (some (-1))
    else do
      sleepOn c i (procChan i)
      pure none

/-- `kwaitpid`: one scan of the table; `none` when the process went to sleep. -/
def kwaitpid (c : Fin NCPU) (i : Fin NPROC) (pid : Int) : KernelM (Option Int) := do
  let s ← get
  match (List.finRange NPROC).find? fun j => (s.proc j).state != .unused && (s.proc j).pid == pid with
  | none => pure (some (-1))
  | some j =>
    if (s.proc j).parent ≠ some i then pure (some (-1))
    else if (s.proc j).state = .zombie then do
      freeproc j
      pure (some 0)
    else if (s.proc i).killed then pure (some (-1))
    else do
      sleepOn c i (procChan i)
      pure none

/-! ### Traps -/

/-- The page-fault branch of `usertrap`, and what happens when it fails. -/
def usertrapFault (c : Fin NCPU) (i : Fin NPROC) (va : Nat) (read : Bool) : KernelM Unit := do
  let p ← getProc i
  if ← onVm (vmfault i p.sz p.pagetable va read) then pure ()
  else do
    setProc i fun p => { p with killed := true }
    kexit c i (-1)

/-- `clockintr`: CPU 0 wakes the processes that wait for a tick. -/
def clockintr (c : Fin NCPU) : KernelM Unit := do
  let s ← get
  when (c.val = 0) (setTable (wakeup (s.cpu c) ticksChan))

/-- The accounting of a timer interrupt that hit the running process `i`. -/
def accountTick (c : Fin NCPU) (i : Fin NPROC) : KernelM Unit := do
  let p ← getProc i
  let (q, yields) := timerTick p
  if yields then do
    setProc i fun _ => { q with state := .runnable }
    leaveCpu c
  else setProc i fun _ => q

/-- A timer interrupt in user space, through `usertrap`. -/
def usertrapTimer (c : Fin NCPU) (i : Fin NPROC) : KernelM Unit := do
  clockintr c
  let p ← getProc i
  if p.killed then kexit c i (-1) else accountTick c i

/-- A timer interrupt in the kernel, through `kerneltrap`. -/
def kerneltrapTimer (c : Fin NCPU) : KernelM Unit := do
  clockintr c
  let s ← get
  match s.cpu c with
  | none => pure ()
  | some i => if (s.proc i).state = .running then accountTick c i else pure ()

/-! ### Files -/

/-- `fdalloc`. -/
def fdalloc (i : Fin NPROC) (f : Fin NFILE) : KernelM (Option (Fin NOFILE)) := do
  let p ← getProc i
  match (List.finRange NOFILE).find? fun fd => (p.ofile fd).isNone with
  | none => pure none
  | some fd => do
    setProc i fun p => { p with ofile := upd p.ofile fd (some f) }
    pure (some fd)

def clearFd (i : Fin NPROC) (fd : Fin NOFILE) : KernelM Unit :=
  setProc i fun p => { p with ofile := upd p.ofile fd none }

/-- The two `copyout`s of `sys_pipe`. -/
def copyFds (i : Fin NPROC) (sz pagetable fdarray : Nat) (fd0 fd1 : Fin NOFILE) : VmM Bool := do
  if ← copyout i sz pagetable fdarray (wordBytes [fd0.val]) 4 then
    copyout i sz pagetable ((fdarray + 4) % 2 ^ 64) (wordBytes [fd1.val]) 4
  else pure false

/-- `fileclose(rf); fileclose(wf)`. -/
def closePair (rf wf : Fin NFILE) : VmM Unit := do
  fileclose rf
  fileclose wf

/-- `sys_pipe`. -/
def sysPipe (i : Fin NPROC) (fdarray : Nat) : KernelM Bool := do
  match ← onVm pipealloc with
  | none => pure false
  | some (rf, wf) =>
    match ← fdalloc i rf with
    | none => do
      onVm (closePair rf wf)
      pure false
    | some fd0 =>
      match ← fdalloc i wf with
      | none => do
        clearFd i fd0
        onVm (closePair rf wf)
        pure false
      | some fd1 => do
        let p ← getProc i
        if ← onVm (copyFds i p.sz p.pagetable fdarray fd0 fd1) then pure true
        else do
          clearFd i fd0
          clearFd i fd1
          onVm (closePair rf wf)
          pure false

/-- `sys_close`. -/
def sysClose (i : Fin NPROC) (fd : Fin NOFILE) : KernelM Bool := do
  let p ← getProc i
  match p.ofile fd with
  | none => pure false
  | some f => do
    clearFd i fd
    onVm (fileclose f)
    pure true

/-- `sys_dup`. -/
def sysDup (i : Fin NPROC) (fd : Fin NOFILE) : KernelM Bool := do
  let p ← getProc i
  match p.ofile fd with
  | none => pure false
  | some f =>
    match ← fdalloc i f with
    | none => pure false
    | some _ => do
      onVm (filedup f)
      pure true

/-- The end of `sys_open`, once the path has led to the inode `ip`. -/
def sysOpen (i : Fin NPROC) (ip : Nat) (device readable writable : Bool) : KernelM Bool := do
  match ← onVm filealloc with
  | none => pure false
  | some f =>
    match ← fdalloc i f with
    | none => do
      onVm (fileclose f)
      pure false
    | some _ => do
      onVm (modify fun v => v.setFile f
        { v.file f with type := if device then .device else .inode, ip, readable, writable })
      pure true

/-! ### Exec -/

/-- The string in a page, without its terminator. -/
def pageStr (g : Page) : List UInt8 := ((List.range PGSIZE).map (byteAt g)).takeWhile (· != 0)

/-- `fetchaddr`. -/
def fetchaddr (i : Fin NPROC) (sz pagetable addr : Nat) : VmM (Option Nat) :=
  if sz ≤ addr ∨ sz < (addr + 8) % 2 ^ 64 then pure none
  else do
    match ← copyin i sz pagetable addr 8 with
    | none => pure none
    | some bytes => pure (some (leField (listBytes bytes) 0 8))

/-- The start of `sys_exec`: fetch the path, which names `ip`. -/
def sysExecStart (i : Fin NPROC) (path uargv : Nat) (ip : Option Nat) : KernelM Unit := do
  let p ← getProc i
  match ← onVm (copyinstr i p.sz p.pagetable path MAXPATH) with
  | none => pure ()
  | some name => setProc i fun p => { p with exec := some { ip, name, uargv, argv := [] } }

/-- `kfree` each argument page, the end of `sys_exec`. -/
def freeArgs : List Nat → KmemM Unit
  | [] => pure ()
  | pa :: pas => do
    kfree pa
    freeArgs pas

/-- Leave `sys_exec`, freeing the argument pages. -/
def sysExecEnd (i : Fin NPROC) : KernelM Unit := do
  let p ← getProc i
  match p.exec with
  | none => pure ()
  | some e => do
    onVm (onKmem (freeArgs e.argv))
    setProc i fun p => { p with exec := none }

/-- What follows the last `/` of a path. -/
def lastName (path : List UInt8) : List UInt8 := (path.reverse.takeWhile (· != 47)).reverse

/-- Run the program once the arguments are there. -/
def sysExecRun (i : Fin NPROC) (e : ExecArgs) : KernelM Unit := do
  let s ← get
  let p := s.proc i
  let argv := e.argv.map fun pa => pageStr (s.vm.kmem.mem pa)
  match ← onVm (kexec i p.sz p.pagetable p.trapframe e.ip argv) with
  | none => sysExecEnd i
  | some img => do
    setProc i fun p =>
      { p with pagetable := img.pagetable, sz := img.sz, name := (lastName e.name).take 15 }
    sysExecEnd i

/-- One turn of the loop of `sys_exec`: fetch the next argument, or run. -/
def sysExecStep (i : Fin NPROC) : KernelM Unit := do
  let p ← getProc i
  match p.exec with
  | none => pure ()
  | some e =>
    if MAXARG ≤ e.argv.length then sysExecEnd i
    else
      match ← onVm (fetchaddr i p.sz p.pagetable ((e.uargv + 8 * e.argv.length) % 2 ^ 64)) with
      | none => sysExecEnd i
      | some uarg =>
        if uarg = 0 then sysExecRun i e
        else
          match ← onVm (onKmem kalloc) with
          | none => sysExecEnd i
          | some pa => do
            setProc i fun p => { p with exec := some { e with argv := e.argv ++ [pa] } }
            match ← onVm (copyinstr i p.sz p.pagetable uarg PGSIZE) with
            | none => sysExecEnd i
            | some str =>
              onVm (onKmem (modify fun m =>
                m.setPage pa (blit (m.mem pa) 0 (str.length + 1) (listBytes str))))

/-! ### User space -/

/-- A store of one byte by user code, where its page table lets it through. -/
def userStore (pagetable va : Nat) (x : UInt8) : KmemM Unit :=
  if MAXVA ≤ va then pure ()
  else do
    match ← walk pagetable va false with
    | none => pure ()
    | some (t, i) => do
      let pte ← loadWord t i
      if pteV pte && pteU pte && pteW pte then
        modify fun m =>
          m.setPage (pte2pa pte) (blit (m.mem (pte2pa pte)) (va % PGSIZE) 1 fun _ => x)
      else pure ()

/-- The first return to user space, through `forkret`: init runs `/init`. -/
def forkret (i : Fin NPROC) (ip : Option Nat) : KernelM Unit := do
  let p ← getProc i
  modify fun s => { s with first := false }
  match ← onVm (kexec i p.sz p.pagetable p.trapframe ip [[47, 105, 110, 105, 116]]) with
  | none => throw .initExec
  | some img =>
    setProc i fun p =>
      { p with pagetable := img.pagetable, sz := img.sz, name := [105, 110, 105, 116] }

/-! ### Boot -/

/-- `n` pages for the kernel's own use. -/
def kallocPages : Nat → KmemM (List Nat)
  | 0 => pure []
  | n + 1 => do
    match ← kalloc with
    | none => throw .boot
    | some pa => do
      let pas ← kallocPages n
      pure (pa :: pas)

/-- `userinit`. -/
def userinit : KernelM Unit := do
  match ← allocproc with
  | none => throw (.mem .boot)
  | some i => do
    modify fun s => { s with initproc := some i }
    setProc i fun p => { p with state := .runnable }

/-- What `main` does before `scheduler`: `kvminit` takes 102 pages for the kernel's
page table and one for each kernel stack, `virtio_disk_init` takes three. -/
def boot : KernelM Unit := do
  onVm (onKmem kinit)
  let pas ← onVm (onKmem (kallocPages (102 + NPROC + 3)))
  modify fun s => { s with kpages := pas }
  userinit

/-- The machine as `main` finds it, with the files of its disk. -/
def reset (disk : Nat → Inode) : Kernel where
  vm :=
    { kmem := { mem := fun _ => fillPage 0, refcnt := fun _ => 0, freelist := 0 }
      area := fun _ => {}
      file := fun _ => {}
      pipe := fun _ => {}
      inode := disk }
  proc := fun _ => {}
  cpu := fun _ => none
  nextpid := 1
  initproc := none
  first := true
  kpages := []

/-! ### Steps -/

/-- What can happen to the kernel: something a CPU or the process on it does. -/
inductive Act
  | schedule (c : Fin NCPU)
  | forkret (c : Fin NCPU) (ip : Option Nat)
  | userTimer (c : Fin NCPU)
  | kernelTimer (c : Fin NCPU)
  | wakeup (c : Fin NCPU) (chan : Nat)
  | sleep (c : Fin NCPU) (chan : Nat)
  | kill (c : Fin NCPU) (pid : Int)
  | setnice (c : Fin NCPU) (pid value : Int)
  | fork (c : Fin NCPU)
  | exit (c : Fin NCPU) (status : Int)
  | wait (c : Fin NCPU) (addr : Nat)
  | waitpid (c : Fin NCPU) (pid : Int)
  | sbrk (c : Fin NCPU) (n t : Int)
  | fault (c : Fin NCPU) (va : Nat) (read : Bool)
  | trap (c : Fin NCPU)
  | mmap (c : Fin NCPU) (addr : Nat) (length prot flags fd offset : Int)
  | munmap (c : Fin NCPU) (addr : Nat)
  | store (c : Fin NCPU) (va : Nat) (x : UInt8)
  | copyout (c : Fin NCPU) (va : Nat) (bytes : List UInt8)
  | copyin (c : Fin NCPU) (va len : Nat)
  | pipe (c : Fin NCPU) (fdarray : Nat)
  | close (c : Fin NCPU) (fd : Fin NOFILE)
  | dup (c : Fin NCPU) (fd : Fin NOFILE)
  | open (c : Fin NCPU) (ip : Nat) (device readable writable : Bool)
  | execStart (c : Fin NCPU) (path uargv : Nat) (ip : Option Nat)
  | execStep (c : Fin NCPU)
  | disk (ip : Nat) (f : Inode)

/-- Let the process on CPU `c` do something; nothing happens on an idle CPU. -/
def withProc (c : Fin NCPU) (f : Fin NPROC → KernelM Unit) : KernelM Unit := do
  let s ← get
  match s.cpu c with
  | none => pure ()
  | some i => f i

/-- Let the process on CPU `c` do something out of user space: `init` is past
`forkret`, and the process is not in the middle of `exec`. -/
def withUser (c : Fin NCPU) (f : Fin NPROC → Proc → KernelM Unit) : KernelM Unit := do
  let s ← get
  match s.cpu c with
  | none => pure ()
  | some i => if s.first || (s.proc i).exec.isSome then pure () else f i (s.proc i)

/-- A pass of the scheduler of CPU `c`; a process that was in `sleep` clears `chan`. -/
def schedule (c : Fin NCPU) : KernelM Unit := do
  let s ← get
  match s.cpu c with
  | some _ => pure ()
  | none =>
    match schedulerPass s.proc with
    | (none, t) => set (s.setTable t)
    | (some i, t) => set ((s.setTable (upd t i { t i with chan := 0 })).setCpu c (some i))

/-- The code that runs for each act. -/
def Act.code : Act → KernelM Unit
  | .schedule c => Xv6.schedule c
  | .forkret c ip => withProc c fun i => do
      let s ← get
      if s.first then Xv6.forkret i ip else pure ()
  | .userTimer c => withUser c fun i _ => usertrapTimer c i
  | .kernelTimer c => kerneltrapTimer c
  | .wakeup c chan => do
      let s ← get
      setTable (Xv6.wakeup (s.cpu c) chan)
  | .sleep c chan => withProc c fun i => sleepOn c i chan
  | .kill c pid => withUser c fun _ _ => setTable fun t => (kkill pid t).2
  | .setnice c pid value => withUser c fun _ _ => setTable fun t => (ksetnice pid value t).2
  | .fork c => withUser c fun i _ => do
      let _ ← kfork i
  | .exit c status => withUser c fun i _ => kexit c i status
  | .wait c addr => withUser c fun i _ => do
      let _ ← kwait c i addr
  | .waitpid c pid => withUser c fun i _ => do
      let _ ← kwaitpid c i pid
  | .sbrk c n t => withUser c fun i _ => do
      let _ ← sysSbrk i n t
  | .fault c va read => withUser c fun i _ => usertrapFault c i va read
  | .trap c => withUser c fun i _ => do
      setProc i fun p => { p with killed := true }
      kexit c i (-1)
  | .mmap c addr length prot flags fd offset => withUser c fun i p => do
      let _ ← onVm (kmmap i p.pagetable p.ofile addr length prot flags fd offset)
  | .munmap c addr => withUser c fun i p => do
      let _ ← onVm (kmunmap i p.pagetable addr)
  | .store c va x => withUser c fun _ p => onVm (onKmem (userStore p.pagetable va x))
  | .copyout c va bytes => withUser c fun i p => do
      let _ ← onVm (Xv6.copyout i p.sz p.pagetable va (listBytes bytes) bytes.length)
  | .copyin c va len => withUser c fun i p => do
      let _ ← onVm (Xv6.copyin i p.sz p.pagetable va len)
  | .pipe c fdarray => withUser c fun i _ => do
      let _ ← sysPipe i fdarray
  | .close c fd => withUser c fun i _ => do
      let _ ← sysClose i fd
  | .dup c fd => withUser c fun i _ => do
      let _ ← sysDup i fd
  | .open c ip device readable writable => withUser c fun i _ => do
      let _ ← sysOpen i ip device readable writable
  | .execStart c path uargv ip => withUser c fun i _ => sysExecStart i path uargv ip
  | .execStep c => withProc c fun i => sysExecStep i
  | .disk ip f => onVm (modify fun v => { v with inode := upd v.inode ip f })

/-- One step: the state after an act, or the panic it ends in. -/
def step (s : Kernel) (a : Act) : Except Panic Kernel :=
  match a.code s with
  | .ok (_, t) => .ok t
  | .error e => .error e

theorem step_eq_ok {s s' : Kernel} {a : Act} :
    step s a = .ok s' ↔ ∃ u, a.code s = .ok (u, s') := by
  unfold step
  cases h : a.code s with
  | ok r => obtain ⟨u, t⟩ := r; simp
  | error e => simp

end

theorem wp_withProc {c : Fin NCPU} {f : Fin NPROC → KernelM Unit} {s : Kernel} (h0 : Q ⟨⟩ s)
    (h : ∀ i, s.cpu c = some i → wp (f i) s Q E) : wp (withProc c f) s Q E := by
  unfold withProc
  rw [wp_bind, wp_get]
  split
  · exact wp_pure.2 h0
  · exact h _ ‹_›

theorem wp_withUser {c : Fin NCPU} {f : Fin NPROC → Proc → KernelM Unit} {s : Kernel}
    (h0 : Q ⟨⟩ s)
    (h : ∀ i, s.cpu c = some i → s.first = false → (s.proc i).exec = none →
      wp (f i (s.proc i)) s Q E) : wp (withUser c f) s Q E := by
  unfold withUser
  rw [wp_bind, wp_get]
  split
  · exact wp_pure.2 h0
  · split
    · exact wp_pure.2 h0
    · rename_i i hc hne
      simp only [Bool.or_eq_true, not_or, Bool.not_eq_true, Option.isSome_eq_false_iff,
        Option.isNone_iff_eq_none] at hne
      exact h i hc hne.1 hne.2

end Xv6
