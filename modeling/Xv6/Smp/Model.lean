import Xv6.Proc
import Xv6.Lib.Effect
import Xv6.Lib.Run
import Xv6.Lib.Upd

/-!
# The kernel on several CPUs

The routines of `kernel/proc.c` that use the process locks, and the ones of `kernel/pipe.c` and
`kernel/sleeplock.c` that sleep, as programs that make one request at a time: take a lock, read
or write a field, switch to another context.  The CPUs of any type `C` carry them out one
request at a time and in any order among each other.

Of a process there is what `sched`, `sleep` and `wakeup` go by: its state, its channel and
whether it has been killed.  What decides which way a routine goes but does not depend on these
(pids and parents, deadlines, whether a user copy or an allocation fails) is left open: the
routine asks, and the run answers.  A routine that goes round in a loop is given the number of
rounds it can make.

`myproc` and a lock around a counter do not turn interrupts off and on here: an interrupt comes
only to a CPU that holds no lock, but it can come in between any two requests then.
-/

namespace Xv6.Smp

open Xv6.Lib

/-- The spinlocks: one of each process, `wait_lock`, `pid_lock`, the lock of a pipe, and all
others. -/
inductive Lock
  | proc (i : Fin NPROC) | wait | pid | pipe | other (n : Nat)
  deriving DecidableEq

/-- The addresses that processes sleep on. -/
inductive Chan
  | nread | nwrite | proc (i : Fin NPROC) | other (n : Nat)
  deriving DecidableEq

/-- `struct proc`. -/
structure Proc where
  state : ProcState
  chan : Option Chan
  killed : Bool
  deriving DecidableEq

abbrev PIPESIZE : Nat := 512

/-- `struct pipe`, and what has passed through it: the bytes that were put in, and the bytes
that were copied to a reader. -/
structure Pipe where
  data : Nat → Nat
  nread : Nat
  nwrite : Nat
  readopen : Bool
  writeopen : Bool
  sent : List Nat
  got : List Nat

namespace Pipe

def empty (pi : Pipe) : Bool := pi.nread == pi.nwrite

def full (pi : Pipe) : Bool := pi.nwrite == (pi.nread + PIPESIZE) % 2 ^ 32

/-- `pi->data[pi->nwrite++ % PIPESIZE] = ch`. -/
def put (pi : Pipe) (ch : Nat) : Pipe :=
  { pi with
    data := upd pi.data (pi.nwrite % PIPESIZE) ch
    nwrite := (pi.nwrite + 1) % 2 ^ 32
    sent := pi.sent ++ [ch] }

/-- `pi->data[pi->nread % PIPESIZE]`. -/
def next (pi : Pipe) : Nat := pi.data (pi.nread % PIPESIZE)

end Pipe

/-- What is written to a process, under its lock. -/
inductive Write
  /-- `wakeup` on a channel, or `kkill`: the process is `RUNNABLE` again. -/
  | rouse (chan : Option Chan)
  | kill
  /-- The scheduler has selected the process. -/
  | run
  | yield
  | doze (chan : Chan)
  | exit
  /-- `p->chan = 0`. -/
  | unchan
  /-- `allocproc`: the process will start at `forkret`. -/
  | create
  /-- `kfork` is done with the process. -/
  | start
  /-- `freeproc`. -/
  | free
  deriving DecidableEq

namespace Write

def proc : Write → Proc → Proc
  | rouse _, p => { p with state := .runnable }
  | kill, p => { p with killed := true }
  | run, p => { p with state := .running }
  | yield, p => { p with state := .runnable }
  | doze chan, p => { p with chan := some chan, state := .sleeping }
  | exit, p => { p with state := .zombie }
  | unchan, p => { p with chan := none }
  | create, p => { p with state := .used }
  | start, p => { p with state := .runnable }
  | free, _ => ⟨.unused, none, false⟩

end Write

inductive Req
  | acquire (l : Lock)
  | release (l : Lock)
  /-- The `release(lk)` of `sleep(chan, lk)`. -/
  | releaseTo (chan : Chan) (l : Lock)
  | holding (l : Lock)
  | noff
  | myproc
  | read (i : Fin NPROC)
  | write (i : Fin NPROC) (w : Write)
  /-- `c->proc = p`. -/
  | setCpu (p : Option (Fin NPROC))
  /-- The two halves of `swtch`: the registers are stored, the others are loaded. -/
  | save
  | load (p : Option (Fin NPROC))
  | pipe
  | setPipe (pi : Pipe)
  /-- Copy a byte of the pipe to the user. -/
  | copyout (ch : Nat)
  /-- What the model leaves open. -/
  | choose
  /-- `wakeup(chan)` returns. -/
  | woken (chan : Chan)

abbrev Req.Ans : Req → Type
  | .holding _ => Bool
  | .noff => Nat
  | .myproc => Option (Fin NPROC)
  | .read _ => Proc
  | .pipe => Pipe
  | .copyout _ => Bool
  | .choose => Nat
  | _ => Unit

inductive Panic
  | acquire | release | schedLock | schedLocks | schedRunning | initExiting | zombieExit
  /-- A field of the null process. -/
  | null
  /-- No panic: a loop has made all the rounds it was given. -/
  | rounds
  deriving DecidableEq

abbrev Code (α : Type) : Type := Eff Req Req.Ans Panic α

def acquire (l : Lock) : Code Unit := Eff.perform (Req.acquire l)
def release (l : Lock) : Code Unit := Eff.perform (Req.release l)
def releaseTo (chan : Chan) (l : Lock) : Code Unit := Eff.perform (Req.releaseTo chan l)
def holding (l : Lock) : Code Bool := Eff.perform (Req.holding l)
def noff : Code Nat := Eff.perform Req.noff
def myproc : Code (Option (Fin NPROC)) := Eff.perform Req.myproc
def read (i : Fin NPROC) : Code Proc := Eff.perform (Req.read i)
def write (i : Fin NPROC) (w : Write) : Code Unit := Eff.perform (Req.write i w)
def setCpu (p : Option (Fin NPROC)) : Code Unit := Eff.perform (Req.setCpu p)
def save : Code Unit := Eff.perform Req.save
def load (p : Option (Fin NPROC)) : Code Unit := Eff.perform (Req.load p)
def pipe : Code Pipe := Eff.perform Req.pipe
def setPipe (pi : Pipe) : Code Unit := Eff.perform (Req.setPipe pi)
def copyout (ch : Nat) : Code Bool := Eff.perform (Req.copyout ch)
def choose : Code Nat := Eff.perform Req.choose
def woken (chan : Chan) : Code Unit := Eff.perform (Req.woken chan)
def panic {α : Type} (e : Panic) : Code α := Eff.stop e

/-- A question that the model leaves open. -/
def ask : Code Bool := do return decide ((← choose) ≠ 0)

/-- The process table, in order. -/
def procs : List (Fin NPROC) := List.finRange NPROC

/-- `for(p = proc; p < &proc[NPROC]; p++)`. -/
def each (f : Fin NPROC → Code Unit) : List (Fin NPROC) → Code Unit
  | [] => pure ()
  | p :: ps => do
    f p
    each f ps

/-- The same loop, left with the first result there is. -/
def search {α : Type} (f : Fin NPROC → Code (Option α)) : List (Fin NPROC) → Code (Option α)
  | [] => pure none
  | p :: ps => do
    match ← f p with
    | some a => pure (some a)
    | none => search f ps

/-- `struct proc *p = myproc();`, in a routine that goes on to use the process. -/
def self : Code (Fin NPROC) := do
  match ← myproc with
  | some p => pure p
  | none => panic .null

/-! ### `sched`, `sleep`, `wakeup` -/

def sched (p : Fin NPROC) : Code Unit := do
  if ← holding (.proc p) then
    if (← noff) = 1 then
      if (← read p).state = .running then panic .schedRunning
      else do
        save
        load none
    else panic .schedLocks
  else panic .schedLock

def yield : Code Unit := do
  let p ← self
  acquire (.proc p)
  write p .yield
  sched p
  release (.proc p)

def sleep (chan : Chan) (lk : Lock) : Code Unit := do
  let p ← self
  acquire (.proc p)
  releaseTo chan lk
  write p (.doze chan)
  sched p
  write p .unchan
  release (.proc p)
  acquire lk

/-- One round of `wakeup`. -/
def wakeupAt (chan : Chan) (p : Fin NPROC) : Code Unit := do
  if (← myproc) = some p then pure ()
  else do
    acquire (.proc p)
    let r ← read p
    if r.state = .sleeping ∧ r.chan = some chan then do
      write p (.rouse (some chan))
      release (.proc p)
    else release (.proc p)

def wakeup (chan : Chan) : Code Unit := do
  each (wakeupAt chan) procs
  woken chan

def forkret : Code Unit := do
  let p ← self
  release (.proc p)

/-! ### The scheduler -/

/-- A look at one process: `eevdf_find_min_vruntime`, `eevdf_calc_rq_stats` and `kps` do this
for each. -/
def look (p : Fin NPROC) : Code Unit := do
  acquire (.proc p)
  let _ ← read p
  release (.proc p)

def eevdfCollectRqStats : Code Unit := do
  each look procs
  each look procs

/-- The loop of `scheduler` over the table: the lock of the best process so far is kept. -/
def scan : List (Fin NPROC) → Option (Fin NPROC) → Code (Option (Fin NPROC))
  | [], best => pure best
  | p :: ps, best => do
    acquire (.proc p)
    let r ← read p
    if r.state = .runnable then
      -- eligible?
      if ← ask then
        match best with
        | none => scan ps (some p)
        | some b =>
          -- an earlier deadline?
          if ← ask then do
            release (.proc b)
            scan ps (some p)
          else do
            release (.proc p)
            scan ps best
      else do
        release (.proc p)
        scan ps best
    else do
      release (.proc p)
      scan ps best

/-- What the scheduler does when the process has switched back. -/
def schedulerBack (best : Fin NPROC) : Code Unit := do
  setCpu none
  release (.proc best)

/-- One round of `scheduler`. -/
def scheduler : Code Unit := do
  eevdfCollectRqStats
  match ← scan procs none with
  | none => pure ()
  | some best => do
    write best .run
    setCpu (some best)
    save
    load (some best)
    schedulerBack best

/-! ### System calls -/

def killed (p : Fin NPROC) : Code Bool := do
  acquire (.proc p)
  let r ← read p
  release (.proc p)
  return r.killed

def setkilled (p : Fin NPROC) : Code Unit := do
  acquire (.proc p)
  write p .kill
  release (.proc p)

def kkill : Code (Option Unit) :=
  search (fun p => do
    acquire (.proc p)
    -- p->pid == pid?
    if ← ask then do
      write p .kill
      if (← read p).state = .sleeping then do
        write p (.rouse none)
        release (.proc p)
        pure (some ())
      else do
        release (.proc p)
        pure (some ())
    else do
      release (.proc p)
      pure none) procs

/-- The loop of `kgetnice` and `ksetnice`, and of `kps` when it is given a pid. -/
def findPid : Code (Option Unit) :=
  search (fun p => do
    acquire (.proc p)
    let r ← read p
    -- p->pid == pid?
    let same ← ask
    release (.proc p)
    if r.state ≠ .unused ∧ same then pure (some ()) else pure none) procs

def kgetnice : Code (Option Unit) := findPid

def ksetnice : Code (Option Unit) := do
  -- value < 0 || value > 39
  if ← ask then pure none else findPid

def kps : Code Unit := do
  -- pid != 0
  let found ← if ← ask then findPid else pure (some ())
  match found with
  | none => pure ()
  | some _ => do
    eevdfCollectRqStats
    each look procs

/-- A lock that is taken for a moment: in `allocpid`, and in `kalloc`, `filedup` and `idup`. -/
def brief (l : Lock) : Code Unit := do
  acquire l
  release l

def allocproc : Code (Option (Fin NPROC)) := do
  let found ← search (fun p => do
    acquire (.proc p)
    if (← read p).state = .unused then pure (some p)
    else do
      release (.proc p)
      pure none) procs
  match found with
  | none => pure none
  | some p => do
    brief .pid
    write p .create
    brief (.other 0)
    -- no memory for the trapframe or the page table?
    if ← ask then do
      write p .free
      release (.proc p)
      pure none
    else pure (some p)

def kfork : Code Unit := do
  match ← allocproc with
  | none => pure ()
  | some np => do
    brief (.other 0)
    -- does uvmcopy or mmapfork fail?
    if ← ask then do
      write np .free
      release (.proc np)
    else do
      brief (.other 1)
      release (.proc np)
      brief .wait
      acquire (.proc np)
      write np .start
      release (.proc np)

def initproc : Fin NPROC := 0

def reparent : Code Unit :=
  each (fun _ => do
    -- pp->parent == p?
    if ← ask then wakeup (.proc initproc) else pure ()) procs

/-- `kexit`, once the files are closed. -/
def kexit : Code Unit := do
  let p ← self
  if p = initproc then panic .initExiting
  else do
    acquire .wait
    reparent
    let parent ← choose
    wakeup (.proc (Fin.ofNat NPROC parent))
    acquire (.proc p)
    write p .exit
    release .wait
    sched p
    panic .zombieExit

/-- The loop of `kwait` over the table: whether there are children, or `none` if it has returned.
`copyout` is made with two locks held; it answers whether it fails. -/
def kwaitScan (copyout : Code Bool) : List (Fin NPROC) → Bool → Code (Option Bool)
  | [], havekids => pure (some havekids)
  | pp :: ps, havekids => do
    -- pp->parent == p?
    if ← ask then do
      acquire (.proc pp)
      if (← read pp).state = .zombie then
        if ← copyout then do
          release (.proc pp)
          release .wait
          pure none
        else do
          write pp .free
          release (.proc pp)
          release .wait
          pure none
      else do
        release (.proc pp)
        kwaitScan copyout ps true
    else kwaitScan copyout ps havekids

/-- The loop of `kwaitpid` over the table. -/
def kwaitpidScan : List (Fin NPROC) → Code (Option Bool)
  | [] => pure (some false)
  | pp :: ps => do
    acquire (.proc pp)
    let r ← read pp
    -- pp->pid == pid?
    let same ← ask
    if r.state ≠ .unused ∧ same then
      -- pp->parent != p?
      if ← ask then do
        release (.proc pp)
        release .wait
        pure none
      else if r.state = .zombie then do
        write pp .free
        release (.proc pp)
        release .wait
        pure none
      else do
        release (.proc pp)
        pure (some true)
    else do
      release (.proc pp)
      kwaitpidScan ps

/-- The outer loop of `kwait` and `kwaitpid`. -/
def waitLoop (body : Code (Option Bool)) (p : Fin NPROC) : Nat → Code Unit
  | 0 => panic .rounds
  | k + 1 => do
    match ← body with
    | none => pure ()
    | some found => do
      let leave ← if found then killed p else pure true
      if leave then release .wait
      else do
        sleep (.proc p) .wait
        waitLoop body p k

def kwait (copyout : Code Bool) (rounds : Nat) : Code Unit := do
  let p ← self
  acquire .wait
  waitLoop (kwaitScan copyout procs false) p rounds

def kwaitpid (rounds : Nat) : Code Unit := do
  let p ← self
  acquire .wait
  waitLoop (kwaitpidScan procs) p rounds

/-! ### Sleep locks, and the devices that use sleep and wakeup in the same way -/

def acquiresleepLoop (n m : Nat) : Nat → Code Unit
  | 0 => panic .rounds
  | k + 1 => do
    -- lk->locked?
    if ← ask then do
      sleep (.other n) (.other m)
      acquiresleepLoop n m k
    else pure ()

/-- `acquiresleep`, with the channel `n` and the lock `m`. -/
def acquiresleep (n m rounds : Nat) : Code Unit := do
  acquire (.other m)
  acquiresleepLoop n m rounds
  release (.other m)

/-- `releasesleep`, and `clockintr`, `virtio_disk_intr`, `uartintr`. -/
def releasesleep (n m : Nat) : Code Unit := do
  acquire (.other m)
  wakeup (.other n)
  release (.other m)

/-! ### Pipes -/

def pipeclose (writable : Bool) : Code Unit := do
  acquire .pipe
  let pi ← pipe
  if writable then do
    setPipe { pi with writeopen := false }
    wakeup .nread
    release .pipe
  else do
    setPipe { pi with readopen := false }
    wakeup .nwrite
    release .pipe

/-- The loop of `pipewrite`, with `n` bytes left. -/
def pipewriteLoop (pr : Fin NPROC) : Nat → Nat → Code Unit
  | 0, _ => panic .rounds
  | k + 1, n => do
    if n = 0 then do
      wakeup .nread
      release .pipe
    else do
      let pi ← pipe
      let out ← if pi.readopen then killed pr else pure true
      if out then release .pipe
      else if pi.full then do
        wakeup .nread
        sleep .nwrite .pipe
        pipewriteLoop pr k n
      -- does copyin fail?
      else if ← ask then do
        wakeup .nread
        release .pipe
      else do
        let ch ← choose
        setPipe (pi.put (ch % 256))
        pipewriteLoop pr k (n - 1)

def pipewrite (n rounds : Nat) : Code Unit := do
  let pr ← self
  acquire .pipe
  pipewriteLoop pr rounds n

/-- The second loop of `piperead`, with `n` bytes to go. -/
def pipereadCopy : Nat → Code Unit
  | 0 => pure ()
  | n + 1 => do
    let pi ← pipe
    if pi.empty then pure ()
    else if ← copyout pi.next then do
      let pi ← pipe
      setPipe { pi with nread := (pi.nread + 1) % 2 ^ 32 }
      pipereadCopy n
    else pure ()

/-- The first loop of `piperead`; whether it goes on to the second. -/
def pipereadWait (pr : Fin NPROC) : Nat → Code Bool
  | 0 => panic .rounds
  | k + 1 => do
    let pi ← pipe
    if pi.empty && pi.writeopen then
      if ← killed pr then do
        release .pipe
        pure false
      else do
        sleep .nread .pipe
        pipereadWait pr k
    else pure true

def piperead (n rounds : Nat) : Code Unit := do
  let pr ← self
  acquire .pipe
  if ← pipereadWait pr rounds then do
    pipereadCopy n
    wakeup .nwrite
    release .pipe
  else pure ()

/-! ## The machine -/

variable {C : Type} [DecidableEq C]

structure Sys (C : Type) where
  owner : Lock → Option C
  /-- `c->noff`. -/
  noff : C → Nat
  proc : Fin NPROC → Proc
  /-- `c->proc`. -/
  cproc : C → Option (Fin NPROC)
  /-- The process whose kernel thread the CPU executes; `none` is the scheduler. -/
  on : C → Option (Fin NPROC)
  /-- Whether `p->context` is what the thread will go on with. -/
  saved : Fin NPROC → Bool
  /-- What the scheduler of a CPU has left to do in its round. -/
  sched : C → Code Unit
  /-- What a process has left to do in the kernel. -/
  thread : Fin NPROC → Code Unit
  pipe : Pipe
  /-- The `sleep(chan, lk)` in which a process has released `lk` and has not been made
  `RUNNABLE` since. -/
  nap : Fin NPROC → Option (Chan × Lock)

/-- What a process does in the kernel.  The status of `wait` goes to memory that is there, or that
`copyout` makes without a file. -/
inductive Op
  | yield | kill | getnice | setnice | ps | fork | exit
  | setkilled
  | wait (rounds : Nat)
  | waitpid (rounds : Nat)
  | acquiresleep (n m rounds : Nat)
  | releasesleep (n m : Nat)
  | piperead (n rounds : Nat)
  | pipewrite (n rounds : Nat)
  | pipeclose (writable : Bool)

def Op.code : Op → Code Unit
  | yield => Smp.yield
  | kill => do let _ ← kkill
  | getnice => do let _ ← kgetnice
  | setnice => do let _ ← ksetnice
  | ps => kps
  | fork => kfork
  | exit => kexit
  | setkilled => do
    let p ← self
    Smp.setkilled p
  | wait rounds => kwait ask rounds
  | waitpid rounds => kwaitpid rounds
  | acquiresleep n m rounds => Smp.acquiresleep n m rounds
  | releasesleep n m => Smp.releasesleep n m
  | piperead n rounds => Smp.piperead n rounds
  | pipewrite n rounds => Smp.pipewrite n rounds
  | pipeclose writable => Smp.pipeclose writable

/-- The handler of an interrupt. -/
inductive Intr
  | timer
  | device (n m : Nat)

def Intr.code : Intr → Code Unit
  | timer => do
    -- kerneltrap: myproc() != 0, and the slice is used up
    match ← myproc with
    | none => pure ()
    | some _ => if ← ask then Smp.yield else pure ()
  | device n m => Smp.releasesleep n m

inductive Act (C : Type)
  /-- The CPU carries out the next request; the number answers what is left open. -/
  | run (c : C) (n : Nat)
  /-- The current process enters the kernel. -/
  | call (c : C) (op : Op)
  /-- An interrupt, when the CPU holds no lock. -/
  | intr (c : C) (h : Intr)
  /-- The scheduler begins another round. -/
  | again (c : C)

inductive Halt
  | panic (e : Panic)
  /-- The lock is taken. -/
  | blocked
  /-- The CPU cannot do this now. -/
  | idle
  deriving DecidableEq

namespace Sys

/-- What the CPU has left to do. -/
def code (s : Sys C) (c : C) : Code Unit :=
  match s.on c with
  | none => s.sched c
  | some i => s.thread i

/-- Set the rest of the scheduler of a CPU, or of a thread. -/
def setCode (s : Sys C) (c : C) (x : Option (Fin NPROC)) (k : Code Unit) : Sys C :=
  match x with
  | none => { s with sched := upd s.sched c k }
  | some i => { s with thread := upd s.thread i k }

/-- A process is written to. -/
def put (s : Sys C) (i : Fin NPROC) (w : Write) : Sys C :=
  let t := { s with proc := upd s.proc i (w.proc (s.proc i)) }
  match w with
  | .rouse _ => { t with nap := upd s.nap i none }
  | .create => { t with thread := upd s.thread i forkret }
  | _ => t

def free (s : Sys C) (c : C) (l : Lock) : Sys C :=
  { s with owner := upd s.owner l none, noff := upd s.noff c (s.noff c - 1) }

/-- One request of the CPU. -/
def perform (s : Sys C) (c : C) (n : Nat) : (q : Req) → Except Halt (q.Ans × Sys C)
  | .acquire l =>
    match s.owner l with
    | none =>
      .ok ((), { s with owner := upd s.owner l (some c), noff := upd s.noff c (s.noff c + 1) })
    | some d => .error (if d = c then .panic .acquire else .blocked)
  | .release l => if s.owner l = some c then .ok ((), s.free c l) else .error (.panic .release)
  | .releaseTo chan l =>
    if s.owner l = some c then
      match s.on c with
      | some i => .ok ((), { s.free c l with nap := upd s.nap i (some (chan, l)) })
      | none => .error (.panic .null)
    else .error (.panic .release)
  | .holding l => .ok (decide (s.owner l = some c), s)
  | .noff => .ok (s.noff c, s)
  | .myproc => .ok (s.cproc c, s)
  | .read i => .ok (s.proc i, s)
  | .write i w => .ok ((), s.put i w)
  | .setCpu p => .ok ((), { s with cproc := upd s.cproc c p })
  | .save =>
    match s.on c with
    | some i => .ok ((), { s with saved := upd s.saved i true })
    | none => .ok ((), s)
  | .load none => .ok ((), { s with on := upd s.on c none })
  | .load (some i) =>
    .ok ((), { s with on := upd s.on c (some i), saved := upd s.saved i false })
  | .pipe => .ok (s.pipe, s)
  | .setPipe pi => .ok ((), { s with pipe := pi })
  | .copyout ch =>
    .ok (if n = 0 then (true, { s with pipe := { s.pipe with got := s.pipe.got ++ [ch] } })
      else (false, s))
  | .choose => .ok (n, s)
  | .woken _ => .ok ((), s)

end Sys

def step (s : Sys C) : Act C → Except Halt (Sys C)
  | .run c n =>
    match s.code c with
    | .ret _ => .error .idle
    | .stop e => .error (.panic e)
    | .ask q k => do
      let (a, t) ← s.perform c n q
      return t.setCode c (s.on c) (k a)
  | .call c op =>
    match s.on c, s.code c with
    | some i, .ret _ => .ok (s.setCode c (some i) op.code)
    | _, _ => .error .idle
  | .intr c h =>
    if s.noff c = 0 then .ok (s.setCode c (s.on c) (do h.code; s.code c)) else .error .idle
  | .again c =>
    match s.on c, s.code c with
    | none, .ret _ => .ok (s.setCode c none scheduler)
    | _, _ => .error .idle

/-- A state to start from: each CPU runs a process that is not in the kernel, or none; the other
processes have just been created, or there are none.  The pipe has not been used. -/
def start (cur : C → Option (Fin NPROC)) (home : Fin NPROC → Option C)
    (ready : Fin NPROC → Bool) : Sys C where
  owner _ := none
  noff _ := 0
  proc i :=
    ⟨if (home i).isSome then .running else if ready i then .runnable else .unused, none, false⟩
  cproc := cur
  on := cur
  saved i := (home i).isNone
  sched c := match cur c with
    | none => pure ()
    | some i => schedulerBack i
  thread i := if (home i).isSome then pure () else forkret
  pipe := ⟨fun _ => 0, 0, 0, true, true, [], []⟩
  nap _ := none

end Xv6.Smp
