import Xv6.Param
import Xv6.Lib.Effect
import Xv6.Lib.Upd

/-!
# Page faults inside the kernel

`copyin`, `copyout` and `copyinstr` (kernel/vm.c) call `vmfault` for a page of the user's
buffer that is not resident.  In a mapping of a file `mmap_map_page` then locks the inode of
that file with `ilock`, under whatever locks the system call holds at the time.

The caller's memory is seen page by page here: the state of each page, the areas mapped by
the process in the order of `mmaptable`, and for each page whether a frame and the page
tables for it can be had.  `touch` is one round of the copy loops.  The system calls that
copy are programs of lock and copy requests; what depends on others (the bytes in a pipe, the
keys typed, the blocks left on the disk) is in their arguments.
-/

namespace Xv6.Fault

open Xv6.Lib

/-! ## The caller's memory -/

/-- Where the bytes of an area come from. -/
inductive Backing
  | anonymous
  | inode (ip : Nat)
  /-- No file, or one that is not `FD_INODE`. -/
  | missing
  deriving DecidableEq

structure Area where
  addr : Nat
  length : Nat
  write : Bool
  backing : Backing
  deriving DecidableEq

def Area.Covers (a : Area) (va : Nat) : Prop :=
  a.addr ≤ va ∧ va < (a.addr + a.length) % 2 ^ 64

instance (a : Area) (va : Nat) : Decidable (a.Covers va) := inferInstanceAs (Decidable (_ ∧ _))

inductive Page
  | unmapped
  /-- Valid without `PTE_U`, such as the guard page of the stack. -/
  | kernel
  | user (write : Bool)
  deriving DecidableEq

structure Space where
  area : List Area
  sz : Nat
  page : Nat → Page
  /-- `kalloc` finds a frame for the page. -/
  frame : Nat → Bool
  /-- `walk` finds the frames of the page tables that lead to the page. -/
  tables : Nat → Bool

inductive Result
  | ok
  | fail
  | panic
  deriving DecidableEq

/-- What one round did: the inode that was locked, if any. -/
structure Touch where
  ilock : Option Nat
  result : Result
  space : Space

namespace Space

/-- `mmap_lookup`. -/
def mmapLookup (m : Space) (va : Nat) : Option Area := m.area.find? fun a => a.Covers va

/-- `walkaddr`: the page is the user's, and whether it may be written. -/
def walkaddr (m : Space) (pg : Nat) : Option Bool :=
  if MAXVA ≤ pg * PGSIZE then none
  else
    match m.page pg with
    | .user w => some w
    | _ => none

/-- `mappages` for one page, once its frame is filled. -/
def mappages (m : Space) (pg : Nat) (write : Bool) (ilock : Option Nat) : Touch :=
  if m.tables pg then ⟨ilock, .ok, { m with page := upd m.page pg (.user write) }⟩
  else ⟨ilock, .fail, m⟩

def mmapMapPage (m : Space) (a : Area) (pg : Nat) : Touch :=
  if !a.Covers (pg * PGSIZE) then ⟨none, .fail, m⟩
  else if MAXVA ≤ pg * PGSIZE then ⟨none, .panic, m⟩
  else if m.page pg ≠ .unmapped then ⟨none, .fail, m⟩
  else if !m.frame pg then ⟨none, .fail, m⟩
  else
    match a.backing with
    | .anonymous => m.mappages pg a.write none
    | .inode ip => m.mappages pg a.write (some ip)
    | .missing => ⟨none, .fail, m⟩

def vmfault (m : Space) (pg : Nat) (read : Bool) : Touch :=
  match m.mmapLookup (pg * PGSIZE) with
  | some a =>
    if !read && !a.write then ⟨none, .fail, m⟩
    -- `ismapped` walks, and `walk` panics beyond `MAXVA`
    else if MAXVA ≤ pg * PGSIZE then ⟨none, .panic, m⟩
    else if m.page pg ≠ .unmapped then ⟨none, .fail, m⟩
    else m.mmapMapPage a pg
  | none =>
    if MMAPBASE ≤ pg * PGSIZE then ⟨none, .fail, m⟩
    else if m.sz ≤ pg * PGSIZE then ⟨none, .fail, m⟩
    else if m.page pg ≠ .unmapped then ⟨none, .fail, m⟩
    else if !m.frame pg then ⟨none, .fail, m⟩
    else m.mappages pg true none

/-- The page once `walkaddr` has found it: `copyout` forbids pages without `PTE_W`. -/
def found (t : Touch) (write w : Bool) : Touch :=
  if write && !w then { t with result := .fail } else t

/-- One round of `copyout` (`write`), `copyin` or `copyinstr`. -/
def touch (m : Space) (write : Bool) (pg : Nat) : Touch :=
  if write && MAXVA ≤ pg * PGSIZE then ⟨none, .fail, m⟩
  else
    match m.walkaddr pg with
    | some w => found ⟨none, .ok, m⟩ write w
    | none =>
      let t := m.vmfault pg (!write)
      match t.result, t.space.walkaddr pg with
      | .ok, some w => found t write w
      | .ok, none => { t with result := .fail }
      | _, _ => t

end Space

/-- What a whole copy did, with the inodes that were locked. -/
structure Copy where
  ilocks : List Nat
  result : Result
  space : Space

/-- The loop of `copyout`, `copyin` and `copyinstr` over the pages of `len` bytes. -/
def Space.copy (write : Bool) : Nat → Space → Nat → Nat → Copy
  | 0, m, _, _ => ⟨[], .ok, m⟩
  | fuel + 1, m, va, len =>
    if len = 0 then ⟨[], .ok, m⟩
    else
      let t := m.touch write (va / PGSIZE)
      match t.result with
      | .ok =>
        let n := min (PGSIZE - va % PGSIZE) len
        let c := Space.copy write fuel t.space ((va / PGSIZE + 1) * PGSIZE) (len - n)
        { c with ilocks := t.ilock.toList ++ c.ilocks }
      | r => ⟨t.ilock.toList, r, t.space⟩

/-! ## Locks -/

inductive Spin
  | pipe (pi : Nat)
  | cons
  | waitLock
  | proc (i : Nat)
  deriving DecidableEq

/-- The spinlocks a process holds, and the inodes whose sleep lock it holds. -/
structure Locks where
  spin : List Spin
  inode : List Nat
  deriving DecidableEq

/-- The process may sleep, and `ilock` of `ip` does not wait for the process itself. -/
def Locks.Allows (L : Locks) (ip : Nat) : Prop := L.spin = [] ∧ ip ∉ L.inode

instance (L : Locks) (ip : Nat) : Decidable (L.Allows ip) :=
  inferInstanceAs (Decidable (_ ∧ _))

inductive Req
  | acquire (l : Spin)
  | release (l : Spin)
  | ilock (ip : Nat)
  | iunlock (ip : Nat)
  | copy (write : Bool) (va len : Nat)
  /-- `exec` goes on with the page table it builds. -/
  | pagetable (m : Space)

abbrev Req.Ans : Req → Type
  | .copy _ _ _ => Bool
  | _ => Unit

abbrev Code := Eff Req Req.Ans Empty

/-- The locks and the memory of the process answer its requests.  A copy is met if each inode
it locks may be locked then; a panic in it is not answered. -/
def locking : Service Req Req.Ans (Locks × Space) where
  ok s q :=
    match q with
    | .copy write va len => ∀ ip ∈ (Space.copy write len s.2 va len).ilocks, s.1.Allows ip
    | _ => True
  gives s q a t :=
    match q, a with
    | .acquire l, _ => t = ({ s.1 with spin := l :: s.1.spin }, s.2)
    | .release l, _ => t = ({ s.1 with spin := s.1.spin.erase l }, s.2)
    | .ilock ip, _ => t = ({ s.1 with inode := ip :: s.1.inode }, s.2)
    | .iunlock ip, _ => t = ({ s.1 with inode := s.1.inode.erase ip }, s.2)
    | .copy write va len, a =>
      t = (s.1, (Space.copy write len s.2 va len).space) ∧
        (Space.copy write len s.2 va len).result = if a then .ok else .fail
    | .pagetable m, _ => t = (s.1, m)

def request (q : Req) : Code q.Ans := Eff.perform q

def acquire (l : Spin) : Code Unit := request (.acquire l)

def release (l : Spin) : Code Unit := request (.release l)

def ilock (ip : Nat) : Code Unit := request (.ilock ip)

def iunlock (ip : Nat) : Code Unit := request (.iunlock ip)

def copyout (va len : Nat) : Code Bool := request (.copy true va len)

def copyin (va len : Nat) : Code Bool := request (.copy false va len)

/-- `copyinstr` goes up to the end of the string. -/
def copyinstr (va len : Nat) : Code Bool := request (.copy false va len)

/-- `sleep` gives up the lock while it waits. -/
def sleep (l : Spin) : Code Unit := do
  release l
  acquire l

def sleeps (l : Spin) : Nat → Code Unit
  | 0 => pure ()
  | n + 1 => do
    sleep l
    sleeps l n

/-! ## Pipes -/

/-- What a round of the loop of `pipewrite` finds. -/
inductive Round
  /-- No reader, or the writer was killed. -/
  | gone
  | full
  | room
  deriving DecidableEq

def pipewriteLoop (pi addr n : Nat) : List Round → Nat → Code Int
  | [], i => pure i
  | r :: rs, i =>
    if i < n then
      match r with
      | .gone => do
        release (.pipe pi)
        pure (-1)
      | .full => do
        sleep (.pipe pi)
        pipewriteLoop pi addr n rs i
      | .room => do
        let ok ← copyin (addr + i) 1
        if ok then pipewriteLoop pi addr n rs (i + 1)
        else do
          release (.pipe pi)
          pure i
    else do
      release (.pipe pi)
      pure i

def pipewrite (pi addr : Nat) (n : Int) (rs : List Round) : Code Int := do
  acquire (.pipe pi)
  pipewriteLoop pi addr n.toNat rs 0

def pipereadLoop (addr : Nat) : Nat → Nat → Code Int
  | 0, i => pure i
  | k + 1, i => do
    let ok ← copyout (addr + i) 1
    if ok then pipereadLoop addr k (i + 1)
    else if i = 0 then pure (-1)
    else pure i

/-- `piperead` after `waits` rounds of sleep, with `avail` bytes in the pipe. -/
def piperead (pi addr : Nat) (n : Int) (waits : Nat) (killed : Bool) (avail : Nat) :
    Code Int := do
  acquire (.pipe pi)
  sleeps (.pipe pi) waits
  if killed then do
    release (.pipe pi)
    pure (-1)
  else do
    let i ← pipereadLoop addr (min n.toNat avail) 0
    release (.pipe pi)
    pure i

/-! ## The console -/

/-- What a round of the loop of `consoleread` finds in `cons.buf`. -/
inductive Key
  | wait
  | killed
  | char (c : Nat)
  deriving DecidableEq

/-- `C('D')`. -/
abbrev EOF : Nat := 4

abbrev NEWLINE : Nat := 10

def consolereadLoop (dst target : Nat) : List Key → Nat → Code Int
  | [], i => pure i
  | key :: keys, i =>
    if i < target then
      match key with
      | .wait => do
        sleep .cons
        consolereadLoop dst target keys i
      | .killed => do
        release .cons
        pure (-1)
      | .char c =>
        if c = EOF then do
          release .cons
          pure i
        else do
          let ok ← copyout (dst + i) 1
          if ok then
            if c = NEWLINE then do
              release .cons
              pure (i + 1 : Nat)
            else consolereadLoop dst target keys (i + 1)
          else do
            release .cons
            pure i
    else do
      release .cons
      pure i

def consoleread (dst : Nat) (n : Int) (keys : List Key) : Code Int := do
  acquire .cons
  consolereadLoop dst n.toNat keys 0

/-- The loop of `consolewrite`, in batches of 32 bytes. -/
def consolewriteLoop (src n : Nat) : Nat → Nat → Code Int
  | 0, i => pure i
  | fuel + 1, i =>
    if i < n then do
      let ok ← copyin (src + i) (min 32 (n - i))
      if ok then consolewriteLoop src n fuel (i + min 32 (n - i))
      else pure i
    else pure i

def consolewrite (src : Nat) (n : Int) : Code Int := consolewriteLoop src n.toNat n.toNat 0

/-! ## Files -/

/-- `MAXFILE * BSIZE`. -/
abbrev MAXBYTES : Nat := MAXFILE * BSIZE

/-- The loops of `readi` and `writei` over the blocks of a file, from `tot` bytes on: false
if a copy failed, and the bytes done.  `hole` are the blocks that `bmap` cannot find. -/
def blocks (write : Bool) (hole : Nat → Bool) (addr off n : Nat) : Nat → Nat → Code (Bool × Nat)
  | 0, tot => pure (true, tot)
  | fuel + 1, tot =>
    if tot < n then
      if hole ((off + tot) / BSIZE) then pure (true, tot)
      else do
        let k := min (n - tot) (BSIZE - (off + tot) % BSIZE)
        let ok ← request (.copy write (addr + tot) k)
        if ok then blocks write hole addr off n fuel (tot + k)
        else pure (false, tot)
    else pure (true, tot)

/-- The bytes `readi` tries to copy; `off` and `n` are 32-bit. -/
def readiLen (size off n : Nat) : Nat :=
  if size < off ∨ (off + n) % 2 ^ 32 < off then 0
  else if size < (off + n) % 2 ^ 32 then size - off
  else n

def readi (hole : Nat → Bool) (size addr off n : Nat) : Code Int := do
  let (ok, tot) ← blocks true hole addr off (readiLen size off n) (readiLen size off n) 0
  pure (if ok then tot else -1)

def fileread (ip : Nat) (hole : Nat → Bool) (size addr off n : Nat) : Code Int := do
  ilock ip
  let r ← readi hole size addr off n
  iunlock ip
  pure r

def writei (hole : Nat → Bool) (size addr off n : Nat) : Code Int :=
  if size < off ∨ (off + n) % 2 ^ 32 < off then pure (-1)
  else if MAXBYTES < (off + n) % 2 ^ 32 then pure (-1)
  else do
    let (_, tot) ← blocks false hole addr off n n 0
    pure tot

/-- `((MAXOPBLOCKS-1-1-2) / 2) * BSIZE`, the bytes `filewrite` writes in one transaction. -/
abbrev CHUNK : Nat := (10 - 1 - 1 - 2) / 2 * BSIZE

/-- The loop of `filewrite`, with `i` bytes written of a file of `size` bytes. -/
def filewriteLoop (ip : Nat) (hole : Nat → Bool) (addr off n : Nat) :
    Nat → Nat → Nat → Code Int
  | 0, _, i => pure i
  | fuel + 1, size, i =>
    if i < n then do
      ilock ip
      let r ← writei hole size (addr + i) (off + i) (min CHUNK (n - i))
      iunlock ip
      if r = (min CHUNK (n - i) : Nat) then
        filewriteLoop ip hole addr off n fuel (max size (off + i + min CHUNK (n - i)))
          (i + min CHUNK (n - i))
      else pure (-1)
    else pure n

def filewrite (ip : Nat) (hole : Nat → Bool) (size addr off : Nat) (n : Int) : Code Int :=
  filewriteLoop ip hole addr off n.toNat n.toNat size 0

/-- `sizeof(struct stat)`. -/
abbrev STATSIZE : Nat := 24

def filestat (ip addr : Nat) : Code Int := do
  ilock ip
  iunlock ip
  let ok ← copyout addr STATSIZE
  pure (if ok then 0 else -1)

/-! ## Processes and arguments -/

/-- The children `kwait` looks at before it finds a zombie. -/
def scan : List Nat → Code Unit
  | [] => pure ()
  | i :: is => do
    acquire (.proc i)
    release (.proc i)
    scan is

/-- The exit status goes to `addr`, unless it is null. -/
def copyStatus (addr : Nat) : Code Bool := if addr = 0 then pure true else copyout addr 4

/-- `kwait` after `waits` rounds of sleep; `zombie` is the child it finds then. -/
def kwait (addr waits : Nat) (others : List Nat) (zombie : Option Nat) : Code Int := do
  acquire .waitLock
  sleeps .waitLock waits
  scan others
  match zombie with
  | none => do
    release .waitLock
    pure (-1)
  | some i => do
    acquire (.proc i)
    let ok ← copyStatus addr
    release (.proc i)
    release .waitLock
    pure (if ok then i else -1)

def sysPipe (fdarray : Nat) : Code Int := do
  let ok ← copyout fdarray 4
  if ok then do
    let ok ← copyout (fdarray + 4) 4
    pure (if ok then 0 else -1)
  else pure (-1)

/-- `argstr`, whose string ends after `len` bytes. -/
def argstr (addr len : Nat) : Code Int := do
  let ok ← copyinstr addr len
  pure (if ok then len else -1)

/-- The loop of `sys_exec` over the words of `uargv`, each with its string. -/
def fetchArgs (uargv : Nat) : List (Nat × Nat) → Nat → Code Bool
  | [], i => copyin (uargv + 8 * i) 8
  | (uarg, len) :: args, i => do
    let ok ← copyin (uargv + 8 * i) 8
    if ok then do
      let ok ← copyinstr uarg len
      if ok then fetchArgs uargv args (i + 1) else pure false
    else pure false

/-- The copies of `kexec` onto the stack of the new program. -/
def pushArgs : List (Nat × Nat) → Code Bool
  | [] => pure true
  | (sp, len) :: rest => do
    let ok ← copyout sp len
    if ok then pushArgs rest else pure false

/-- `sys_exec`: `ip` is the program, and `m` the page table that is built for it. -/
def sysExec (path len uargv : Nat) (args : List (Nat × Nat)) (ip : Nat) (m : Space)
    (stack : List (Nat × Nat)) : Code Int := do
  let ok ← copyinstr path len
  if ok then do
    let ok ← fetchArgs uargv args 0
    if ok then do
      ilock ip
      iunlock ip
      request (.pagetable m)
      let ok ← pushArgs stack
      pure (if ok then 0 else -1)
    else pure (-1)
  else pure (-1)

/-- The system calls that copy from or to the user, with what they find. -/
inductive Call
  | pipewrite (pi addr : Nat) (n : Int) (rs : List Round)
  | piperead (pi addr : Nat) (n : Int) (waits : Nat) (killed : Bool) (avail : Nat)
  | consoleread (dst : Nat) (n : Int) (keys : List Key)
  | consolewrite (src : Nat) (n : Int)
  | fileread (ip : Nat) (hole : Nat → Bool) (size addr off n : Nat)
  | filewrite (ip : Nat) (hole : Nat → Bool) (size addr off : Nat) (n : Int)
  | filestat (ip addr : Nat)
  | wait (addr waits : Nat) (others : List Nat) (zombie : Option Nat)
  | pipe (fdarray : Nat)
  /-- `open`, `mknod`, `mkdir`, `chdir`, `unlink`, and `link` for each of its paths. -/
  | path (addr len : Nat)
  | exec (path len uargv : Nat) (args : List (Nat × Nat)) (ip : Nat) (m : Space)
      (stack : List (Nat × Nat))

def Call.code : Call → Code Int
  | pipewrite pi addr n rs => Fault.pipewrite pi addr n rs
  | piperead pi addr n waits killed avail => Fault.piperead pi addr n waits killed avail
  | consoleread dst n keys => Fault.consoleread dst n keys
  | consolewrite src n => Fault.consolewrite src n
  | fileread ip hole size addr off n => Fault.fileread ip hole size addr off n
  | filewrite ip hole size addr off n => Fault.filewrite ip hole size addr off n
  | filestat ip addr => Fault.filestat ip addr
  | wait addr waits others zombie => kwait addr waits others zombie
  | pipe fdarray => sysPipe fdarray
  | path addr len => argstr addr len
  | exec name len uargv args ip m stack => sysExec name len uargv args ip m stack

/-- Each inode that a page fault locks during the call may be locked then. -/
def LockSafe (c : Call) (m : Space) : Prop :=
  c.code.Uses locking (⟨[], []⟩, m) (fun _ _ => True) fun _ => True

end Xv6.Fault
