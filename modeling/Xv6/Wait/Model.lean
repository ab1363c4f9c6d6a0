import Xv6.Kernel
import Xv6.Lib.Run

/-!
# Exit and wait, lock region by lock region

`kfork`, `kexit`, `kwait`, `kwaitpid`, `kkill`, `sleep` and `wakeup` of `kernel/proc.c`
as they interleave: a step of a process is one region between acquiring and releasing
a process lock, and `wait_lock` is held across several of them.  `Pc` says where the
kernel thread of a process stands; every loop over the table (`allocproc`, `reparent`,
`wakeup`, the scans of the two waits, `kkill`) takes one step for each slot it visits.

What the functions do with memory is left to the environment here: `ok` is whether the
allocations of `kfork`, or the `copyout` of the status, succeed.  Any runnable process
may be dispatched, on any number of CPUs.
-/

namespace Xv6.Wait

open Xv6.Lib

/-! ### Where a process stands -/

/-- What a waiting process waits for: any child, with the address for its status, or
the child with a given pid. -/
inductive Target
  | any (addr : Nat)
  | pid (n : Int)
  deriving DecidableEq

/-- The next region of the kernel thread of a process. -/
inductive Pc
  /-- Outside the calls of this model. -/
  | user
  /-- `allocproc` in `kfork`, before it looks at slot `k`. -/
  | alloc (k : Nat)
  /-- `kfork`, before it sets `np->parent`. -/
  | adopt (np : Fin NPROC)
  /-- `kfork`, before it makes `np` runnable. -/
  | launch (np : Fin NPROC)
  /-- `kexit`, before it acquires `wait_lock`. -/
  | exiting (status : Int)
  /-- `reparent`, before it looks at slot `k`. -/
  | reparent (status : Int) (k : Nat)
  /-- `wakeup(initproc)` for slot `k` in `reparent`, before it looks at slot `q`. -/
  | wakeInit (status : Int) (k q : Nat)
  /-- `wakeup(p->parent)` in `kexit`, before it looks at slot `q`. -/
  | wakeParent (status : Int) (q : Nat)
  /-- `kexit`, before it becomes a zombie. -/
  | dying (status : Int)
  /-- A wait, before it acquires `wait_lock`. -/
  | enter (w : Target)
  /-- The scan of a wait, before it looks at slot `k`. -/
  | scan (w : Target) (k : Nat) (havekids : Bool)
  /-- A wait, before `killed(p)`. -/
  | check (w : Target)
  /-- A wait, before `sleep(p, &wait_lock)`. -/
  | rest (w : Target)
  /-- A wait, inside `sleep`. -/
  | asleep (w : Target)
  /-- `kkill`, before it looks at slot `k`. -/
  | kill (pid : Int) (k : Nat)
  /-- Inside a `sleep` on another channel. -/
  | slept
  /-- A `wakeup` of another channel, before it looks at slot `q`. -/
  | wake (chan : Nat) (q : Nat)
  deriving DecidableEq

/-- Whether `wait_lock` is held there. -/
def Pc.holds : Pc → Bool
  | .reparent .. | .wakeInit .. | .wakeParent .. | .dying _ | .scan .. | .check _ | .rest _ => true
  | _ => false

/-- A call a process makes. -/
inductive Call
  | fork
  | exit (status : Int)
  | wait (addr : Nat)
  | waitpid (pid : Int)
  | kill (pid : Int)
  | sleep (chan : Nat)
  | wakeup (chan : Nat)

/-! ### The system -/

/-- The process table, where each process stands, who holds `wait_lock`. -/
structure Sys where
  proc : ProcTable
  pc : Fin NPROC → Pc
  waitLock : Option (Fin NPROC)
  nextpid : Int
  initproc : Fin NPROC

/-- What a step reports: a call that returned, a process that became a zombie, a child
that was freed by its parent. -/
inductive Event
  | returned (i : Fin NPROC) (ret : Int)
  | forked (i np : Fin NPROC) (pid : Int)
  | exited (i : Fin NPROC) (pid status : Int)
  | reaped (i child : Fin NPROC) (pid status : Int)

/-- Why a step does not happen. -/
inductive Halt
  /-- Nobody runs this process, or it has no call to go on with. -/
  | idle
  /-- `wait_lock` is taken, or an interrupt is held back by it. -/
  | blocked
  /-- `nextpid` would overflow, which C leaves undefined. -/
  | overflow
  | panic (p : Panic)

inductive Act
  | dispatch (i : Fin NPROC)
  | yield (i : Fin NPROC)
  | call (i : Fin NPROC) (c : Call)
  | go (i : Fin NPROC) (ok : Bool)
  /-- An interrupt handler's `wakeup(chan)` looks at slot `q`. -/
  | handler (q : Fin NPROC) (chan : Nat)

abbrev Outcome : Type := Except Halt (Sys × Option Event)

def Sys.setProc (s : Sys) (i : Fin NPROC) (p : Proc) : Sys :=
  { s with proc := upd s.proc i p }

def Sys.setPc (s : Sys) (i : Fin NPROC) (c : Pc) : Sys :=
  { s with pc := upd s.pc i c }

def Sys.unlock (s : Sys) : Sys := { s with waitLock := none }

def Sys.lock (s : Sys) (i : Fin NPROC) : Sys := { s with waitLock := some i }

/-- Go on at `c`. -/
def next (s : Sys) (i : Fin NPROC) (c : Pc) : Outcome := .ok (s.setPc i c, none)

/-- Return from the call. -/
def ret (s : Sys) (i : Fin NPROC) (x : Int) : Outcome :=
  .ok (s.setPc i .user, some (.returned i x))

/-- Acquire `wait_lock` and go on at `c`. -/
def acquire (s : Sys) (i : Fin NPROC) (c : Pc) : Outcome :=
  if s.waitLock = none then next (s.lock i) i c else .error .blocked

/-- `wakeup` looks at slot `q`. -/
def visitWake (s : Sys) (i : Fin NPROC) (chan : Nat) (q : Fin NPROC) : Sys :=
  if q = i then s else s.setProc q (wakeSlot chan (s.proc q))

/-- The channel `p->parent`. -/
def parentChan (p : Proc) : Nat :=
  match p.parent with
  | none => 0
  | some k => procChan k

/-! ### Regions -/

/-- The slot `kfork` has filled once it releases `np->lock`. -/
def forkSlot (p q : Proc) : Proc :=
  { eevdfRefreshDeadline
      { q with
        sz := p.sz, nice := p.nice, weight := niceToWeight p.nice, runtime := 0
        vruntime := p.vruntime, remainSlice := BASE_SLICE }
    with ofile := p.ofile, name := p.name }

/-- The region of `kfork` on the slot `np` that `allocproc` has found. -/
def allocSlot (s : Sys) (i np : Fin NPROC) (ok : Bool) : Outcome :=
  if s.nextpid = 2 ^ 31 - 1 then .error .overflow
  else
    let q := initSlot (s.proc np) s.nextpid
    let s := { s with nextpid := s.nextpid + 1 }
    if ok then next (s.setProc np (forkSlot (s.proc i) q)) i (.adopt np)
    else ret (s.setProc np (clearSlot q)) i (-1)

/-- `freeproc(pp)` by a waiting parent, which then returns. -/
def reap (s : Sys) (i pp : Fin NPROC) : Outcome :=
  .ok (((s.setProc pp (clearSlot (s.proc pp))).unlock).setPc i .user,
    some (.reaped i pp (s.proc pp).pid (s.proc pp).xstate))

/-- The scan of `kwait` at the slot `pp`. -/
def scanAny (s : Sys) (i pp : Fin NPROC) (addr k : Nat) (havekids ok : Bool) : Outcome :=
  if (s.proc pp).parent = some i then
    if (s.proc pp).state = .zombie then
      if addr ≠ 0 ∧ ok = false then ret s.unlock i (-1) else reap s i pp
    else next s i (.scan (.any addr) (k + 1) true)
  else next s i (.scan (.any addr) (k + 1) havekids)

/-- The scan of `kwaitpid` at the slot `pp`. -/
def scanPid (s : Sys) (i pp : Fin NPROC) (n : Int) (k : Nat) (found : Bool) : Outcome :=
  if (s.proc pp).state ≠ .unused ∧ (s.proc pp).pid = n then
    if (s.proc pp).parent ≠ some i then ret s.unlock i (-1)
    else if (s.proc pp).state = .zombie then reap s i pp
    else next s i (.check (.pid n))
  else next s i (.scan (.pid n) (k + 1) found)

/-- The next region of the running process `i`. -/
def go (s : Sys) (i : Fin NPROC) (ok : Bool) : Outcome :=
  match s.pc i with
  | .user => .error .idle
  | .alloc k =>
    if h : k < NPROC then
      if (s.proc ⟨k, h⟩).state = .unused then allocSlot s i ⟨k, h⟩ ok
      else next s i (.alloc (k + 1))
    else ret s i (-1)
  | .adopt np =>
    if s.waitLock = none then
      next (s.setProc np { s.proc np with parent := some i }) i (.launch np)
    else .error .blocked
  | .launch np =>
    .ok ((s.setProc np { s.proc np with state := .runnable }).setPc i .user,
      some (.forked i np (s.proc np).pid))
  | .exiting status => acquire s i (.reparent status 0)
  | .reparent status k =>
    if h : k < NPROC then
      if (s.proc ⟨k, h⟩).parent = some i then
        next (s.setProc ⟨k, h⟩ { s.proc ⟨k, h⟩ with parent := some s.initproc }) i
          (.wakeInit status k 0)
      else next s i (.reparent status (k + 1))
    else next s i (.wakeParent status 0)
  | .wakeInit status k q =>
    if h : q < NPROC then
      next (visitWake s i (procChan s.initproc) ⟨q, h⟩) i (.wakeInit status k (q + 1))
    else next s i (.reparent status (k + 1))
  | .wakeParent status q =>
    if h : q < NPROC then
      next (visitWake s i (parentChan (s.proc i)) ⟨q, h⟩) i (.wakeParent status (q + 1))
    else next s i (.dying status)
  | .dying status =>
    .ok (((s.setProc i { s.proc i with xstate := status, state := .zombie }).unlock).setPc i .user,
      some (.exited i (s.proc i).pid status))
  | .enter w => acquire s i (.scan w 0 false)
  | .scan (.any addr) k havekids =>
    if h : k < NPROC then scanAny s i ⟨k, h⟩ addr k havekids ok
    else if havekids then next s i (.check (.any addr))
    else ret s.unlock i (-1)
  | .scan (.pid n) k found =>
    if h : k < NPROC then scanPid s i ⟨k, h⟩ n k found else ret s.unlock i (-1)
  | .check w => if (s.proc i).killed then ret s.unlock i (-1) else next s i (.rest w)
  | .rest w =>
    next ((s.setProc i { s.proc i with chan := procChan i, state := .sleeping }).unlock) i
      (.asleep w)
  | .asleep w => next (s.setProc i { s.proc i with chan := 0 }) i (.enter w)
  | .kill n k =>
    if h : k < NPROC then
      if (s.proc ⟨k, h⟩).pid = n then ret (s.setProc ⟨k, h⟩ (killSlot (s.proc ⟨k, h⟩))) i 0
      else next s i (.kill n (k + 1))
    else ret s i (-1)
  | .slept => next (s.setProc i { s.proc i with chan := 0 }) i .user
  | .wake chan q =>
    if h : q < NPROC then next (visitWake s i chan ⟨q, h⟩) i (.wake chan (q + 1))
    else next s i .user

/-- The start of a call, up to its first region. -/
def call (s : Sys) (i : Fin NPROC) : Call → Outcome
  | .fork => next s i (.alloc 0)
  | .exit status =>
    if i = s.initproc then .error (.panic .initExiting) else next s i (.exiting status)
  | .wait addr => next s i (.enter (.any addr))
  | .waitpid n => next s i (.enter (.pid n))
  | .kill n => next s i (.kill n 0)
  | .sleep chan => next (s.setProc i { s.proc i with chan, state := .sleeping }) i .slept
  | .wakeup chan => next s i (.wake chan 0)

/-- One step. -/
def stepEvent (s : Sys) : Act → Outcome
  | .dispatch i =>
    if (s.proc i).state = .runnable then
      .ok (s.setProc i { s.proc i with state := .running }, none)
    else .error .idle
  | .yield i =>
    if (s.proc i).state ≠ .running then .error .idle
    else if s.waitLock = some i then .error .blocked
    else .ok (s.setProc i { s.proc i with state := .runnable }, none)
  | .call i c =>
    if (s.proc i).state = .running ∧ s.pc i = .user then call s i c else .error .idle
  | .go i ok => if (s.proc i).state = .running then go s i ok else .error .idle
  | .handler q chan => .ok (s.setProc q (wakeSlot chan (s.proc q)), none)

/-- The system with what it has reported so far, the latest first. -/
abbrev Traced : Type := Sys × List Event

/-- One step with its report. -/
def step (s : Traced) (a : Act) : Except Halt Traced :=
  match stepEvent s.1 a with
  | .ok (t, e) => .ok (t, e.toList ++ s.2)
  | .error h => .error h

/-- The system when `userinit` has run: `init` is the only process. -/
def start : Sys where
  proc := fun i => if i = 0 then { initSlot {} 1 with state := .runnable } else {}
  pc := fun _ => .user
  waitLock := none
  nextpid := 2
  initproc := 0

/-- The system is reached from its start, having reported `es`. -/
def Reached (s : Sys) (es : List Event) : Prop :=
  ∃ as, Run step (fun _ _ => True) (start, []) as (s, es)

end Xv6.Wait
