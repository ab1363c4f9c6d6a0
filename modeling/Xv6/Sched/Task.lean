import Xv6.Machine

/-!
# What a step does to a process

Scheduling, `kill` and `setnice` work on a few fields of a process, its `Task`.  A
step of the kernel changes each task in one of a small number of ways, whatever the
memory operations in it do; `TaskStep` lists them, and `CpuStep` says who is on a CPU
after the step.  `Xv6/Sched/Step.lean` proves that the acts of the kernel keep to
them; the invariants of the scheduler are proved from these two relations alone.

* `CpuInv`: the process on a CPU is running, and on no other CPU;
* `CpuInv.moved`: every step keeps it.
-/

namespace Xv6

open Xv6.Lib

/-! ### Tasks -/

/-- The fields of a process on which scheduling, `kill` and `setnice` work. -/
structure Task where
  state : ProcState
  pid : Int
  nice : Int
  weight : Nat
  vruntime : Nat
  vdeadline : Nat
  remainSlice : Int
  killed : Bool

@[simps] def Proc.task (p : Proc) : Task where
  state := p.state
  pid := p.pid
  nice := p.nice
  weight := p.weight
  vruntime := p.vruntime
  vdeadline := p.vdeadline
  remainSlice := p.remainSlice
  killed := p.killed

namespace Task

/-- A new deadline, one slice away. -/
def refresh (t : Task) : Task :=
  { t with vdeadline := (t.vruntime + eevdfSliceDelta t.weight) % 2 ^ 64 }

/-- Woken up, with a full slice. -/
def woken (t : Task) : Task :=
  { refresh { t with remainSlice := BASE_SLICE } with state := .runnable }

/-- Killed, and woken up if asleep. -/
def doomed (t : Task) : Task :=
  if t.state = .sleeping then { woken t with killed := true } else { t with killed := true }

/-- Charged for one tick. -/
def ticked (t : Task) : Task :=
  { t with
    vruntime := (t.vruntime + eevdfTickDelta t.weight) % 2 ^ 64
    remainSlice := if 0 < t.remainSlice then t.remainSlice - 1 else t.remainSlice }

/-- Given a new nice value. -/
def reniced (t : Task) (value : Int) : Task :=
  refresh { t with nice := value, weight := niceToWeight value }

/-- The task of a child of `p`, in the slot that held `t`. -/
def born (t p : Task) (pid : Int) : Task :=
  refresh
    { state := .runnable, pid, nice := p.nice, weight := niceToWeight p.nice
      vruntime := p.vruntime, vdeadline := 0, remainSlice := BASE_SLICE, killed := t.killed }

/-- The task of a free slot. -/
def freed : Task :=
  { state := .unused, pid := 0, nice := 20, weight := 0, vruntime := 0, vdeadline := 0
    remainSlice := 0, killed := false }

end Task

/-- The CPU on which an act happens. -/
def Act.cpu : Act → Option (Fin NCPU)
  | .schedule c | .forkret c _ | .userTimer c | .kernelTimer c | .wakeup c _ | .sleep c _
  | .kill c _ | .setnice c _ _ | .fork c | .exit c _ | .wait c _ | .waitpid c _ | .sbrk c _ _
  | .fault c _ _ | .trap c | .mmap c _ _ _ _ _ _ | .munmap c _ | .store c _ _ | .copyout c _ _
  | .copyin c _ _ | .pipe c _ | .close c _ | .dup c _ | .open c _ _ _ _ | .execStart c _ _ _
  | .execStep c => some c
  | .disk _ _ => none

/-- How often an act calls `eevdf_tick`. -/
def Act.tickCalls (s : Kernel) : Act → Nat
  | .userTimer c =>
    match s.cpu c with
    | none => 0
    | some i => if s.first || (s.proc i).exec.isSome || (s.proc i).killed then 0 else 1
  | .kernelTimer c =>
    match s.cpu c with
    | none => 0
    | some i => if (s.proc i).state = .running then 1 else 0
  | _ => 0

/-- The act is an exception of the running process. -/
def Act.isFault : Act → Bool
  | .fault _ _ _ | .trap _ => true
  | _ => false

/-- The slot that `kkill` finds. -/
def killTarget (pid : Int) (t : ProcTable) : Option (Fin NPROC) :=
  (List.finRange NPROC).find? fun i => (t i).pid == pid

/-- What the act `a` can do to the task in slot `j`. -/
inductive TaskStep (s : Kernel) (a : Act) (j : Fin NPROC) (t : Task) : Task → Prop
  | same : TaskStep s a j t t
  | wake (h : t.state = .sleeping) : TaskStep s a j t t.woken
  | kill (c : Fin NCPU) (ha : a = .kill c t.pid) (ht : killTarget t.pid s.proc = some j) :
      TaskStep s a j t t.doomed
  | renice (c : Fin NCPU) (value : Int) (ha : a = .setnice c t.pid value)
      (hv : 0 ≤ value ∧ value ≤ 39) (hu : t.state ≠ .unused) : TaskStep s a j t (t.reniced value)
  | dispatch (hr : t.state = .runnable)
      (he : eevdfIsEligible (s.proc j) (eevdfCollectRqStats s.proc) = true) :
      TaskStep s a j t { t with state := .running }
  | tick (c : Fin NCPU) (ha : a.cpu = some c) (ht : a.tickCalls s = 1) (hc : s.cpu c = some j)
      (hr : 0 < t.ticked.remainSlice) : TaskStep s a j t t.ticked
  | yield (c : Fin NCPU) (ha : a.cpu = some c) (ht : a.tickCalls s = 1) (hc : s.cpu c = some j)
      (hr : t.ticked.remainSlice ≤ 0) : TaskStep s a j t t.ticked.woken
  | sleep (c : Fin NCPU) (ha : a.cpu = some c) (hc : s.cpu c = some j) :
      TaskStep s a j t { t with state := .sleeping }
  | exit (c : Fin NCPU) (ha : a.cpu = some c) (hc : s.cpu c = some j) :
      TaskStep s a j t { t with state := .zombie }
  | fault (c : Fin NCPU) (ha : a.cpu = some c) (hf : a.isFault) (hc : s.cpu c = some j) :
      TaskStep s a j t { t with killed := true, state := .zombie }
  | fork (c : Fin NCPU) (i : Fin NPROC) (ha : a = .fork c) (hc : s.cpu c = some i)
      (hu : t.state = .unused) : TaskStep s a j t (t.born (s.proc i).task s.nextpid)
  | free (h : t.state = .zombie ∨ t.state = .unused) : TaskStep s a j t .freed

/-- What the act `a` can do to the CPUs. -/
inductive CpuStep (s : Kernel) (a : Act) (s' : Kernel) : Prop
  | stay (h : s'.cpu = s.cpu)
      (hs : ∀ c i, a.cpu = some c → s.cpu c = some i → (s'.proc i).state = (s.proc i).state)
  | leave (c : Fin NCPU) (i : Fin NPROC) (ha : a.cpu = some c) (hc : s.cpu c = some i)
      (h : s'.cpu = upd s.cpu c none)
  | take (c : Fin NCPU) (i : Fin NPROC) (ha : a.cpu = some c) (hc : s.cpu c = none)
      (hi : (s.proc i).state = .runnable) (hi' : (s'.proc i).state = .running)
      (h : s'.cpu = upd s.cpu c (some i))

/-- What the act `a` can do to the tasks and the CPUs. -/
structure Moved (s : Kernel) (a : Act) (s' : Kernel) : Prop where
  task : ∀ j, TaskStep s a j (s.proc j).task (s'.proc j).task
  cpu : CpuStep s a s'

/-! ### CPUs -/

/-- The process on a CPU is running, and on no other CPU. -/
structure CpuInv (s : Kernel) : Prop where
  running : ∀ c i, s.cpu c = some i → (s.proc i).state = .running
  unique : ∀ c c' i, s.cpu c = some i → s.cpu c' = some i → c = c'

/-- A task that is running and not on the CPU of the act keeps running. -/
theorem TaskStep.keeps_running {s : Kernel} {a : Act} {j : Fin NPROC} {t t' : Task}
    (h : TaskStep s a j t t') (hr : t.state = .running)
    (hc : ∀ c, a.cpu = some c → s.cpu c ≠ some j) : t'.state = .running := by
  cases h with
  | same => exact hr
  | wake h => rw [hr] at h; cases h
  | kill c ha ht => unfold Task.doomed; rw [if_neg (by rw [hr]; simp)]; exact hr
  | renice c value ha hv hu => exact hr
  | dispatch hr' he => rfl
  | tick c ha ht hc' hr' | yield c ha ht hc' hr' | sleep c ha hc' | exit c ha hc' | fault c ha hf hc' =>
    exact absurd hc' (hc c ha)
  | fork c i ha hc' hu => rw [hr] at hu; cases hu
  | free h => rw [hr] at h; rcases h with h | h <;> cases h

theorem CpuInv.moved {s s' : Kernel} {a : Act} (hi : CpuInv s) (h : Moved s a s') : CpuInv s' := by
  have hrun : ∀ c i, s.cpu c = some i → (a.cpu = some c → (s'.proc i).state = .running) →
      (s'.proc i).state = .running := by
    intro c i hc hown
    by_cases ha : a.cpu = some c
    · exact hown ha
    · refine (h.task i).keeps_running (hi.running c i hc) fun c' hc' hci => ha ?_
      rw [hc', hi.unique c' c i hci hc]
  cases h.cpu with
  | stay hcpu hs =>
    refine ⟨fun c i hc => ?_, fun c c' i hc hc' => ?_⟩
    · rw [hcpu] at hc
      exact hrun c i hc fun ha => (hs c i ha hc).trans (hi.running c i hc)
    · rw [hcpu] at hc hc'; exact hi.unique c c' i hc hc'
  | leave c₀ i₀ ha₀ hc₀ hcpu =>
    have hother : ∀ c i, s'.cpu c = some i → c ≠ c₀ ∧ s.cpu c = some i := by
      intro c i hc
      rw [hcpu, upd_apply] at hc
      split at hc
      · cases hc
      · exact ⟨‹_›, hc⟩
    refine ⟨fun c i hc => ?_, fun c c' i hc hc' =>
      hi.unique c c' i (hother c i hc).2 (hother c' i hc').2⟩
    obtain ⟨hne, hc⟩ := hother c i hc
    exact hrun c i hc fun ha => absurd (Option.some.inj (ha.symm.trans ha₀)) hne
  | take c₀ i₀ ha₀ hc₀ hr₀ hr₀' hcpu =>
    -- the process taken was on no CPU, because it was not running
    have hfresh : ∀ c, s.cpu c ≠ some i₀ := by
      intro c hc
      have := hi.running c i₀ hc
      rw [hr₀] at this
      cases this
    have hother : ∀ c i, s'.cpu c = some i → (c = c₀ ∧ i = i₀) ∨ (c ≠ c₀ ∧ s.cpu c = some i) := by
      intro c i hc
      rw [hcpu, upd_apply] at hc
      split at hc
      · exact .inl ⟨‹_›, (Option.some.inj hc).symm⟩
      · exact .inr ⟨‹_›, hc⟩
    refine ⟨fun c i hc => ?_, fun c c' i hc hc' => ?_⟩
    · rcases hother c i hc with ⟨rfl, rfl⟩ | ⟨hne, hc⟩
      · exact hr₀'
      · exact hrun c i hc fun ha => absurd (Option.some.inj (ha.symm.trans ha₀)) hne
    · rcases hother c i hc with ⟨rfl, rfl⟩ | ⟨-, hc⟩
      · rcases hother c' i hc' with ⟨rfl, -⟩ | ⟨-, hc'⟩
        · rfl
        · exact absurd hc' (hfresh c')
      · rcases hother c' i hc' with ⟨rfl, rfl⟩ | ⟨-, hc'⟩
        · exact absurd hc (hfresh c)
        · exact hi.unique c c' i hc hc'

end Xv6
