import Xv6.Sched.Deadline

/-!
# Kill

`kkill` looks for a pid in every slot of the process table, free ones included, and a
free slot has pid `0`.  The flag it sets there stays, because `allocproc` does not
clear it.  So `kkill(0)` finds a free slot and dooms the next child of a fork, unless
the slot it finds is in use:

* `KillsInUse`: the slot that `kkill` finds is in use; always so for a pid other than `0`;
* `kill_of_run`: in a run whose kills are all of this kind, `kkill` succeeds exactly for
  the pids in use and a new process is not killed before a kill or a fault of its own;
* `kill_zero_dooms_child`: a run without the condition.
-/

namespace Xv6

open Xv6.Lib

/-! ### What `kkill` finds -/

/-- The slot that `kkill` finds, if any, is in use. -/
def KillsInUse (pid : Int) (t : ProcTable) : Prop :=
  ∀ j, killTarget pid t = some j → (t j).state ≠ .unused

instance (pid : Int) (t : ProcTable) : Decidable (KillsInUse pid t) :=
  inferInstanceAs (Decidable (∀ _, _ → _))

variable {j : Fin NPROC} {pid : Int} {t : ProcTable} {a : Act} {s : Kernel}

theorem killTarget_some (h : killTarget pid t = some j) : (t j).pid = pid := by
  simpa using List.find?_some h

theorem killTarget_isSome (h : (t j).pid = pid) : ∃ i, killTarget pid t = some i := by
  rw [← Option.isSome_iff_exists, killTarget, List.find?_isSome]
  exact ⟨j, List.mem_finRange j, by simpa using h⟩

theorem kkill_eq (pid : Int) (t : ProcTable) : kkill pid t =
    match killTarget pid t with
    | none => (-1, t)
    | some i => (0, upd t i (killSlot (t i))) := rfl

theorem kkill_eq_zero : (kkill pid t).1 = 0 ↔ ∃ j, killTarget pid t = some j := by
  rw [kkill_eq]
  cases killTarget pid t with
  | none | some i => simp

theorem kkill_other {k : Fin NPROC} (h : killTarget pid t ≠ some k) : (kkill pid t).2 k = t k := by
  rw [kkill_eq]
  cases ht : killTarget pid t with
  | none => rfl
  | some i =>
    rw [ht] at h
    exact upd_other _ _ fun hk => h (by rw [hk])

/-- `kkill` succeeds exactly for the pids in use, if what it finds is in use. -/
theorem kkill_iff (h : KillsInUse pid t) :
    (kkill pid t).1 = 0 ↔ ∃ j, (t j).state ≠ .unused ∧ (t j).pid = pid := by
  rw [kkill_eq_zero]
  constructor
  · rintro ⟨j, hj⟩
    exact ⟨j, h j hj, killTarget_some hj⟩
  · rintro ⟨j, -, hj⟩
    exact killTarget_isSome hj

theorem kgetnice_iff (hn : ∀ j, (t j).state ≠ .unused → 0 ≤ (t j).nice) :
    kgetnice pid t ≠ -1 ↔ ∃ j, (t j).state ≠ .unused ∧ (t j).pid = pid := by
  unfold kgetnice
  split
  · rename_i hf
    rw [List.find?_eq_none] at hf
    constructor
    · exact fun h => absurd rfl h
    · rintro ⟨j, hu, hp⟩
      exact absurd (by simp [hu, hp]) (hf j (List.mem_finRange j))
  · rename_i j hj
    have hp := List.find?_some hj
    simp only [bne_iff_ne, ne_eq, Bool.and_eq_true, beq_iff_eq] at hp
    have := hn j hp.1
    exact ⟨fun _ => ⟨j, hp.1, hp.2⟩, fun _ => by omega⟩

/-! ### Free slots -/

/-- The act kills a slot in use, if it kills. -/
def Act.Sound (s : Kernel) : Act → Prop
  | .kill _ pid => KillsInUse pid s.proc
  | _ => True

/-- A free slot has pid `0`. -/
def Task.PidZero (t : Task) : Prop := t.state = .unused → t.pid = 0

/-- A free slot is not killed. -/
def Task.Clean (t : Task) : Prop := t.state = .unused → t.killed = false

theorem TaskStep.pidZero {t t' : Task} (h : TaskStep s a j t t') (ht : t.PidZero) : t'.PidZero := by
  cases h with
  | same => exact ht
  | wake hs => exact fun hu => nomatch hu
  | kill c ha hk =>
    unfold Task.doomed
    split
    · exact fun hu => nomatch hu
    · exact ht
  | renice c value ha hv hu => exact ht
  | dispatch hr he => exact fun hu => nomatch hu
  | tick c ha htc hc hr => exact ht
  | yield c ha htc hc hr | sleep c ha hc | exit c ha hc | fault c ha hf hc | fork c i ha hc hu =>
    exact fun hu => nomatch hu
  | free h => exact fun _ => rfl

theorem TaskStep.clean {t' : Task} (h : TaskStep s a j (s.proc j).task t') (hs : a.Sound s)
    (ht : (s.proc j).task.Clean) : t'.Clean := by
  cases h with
  | same => exact ht
  | wake hs => exact fun hu => nomatch hu
  | kill c ha hk =>
    unfold Task.doomed
    split
    · exact fun hu => nomatch hu
    · -- the slot found is in use, because the act is sound
      rw [ha] at hs
      exact fun hu => absurd hu (hs j hk)
  | renice c value ha hv hu => exact ht
  | dispatch hr he => exact fun hu => nomatch hu
  | tick c ha htc hc hr => exact ht
  | yield c ha htc hc hr | sleep c ha hc | exit c ha hc | fault c ha hf hc | fork c i ha hc hu =>
    exact fun hu => nomatch hu
  | free h => exact fun _ => rfl

/-- The invariant of the kills of a run. -/
structure KillInv (s : Kernel) : Prop extends WeightInv s where
  pidZero : ∀ j, (s.proc j).task.PidZero
  clean : ∀ j, (s.proc j).task.Clean

theorem KillInv.killsInUse (h : KillInv s) (hp : pid ≠ 0) : KillsInUse pid s.proc := by
  intro j hj hu
  have h0 : (s.proc j).pid = 0 := h.pidZero j hu
  rw [killTarget_some hj] at h0
  exact hp h0

/-! ### The flag of one process -/

/-- The act kills the pid in slot `j`, or is a fault of the process in it. -/
def Act.Hits (s : Kernel) (j : Fin NPROC) (a : Act) : Prop :=
  (∃ c, a = .kill c (s.proc j).pid) ∨ a.isFault ∧ ∃ c, a.cpu = some c ∧ s.cpu c = some j

theorem TaskStep.killed_eq {t' : Task} (h : TaskStep s a j (s.proc j).task t') (hh : ¬ a.Hits s j)
    (hk : (s.proc j).killed = false) : t'.killed = false := by
  cases h with
  | kill c ha _ => exact absurd (.inl ⟨c, ha⟩) hh
  | fault c ha hf hc => exact absurd (.inr ⟨hf, c, ha, hc⟩) hh
  | free h => rfl
  | _ => exact hk

/-! ### Runs -/

section

variable [Image]

theorem KillInv.step {s s' : Kernel} (hi : KillInv s) (ha : a.Sound s) (h : Xv6.step s a = .ok s') :
    KillInv s' := by
  have hm := step_moved hi.cpu h
  exact ⟨hi.toWeightInv.step h, fun j => (hm.task j).pidZero (hi.pidZero j),
    fun j => (hm.task j).clean ha (hi.clean j)⟩

theorem booted_killInv (h : Booted s) : KillInv s := by
  obtain ⟨j, hj, hother⟩ := (booted_tasks h).2
  refine ⟨booted_weightInv h, fun k => ?_, fun k => ?_⟩
  · by_cases hk : k = j
    · subst hk; rw [hj]; exact fun hu => nomatch hu
    · rw [hother k hk]; exact fun _ => rfl
  · by_cases hk : k = j
    · subst hk; rw [hj]; exact fun hu => nomatch hu
    · rw [hother k hk]; exact fun _ => rfl

theorem killed_of_run {s t : Kernel} {as : List Act} (hi : CpuInv s)
    (hr : Run step (fun u a => ¬ a.Hits u j) s as t) (hk : (s.proc j).killed = false) :
    (t.proc j).killed = false := by
  have h : CpuInv t ∧ (t.proc j).killed = false := by
    refine hr.invariant (I := fun t => CpuInv t ∧ (t.proc j).killed = false) ⟨hi, hk⟩ ?_
    rintro u a u' ⟨hi, hk⟩ hh hs
    have hm := step_moved hi hs
    exact ⟨hi.moved hm, (hm.task j).killed_eq hh hk⟩
  exact h.2

/-- **Kills that find a slot in use.**  In every state of a run whose kills all do, a
kill that finds a slot in use succeeds exactly for the pids in use, the ones `kgetnice`
knows, and touches nothing else; and a process that `kfork` creates is not killed until
its pid is killed or it faults. -/
theorem kill_of_run {k s : Kernel} {as : List Act} (hb : Booted k)
    (hr : Run step (fun s a => a.Sound s) k as s) :
    (∀ pid, KillsInUse pid s.proc →
      ((kkill pid s.proc).1 = 0 ↔ ∃ j, (s.proc j).state ≠ .unused ∧ (s.proc j).pid = pid) ∧
      ((kkill pid s.proc).1 = 0 ↔ kgetnice pid s.proc ≠ -1) ∧
      ∀ i, killTarget pid s.proc ≠ some i → (kkill pid s.proc).2 i = s.proc i) ∧
    (∀ pid, pid ≠ 0 → KillsInUse pid s.proc) ∧
    ∀ (c : Fin NCPU) (s' : Kernel) (j : Fin NPROC), step s (.fork c) = .ok s' →
      (s.proc j).state = .unused → (s'.proc j).state ≠ .unused →
      ∀ (bs : List Act) (t : Kernel), Run step (fun u a => ¬ a.Hits u j) s' bs t →
        (t.proc j).killed = false := by
  have hi : KillInv s := hr.invariant (booted_killInv hb) fun _ _ _ hi ha hs => hi.step ha hs
  refine ⟨fun pid hp => ?_, fun pid hp => hi.killsInUse hp, fun c s' j hs hu _ bs t hr' => ?_⟩
  · have hnice : kgetnice pid s.proc ≠ -1 ↔ _ := kgetnice_iff fun j hu => (hi.weighted j hu).1.1
    exact ⟨kkill_iff hp, by rw [kkill_iff hp, hnice], fun i hi => kkill_other hi⟩
  · have hm := step_moved hi.cpu hs
    have hh : ¬ (Act.fork c).Hits s j := by
      rintro (⟨c', h⟩ | ⟨h, -⟩) <;> cases h
    exact killed_of_run (hi.cpu.moved hm) hr' ((hm.task j).killed_eq hh (hi.clean j hu))

end

instance (s : Kernel) (a : Act) : Decidable (a.Sound s) :=
  match a with
  | .kill _ pid => inferInstanceAs (Decidable (KillsInUse pid s.proc))
  | .schedule _ | .forkret _ _ | .userTimer _ | .kernelTimer _ | .wakeup _ _ | .sleep _ _
  | .setnice _ _ _ | .fork _ | .exit _ _ | .wait _ _ | .waitpid _ _ | .sbrk _ _ _
  | .fault _ _ _ | .trap _ | .mmap _ _ _ _ _ _ _ | .munmap _ _ | .store _ _ _ | .copyout _ _ _
  | .copyin _ _ _ | .pipe _ _ | .close _ _ | .dup _ _ | .open _ _ _ _ _ | .execStart _ _ _ _
  | .execStep _ | .disk _ _ => .isTrue trivial

/-- Init kills a pid that nobody has and then forks: the child is not killed. -/
theorem kill_of_run_child : ∃ s s' : Kernel,
    Run (@step smallImage) (fun s a => a.Sound s) smallKernel
      [.schedule 0, .forkret 0 (some 0), .kill 0 7] s ∧
    (s.proc 1).state = .unused ∧ @step smallImage s (.fork 0) = .ok s' ∧
    (s'.proc 1).state ≠ .unused ∧ (s'.proc 1).killed = false := by
  obtain ⟨s, s', hr, hu, hs, hu'⟩ := exists_run_step (@step smallImage)
    (fun s a => decide (a.Sound s)) (fun s => decide ((s.proc 1).state = .unused))
    (fun s => decide ((s.proc 1).state ≠ .unused)) smallKernel
    [.schedule 0, .forkret 0 (some 0), .kill 0 7] (.fork 0) (by decide +kernel)
  have hr' := hr.mono fun _ _ h => of_decide_eq_true h
  have hu := of_decide_eq_true hu
  have hu' := of_decide_eq_true hu'
  have h := @kill_of_run smallImage _ _ _ booted_small hr'
  exact ⟨s, s', hr', hu, hs, hu', h.2.2 0 s' 1 hs hu hu' [] s' (.nil s')⟩

/-- **A kill of pid `0` dooms the next child.**  No process has pid `0`, and yet
`kkill(0)` succeeds, because it finds the free slot `1`; the fork that follows puts its
child there, and the child is born killed. -/
theorem kill_zero_dooms_child : ∃ s s' : Kernel,
    Run (@step smallImage) (fun _ _ => True) smallKernel
      [.schedule 0, .forkret 0 (some 0), .kill 0 0] s ∧
    (∀ j, (s.proc j).state ≠ .unused → (s.proc j).pid ≠ 0) ∧ (kkill 0 s.proc).1 = 0 ∧
    (s.proc 1).state = .unused ∧ @step smallImage s (.fork 0) = .ok s' ∧
    (s'.proc 1).state = .runnable ∧ (s'.proc 1).pid = 2 ∧ (s'.proc 1).killed = true := by
  obtain ⟨s, s', hr, hp, hs, hq⟩ := exists_run_step (@step smallImage) (fun _ _ => true)
    (fun s => decide ((∀ j, (s.proc j).state ≠ .unused → (s.proc j).pid ≠ 0) ∧
      (kkill 0 s.proc).1 = 0 ∧ (s.proc 1).state = .unused))
    (fun s => decide ((s.proc 1).state = .runnable ∧ (s.proc 1).pid = 2 ∧
      (s.proc 1).killed = true)) smallKernel
    [.schedule 0, .forkret 0 (some 0), .kill 0 0] (.fork 0) (by decide +kernel)
  obtain ⟨h1, h2, h3⟩ := of_decide_eq_true hp
  exact ⟨s, s', hr.mono fun _ _ _ => trivial, h1, h2, h3, hs, of_decide_eq_true hq⟩

end Xv6
