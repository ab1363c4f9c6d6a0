import Xv6.Sched.Step

/-!
# Weights, slices and deadlines

The nice value, the weight, the slice and the virtual deadline of a process are set
by eight different routines.  Two invariants of a task hold together through all of
them:

* `Task.Weighted`: the nice value is in range and the weight is the one it stands for;
* `Task.Timed`: between one and five ticks of the slice are left, they end before the
  virtual deadline, and the deadline is at most one slice away.

The second one needs that virtual time does not wrap.  The result is
`deadline_of_run`, for every state of a run from boot.
-/

namespace Xv6

open Xv6.Lib

/-! ### Weights -/

theorem niceToWeight_bounds {n : Int} (h : 0 ≤ n ∧ n ≤ 39) :
    15 ≤ niceToWeight n ∧ niceToWeight n ≤ 88761 := by
  have htable : ∀ k, k < 40 → 15 ≤ niceToWeightTable.getD k 0 ∧
      niceToWeightTable.getD k 0 ≤ 88761 := by decide
  exact htable n.toNat (by omega)

/-- The nice value is in range, and the weight is the one it stands for. -/
def Task.Weighted (t : Task) : Prop :=
  t.state ≠ .unused → (0 ≤ t.nice ∧ t.nice ≤ 39) ∧ t.weight = niceToWeight t.nice

theorem Task.Weighted.bounds {t : Task} (h : t.Weighted) (hu : t.state ≠ .unused) :
    15 ≤ t.weight ∧ t.weight ≤ 88761 := by
  obtain ⟨hn, hw⟩ := h hu
  rw [hw]
  exact niceToWeight_bounds hn

theorem TaskStep.weighted {s : Kernel} {a : Act} {j : Fin NPROC} {t t' : Task}
    (h : TaskStep s a j t t') (hi : CpuInv s) (hj : ∀ c, s.cpu c = some j → t.state = .running)
    (hw : t.Weighted) (hp : ∀ i, (s.proc i).task.Weighted) : t'.Weighted := by
  have hown : ∀ c, s.cpu c = some j → t.state ≠ .unused := by
    intro c hc
    rw [hj c hc]
    simp
  cases h with
  | same => exact hw
  | wake hs => exact fun _ => hw (by rw [hs]; simp)
  | kill c ha hk =>
    unfold Task.doomed
    split
    · rename_i hs
      exact fun _ => hw (by rw [hs]; simp)
    · exact hw
  | renice c value ha hv hu => exact fun _ => ⟨hv, rfl⟩
  | dispatch hr he => exact fun _ => hw (by rw [hr]; simp)
  | tick c ha ht hc hr | yield c ha ht hc hr | sleep c ha hc | exit c ha hc | fault c ha hf hc =>
    exact fun _ => hw (hown c hc)
  | fork c i ha hc hu =>
    have hr : (s.proc i).task.state ≠ .unused := by
      rw [Proc.task_state, hi.running c i hc]
      simp
    exact fun _ => ⟨(hp i hr).1, rfl⟩
  | free h => exact fun hu => absurd rfl hu

/-- The invariant of the CPUs, and every task weighted. -/
structure WeightInv (s : Kernel) : Prop where
  cpu : CpuInv s
  weighted : ∀ j, (s.proc j).task.Weighted

/-! ### Deadlines -/

/-- The slice that is left fits before the deadline, and the deadline is at most one
slice away. -/
structure Task.Timed (t : Task) : Prop where
  one_le : 1 ≤ t.remainSlice
  le_slice : t.remainSlice ≤ BASE_SLICE
  le_deadline : (t.vruntime : Int) + t.remainSlice * eevdfTickDelta t.weight ≤ t.vdeadline
  deadline_le : t.vdeadline ≤ t.vruntime + eevdfSliceDelta t.weight

/-- Five ticks cost no more virtual time than a slice, whatever the two divisions drop. -/
theorem five_ticks_le (w : Nat) : 5 * eevdfTickDelta w ≤ eevdfSliceDelta w :=
  Nat.mul_div_le_mul_div_assoc 5 (MILLI_TICK * NICE_20_WEIGHT) w

theorem eevdfSliceDelta_le (w : Nat) : eevdfSliceDelta w ≤ 5120000 := Nat.div_le_self _ _

theorem eevdfTickDelta_le (w : Nat) : eevdfTickDelta w ≤ 1024000 := Nat.div_le_self _ _

theorem full_slice : (1 : Int) ≤ BASE_SLICE ∧ BASE_SLICE ≤ BASE_SLICE := by decide

theorem Task.timed_refresh {t : Task} (hr : 1 ≤ t.remainSlice ∧ t.remainSlice ≤ BASE_SLICE)
    (hv : t.vruntime + 5120000 < 2 ^ 64) : t.refresh.Timed := by
  have hd := eevdfSliceDelta_le t.weight
  have h5 := five_ticks_le t.weight
  have hmod : (t.vruntime + eevdfSliceDelta t.weight) % 2 ^ 64 =
      t.vruntime + eevdfSliceDelta t.weight := Nat.mod_eq_of_lt (by omega)
  have hticks : t.remainSlice * eevdfTickDelta t.weight ≤ 5 * eevdfTickDelta t.weight :=
    Int.mul_le_mul_of_nonneg_right hr.2 (by omega)
  refine ⟨hr.1, hr.2, ?_, ?_⟩
  · show (t.vruntime : Int) + t.remainSlice * eevdfTickDelta t.weight ≤
      ((t.vruntime + eevdfSliceDelta t.weight) % 2 ^ 64 : Nat)
    rw [hmod]
    push_cast
    omega
  · show (t.vruntime + eevdfSliceDelta t.weight) % 2 ^ 64 ≤
      t.vruntime + eevdfSliceDelta t.weight
    rw [hmod]

theorem TaskStep.timed {s : Kernel} {a : Act} {j : Fin NPROC} {t t' : Task}
    (h : TaskStep s a j t t') (hj : ∀ c, s.cpu c = some j → t.state = .running)
    (ht : t.state ≠ .unused → t.Timed) (hv : t.vruntime < 2 ^ 63)
    (hp : ∀ i, (s.proc i).vruntime < 2 ^ 63) (hu' : t'.state ≠ .unused) : t'.Timed := by
  have hown : ∀ c, s.cpu c = some j → t.Timed := by
    intro c hc
    exact ht (by rw [hj c hc]; simp)
  have htick : eevdfTickDelta t.weight ≤ 1024000 := eevdfTickDelta_le t.weight
  have hmod : (t.vruntime + eevdfTickDelta t.weight) % 2 ^ 64 =
      t.vruntime + eevdfTickDelta t.weight := Nat.mod_eq_of_lt (by omega)
  cases h with
  | same => exact ht hu'
  | wake hs =>
    have h := Task.timed_refresh (t := { t with remainSlice := BASE_SLICE }) full_slice
      (by dsimp only; omega)
    exact ⟨h.1, h.2, h.3, h.4⟩
  | kill c ha hk =>
    unfold Task.doomed at hu' ⊢
    split
    · have h := Task.timed_refresh (t := { t with remainSlice := BASE_SLICE }) full_slice
        (by dsimp only; omega)
      exact ⟨h.1, h.2, h.3, h.4⟩
    · rename_i hs
      rw [if_neg hs] at hu'
      have h := ht hu'
      exact ⟨h.1, h.2, h.3, h.4⟩
  | renice c value ha hv' hu =>
    exact Task.timed_refresh ⟨(ht hu).one_le, (ht hu).le_slice⟩ (by dsimp only; omega)
  | dispatch hr he =>
    have h := ht (by rw [hr]; simp)
    exact ⟨h.1, h.2, h.3, h.4⟩
  | tick c ha htc hc hr =>
    have h := hown c hc
    have h1 := h.one_le
    -- the tick moves as much time from the slice to the virtual time as it charges
    have hrem : t.ticked.remainSlice = t.remainSlice - 1 := if_pos (by omega)
    have hvr : t.ticked.vruntime = t.vruntime + eevdfTickDelta t.weight := hmod
    refine ⟨by omega, by have := h.le_slice; omega, ?_, ?_⟩
    · have h3 := h.le_deadline
      show ((t.ticked.vruntime : Nat) : Int) + t.ticked.remainSlice * eevdfTickDelta t.weight ≤ _
      rw [hrem, hvr, Int.sub_mul]
      push_cast
      show _ ≤ (t.vdeadline : Int)
      omega
    · have h4 := h.deadline_le
      show t.vdeadline ≤ t.ticked.vruntime + eevdfSliceDelta t.weight
      omega
  | yield c ha htc hc hr =>
    have h := Task.timed_refresh (t := { t.ticked with remainSlice := BASE_SLICE }) full_slice
      (by show (t.vruntime + eevdfTickDelta t.weight) % 2 ^ 64 + 5120000 < 2 ^ 64; omega)
    exact ⟨h.1, h.2, h.3, h.4⟩
  | sleep c ha hc | exit c ha hc | fault c ha hf hc =>
    have h := hown c hc
    exact ⟨h.1, h.2, h.3, h.4⟩
  | fork c i ha hc hu =>
    have hvi := hp i
    exact Task.timed_refresh full_slice (by show (s.proc i).vruntime + 5120000 < 2 ^ 64; omega)
  | free h => exact absurd rfl hu'

/-- The invariants of weights and deadlines. -/
structure DeadlineInv (s : Kernel) : Prop extends WeightInv s where
  timed : ∀ j, (s.proc j).state ≠ .unused → (s.proc j).task.Timed

/-- No virtual time has reached `2 ^ 63`. -/
def NoWrap (s : Kernel) : Prop := ∀ j, (s.proc j).vruntime < 2 ^ 63

instance (s : Kernel) : Decidable (NoWrap s) :=
  inferInstanceAs (Decidable (∀ j, (s.proc j).vruntime < 2 ^ 63))

/-! ### Runs -/

section

variable [Image]

theorem WeightInv.step {s s' : Kernel} {a : Act} (hi : WeightInv s) (h : Xv6.step s a = .ok s') :
    WeightInv s' := by
  have hm := step_moved hi.cpu h
  exact ⟨hi.cpu.moved hm, fun j => (hm.task j).weighted hi.cpu (fun c hc => hi.cpu.running c j hc)
    (hi.weighted j) hi.weighted⟩

theorem booted_weightInv {s : Kernel} (h : Booted s) : WeightInv s := by
  obtain ⟨j, hj, hother⟩ := (booted_tasks h).2
  refine ⟨booted_cpuInv h, fun k => ?_⟩
  by_cases hk : k = j
  · subst hk
    rw [hj]
    exact fun _ => ⟨by decide, rfl⟩
  · rw [hother k hk]
    exact fun hu => absurd rfl hu

theorem DeadlineInv.step {s s' : Kernel} {a : Act} (hi : DeadlineInv s) (hv : NoWrap s)
    (h : Xv6.step s a = .ok s') : DeadlineInv s' := by
  have hm := step_moved hi.cpu h
  exact ⟨hi.toWeightInv.step h, fun j hu => (hm.task j).timed
    (fun c hc => hi.cpu.running c j hc) (hi.timed j) (hv j) hv hu⟩

theorem booted_deadlineInv {s : Kernel} (h : Booted s) : DeadlineInv s := by
  refine ⟨booted_weightInv h, fun k hu => ?_⟩
  obtain ⟨j, hj, hother⟩ := (booted_tasks h).2
  by_cases hk : k = j
  · subst hk
    rw [hj]
    refine ⟨by decide, by decide, by decide, by decide⟩
  · exact absurd (congrArg Task.state (hother k hk)) hu

/-- **Weights, slices and deadlines in a run**: as long as no virtual time reaches
`2 ^ 63`, every process in use has a nice value in range with its weight, at least one
and at most five ticks left, and a deadline that these ticks do not pass. -/
theorem deadline_of_run {k s : Kernel} {as : List Act} (hb : Booted k)
    (hr : Run step (fun s _ => NoWrap s) k as s) (j : Fin NPROC)
    (hu : (s.proc j).state ≠ .unused) :
    (0 ≤ (s.proc j).nice ∧ (s.proc j).nice ≤ 39) ∧
    (s.proc j).weight = niceToWeight (s.proc j).nice ∧ (s.proc j).weight ≠ 0 ∧
    (1 ≤ (s.proc j).remainSlice ∧ (s.proc j).remainSlice ≤ BASE_SLICE) ∧
    ((s.proc j).vruntime : Int) + (s.proc j).remainSlice * (1024000 / (s.proc j).weight : Nat) ≤
      (s.proc j).vdeadline ∧
    (s.proc j).vdeadline ≤ (s.proc j).vruntime + 5120000 / (s.proc j).weight ∧
    ∀ n : Nat, n ≤ (s.proc j).remainSlice →
      (s.proc j).vruntime + n * (1024000 / (s.proc j).weight) ≤ (s.proc j).vdeadline := by
  have hi : DeadlineInv s := hr.invariant (booted_deadlineInv hb) fun _ _ _ hi hv hs => hi.step hv hs
  have hw := hi.weighted j hu
  have hb := (hi.weighted j).bounds hu
  have ht := hi.timed j hu
  have h3 : ((s.proc j).vruntime : Int) +
      (s.proc j).remainSlice * (1024000 / (s.proc j).weight : Nat) ≤ (s.proc j).vdeadline :=
    ht.le_deadline
  refine ⟨hw.1, hw.2, by have := hb.1; rw [Proc.task_weight] at this; omega,
    ⟨ht.one_le, ht.le_slice⟩, h3, ht.deadline_le, fun n hn => ?_⟩
  have hn' : (n : Int) * (1024000 / (s.proc j).weight : Nat) ≤
      (s.proc j).remainSlice * (1024000 / (s.proc j).weight : Nat) :=
    Int.mul_le_mul_of_nonneg_right hn (Int.natCast_nonneg _)
  have hz : ((s.proc j).vruntime : Int) + n * (1024000 / (s.proc j).weight : Nat) ≤
      (s.proc j).vdeadline := by omega
  exact_mod_cast hz

end

/-- The first process after two ticks: the three that are left end before its deadline. -/
theorem deadline_of_run_two_ticks : ∃ s : Kernel,
    Run (@step smallImage) (fun s _ => NoWrap s) smallKernel
      [.schedule 0, .kernelTimer 0, .kernelTimer 0] s ∧
    (s.proc 0).state ≠ .unused ∧ (s.proc 0).remainSlice = 3 ∧
    (s.proc 0).vruntime + 3 * (1024000 / (s.proc 0).weight) ≤ (s.proc 0).vdeadline := by
  obtain ⟨s, hr, hp⟩ := exists_run (@step smallImage) (fun s _ => decide (NoWrap s))
    (fun s => decide ((s.proc 0).state ≠ .unused ∧ (s.proc 0).remainSlice = 3)) smallKernel
    [.schedule 0, .kernelTimer 0, .kernelTimer 0] (by decide +kernel)
  obtain ⟨hu, h3⟩ := of_decide_eq_true hp
  have hr' := hr.mono fun _ _ h => of_decide_eq_true h
  have h := @deadline_of_run smallImage _ _ _ booted_small hr' 0 hu
  exact ⟨s, hr', hu, h3, h.2.2.2.2.2.2 3 (by omega)⟩

end Xv6
