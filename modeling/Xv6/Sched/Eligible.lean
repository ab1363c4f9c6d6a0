import Xv6.Lib.Average
import Xv6.Sched.Deadline
import Mathlib.Algebra.BigOperators.Fin

/-!
# Eligibility

`eevdf_is_eligible` compares `(vruntime - v0) * sum_weight` with `avg_numer` in
64-bit arithmetic.  As long as nothing wraps this is the exact comparison of a
virtual time with the weighted average of the run queue:

* `collect_min`, `collect_sums`: what `eevdf_collect_rq_stats` computes;
* `eligible_iff`: the exact meaning of the test, when no product or sum wraps;
* `eligible_of_run`: in a run from boot with at most `2 ^ 25` ticks nothing wraps.

The run is followed by `BoundInv`: a tick costs at most `68266` units of virtual time.
-/

namespace Xv6

open Xv6.Lib Finset

/-! ### The statistics -/

/-- The slots of the processes that are runnable or running. -/
def rq (t : ProcTable) : Finset (Fin NPROC) := univ.filter fun i => eevdfOnRq (t i) = true

variable {t : ProcTable} {st : RqStats}

@[simp] theorem mem_rq {i : Fin NPROC} : i ∈ rq t ↔ eevdfOnRq (t i) = true := by
  simp [rq]

/-- The weight of the run queue. -/
def rqWeight (t : ProcTable) : Nat := ∑ i ∈ rq t, (t i).weight

/-- The sum of the virtual times of the run queue, by weight. -/
def rqVirtual (t : ProcTable) : Nat := ∑ i ∈ rq t, (t i).weight * (t i).vruntime

/-- What the loop of `eevdf_find_min_vruntime` keeps, over the slots visited. -/
structure MinInv (t : ProcTable) (is : List (Fin NPROC)) (st : RqStats) : Prop where
  empty : st.nr = 0 → ∀ i ∈ is, eevdfOnRq (t i) = false
  le : ∀ i ∈ is, eevdfOnRq (t i) = true → st.v0 ≤ (t i).vruntime
  attained : st.nr ≠ 0 → ∃ i ∈ is, eevdfOnRq (t i) = true ∧ (t i).vruntime = st.v0

theorem findMinSlot_inv {is : List (Fin NPROC)} (h : MinInv t is st) (i : Fin NPROC) :
    MinInv t (is ++ [i]) (findMinSlot st (t i)) := by
  unfold findMinSlot
  split
  · rename_i hon
    refine ⟨fun hnr => by simp at hnr, fun j hj hrq => ?_, fun _ => ?_⟩
    · rw [List.mem_append, List.mem_singleton] at hj
      dsimp only
      split
      · rename_i hmin
        rcases hj with hj | rfl
        · rcases hmin with h0 | hlt
          · rw [h.empty h0 j hj] at hrq; cases hrq
          · exact Nat.le_of_lt (Nat.lt_of_lt_of_le hlt (h.le j hj hrq))
        · exact Nat.le_refl _
      · rename_i hmin
        rcases hj with hj | rfl
        · exact h.le j hj hrq
        · omega
    · dsimp only
      split
      · exact ⟨i, by simp, hon, rfl⟩
      · rename_i hmin
        obtain ⟨j, hj, hrq, hv⟩ := h.attained (by omega)
        exact ⟨j, by simp [hj], hrq, hv⟩
  · rename_i hon
    have hoff : eevdfOnRq (t i) = false := by simpa using hon
    refine ⟨fun hnr j hj => ?_, fun j hj hrq => ?_, fun hnr => ?_⟩
    · rw [List.mem_append, List.mem_singleton] at hj
      rcases hj with hj | rfl
      · exact h.empty hnr j hj
      · exact hoff
    · rw [List.mem_append, List.mem_singleton] at hj
      rcases hj with hj | rfl
      · exact h.le j hj hrq
      · rw [hoff] at hrq; cases hrq
    · obtain ⟨j, hj, hrq, hv⟩ := h.attained hnr
      exact ⟨j, by simp [hj], hrq, hv⟩

theorem findMin_inv (t : ProcTable) (is : List (Fin NPROC)) :
    MinInv t is (is.foldl (fun st i => findMinSlot st (t i)) {}) := by
  induction is using List.reverseRecOn with
  | nil => exact ⟨fun _ i hi => by simp at hi, fun i hi => by simp at hi, fun h => absurd rfl h⟩
  | append_singleton is i ih =>
    rw [List.foldl_append]
    exact findMinSlot_inv ih i

theorem calcSlot_on {p : Proc} (h : eevdfOnRq p = true) : calcSlot st p =
    { st with
      sumWeight := (st.sumWeight + p.weight) % 2 ^ 64
      avgNumer := (st.avgNumer + (p.vruntime + 2 ^ 64 - st.v0) % 2 ^ 64 * p.weight) % 2 ^ 64 } :=
  if_pos h

theorem calcSlot_off {p : Proc} (h : ¬ eevdfOnRq p = true) : calcSlot st p = st :=
  if_neg h

theorem calcSlot_foldl (t : ProcTable) (is : List (Fin NPROC)) (st : RqStats)
    (hw : st.sumWeight < 2 ^ 64) (ha : st.avgNumer < 2 ^ 64) :
    is.foldl (fun st i => calcSlot st (t i)) st =
      { st with
        sumWeight := (st.sumWeight +
          (is.map fun i => if eevdfOnRq (t i) then (t i).weight else 0).sum) % 2 ^ 64
        avgNumer := (st.avgNumer + (is.map fun i => if eevdfOnRq (t i) then
          ((t i).vruntime + 2 ^ 64 - st.v0) % 2 ^ 64 * (t i).weight else 0).sum) % 2 ^ 64 } := by
  induction is generalizing st with
  | nil =>
    simp only [List.foldl_nil, List.map_nil, List.sum_nil, Nat.add_zero, Nat.mod_eq_of_lt hw,
      Nat.mod_eq_of_lt ha]
  | cons i is ih =>
    rw [List.foldl_cons]
    by_cases hon : eevdfOnRq (t i) = true
    · rw [calcSlot_on hon, ih _ (Nat.mod_lt _ (by norm_num)) (Nat.mod_lt _ (by norm_num))]
      simp only [List.map_cons, List.sum_cons, hon, if_true, Nat.mod_add_mod, Nat.add_assoc]
    · rw [calcSlot_off hon, ih st hw ha]
      simp only [List.map_cons, List.sum_cons, hon, if_false, Nat.zero_add, Bool.false_eq_true]

theorem collect_min (t : ProcTable) :
    ((eevdfCollectRqStats t).nr = 0 ↔ rq t = ∅) ∧
    (∀ i ∈ rq t, (eevdfCollectRqStats t).v0 ≤ (t i).vruntime) ∧
    ((rq t).Nonempty → ∃ i ∈ rq t, (t i).vruntime = (eevdfCollectRqStats t).v0) := by
  have h := findMin_inv t (List.finRange NPROC)
  have hsame : (eevdfCollectRqStats t).nr = (eevdfFindMinVruntime t).nr ∧
      (eevdfCollectRqStats t).v0 = (eevdfFindMinVruntime t).v0 := by
    unfold eevdfCollectRqStats eevdfCalcRqStats
    split
    · exact ⟨rfl, rfl⟩
    · rw [calcSlot_foldl _ _ _ (by norm_num) (by norm_num)]
      exact ⟨rfl, rfl⟩
  rw [hsame.1, hsame.2]
  have hempty : (eevdfFindMinVruntime t).nr = 0 ↔ rq t = ∅ := by
    constructor
    · intro hnr
      refine eq_empty_of_forall_notMem fun i hi => ?_
      rw [mem_rq, h.empty hnr i (List.mem_finRange i)] at hi
      cases hi
    · intro he
      by_contra hnr
      obtain ⟨i, -, hi, -⟩ := h.attained hnr
      have := mem_rq.2 hi
      rw [he] at this
      simp at this
  refine ⟨hempty, fun i hi => h.le i (List.mem_finRange i) (mem_rq.1 hi), fun hne => ?_⟩
  obtain ⟨i, -, hi, hv⟩ := h.attained fun hnr => hne.ne_empty (hempty.1 hnr)
  exact ⟨i, mem_rq.2 hi, hv⟩

theorem sum_finRange_rq (t : ProcTable) (f : Fin NPROC → Nat) :
    ((List.finRange NPROC).map fun i => if eevdfOnRq (t i) then f i else 0).sum =
      ∑ i ∈ rq t, f i := by
  rw [← Fin.sum_univ_def, rq, sum_filter]

theorem collect_sums (t : ProcTable) :
    (eevdfCollectRqStats t).sumWeight = rqWeight t % 2 ^ 64 ∧
    (eevdfCollectRqStats t).avgNumer = (∑ i ∈ rq t,
      ((t i).vruntime + 2 ^ 64 - (eevdfCollectRqStats t).v0) % 2 ^ 64 * (t i).weight) % 2 ^ 64 := by
  have hempty := (collect_min t).1
  by_cases he : (eevdfFindMinVruntime t).nr = 0
  · have hcol : eevdfCollectRqStats t =
        { eevdfFindMinVruntime t with sumWeight := 0, avgNumer := 0 } := if_pos he
    have hrq : rq t = ∅ := hempty.1 (by rw [hcol]; exact he)
    rw [hcol, rqWeight, hrq]
    simp
  · have hcol : eevdfCollectRqStats t = (List.finRange NPROC).foldl
        (fun st i => calcSlot st (t i)) { eevdfFindMinVruntime t with sumWeight := 0, avgNumer := 0 } :=
      if_neg he
    rw [calcSlot_foldl _ _ _ (by norm_num) (by norm_num)] at hcol
    rw [hcol]
    simp only [Nat.zero_add]
    exact ⟨by rw [rqWeight, ← sum_finRange_rq], by rw [← sum_finRange_rq]⟩

/-! ### The test -/

/-- The sums of `eevdf_calc_rq_stats` and the products of `eevdf_is_eligible` fit in
64 bits. -/
structure Fits (t : ProcTable) : Prop where
  vruntime : ∀ i ∈ rq t, (t i).vruntime < 2 ^ 64
  weight : rqWeight t < 2 ^ 64
  numer : ∑ i ∈ rq t, ((t i).vruntime - (eevdfCollectRqStats t).v0) * (t i).weight < 2 ^ 64
  prod : ∀ i ∈ rq t, ((t i).vruntime - (eevdfCollectRqStats t).v0) * rqWeight t < 2 ^ 64

theorem Fits.sumWeight (h : Fits t) : (eevdfCollectRqStats t).sumWeight = rqWeight t := by
  rw [(collect_sums t).1, Nat.mod_eq_of_lt h.weight]

theorem Fits.avgNumer (h : Fits t) : (eevdfCollectRqStats t).avgNumer =
    ∑ i ∈ rq t, ((t i).vruntime - (eevdfCollectRqStats t).v0) * (t i).weight := by
  have hle := (collect_min t).2.1
  rw [(collect_sums t).2]
  have hterm : ∀ i ∈ rq t, ((t i).vruntime + 2 ^ 64 - (eevdfCollectRqStats t).v0) % 2 ^ 64 *
      (t i).weight = ((t i).vruntime - (eevdfCollectRqStats t).v0) * (t i).weight := by
    intro i hi
    have hv := h.vruntime i hi
    have h0 := hle i hi
    congr 1
    omega
  rw [sum_congr rfl hterm, Nat.mod_eq_of_lt h.numer]

/-- **The test is exact** when nothing wraps: a process of the run queue is eligible if
its virtual time is at most the weighted average. -/
theorem eligible_iff (h : Fits t) (hw : 0 < rqWeight t) {p : Fin NPROC} (hp : p ∈ rq t) :
    eevdfIsEligible (t p) (eevdfCollectRqStats t) = true ↔
      (t p).vruntime * rqWeight t ≤ rqVirtual t := by
  obtain ⟨hnr, hle, -⟩ := collect_min t
  have hnr' : (eevdfCollectRqStats t).nr ≠ 0 := fun h0 => by
    rw [hnr.1 h0] at hp
    simp at hp
  have hpv := hle p hp
  unfold eevdfIsEligible
  rw [h.sumWeight, h.avgNumer, if_neg (by omega), if_neg (by simpa using mem_rq.1 hp),
    if_neg (by omega), Nat.mod_eq_of_lt (h.prod p hp), decide_eq_true_iff]
  exact sub_mul_le_iff hle hpv

theorem rqWeight_le (hw : ∀ i ∈ rq t, (t i).weight ≤ 88761) : rqWeight t ≤ 5680704 := by
  calc rqWeight t ≤ (rq t).card • 88761 := sum_le_card_nsmul _ _ _ hw
    _ ≤ 64 • 88761 := by
        have : (rq t).card ≤ 64 := by simpa using card_le_univ (rq t)
        simpa using Nat.mul_le_mul_right 88761 this
    _ = 5680704 := by norm_num

/-- If the virtual times of the run queue lie close together, everything fits. -/
theorem fits_of_spread {V : Nat} (hV : V * 5680704 < 2 ^ 64)
    (hv : ∀ i ∈ rq t, (t i).vruntime < 2 ^ 64) (hw : ∀ i ∈ rq t, (t i).weight ≤ 88761)
    (hs : ∀ i ∈ rq t, (t i).vruntime - (eevdfCollectRqStats t).v0 ≤ V) : Fits t := by
  have hW := rqWeight_le hw
  have hVW : V * rqWeight t < 2 ^ 64 := Nat.lt_of_le_of_lt (Nat.mul_le_mul_left V hW) hV
  refine ⟨hv, by omega, ?_, fun i hi => Nat.lt_of_le_of_lt (Nat.mul_le_mul_right _ (hs i hi)) hVW⟩
  refine Nat.lt_of_le_of_lt (sum_le_sum fun i hi => Nat.mul_le_mul_right _ (hs i hi)) ?_
  rwa [← mul_sum]

/-! ### The virtual time used in a run -/

/-- After `n` ticks no virtual time exceeds `n` times the most one tick can cost. -/
structure BoundInv (n : Nat) (s : Kernel) : Prop extends WeightInv s where
  le : ∀ j, (s.proc j).vruntime ≤ n * 68266

theorem eevdfTickDelta_le_of_weight {w : Nat} (hw : 15 ≤ w) : eevdfTickDelta w ≤ 68266 :=
  calc eevdfTickDelta w ≤ 1024000 / 15 := Nat.div_le_div_left hw (by norm_num)
    _ = 68266 := by norm_num

theorem TaskStep.vruntime_le {s : Kernel} {a : Act} {j : Fin NPROC} {t t' : Task} {B : Nat}
    (h : TaskStep s a j t t') (hw : ∀ c, s.cpu c = some j → 15 ≤ t.weight)
    (ht : t.vruntime ≤ B) (hp : ∀ i, (s.proc i).vruntime ≤ B) :
    t'.vruntime ≤ B + a.tickCalls s * 68266 := by
  have hB : B ≤ B + a.tickCalls s * 68266 := Nat.le_add_right _ _
  have htick : ∀ c, s.cpu c = some j → a.tickCalls s = 1 →
      (t.vruntime + eevdfTickDelta t.weight) % 2 ^ 64 ≤ B + a.tickCalls s * 68266 := by
    intro c hc h1
    have hd := eevdfTickDelta_le_of_weight (hw c hc)
    have hmod := Nat.mod_le (t.vruntime + eevdfTickDelta t.weight) (2 ^ 64)
    rw [h1]
    omega
  cases h with
  | same | wake hs => exact Nat.le_trans ht hB
  | kill c ha hk =>
    unfold Task.doomed
    split
    · exact Nat.le_trans ht hB
    · exact Nat.le_trans ht hB
  | renice c value ha hv hu | dispatch hr he => exact Nat.le_trans ht hB
  | tick c ha ht hc hr | yield c ha ht hc hr => exact htick c hc ht
  | sleep c ha hc | exit c ha hc | fault c ha hf hc => exact Nat.le_trans ht hB
  | fork c i ha hc hu => exact Nat.le_trans (hp i) hB
  | free h => exact Nat.zero_le _

theorem BoundInv.fits {n : Nat} {s : Kernel} (hi : BoundInv n s) (hn : n ≤ 2 ^ 25) :
    Fits s.proc ∧ ∀ p ∈ rq s.proc, 0 < (s.proc p).weight := by
  have hon : ∀ i ∈ rq s.proc, (s.proc i).task.state ≠ .unused := by
    intro i hi hu
    rw [mem_rq, eevdfOnRq, show (s.proc i).state = .unused from hu] at hi
    simp at hi
  have hV : ∀ i, (s.proc i).vruntime ≤ 2 ^ 25 * 68266 := fun i =>
    Nat.le_trans (hi.le i) (Nat.mul_le_mul_right _ hn)
  refine ⟨fits_of_spread (V := 2 ^ 25 * 68266) (by norm_num) (fun i _ => ?_)
    (fun i h => ((hi.weighted i).bounds (hon i h)).2) (fun i _ => ?_), fun p hp => ?_⟩
  · have := hV i
    omega
  · have := hV i
    omega
  · have := ((hi.weighted p).bounds (hon p hp)).1
    rw [Proc.task_weight] at this
    omega

section

variable [Image]

theorem BoundInv.step {n : Nat} {s s' : Kernel} {a : Act} (hi : BoundInv n s)
    (h : Xv6.step s a = .ok s') : BoundInv (n + a.tickCalls s) s' := by
  have hm := step_moved hi.cpu h
  refine ⟨hi.toWeightInv.step h, fun j => ?_⟩
  rw [Nat.add_mul]
  refine (hm.task j).vruntime_le (fun c hc => ?_) (hi.le j) hi.le
  refine ((hi.weighted j).bounds ?_).1
  rw [Proc.task_state, hi.cpu.running c j hc]
  simp

theorem booted_boundInv {s : Kernel} (h : Booted s) : BoundInv 0 s := by
  obtain ⟨j, hj, hother⟩ := (booted_tasks h).2
  refine ⟨booted_weightInv h, fun k => ?_⟩
  rw [← Proc.task_vruntime]
  by_cases hk : k = j
  · subst hk
    rw [hj]
    exact Nat.le_refl 0
  · rw [hother k hk]
    exact Nat.le_refl 0

theorem boundInv_of_run {k s : Kernel} {as : List Act} (hb : Booted k)
    (hr : Run step (fun _ _ => True) k as s) :
    BoundInv (runCost step (fun s a => a.tickCalls s) k as) s := by
  have h := hr.invariant_count (fun s a => a.tickCalls s) BoundInv
    (booted_boundInv hb) fun _ _ _ _ hi _ hs => hi.step hs
  rwa [Nat.zero_add] at h

/-- **Eligibility is exact for `2 ^ 25` ticks**: in a run from boot with no more calls of
`eevdf_tick`, no difference, sum or product of `eevdf_calc_rq_stats` and
`eevdf_is_eligible` wraps, the test says exactly that the virtual time is at most the
weighted average of the run queue, and a process with the smallest virtual time passes. -/
theorem eligible_of_run {k s : Kernel} {as : List Act} (hb : Booted k)
    (hr : Run step (fun _ _ => True) k as s)
    (hn : runCost step (fun s a => a.tickCalls s) k as ≤ 2 ^ 25) :
    (∀ i ∈ rq s.proc, (eevdfCollectRqStats s.proc).v0 ≤ (s.proc i).vruntime) ∧
    ((eevdfCollectRqStats s.proc).sumWeight = rqWeight s.proc ∧ rqWeight s.proc < 2 ^ 64) ∧
    ((eevdfCollectRqStats s.proc).avgNumer = ∑ i ∈ rq s.proc,
        ((s.proc i).vruntime - (eevdfCollectRqStats s.proc).v0) * (s.proc i).weight ∧
      ∑ i ∈ rq s.proc,
        ((s.proc i).vruntime - (eevdfCollectRqStats s.proc).v0) * (s.proc i).weight < 2 ^ 64) ∧
    (∀ p ∈ rq s.proc,
      ((s.proc p).vruntime - (eevdfCollectRqStats s.proc).v0) * rqWeight s.proc < 2 ^ 64) ∧
    (∀ p ∈ rq s.proc, eevdfIsEligible (s.proc p) (eevdfCollectRqStats s.proc) = true ↔
      (s.proc p).vruntime * rqWeight s.proc ≤ rqVirtual s.proc) ∧
    ∀ p ∈ rq s.proc, (∀ i ∈ rq s.proc, (s.proc p).vruntime ≤ (s.proc i).vruntime) →
      eevdfIsEligible (s.proc p) (eevdfCollectRqStats s.proc) = true := by
  obtain ⟨hf, hpos⟩ := (boundInv_of_run hb hr).fits hn
  have hW : ∀ p ∈ rq s.proc, 0 < rqWeight s.proc := fun p hp =>
    sum_pos' (fun i _ => Nat.zero_le _) ⟨p, hp, hpos p hp⟩
  refine ⟨(collect_min s.proc).2.1, ⟨hf.sumWeight, hf.weight⟩, ⟨hf.avgNumer, hf.numer⟩, hf.prod,
    fun p hp => eligible_iff hf (hW p hp) hp, fun p hp hmin => ?_⟩
  exact (eligible_iff hf (hW p hp) hp).2 (min_mul_le hmin)

end

/-- The first process forks, makes the other less important, and uses two ticks. -/
def twoWeights (c : Fin NCPU) : List Act :=
  [.schedule c, .forkret c (some 0), .fork c, .setnice c 2 25, .userTimer c, .userTimer c]

/-- It is ahead of the average then, and the other one is not. -/
theorem eligible_of_run_two : ∃ s : Kernel,
    Run (@step smallImage) (fun _ _ => True) smallKernel (twoWeights 0) s ∧
    (s.proc 0).weight = 1024 ∧ (s.proc 1).weight = 335 ∧
    ¬ (s.proc 0).vruntime * rqWeight s.proc ≤ rqVirtual s.proc ∧
    (s.proc 1).vruntime * rqWeight s.proc ≤ rqVirtual s.proc := by
  have hcost : runCost (@step smallImage) (fun s a => a.tickCalls s) smallKernel (twoWeights 0) = 2 := by
    decide +kernel
  obtain ⟨s, hr, hp⟩ := exists_run (@step smallImage) (fun _ _ => true)
    (fun s => decide ((s.proc 0).weight = 1024 ∧ (s.proc 1).weight = 335 ∧ eevdfOnRq (s.proc 0) = true ∧
      eevdfOnRq (s.proc 1) = true ∧ ¬ eevdfIsEligible (s.proc 0) (eevdfCollectRqStats s.proc) = true ∧
      eevdfIsEligible (s.proc 1) (eevdfCollectRqStats s.proc) = true)) smallKernel (twoWeights 0)
    (by decide +kernel)
  obtain ⟨hw0, hw1, hon0, hon1, he0, he1⟩ := of_decide_eq_true hp
  have hr' := hr.mono fun _ _ _ => trivial
  have hiff := (@eligible_of_run smallImage _ _ _ booted_small hr' (by rw [hcost]; norm_num)).2.2.2.2.1
  exact ⟨s, hr', hw0, hw1, fun hle => he0 ((hiff 0 (mem_rq.2 hon0)).2 hle), (hiff 1 (mem_rq.2 hon1)).1 he1⟩

end Xv6
