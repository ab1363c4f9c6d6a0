import Xv6.Sched.Pass

/-!
# The choice of a process

A pass of `scheduler` that nothing interferes with, with the locks of the slots: the two loops for the
statistics take and give back one lock after the other, and the selection keeps the lock of the best
candidate while it looks at the next slot.  The pass is `schedulerPass`, and at its end it holds the lock
of the process that it dispatches.

The choice is followed slot by slot: after `k` slots the candidate is the first among the smallest
deadlines of the processes seen (`Chosen`).
-/

namespace Xv6

open Xv6.Lib Finset

/-! ### The pass with its locks -/

/-- The slots whose lock this CPU holds. -/
abbrev Locks : Type := Fin NPROC → Bool

/-- `acquire`, which panics on a lock that is held. -/
def acquireSlot (l : Locks) (i : Fin NPROC) : Option Locks := if l i then none else some (upd l i true)

/-- `release`, which panics on a lock that is not held. -/
def releaseSlot (l : Locks) (i : Fin NPROC) : Option Locks := if l i then some (upd l i false) else none

/-- A round of a loop for the statistics. -/
def statSlot (f : RqStats → Proc → RqStats) (t : ProcTable) (x : RqStats × Locks) (i : Fin NPROC) :
    Option (RqStats × Locks) := do
  let l ← acquireSlot x.2 i
  let st := f x.1 (t i)
  let l ← releaseSlot l i
  pure (st, l)

/-- `eevdf_collect_rq_stats`, with the locks. -/
def collectLocked (t : ProcTable) (l : Locks) : Option (RqStats × Locks) := do
  let (st, l) ← (List.finRange NPROC).foldlM (statSlot findMinSlot t) ({}, l)
  let st := { st with sumWeight := 0, avgNumer := 0 }
  if st.nr = 0 then pure (st, l)
  else (List.finRange NPROC).foldlM (statSlot calcSlot t) (st, l)

/-- The selection under way. -/
structure Scan where
  best : Option (Fin NPROC)
  table : ProcTable
  locks : Locks

/-- A round of the selection loop; a new candidate keeps its lock. -/
def scanSlot (st : RqStats) (s : Scan) (i : Fin NPROC) : Option Scan := do
  let l ← acquireSlot s.locks i
  let p := s.table i
  if p.state = .runnable then
    let e := eevdfIsEligible p st
    let t := upd s.table i { p with eligible := e }
    if e then
      match s.best with
      | none => pure ⟨some i, t, l⟩
      | some b =>
        if p.vdeadline < (t b).vdeadline then do
          let l ← releaseSlot l b
          pure ⟨some i, t, l⟩
        else do
          let l ← releaseSlot l i
          pure ⟨some b, t, l⟩
    else do
      let l ← releaseSlot l i
      pure ⟨s.best, t, l⟩
  else do
    let l ← releaseSlot l i
    pure ⟨s.best, upd s.table i { p with eligible := false }, l⟩

/-- A pass of `scheduler` up to the end of the selection. -/
def schedulerScan (t : ProcTable) : Option Scan := do
  let (st, l) ← collectLocked t fun _ => false
  (List.finRange NPROC).foldlM (scanSlot st) ⟨none, t, l⟩

/-! ### The locks -/

/-- The lock of the candidate, and no other. -/
def lockOf (best : Option (Fin NPROC)) : Locks := fun i => decide (best = some i)

variable {i : Fin NPROC} {t : ProcTable}

theorem acquireSlot_free {l : Locks} (h : l i = false) : acquireSlot l i = some (upd l i true) := by
  unfold acquireSlot
  rw [h]
  rfl

theorem releaseSlot_held (l : Locks) (i : Fin NPROC) : releaseSlot (upd l i true) i = some (upd l i false) := by
  unfold releaseSlot
  rw [upd_same, upd_upd]
  rfl

theorem upd_lock_free {l : Locks} (h : l i = false) : upd l i false = l := by
  rw [← h]
  exact upd_self l i

theorem statSlot_free (f : RqStats → Proc → RqStats) (t : ProcTable) (st : RqStats) {l : Locks}
    (h : l i = false) : statSlot f t (st, l) i = some (f st (t i), l) := by
  unfold statSlot
  rw [acquireSlot_free h]
  dsimp only [Option.bind_eq_bind, Option.bind_some]
  rw [releaseSlot_held, upd_lock_free h]
  rfl

theorem statSlot_foldlM (f : RqStats → Proc → RqStats) (t : ProcTable) (is : List (Fin NPROC)) (st : RqStats) :
    is.foldlM (statSlot f t) (st, fun _ => false) =
      some (is.foldl (fun st i => f st (t i)) st, fun _ => false) := by
  induction is generalizing st with
  | nil => rfl
  | cons i is ih =>
    rw [List.foldlM_cons, statSlot_free f t st rfl, List.foldl_cons]
    exact ih (f st (t i))

theorem collectLocked_eq (t : ProcTable) :
    collectLocked t (fun _ => false) = some (eevdfCollectRqStats t, fun _ => false) := by
  unfold collectLocked
  rw [statSlot_foldlM]
  show (if (eevdfFindMinVruntime t).nr = 0 then _ else _) = some (eevdfCalcRqStats t (eevdfFindMinVruntime t), _)
  unfold eevdfCalcRqStats
  by_cases hnr : (eevdfFindMinVruntime t).nr = 0
  · rw [if_pos hnr, if_pos hnr]
    rfl
  · rw [if_neg hnr, if_neg hnr, statSlot_foldlM]
    rfl

theorem lockOf_other {best : Option (Fin NPROC)} (h : best ≠ some i) : lockOf best i = false :=
  decide_eq_false h

theorem lockOf_some (i : Fin NPROC) : lockOf (some i) = upd (lockOf none) i true := by
  funext j
  unfold lockOf
  rw [upd_apply]
  by_cases hj : j = i
  · subst hj
    simp
  · simp [hj, Ne.symm hj]

theorem upd_lockOf {b i : Fin NPROC} (h : b ≠ i) :
    releaseSlot (upd (lockOf (some b)) i true) b = some (lockOf (some i)) := by
  have hb : upd (lockOf (some b)) i true b = true := by
    rw [upd_other _ _ h]
    exact decide_eq_true rfl
  unfold releaseSlot
  rw [hb, if_pos rfl, lockOf_some, lockOf_some, upd_comm _ h, upd_upd, upd_comm _ h.symm]
  congr 2
  exact upd_lock_free rfl

theorem scanSlot_eq (st : RqStats) {best : Option (Fin NPROC)} (t : ProcTable) (h : best ≠ some i) :
    scanSlot st ⟨best, t, lockOf best⟩ i =
      some ⟨(selectSlot st (best, t) i).1, (selectSlot st (best, t) i).2, lockOf (selectSlot st (best, t) i).1⟩ := by
  have hfree := lockOf_other h
  unfold scanSlot selectSlot
  rw [acquireSlot_free hfree]
  dsimp only [Option.bind_eq_bind, Option.bind_some]
  rw [releaseSlot_held, upd_lock_free hfree]
  by_cases hr : (t i).state = .runnable
  · rw [if_pos hr, if_pos hr]
    by_cases he : eevdfIsEligible (t i) st = true
    · rw [if_pos he, if_pos he]
      rcases best with - | b
      · rw [lockOf_some]
        rfl
      · have hbi : b ≠ i := fun hc => h (congrArg some hc)
        dsimp only
        rw [upd_other _ _ hbi, upd_lockOf hbi]
        by_cases hlt : (t i).vdeadline < (t b).vdeadline
        · rw [if_pos hlt, if_pos hlt]
          rfl
        · rw [if_neg hlt, if_neg hlt]
          rfl
    · rw [if_neg he, if_neg he]
      rfl
  · rw [if_neg hr, if_neg hr]
    rfl

/-! ### The choice -/

/-- A process that the selection may choose. -/
def Wanted (t : ProcTable) (st : RqStats) (i : Fin NPROC) : Prop :=
  (t i).state = .runnable ∧ eevdfIsEligible (t i) st = true

instance (t : ProcTable) (st : RqStats) (i : Fin NPROC) : Decidable (Wanted t st i) :=
  inferInstanceAs (Decidable (_ ∧ _))

/-- The first of the smallest deadlines among the first `k` slots. -/
structure Earliest (t : ProcTable) (st : RqStats) (k : Nat) (b : Fin NPROC) : Prop where
  lt : b.val < k
  wanted : Wanted t st b
  least : ∀ j : Fin NPROC, j.val < k → Wanted t st j → (t b).vdeadline ≤ (t j).vdeadline
  first : ∀ j, j < b → Wanted t st j → (t b).vdeadline < (t j).vdeadline

/-- The selection after `k` slots. -/
structure Chosen (t : ProcTable) (st : RqStats) (k : Nat) (bt : Option (Fin NPROC) × ProcTable) : Prop where
  table : ∀ j : Fin NPROC, bt.2 j = if j.val < k then { t j with eligible := decide (Wanted t st j) } else t j
  unchosen : bt.1 = none → ∀ j : Fin NPROC, j.val < k → ¬ Wanted t st j
  chosen : ∀ b, bt.1 = some b → Earliest t st k b

theorem Earliest.skip {st : RqStats} {k : Nat} {b : Fin NPROC} (h : Earliest t st k b)
    (hk : k < NPROC) (hnot : Wanted t st ⟨k, hk⟩ → (t b).vdeadline ≤ (t ⟨k, hk⟩).vdeadline) :
    Earliest t st (k + 1) b := by
  refine ⟨Nat.lt_succ_of_lt h.lt, h.wanted, fun j hj hw => ?_, h.first⟩
  rcases Nat.eq_or_lt_of_le (Nat.le_of_lt_succ hj) with heq | hlt
  · obtain rfl : j = ⟨k, hk⟩ := Fin.ext heq
    exact hnot hw
  · exact h.least j hlt hw

theorem Chosen.zero (t : ProcTable) (st : RqStats) : Chosen t st 0 (none, t) :=
  ⟨fun _ => rfl, fun _ j hj => absurd hj (Nat.not_lt_zero _), by rintro _ ⟨⟩⟩

/-- **One slot.** -/
theorem Chosen.step {st : RqStats} {k : Nat} {bt : Option (Fin NPROC) × ProcTable}
    (h : Chosen t st k bt) (hk : k < NPROC) : Chosen t st (k + 1) (selectSlot st bt ⟨k, hk⟩) := by
  obtain ⟨best, t'⟩ := bt
  have hcur : t' ⟨k, hk⟩ = t ⟨k, hk⟩ := (h.table ⟨k, hk⟩).trans (if_neg (Nat.lt_irrefl k))
  have hdl : ∀ b : Fin NPROC, (t' b).vdeadline = (t b).vdeadline := by
    intro b
    have hb : t' b = _ := h.table b
    rw [hb]
    split
    · rfl
    · rfl
  -- the flags of the slots seen, in all cases
  have htable : ∀ e, e = decide (Wanted t st ⟨k, hk⟩) → ∀ j : Fin NPROC,
      upd t' ⟨k, hk⟩ { t ⟨k, hk⟩ with eligible := e } j =
        if j.val < k + 1 then { t j with eligible := decide (Wanted t st j) } else t j := by
    intro e he j
    rw [upd_apply]
    by_cases hj : j = ⟨k, hk⟩
    · subst hj
      rw [if_pos rfl, if_pos (Nat.lt_succ_self k), he]
    · have hjk : j.val ≠ k := fun hc => hj (Fin.ext hc)
      have hiff : j.val < k + 1 ↔ j.val < k := by omega
      rw [if_neg hj]
      simp only [hiff]
      exact h.table j
  -- a slot that is not wanted leaves the candidate as it is
  have hskip : ¬ Wanted t st ⟨k, hk⟩ →
      Chosen t st (k + 1) (best, upd t' ⟨k, hk⟩ { t ⟨k, hk⟩ with eligible := false }) := by
    intro hno
    refine ⟨htable false (decide_eq_false hno).symm, fun hb j hj => ?_, fun b hb => ?_⟩
    · rcases Nat.eq_or_lt_of_le (Nat.le_of_lt_succ hj) with heq | hlt
      · obtain rfl : j = ⟨k, hk⟩ := Fin.ext heq
        exact hno
      · exact h.unchosen hb j hlt
    · exact (h.chosen b hb).skip hk fun hw => absurd hw hno
  unfold selectSlot
  dsimp only
  rw [hcur]
  by_cases hr : (t ⟨k, hk⟩).state = .runnable
  · rw [if_pos hr]
    by_cases he : eevdfIsEligible (t ⟨k, hk⟩) st = true
    · have hw : Wanted t st ⟨k, hk⟩ := ⟨hr, he⟩
      rw [if_pos he, he]
      rcases best with - | b
      · refine ⟨htable true (decide_eq_true hw).symm, by rintro ⟨⟩, ?_⟩
        rintro _ ⟨⟩
        refine ⟨Nat.lt_succ_self k, hw, fun j hj hwj => ?_, fun j hj hwj => ?_⟩
        · rcases Nat.eq_or_lt_of_le (Nat.le_of_lt_succ hj) with heq | hlt
          · obtain rfl : j = ⟨k, hk⟩ := Fin.ext heq
            exact Nat.le_refl _
          · exact absurd hwj (h.unchosen rfl j hlt)
        · exact absurd hwj (h.unchosen rfl j hj)
      · have hb := h.chosen b rfl
        dsimp only
        rw [hdl b]
        by_cases hlt : (t ⟨k, hk⟩).vdeadline < (t b).vdeadline
        · rw [if_pos hlt]
          refine ⟨htable true (decide_eq_true hw).symm, by rintro ⟨⟩, ?_⟩
          rintro _ ⟨⟩
          have hless : ∀ j : Fin NPROC, j.val < k → Wanted t st j →
              (t ⟨k, hk⟩).vdeadline < (t j).vdeadline :=
            fun j hj hwj => Nat.lt_of_lt_of_le hlt (hb.least j hj hwj)
          refine ⟨Nat.lt_succ_self k, hw, fun j hj hwj => ?_, hless⟩
          rcases Nat.eq_or_lt_of_le (Nat.le_of_lt_succ hj) with heq | hj'
          · obtain rfl : j = ⟨k, hk⟩ := Fin.ext heq
            exact Nat.le_refl _
          · exact Nat.le_of_lt (hless j hj' hwj)
        · rw [if_neg hlt]
          refine ⟨htable true (decide_eq_true hw).symm, by rintro ⟨⟩, ?_⟩
          rintro _ ⟨⟩
          exact hb.skip hk fun _ => Nat.le_of_not_lt hlt
    · have he' : eevdfIsEligible (t ⟨k, hk⟩) st = false := by simpa using he
      rw [if_neg he, he']
      exact hskip fun hw => he hw.2
  · rw [if_neg hr]
    exact hskip fun hw => hr hw.1

theorem Chosen.take (t : ProcTable) (st : RqStats) (k : Nat) (hk : k ≤ NPROC) :
    Chosen t st k (((List.finRange NPROC).take k).foldl (selectSlot st) (none, t)) := by
  induction k with
  | zero => exact .zero t st
  | succ k ih =>
    rw [take_finRange_succ hk, List.foldl_append]
    exact (ih (Nat.le_of_succ_le hk)).step hk

theorem scan_take (t : ProcTable) (st : RqStats) (k : Nat) (hk : k ≤ NPROC) :
    ((List.finRange NPROC).take k).foldlM (scanSlot st) ⟨none, t, fun _ => false⟩ =
      some ⟨(((List.finRange NPROC).take k).foldl (selectSlot st) (none, t)).1,
        (((List.finRange NPROC).take k).foldl (selectSlot st) (none, t)).2,
        lockOf (((List.finRange NPROC).take k).foldl (selectSlot st) (none, t)).1⟩ := by
  induction k with
  | zero => rfl
  | succ k ih =>
    have hchosen := Chosen.take t st k (Nat.le_of_succ_le hk)
    rw [take_finRange_succ hk, List.foldlM_append, List.foldl_append, ih (Nat.le_of_succ_le hk)]
    generalize ((List.finRange NPROC).take k).foldl (selectSlot st) (none, t) = bt at hchosen ⊢
    obtain ⟨best, t'⟩ := bt
    -- the candidate is a slot that was visited before
    have hne : best ≠ some ⟨k, hk⟩ := fun hb => absurd (hchosen.chosen _ hb).lt (Nat.lt_irrefl k)
    dsimp only [Option.bind_eq_bind, Option.bind_some]
    rw [List.foldlM_cons, scanSlot_eq st t' hne]
    rfl

theorem schedulerScan_eq (t : ProcTable) : ∃ bt,
    schedulerScan t = some ⟨bt.1, bt.2, lockOf bt.1⟩ ∧ (schedulerPass t).1 = bt.1 ∧
    Chosen t (eevdfCollectRqStats t) NPROC bt := by
  have hlen : (List.finRange NPROC).take NPROC = List.finRange NPROC := List.take_of_length_le (by simp)
  have hscan := scan_take t (eevdfCollectRqStats t) NPROC (Nat.le_refl _)
  have hchosen := Chosen.take t (eevdfCollectRqStats t) NPROC (Nat.le_refl _)
  rw [hlen] at hscan hchosen
  unfold schedulerScan schedulerPass
  rw [collectLocked_eq]
  dsimp only [Option.bind_eq_bind, Option.bind_some]
  rw [hscan]
  generalize (List.finRange NPROC).foldl (selectSlot (eevdfCollectRqStats t)) (none, t) = bt at hchosen ⊢
  obtain ⟨_ | b, t'⟩ := bt
  · exact ⟨_, rfl, rfl, hchosen⟩
  · exact ⟨_, rfl, rfl, hchosen⟩

/-- The process with the smallest virtual time is eligible when the run queue has a weight. -/
theorem eligible_of_min (hi : i ∈ rq t) (hv : (t i).vruntime = (eevdfCollectRqStats t).v0)
    (hw : (eevdfCollectRqStats t).sumWeight ≠ 0) :
    eevdfIsEligible (t i) (eevdfCollectRqStats t) = true := by
  have hnr : (eevdfCollectRqStats t).nr ≠ 0 := by
    intro h0
    rw [(collect_min t).1.1 h0] at hi
    exact absurd hi (Finset.notMem_empty i)
  have hon := mem_rq.1 hi
  unfold eevdfIsEligible
  rw [if_neg (by omega), hon, hv, Nat.sub_self, Nat.zero_mul, Nat.zero_mod]
  simp

/-- **Selection.**  A pass that nothing interferes with ends its scan with the lock of the process that
it dispatches and no other, and with the flag `eligible` set exactly for the processes that are runnable
and eligible; what it dispatches is the first of those with the smallest deadline.  When nothing runs
and some process that is runnable has a weight, there is one. -/
theorem scheduler_selects (t : ProcTable) : ∃ s, schedulerScan t = some s ∧ (schedulerPass t).1 = s.best ∧
    (∀ i, s.locks i = true ↔ s.best = some i) ∧
    (∀ i, (s.table i).eligible = true ↔
      (t i).state = .runnable ∧ eevdfIsEligible (t i) (eevdfCollectRqStats t) = true) ∧
    (∀ b, s.best = some b →
      ((t b).state = .runnable ∧ eevdfIsEligible (t b) (eevdfCollectRqStats t) = true) ∧
      ∀ j, (t j).state = .runnable → eevdfIsEligible (t j) (eevdfCollectRqStats t) = true →
        (t b).vdeadline ≤ (t j).vdeadline ∧ (j < b → (t b).vdeadline < (t j).vdeadline)) ∧
    ((∀ i, (t i).state ≠ .running) → (∃ i, (t i).state = .runnable ∧ 0 < (t i).weight) →
      rqWeight t < 2 ^ 64 → ∃ b, s.best = some b) := by
  obtain ⟨⟨best, t'⟩, hscan, hpass, hchosen⟩ := schedulerScan_eq t
  refine ⟨_, hscan, hpass, fun i => decide_eq_true_iff, fun i => ?_, fun b hb => ?_, fun hrun hex hfit => ?_⟩
  · have hi : t' i = _ := hchosen.table i
    show (t' i).eligible = true ↔ _
    rw [hi, if_pos i.isLt]
    exact decide_eq_true_iff
  · have hearly := hchosen.chosen b hb
    exact ⟨hearly.wanted, fun j hr he => ⟨hearly.least j j.isLt ⟨hr, he⟩, fun hj => hearly.first j hj ⟨hr, he⟩⟩⟩
  · obtain ⟨i, hr, hw⟩ := hex
    have hi : i ∈ rq t := by
      rw [mem_rq, eevdfOnRq, hr]
      rfl
    have hpos : 0 < rqWeight t :=
      Nat.lt_of_lt_of_le hw (single_le_sum (f := fun i => (t i).weight) (fun _ _ => Nat.zero_le _) hi)
    have hsum : (eevdfCollectRqStats t).sumWeight ≠ 0 := by
      rw [(collect_sums t).1, Nat.mod_eq_of_lt hfit]
      omega
    obtain ⟨m, hm, hv⟩ := (collect_min t).2.2 ⟨i, hi⟩
    have hmr : (t m).state = .runnable := by
      have hon := mem_rq.1 hm
      rw [eevdfOnRq, Bool.or_eq_true, beq_iff_eq, beq_iff_eq] at hon
      exact hon.resolve_right (hrun m)
    rcases best with - | b
    · exact absurd ⟨hmr, eligible_of_min hm hv hsum⟩ (hchosen.unchosen rfl m m.isLt)
    · exact ⟨b, rfl⟩

/-- Three processes that are runnable: the first is ahead of the others, and of these the second has the
earlier deadline. -/
def threeRunnable : ProcTable := fun i =>
  if i = 0 then { state := .runnable, weight := 1024, vruntime := 5000, vdeadline := 600 }
  else if i = 3 then { state := .runnable, weight := 335, vruntime := 10, vdeadline := 9000 }
  else if i = 5 then { state := .runnable, weight := 3121, vruntime := 20, vdeadline := 700 }
  else {}

theorem scheduler_selects_three : ∃ s, schedulerScan threeRunnable = some s ∧ s.best = some 5 ∧
    (s.table 0).eligible = false ∧ ∀ j, (threeRunnable j).state = .runnable →
      eevdfIsEligible (threeRunnable j) (eevdfCollectRqStats threeRunnable) = true →
        700 ≤ (threeRunnable j).vdeadline := by
  obtain ⟨s, hscan, hpass, -, hflag, hbest, hex⟩ := scheduler_selects threeRunnable
  obtain ⟨b, hb⟩ := hex (by decide +kernel) ⟨5, rfl, by decide⟩ (by decide +kernel)
  have h5 : (schedulerPass threeRunnable).1 = some 5 := by decide +kernel
  obtain rfl : 5 = b := Option.some.inj (h5.symm.trans (hpass.trans hb))
  refine ⟨s, hscan, hb, ?_, fun j hr he => ((hbest 5 hb).2 j hr he).1⟩
  rw [← Bool.not_eq_true, hflag 0]
  decide +kernel

/-- One process that is runnable, with the weight `w`. -/
def oneRunnable (w : Nat) : ProcTable := fun i => if i = 0 then { state := .runnable, weight := w } else {}

/-- **A process without weight** is not dispatched, though it is the only one and runnable. -/
theorem weightless_not_dispatched : (∀ i, (oneRunnable 0 i).state ≠ .running) ∧
    (oneRunnable 0 0).state = .runnable ∧ Fits (oneRunnable 0) ∧ (schedulerPass (oneRunnable 0)).1 = none :=
  ⟨by decide +kernel, rfl, ⟨by decide +kernel, by decide +kernel, by decide +kernel, by decide +kernel⟩,
    by decide +kernel⟩

end Xv6
