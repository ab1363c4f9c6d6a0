import Xv6.Lib.Ends
import Xv6.Sched.Eligible

/-!
# A pass of the scheduler with interrupts

`scheduler` goes through the process table three times: for the smallest virtual time,
for the sums, and for the selection.  It holds the lock of the slot it looks at, and in
the third loop also the lock of the best candidate so far; whenever it holds no lock
interrupts are on, and a handler may call `wakeup`.  So the statistics are no snapshot.

* `passStep`: the pass, one slot or one interrupt at a time;
* `visits_eq_schedulerPass`: without interrupts this is `schedulerPass`;
* `wakeup_dispatches_late`: a sleeper with a small virtual time, woken between the first
  two loops, makes `avg_numer` wrap and every process eligible;
* `pass_eligible`: when no wakeup in the first two loops does this, and none of them
  falls behind the second loop, the process dispatched was eligible at the moment the
  sums were complete.
-/

namespace Xv6

open Xv6.Lib Finset

/-! ### The pass, slot by slot -/

/-- The loop a pass is in. -/
inductive PassLoop
  | findMin | calc | select | done
  deriving DecidableEq, Repr

/-- A pass of `scheduler` under way: the loop, the slot it looks at next, the
statistics, the candidate and the table. -/
structure Pass where
  loop : PassLoop := .findMin
  next : Nat := 0
  st : RqStats := {}
  best : Option (Fin NPROC) := none
  table : ProcTable

/-- What can happen in a pass: the loop goes on, or the handler of an interrupt wakes
the processes that sleep on `chan`. -/
inductive PassEvent
  | visit
  | intr (chan : Nat)
  deriving DecidableEq, Repr

/-- The loop goes on: it looks at its next slot, or ends. -/
def Pass.visit (s : Pass) : Except Unit Pass :=
  match s.loop with
  | .findMin =>
    if h : s.next < NPROC then
      .ok { s with next := s.next + 1, st := findMinSlot s.st (s.table ⟨s.next, h⟩) }
    else
      .ok { s with
        loop := if s.st.nr = 0 then .select else .calc
        next := 0
        st := { s.st with sumWeight := 0, avgNumer := 0 } }
  | .calc =>
    if h : s.next < NPROC then
      .ok { s with next := s.next + 1, st := calcSlot s.st (s.table ⟨s.next, h⟩) }
    else .ok { s with loop := .select, next := 0 }
  | .select =>
    if h : s.next < NPROC then
      let bt := selectSlot s.st (s.best, s.table) ⟨s.next, h⟩
      .ok { s with next := s.next + 1, best := bt.1, table := bt.2 }
    else
      match s.best with
      | none => .ok { s with loop := .done }
      | some b =>
        .ok { s with loop := .done, table := upd s.table b { s.table b with state := .running } }
  | .done => .error ()

/-- One event of a pass.  While the lock of a candidate is held interrupts are off, and
the handler runs without a current process. -/
def passStep (s : Pass) : PassEvent → Except Unit Pass
  | .visit => s.visit
  | .intr chan =>
    if s.best = none ∧ s.loop ≠ .done then .ok { s with table := wakeup none chan s.table }
    else .error ()

/-- The process a pass has dispatched. -/
def Pass.dispatched (s : Pass) : Option (Fin NPROC) := if s.loop = .done then s.best else none

/-- The loops can take in a process that wakes up in slot `i`: a process behind the first
loop is not below the minimum recorded, and behind the second loop none wakes up. -/
def Pass.TakesIn (s : Pass) (i : Fin NPROC) : Prop :=
  match s.loop with
  | .findMin => s.next ≤ i.val ∨ (s.st.nr ≠ 0 ∧ s.st.v0 ≤ (s.table i).vruntime)
  | .calc => s.next ≤ i.val ∧ s.st.v0 ≤ (s.table i).vruntime
  | .select | .done => True

instance (s : Pass) (i : Fin NPROC) : Decidable (s.TakesIn i) := by
  unfold Pass.TakesIn
  exact match s.loop with
    | .findMin => inferInstanceAs (Decidable (_ ∨ _))
    | .calc => inferInstanceAs (Decidable (_ ∧ _))
    | .select | .done => inferInstanceAs (Decidable True)

/-- The interrupt wakes only processes that the loops can take in. -/
def Pass.Harmless (s : Pass) : PassEvent → Prop
  | .visit => True
  | .intr chan => ∀ i, (s.table i).state = .sleeping ∧ (s.table i).chan = chan → s.TakesIn i

instance (s : Pass) : (e : PassEvent) → Decidable (s.Harmless e)
  | .visit => inferInstanceAs (Decidable True)
  | .intr _ => inferInstanceAs (Decidable (∀ _, _ → _))

/-- The process in slot `b` is eligible in the table `t`: its virtual time is at most the
weighted average of the processes that are runnable or running. -/
def EligibleIn (t : ProcTable) (b : Fin NPROC) : Prop :=
  0 < rqWeight t ∧ (t b).vruntime * rqWeight t ≤ rqVirtual t

instance (t : ProcTable) (b : Fin NPROC) : Decidable (EligibleIn t b) :=
  inferInstanceAs (Decidable (_ ∧ _))

/-! ### Without interrupts -/

theorem take_finRange_succ {n k : Nat} (h : k < n) :
    (List.finRange n).take (k + 1) = (List.finRange n).take k ++ [⟨k, h⟩] := by
  rw [List.take_succ_eq_append_getElem (by simpa using h)]
  simp

theorem visits_run {α : Type} (mk : Nat → α → Pass) (f : α → Fin NPROC → α)
    (hvisit : ∀ k (h : k < NPROC) x, (mk k x).visit = .ok (mk (k + 1) (f x ⟨k, h⟩))) (x : α)
    {k : Nat} (hk : k ≤ NPROC) :
    Run passStep Pass.Harmless (mk 0 x) (List.replicate k .visit)
      (mk k (((List.finRange NPROC).take k).foldl f x)) := by
  induction k with
  | zero => exact .nil _
  | succ k ih =>
    rw [List.replicate_succ', take_finRange_succ hk, List.foldl_append]
    exact (ih (Nat.le_of_succ_le hk)).append (.cons trivial (hvisit k hk _) (.nil _))

theorem loop_run {α : Type} (mk : Nat → α → Pass) (f : α → Fin NPROC → α)
    (hvisit : ∀ k (h : k < NPROC) x, (mk k x).visit = .ok (mk (k + 1) (f x ⟨k, h⟩))) (x : α)
    {t : Pass} (hend : (mk NPROC ((List.finRange NPROC).foldl f x)).visit = .ok t) :
    Run passStep Pass.Harmless (mk 0 x) (List.replicate (NPROC + 1) .visit) t := by
  have h := visits_run mk f hvisit x (Nat.le_refl NPROC)
  rw [List.take_of_length_le (by simp)] at h
  rw [List.replicate_succ']
  exact h.append (.cons trivial hend (.nil _))

variable {st : RqStats} {chan : Nat} {i : Fin NPROC} {t : ProcTable} {s : Pass}

theorem select_run {t t' : ProcTable} {best : Option (Fin NPROC)}
    (h : (List.finRange NPROC).foldl (selectSlot st) (none, t) = (best, t')) : ∃ d : Pass,
    Run passStep Pass.Harmless { loop := .select, st := st, table := t }
      (List.replicate (NPROC + 1) .visit) d ∧ d.loop = .done ∧ d.best = best ∧
    d.table = match best with
      | none => t'
      | some b => upd t' b { t' b with state := .running } := by
  have hrun := fun d => loop_run (t := d)
    (fun k (bt : Option (Fin NPROC) × ProcTable) =>
      { loop := .select, next := k, st := st, best := bt.1, table := bt.2 })
    (selectSlot st) (fun k hk bt => dif_pos hk) (none, t)
  rw [h] at hrun
  cases best with
  | none | some b => exact ⟨_, hrun _ rfl, rfl, rfl, rfl⟩

theorem collect_run (t : ProcTable) : ∃ n : Nat,
    Run passStep Pass.Harmless { table := t } (List.replicate n .visit)
      { loop := .select, st := eevdfCollectRqStats t, table := t } := by
  have hmin := loop_run (fun k st => { next := k, st := st, table := t })
    (fun st i => findMinSlot st (t i)) (fun k hk st => dif_pos hk) {} (t := {
      loop := if (eevdfFindMinVruntime t).nr = 0 then .select else .calc
      st := { eevdfFindMinVruntime t with sumWeight := 0, avgNumer := 0 }
      table := t }) rfl
  by_cases hnr : (eevdfFindMinVruntime t).nr = 0
  · have hcol : eevdfCollectRqStats t =
        { eevdfFindMinVruntime t with sumWeight := 0, avgNumer := 0 } := if_pos hnr
    rw [if_pos hnr, ← hcol] at hmin
    exact ⟨_, hmin⟩
  · have hcol : eevdfCollectRqStats t = (List.finRange NPROC).foldl
        (fun st i => calcSlot st (t i))
        { eevdfFindMinVruntime t with sumWeight := 0, avgNumer := 0 } := if_neg hnr
    have hcalc := loop_run (fun k st => { loop := .calc, next := k, st := st, table := t })
      (fun st i => calcSlot st (t i)) (fun k hk st => dif_pos hk)
      { eevdfFindMinVruntime t with sumWeight := 0, avgNumer := 0 }
      (t := { loop := .select, st := eevdfCollectRqStats t, table := t }) (by rw [hcol]; rfl)
    rw [if_neg hnr] at hmin
    refine ⟨NPROC + 1 + (NPROC + 1), ?_⟩
    rw [List.replicate_add]
    exact hmin.append hcalc

/-- **Without interrupts** the three loops are `schedulerPass`. -/
theorem visits_eq_schedulerPass (t : ProcTable) : ∃ (n : Nat) (d : Pass),
    Run passStep Pass.Harmless { table := t } (List.replicate n .visit) d ∧ d.loop = .done ∧
    (d.best, d.table) = schedulerPass t := by
  obtain ⟨n, hcollect⟩ := collect_run t
  rcases hsel : (List.finRange NPROC).foldl (selectSlot (eevdfCollectRqStats t)) (none, t) with
    ⟨best, t'⟩
  obtain ⟨d, hrun, hdone, hbest, htable⟩ := select_run hsel
  refine ⟨n + (NPROC + 1), d, ?_, hdone, ?_⟩
  · rw [List.replicate_add]
    exact hcollect.append hrun
  · unfold schedulerPass
    dsimp only
    rw [hsel, hbest, htable]
    cases best with
    | none | some b => rfl

/-! ### Wakeups and the selection -/

theorem wakeup_vruntime (chan : Nat) (t : ProcTable) (i : Fin NPROC) :
    (wakeup none chan t i).vruntime = (t i).vruntime := by
  unfold wakeup wakeSlot eevdfRefreshDeadline
  split
  · rfl
  · split <;> rfl

theorem wakeup_weight (chan : Nat) (t : ProcTable) (i : Fin NPROC) :
    (wakeup none chan t i).weight = (t i).weight := by
  unfold wakeup wakeSlot eevdfRefreshDeadline
  split
  · rfl
  · split <;> rfl

theorem onRq_wakeup (h : eevdfOnRq (wakeup none chan t i) = true) :
    eevdfOnRq (t i) = true ∨ ((t i).state = .sleeping ∧ (t i).chan = chan) := by
  unfold wakeup wakeSlot at h
  rw [if_neg (by simp)] at h
  split at h
  · exact .inr ‹_›
  · exact .inl h

theorem onRq_wakeup_of_onRq (h : eevdfOnRq (t i) = true) :
    eevdfOnRq (wakeup none chan t i) = true := by
  unfold wakeup wakeSlot
  rw [if_neg (by simp), if_neg]
  · exact h
  · rintro ⟨hs, -⟩
    simp [eevdfOnRq, hs] at h

/-- What the selection keeps: the virtual times, and that the candidate, by its virtual
time, passed the test. -/
structure Selected (st : RqStats) (v : Fin NPROC → Nat) (s : Pass) : Prop where
  loop : s.loop = .select ∨ s.loop = .done
  st_eq : s.st = st
  vruntime : ∀ i, (s.table i).vruntime = v i
  best : ∀ b, s.best = some b → st.nr ≠ 0 ∧ st.sumWeight ≠ 0 ∧ st.v0 ≤ v b ∧
    (v b - st.v0) * st.sumWeight % 2 ^ 64 ≤ st.avgNumer

theorem selectSlot_vruntime (st : RqStats) (bt : Option (Fin NPROC) × ProcTable)
    (i j : Fin NPROC) : ((selectSlot st bt i).2 j).vruntime = (bt.2 j).vruntime := by
  obtain ⟨⟨e, he⟩, -⟩ := selectSlot_cases st bt i
  rw [he, upd_apply]
  split
  · subst j; rfl
  · rfl

theorem eligible_cases {p : Proc} (h : eevdfIsEligible p st = true) :
    st.nr ≠ 0 ∧ st.sumWeight ≠ 0 ∧ st.v0 ≤ p.vruntime ∧
    (p.vruntime - st.v0) * st.sumWeight % 2 ^ 64 ≤ st.avgNumer := by
  unfold eevdfIsEligible at h
  split at h
  · cases h
  · split at h
    · cases h
    · split at h
      · cases h
      · have := of_decide_eq_true h
        exact ⟨by omega, by omega, by omega, this⟩

theorem Selected.step {v : Fin NPROC → Nat} (hi : Selected st v s) (e : PassEvent) :
    Ends (passStep s e) (Selected st v) fun _ => True := by
  cases e with
  | intr chan =>
    refine .ite (fun hb => ?_) fun _ => trivial
    exact ⟨hi.loop, hi.st_eq, fun i => (wakeup_vruntime chan s.table i).trans (hi.vruntime i),
      fun b hb' => by rw [hb.1] at hb'; cases hb'⟩
  | visit =>
    rw [passStep, Pass.visit]
    rcases hi.loop with hl | hl
    · rw [hl]
      refine .dite (fun hlt => ?_) fun _ => ?_
      · refine ⟨.inl rfl, hi.st_eq,
          fun i => (selectSlot_vruntime _ _ _ i).trans (hi.vruntime i), fun b hb => ?_⟩
        rcases (selectSlot_cases _ _ _).2 b hb with hb | ⟨rfl, -, he⟩
        · exact hi.best b hb
        · rw [← hi.vruntime, ← hi.st_eq]
          exact eligible_cases he
      · split
        · exact ⟨.inr rfl, hi.st_eq, hi.vruntime, hi.best⟩
        · refine ⟨.inr rfl, hi.st_eq, fun i => ?_, hi.best⟩
          rw [← hi.vruntime i]
          dsimp only
          rw [upd_apply]
          split
          · subst i; rfl
          · rfl
    · rw [hl]
      trivial

/-! ### Collecting with wakeups -/

/-- The processes of the run queue in the first `n` slots. -/
def passed (n : Nat) (t : ProcTable) : Finset (Fin NPROC) := (rq t).filter fun i => i.val < n

theorem sum_passed_succ {n : Nat} (h : n < NPROC) (f : Fin NPROC → Nat) :
    ∑ i ∈ passed (n + 1) t, f i =
      ∑ i ∈ passed n t, f i + if eevdfOnRq (t ⟨n, h⟩) then f ⟨n, h⟩ else 0 := by
  have hnot : (⟨n, h⟩ : Fin NPROC) ∉ passed n t := by simp [passed]
  have hsucc : passed (n + 1) t = if eevdfOnRq (t ⟨n, h⟩) then insert ⟨n, h⟩ (passed n t) else passed n t := by
    ext i
    by_cases hi : i = ⟨n, h⟩
    · subst hi
      split <;> simp [passed, mem_rq, *]
    · have hne : i.val ≠ n := fun he => hi (Fin.ext he)
      have hlt : i.val < n + 1 ↔ i.val < n := by omega
      split <;> simp only [passed, mem_filter, mem_insert, hlt, hi, false_or]
  rw [hsucc]
  split
  · rw [sum_insert hnot, add_comm]
  · rw [add_zero (∑ i ∈ passed n t, f i)]

/-- The numbers are those of at most `2 ^ 25` ticks. -/
structure Moderate (t : ProcTable) : Prop where
  vruntime : ∀ i, (t i).vruntime ≤ 2 ^ 25 * 68266
  weight : ∀ i, (t i).state ≠ .unused → (t i).weight ≤ 88761

theorem Moderate.weight_rq (h : Moderate t) (hi : i ∈ rq t) : (t i).weight ≤ 88761 := by
  refine h.weight i fun hu => ?_
  rw [mem_rq, eevdfOnRq, hu] at hi
  simp at hi

theorem Moderate.sum_lt (h : Moderate t) (v0 : Nat) {s : Finset (Fin NPROC)} (hs : s ⊆ rq t) :
    ∑ i ∈ s, (t i).weight ≤ 5680704 ∧ ∑ i ∈ s, ((t i).vruntime - v0) * (t i).weight < 2 ^ 64 := by
  have hw : ∑ i ∈ s, (t i).weight ≤ 5680704 :=
    Nat.le_trans (sum_le_sum_of_subset hs) (rqWeight_le fun i hi => h.weight_rq hi)
  refine ⟨hw, ?_⟩
  calc ∑ i ∈ s, ((t i).vruntime - v0) * (t i).weight
      ≤ ∑ i ∈ s, 2 ^ 25 * 68266 * (t i).weight := sum_le_sum fun i _ =>
        Nat.mul_le_mul_right _ (Nat.le_trans (Nat.sub_le _ _) (h.vruntime i))
    _ = 2 ^ 25 * 68266 * ∑ i ∈ s, (t i).weight := by rw [mul_sum]
    _ ≤ 2 ^ 25 * 68266 * 5680704 := Nat.mul_le_mul_left _ hw
    _ < 2 ^ 64 := by norm_num

theorem Moderate.wakeup (h : Moderate t) (chan : Nat) : Moderate (wakeup none chan t) := by
  refine ⟨fun i => by rw [wakeup_vruntime]; exact h.vruntime i, fun i hu => ?_⟩
  rw [wakeup_weight]
  refine h.weight i fun hu' => hu ?_
  unfold Xv6.wakeup wakeSlot
  simp [hu']

/-- The first loop: every process it has passed is taken into account, whether it was
counted or woke up later. -/
def MinPassed (s : Pass) : Prop :=
  ∀ i, i.val < s.next → i ∈ rq s.table → s.st.nr ≠ 0 ∧ s.st.v0 ≤ (s.table i).vruntime

/-- The second loop: no process is below the minimum, and the sums are those of the
processes passed. -/
structure Summed (s : Pass) : Prop where
  nr : s.st.nr ≠ 0
  low : ∀ i ∈ rq s.table, s.st.v0 ≤ (s.table i).vruntime
  weight : s.st.sumWeight = ∑ i ∈ passed s.next s.table, (s.table i).weight
  numer : s.st.avgNumer =
    ∑ i ∈ passed s.next s.table, ((s.table i).vruntime - s.st.v0) * (s.table i).weight

/-- The first two loops. -/
structure Collecting (s : Pass) : Prop where
  best : s.best = none
  moderate : Moderate s.table
  loop : (s.loop = .findMin ∧ MinPassed s) ∨ (s.loop = .calc ∧ Summed s)

/-- The statistics are complete: at this moment they are those of the run queue. -/
structure Collected (s : Pass) : Prop where
  best : s.best = none
  moderate : Moderate s.table
  loop : s.loop = .select
  stats : s.st.nr = 0 ∨ ((∀ i ∈ rq s.table, s.st.v0 ≤ (s.table i).vruntime) ∧
    s.st.sumWeight = rqWeight s.table ∧
    s.st.avgNumer = ∑ i ∈ rq s.table, ((s.table i).vruntime - s.st.v0) * (s.table i).weight)

theorem minPassed_wakeup (hl : s.loop = .findMin) (h : MinPassed s)
    (hok : s.Harmless (.intr chan)) : MinPassed { s with table := wakeup none chan s.table } := by
  intro i hlt hi
  dsimp only at hlt hi ⊢
  rw [wakeup_vruntime]
  rcases onRq_wakeup (mem_rq.1 hi) with hon | hw
  · exact h i hlt (mem_rq.2 hon)
  · have htake := hok i hw
    unfold Pass.TakesIn at htake
    rw [hl] at htake
    exact htake.resolve_left (by omega)

theorem summed_wakeup (hl : s.loop = .calc) (h : Summed s) (hok : s.Harmless (.intr chan)) :
    Summed { s with table := wakeup none chan s.table } := by
  have htake : ∀ i, (s.table i).state = .sleeping ∧ (s.table i).chan = chan →
      s.next ≤ i.val ∧ s.st.v0 ≤ (s.table i).vruntime := by
    intro i hw
    have := hok i hw
    unfold Pass.TakesIn at this
    rw [hl] at this
    exact this
  -- nobody wakes up behind the loop, so the processes passed are the same
  have hpassed : passed s.next (wakeup none chan s.table) = passed s.next s.table := by
    ext i
    simp only [passed, mem_filter, mem_rq]
    constructor
    · rintro ⟨hi, hlt⟩
      rcases onRq_wakeup hi with hon | hw
      · exact ⟨hon, hlt⟩
      · have := (htake i hw).1
        omega
    · rintro ⟨hi, hlt⟩
      exact ⟨onRq_wakeup_of_onRq hi, hlt⟩
  refine ⟨h.nr, fun i hi => ?_, ?_, ?_⟩
  · dsimp only at hi ⊢
    rw [wakeup_vruntime]
    rcases onRq_wakeup (mem_rq.1 hi) with hon | hw
    · exact h.low i (mem_rq.2 hon)
    · exact (htake i hw).2
  · simp only [hpassed, wakeup_weight]
    exact h.weight
  · simp only [hpassed, wakeup_weight, wakeup_vruntime]
    exact h.numer

theorem minPassed_visit (h : MinPassed s) (hlt : s.next < NPROC) :
    MinPassed { s with
      next := s.next + 1
      st := findMinSlot s.st (s.table ⟨s.next, hlt⟩) } := by
  intro i hi hrq
  dsimp only at hi hrq ⊢
  have hcase : i.val < s.next ∨ i = ⟨s.next, hlt⟩ := by
    rw [Fin.ext_iff]
    exact Nat.lt_succ_iff_lt_or_eq.1 hi
  unfold findMinSlot
  split
  · dsimp only
    refine ⟨Nat.succ_ne_zero _, ?_⟩
    rcases hcase with hi' | rfl
    · obtain ⟨hnr, hle⟩ := h i hi' hrq
      split
      · omega
      · exact hle
    · split
      · exact Nat.le_refl _
      · omega
  · rename_i hoff
    rcases hcase with hi' | rfl
    · exact h i hi' hrq
    · exact absurd (mem_rq.1 hrq) hoff

theorem summed_visit (hm : Moderate s.table) (h : Summed s) (hlt : s.next < NPROC) :
    Summed { s with
      next := s.next + 1
      st := calcSlot s.st (s.table ⟨s.next, hlt⟩) } := by
  have hsub : passed (s.next + 1) s.table ⊆ rq s.table := filter_subset _ _
  have hfits := hm.sum_lt s.st.v0 hsub
  rw [sum_passed_succ hlt, sum_passed_succ hlt] at hfits
  by_cases hon : eevdfOnRq (s.table ⟨s.next, hlt⟩) = true
  · rw [if_pos hon, if_pos hon, ← h.weight, ← h.numer] at hfits
    have hv := hm.vruntime ⟨s.next, hlt⟩
    have hlow := h.low _ (mem_rq.2 hon)
    have hdiff : ((s.table ⟨s.next, hlt⟩).vruntime + 2 ^ 64 - s.st.v0) % 2 ^ 64 =
        (s.table ⟨s.next, hlt⟩).vruntime - s.st.v0 := by omega
    rw [calcSlot_on hon, hdiff]
    refine ⟨h.nr, h.low, ?_, ?_⟩
    · dsimp only
      rw [sum_passed_succ hlt, if_pos hon, ← h.weight]
      exact Nat.mod_eq_of_lt (by omega)
    · dsimp only
      rw [sum_passed_succ hlt, if_pos hon, ← h.numer]
      exact Nat.mod_eq_of_lt hfits.2
  · rw [calcSlot_off hon]
    refine ⟨h.nr, h.low, ?_, ?_⟩
    · dsimp only
      rw [sum_passed_succ hlt, if_neg hon]
      exact h.weight
    · dsimp only
      rw [sum_passed_succ hlt, if_neg hon]
      exact h.numer

theorem Collecting.step {e : PassEvent} (hi : Collecting s) (hok : s.Harmless e) :
    Ends (passStep s e) (fun t => Collecting t ∨ Collected t) fun _ => True := by
  cases e with
  | intr chan =>
    refine .ite (fun _ => .inl ⟨hi.best, hi.moderate.wakeup chan, ?_⟩) fun _ => trivial
    rcases hi.loop with ⟨hl, hmin⟩ | ⟨hl, hsum⟩
    · exact .inl ⟨hl, minPassed_wakeup hl hmin hok⟩
    · exact .inr ⟨hl, summed_wakeup hl hsum hok⟩
  | visit =>
    rw [passStep, Pass.visit]
    rcases hi.loop with ⟨hl, hmin⟩ | ⟨hl, hsum⟩
    · rw [hl]
      refine .dite (fun hlt => ?_) fun hge => ?_
      · have hnext := minPassed_visit hmin hlt
        rw [hl] at hnext
        exact .inl ⟨hi.best, hi.moderate, .inl ⟨rfl, hnext⟩⟩
      · by_cases hnr : s.st.nr = 0
        · exact .inr ⟨hi.best, hi.moderate, if_pos hnr, .inl hnr⟩
        · refine .inl ⟨hi.best, hi.moderate, .inr ⟨if_neg hnr, hnr, fun i hirq => ?_, ?_, ?_⟩⟩
          · exact (hmin i (by have := i.isLt; omega) hirq).2
          · simp [passed]
          · simp [passed]
    · rw [hl]
      refine .dite (fun hlt => ?_) fun hge => ?_
      · have hnext := summed_visit hi.moderate hsum hlt
        rw [hl] at hnext
        exact .inl ⟨hi.best, hi.moderate, .inr ⟨rfl, hnext⟩⟩
      · have hall : passed s.next s.table = rq s.table :=
          filter_true_of_mem fun i _ => by have := i.isLt; omega
        refine .inr ⟨hi.best, hi.moderate, rfl, .inr ⟨hsum.low, ?_, ?_⟩⟩
        · exact hsum.weight.trans (by rw [hall]; rfl)
        · exact hsum.numer.trans (by rw [hall])

/-- What is selected after the statistics are complete was eligible at that moment. -/
theorem Collected.eligible {u d : Pass} {es : List PassEvent} {b : Fin NPROC} (hu : Collected u)
    (hr : Run passStep Pass.Harmless u es d) (hb : d.best = some b) : EligibleIn u.table b := by
  have hsel : Selected u.st (fun i => (u.table i).vruntime) d :=
    hr.invariant ⟨.inl hu.loop, rfl, fun _ => rfl, fun b hb => by rw [hu.best] at hb; cases hb⟩
      fun _ e _ hi _ hs => (hi.step e).of_ok hs
  obtain ⟨hnr, hW, hlow, hle⟩ := hsel.best b hb
  obtain ⟨hmin, hweight, hnumer⟩ := hu.stats.resolve_left hnr
  have hV := hu.moderate.vruntime b
  have hbound := (hu.moderate.sum_lt 0 (Finset.Subset.refl (rq u.table))).1
  rw [show ∑ i ∈ rq u.table, (u.table i).weight = rqWeight u.table from rfl] at hbound
  rw [hweight] at hle hW
  have hprod : ((u.table b).vruntime - u.st.v0) * rqWeight u.table < 2 ^ 64 :=
    calc ((u.table b).vruntime - u.st.v0) * rqWeight u.table
        ≤ 2 ^ 25 * 68266 * 5680704 := Nat.mul_le_mul (by omega) hbound
      _ < 2 ^ 64 := by norm_num
  rw [Nat.mod_eq_of_lt hprod, hnumer] at hle
  exact ⟨by omega, (sub_mul_le_iff hmin hlow).1 hle⟩

theorem Collecting.eligible {s d : Pass} {es : List PassEvent} {b : Fin NPROC} (hi : Collecting s)
    (hr : Run passStep Pass.Harmless s es d) (hb : d.best = some b) :
    ∃ as bs u, es = as ++ bs ∧ Run passStep Pass.Harmless s as u ∧
      Run passStep Pass.Harmless u bs d ∧ EligibleIn u.table b := by
  induction hr with
  | nil s => rw [hi.best] at hb; cases hb
  | @cons s t d e es hok hstep hr ih =>
    rcases (hi.step hok).of_ok hstep with ht | ht
    · obtain ⟨as, bs, u, rfl, h1, h2, he⟩ := ih ht hb
      exact ⟨e :: as, bs, u, rfl, .cons hok hstep h1, h2, he⟩
    · exact ⟨[e], es, t, rfl, .cons hok hstep (.nil t), hr, ht.eligible hr hb⟩

theorem BoundInv.moderate {n : Nat} {s : Kernel} (hi : BoundInv n s) (hn : n ≤ 2 ^ 25) :
    Moderate s.proc :=
  ⟨fun i => Nat.le_trans (hi.le i) (Nat.mul_le_mul_right _ hn),
    fun i hu => ((hi.weighted i).bounds hu).2⟩

/-- **The process dispatched was eligible** at some moment of the pass, in a run from boot
with at most `2 ^ 25` ticks, if the first two loops can take in every process that an
interrupt wakes meanwhile. -/
theorem pass_eligible [Image] {k s : Kernel} {as : List Act} (hb : Booted k)
    (hr : Run step (fun _ _ => True) k as s)
    (hn : runCost step (fun s a => a.tickCalls s) k as ≤ 2 ^ 25) {es : List PassEvent} {d : Pass}
    {b : Fin NPROC} (hp : Run passStep Pass.Harmless { table := s.proc } es d)
    (hd : d.dispatched = some b) :
    ∃ es₁ es₂ u, es = es₁ ++ es₂ ∧ Run passStep Pass.Harmless { table := s.proc } es₁ u ∧
      Run passStep Pass.Harmless u es₂ d ∧ EligibleIn u.table b := by
  have hstart : Collecting { table := s.proc } :=
    ⟨rfl, (boundInv_of_run hb hr).moderate hn, .inl ⟨rfl, fun i hi => absurd hi (Nat.not_lt_zero _)⟩⟩
  refine hstart.eligible hp ?_
  unfold Pass.dispatched at hd
  split at hd
  · exact hd
  · cases hd

/-- A pass computed after a computed run, with a check of every moment of it. -/
theorem exists_pass (check : Pass → PassEvent → Bool) (b : Fin NPROC) (q : Pass → Bool)
    (as : List Act) (es : List PassEvent)
    (h : (runCheck (@step smallImage) (fun _ _ => true) smallKernel as).any (fun s =>
      (runCheck passStep check { table := s.proc } es).any
        (fun d => decide (d.dispatched = some b)) &&
      runAll passStep q { table := s.proc } es) = true) :
    ∃ (s : Kernel) (d : Pass), Run (@step smallImage) (fun _ _ => True) smallKernel as s ∧
      Run passStep (fun s e => check s e = true) { table := s.proc } es d ∧
      d.dispatched = some b ∧ ∀ es₁ es₂ u, es = es₁ ++ es₂ →
        Run passStep (fun s e => check s e = true) { table := s.proc } es₁ u → q u = true := by
  obtain ⟨s, hr, hs⟩ := exists_run _ _ _ _ _ h
  rw [Bool.and_eq_true] at hs
  obtain ⟨d, hp, hd⟩ := exists_run _ _ _ _ _ hs.1
  refine ⟨s, d, hr.mono fun _ _ _ => trivial, hp, of_decide_eq_true hd, ?_⟩
  rintro es₁ es₂ u rfl hu
  exact hu.of_runAll hs.2

/-- A child goes to sleep after its parent has used a slice, and wakes up at the start of
the next pass, which dispatches it. -/
theorem pass_eligible_woken_child : ∃ (s : Kernel) (d : Pass) (es₁ es₂ : List PassEvent) (u : Pass),
    Run (@step smallImage) (fun _ _ => True) smallKernel
      ([.schedule 0, .forkret 0 (some 0), .fork 0] ++ List.replicate 5 (.userTimer 0) ++
        [.schedule 0, .sleep 0 999]) s ∧
    Run passStep Pass.Harmless { table := s.proc } (.intr 999 :: List.replicate 195 .visit) d ∧
    d.dispatched = some 1 ∧ .intr 999 :: List.replicate 195 .visit = es₁ ++ es₂ ∧
    Run passStep Pass.Harmless { table := s.proc } es₁ u ∧ EligibleIn u.table 1 := by
  obtain ⟨s, d, hr, hp, hd, -⟩ := exists_pass (fun s e => decide (s.Harmless e)) 1
    (fun _ => true)
    ([.schedule 0, .forkret 0 (some 0), .fork 0] ++ List.replicate 5 (.userTimer 0) ++
      [.schedule 0, .sleep 0 999])
    (.intr 999 :: List.replicate 195 .visit) (by decide +kernel)
  have hcost : runCost (@step smallImage) (fun s a => a.tickCalls s) smallKernel
      ([.schedule 0, .forkret 0 (some 0), .fork 0] ++ List.replicate 5 (.userTimer 0) ++
        [.schedule 0, .sleep 0 999]) ≤ 2 ^ 25 := by decide +kernel
  have hp' := hp.mono fun _ _ h => of_decide_eq_true h
  obtain ⟨es₁, es₂, u, he, h1, -, hel⟩ :=
    @pass_eligible smallImage _ _ _ booted_small hr hcost _ _ _ hp' hd
  exact ⟨s, d, es₁, es₂, u, hr, hp', hd, he, h1, hel⟩

/-- **A wakeup between the loops spoils the sums.**  In a run from boot a process of
weight `88761` sleeps with virtual time `0`, the other two have used `5000` and `10000`.
When it is woken right after the loop for the minimum, `avg_numer` wraps, both others
pass the test, and the pass dispatches the one at `10000`, which at no moment of the pass
is at most the average. -/
theorem wakeup_dispatches_late : ∃ (s : Kernel) (d : Pass),
    Run (@step smallImage) (fun _ _ => True) smallKernel
      ([.schedule 0, .forkret 0 (some 0), .fork 0] ++ List.replicate 5 (.userTimer 0) ++
        [.schedule 0, .sleep 0 999, .schedule 0, .fork 0, .setnice 0 2 0, .setnice 0 3 39] ++
        List.replicate 5 (.userTimer 0)) s ∧
    Run passStep (fun _ _ => True) { table := s.proc }
      (List.replicate 65 .visit ++ [.intr 999] ++ List.replicate 130 .visit) d ∧
    d.dispatched = some 0 ∧
    ∀ es₁ es₂ u, List.replicate 65 .visit ++ [.intr 999] ++ List.replicate 130 .visit =
        es₁ ++ es₂ →
      Run passStep (fun _ _ => True) { table := s.proc } es₁ u → ¬ EligibleIn u.table 0 := by
  obtain ⟨s, d, hr, hp, hd, hall⟩ := exists_pass (fun _ _ => true) 0
    (fun u => !decide (EligibleIn u.table 0))
    ([.schedule 0, .forkret 0 (some 0), .fork 0] ++ List.replicate 5 (.userTimer 0) ++
      [.schedule 0, .sleep 0 999, .schedule 0, .fork 0, .setnice 0 2 0, .setnice 0 3 39] ++
      List.replicate 5 (.userTimer 0))
    (List.replicate 65 .visit ++ [.intr 999] ++ List.replicate 130 .visit) (by decide +kernel)
  refine ⟨s, d, hr, hp.mono fun _ _ _ => trivial, hd, fun es₁ es₂ u he hu hel => ?_⟩
  have hnot := hall es₁ es₂ u he (hu.mono fun _ _ _ => rfl)
  rw [decide_eq_true hel] at hnot
  cases hnot

end Xv6
