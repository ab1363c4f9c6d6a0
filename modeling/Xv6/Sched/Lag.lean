import Xv6.Sched.Eligible

/-!
# Bounded lag

A fixed set of processes competes for the CPU: they are the run queue in every state
of a run, and their weights do not change.  A process is dispatched when its virtual
time is at most the weighted average, and it keeps the CPU for one slice; the average
only grows.  Hence no process gets ahead of the average by more than a slice, and by
`lag_le` none falls behind by more than the slices of the others:

* `LeadInv`: how far ahead of the average a process may be, by the ticks it has used of
  the slice it is in;
* `LeadInv.step`: every step keeps it;
* `lag_of_run`: the two bounds, in every state of such a run.
-/

namespace Xv6

open Xv6.Lib Finset

/-! ### Steps of a process on the run queue -/

/-- Runnable or running. -/
def Task.OnRq (t : Task) : Prop := t.state = .runnable ∨ t.state = .running

theorem onRq_task {p : Proc} : p.task.OnRq ↔ eevdfOnRq p = true := by
  simp [Task.OnRq, eevdfOnRq]

variable {s : Kernel} {p : Fin NPROC}

theorem TaskStep.onRq_cases {a : Act} {j : Fin NPROC} {t t' : Task} (h : TaskStep s a j t t')
    (hj : ∀ c, s.cpu c = some j → t.state = .running) (ht : t.OnRq) (ht' : t'.OnRq) :
    (t'.vruntime = t.vruntime ∧ t'.remainSlice = t.remainSlice ∧ t'.state = t.state) ∨
    (t'.vruntime = t.vruntime ∧ t'.remainSlice = t.remainSlice ∧ t'.state = .running ∧
      eevdfIsEligible (s.proc j) (eevdfCollectRqStats s.proc) = true) ∨
    (t.state = .running ∧ t'.vruntime = t.ticked.vruntime ∧
      (t'.remainSlice = t.ticked.remainSlice ∧ 0 < t.ticked.remainSlice ∧ t'.state = .running ∨
        t'.remainSlice = BASE_SLICE ∧ t.ticked.remainSlice ≤ 0 ∧ t'.state = .runnable)) := by
  have hasleep : t.state ≠ .sleeping := by rcases ht with h | h <;> simp [h]
  cases h with
  | same => exact .inl ⟨rfl, rfl, rfl⟩
  | wake hs => exact absurd hs hasleep
  | kill c ha hk =>
    unfold Task.doomed
    rw [if_neg hasleep]
    exact .inl ⟨rfl, rfl, rfl⟩
  | renice c value ha hv hu => exact .inl ⟨rfl, rfl, rfl⟩
  | dispatch hr he => exact .inr (.inl ⟨rfl, rfl, rfl, he⟩)
  | tick c ha htc hc hr =>
    exact .inr (.inr ⟨hj c hc, rfl, .inl ⟨rfl, hr, hj c hc⟩⟩)
  | yield c ha htc hc hr => exact .inr (.inr ⟨hj c hc, rfl, .inr ⟨rfl, hr, rfl⟩⟩)
  | sleep c ha hc | exit c ha hc | fault c ha hf hc => rcases ht' with h | h <;> cases h
  | fork c i ha hc hu => rcases ht with h | h <;> rw [hu] at h <;> cases h
  | free h => rcases ht' with h | h <;> cases h

/-! ### The set of competitors -/

section

variable (S : Finset (Fin NPROC)) (w : Fin NPROC → Nat)

/-- The processes `S`, with the weights `w`, are the run queue. -/
structure Alone (s : Kernel) : Prop where
  rq_eq : rq s.proc = S
  weight : ∀ p ∈ S, (s.proc p).weight = w p

theorem alone_iff : Alone S w s ↔
    (∀ p, eevdfOnRq (s.proc p) = true ↔ p ∈ S) ∧ ∀ p ∈ S, (s.proc p).weight = w p := by
  refine ⟨fun h => ⟨fun p => by rw [← mem_rq, h.rq_eq], h.weight⟩, fun h => ⟨?_, h.2⟩⟩
  ext p
  rw [mem_rq, h.1 p]

instance (s : Kernel) : Decidable (Alone S w s) := decidable_of_iff _ (alone_iff S w).symm

/-- The weighted average of their virtual times. -/
def avgOf (s : Kernel) : ℚ := average S w fun p => (s.proc p).vruntime

/-- How many ticks of a slice a process may have used since it was dispatched. -/
def Task.used (t : Task) : Int :=
  if t.state = .running then BASE_SLICE - t.remainSlice else BASE_SLICE

/-- A process is ahead of the average by no more than the ticks it has used. -/
structure LeadInv (s : Kernel) : Prop where
  slice : ∀ p ∈ S, 1 ≤ (s.proc p).remainSlice ∧ (s.proc p).remainSlice ≤ BASE_SLICE
  lead : ∀ p ∈ S, ((s.proc p).vruntime : ℚ) ≤
    avgOf S w s + (s.proc p).task.used * eevdfTickDelta (w p)

end

variable {S : Finset (Fin NPROC)} {w : Fin NPROC → Nat}

theorem Alone.onRq (ha : Alone S w s) (hp : p ∈ S) :
    (s.proc p).task.OnRq := onRq_task.2 (mem_rq.1 (by rw [ha.rq_eq]; exact hp))

theorem Alone.bounds (ha : Alone S w s) (hi : WeightInv s) (hp : p ∈ S) :
    15 ≤ w p ∧ w p ≤ 88761 := by
  have hu : (s.proc p).task.state ≠ .unused := by
    rcases ha.onRq hp with h | h <;> rw [h] <;> simp
  have hb := (hi.weighted p).bounds hu
  rwa [Proc.task_weight, ha.weight p hp] at hb

theorem sum_weights_pos (hw : ∀ p ∈ S, 15 ≤ w p) (hp : p ∈ S) : 0 < ∑ i ∈ S, w i :=
  sum_pos' (fun i _ => Nat.zero_le _) ⟨p, hp, by have := hw p hp; omega⟩

theorem Task.used_le {t : Task} (h : 1 ≤ t.remainSlice) : t.used ≤ 5 := by
  unfold Task.used
  split
  · show (5 : Int) - t.remainSlice ≤ 5
    omega
  · exact Int.le_refl _

theorem LeadInv.le_five (h : LeadInv S w s) (hp : p ∈ S) :
    ((s.proc p).vruntime : ℚ) - avgOf S w s ≤ 5 * eevdfTickDelta (w p) := by
  have hl := h.lead p hp
  have hu : ((s.proc p).task.used : ℚ) ≤ 5 := by
    exact_mod_cast Task.used_le (h.slice p hp).1
  have hd : (0 : ℚ) ≤ eevdfTickDelta (w p) := by positivity
  have := mul_le_mul_of_nonneg_right hu hd
  linarith

theorem weight_mul_five_ticks (n : Nat) : n * (5 * eevdfTickDelta n) ≤ 5120000 :=
  calc n * (5 * eevdfTickDelta n) ≤ n * eevdfSliceDelta n := Nat.mul_le_mul_left n (five_ticks_le n)
    _ ≤ 5120000 := Nat.mul_div_le _ _

theorem LeadInv.weighted_lead (h : LeadInv S w s) (hp : p ∈ S) :
    (w p : ℚ) * ((s.proc p).vruntime - avgOf S w s) ≤ 5120000 := by
  have h5 := h.le_five hp
  have hw : (0 : ℚ) ≤ w p := by positivity
  have hmul : (w p : ℚ) * (5 * eevdfTickDelta (w p)) ≤ 5120000 := by
    exact_mod_cast weight_mul_five_ticks (w p)
  exact (mul_le_mul_of_nonneg_left h5 hw).trans hmul

/-- A process is behind the average by no more than a slice of each of the others. -/
theorem LeadInv.weighted_lag (h : LeadInv S w s) (hw : 0 < ∑ i ∈ S, w i) (hp : p ∈ S) :
    (w p : ℚ) * (avgOf S w s - (s.proc p).vruntime) ≤ (S.card - 1) * 5120000 :=
  lag_le hw (fun _ hi => h.weighted_lead hi) hp

/-! ### The test is exact -/

theorem LeadInv.spread (h : LeadInv S w s) (hw : ∀ p ∈ S, 15 ≤ w p) {p m : Fin NPROC} (hp : p ∈ S)
    (hm : m ∈ S) : (s.proc p).vruntime - (s.proc m).vruntime ≤ 21845330 := by
  have hpos := sum_weights_pos hw hp
  have hlead := h.le_five hp
  have hlag := h.weighted_lag hpos hm
  have hd : (eevdfTickDelta (w p) : ℚ) ≤ 68266 := by
    exact_mod_cast eevdfTickDelta_le_of_weight (hw p hp)
  have hwm : (15 : ℚ) ≤ w m := by exact_mod_cast hw m hm
  have hcard : (S.card : ℚ) ≤ 64 := by
    have : S.card ≤ 64 := by simpa using card_le_univ S
    exact_mod_cast this
  have hbehind : avgOf S w s - (s.proc m).vruntime ≤ 21504000 := by
    by_contra hc
    have hmul := mul_le_mul hwm (not_le.1 hc).le (by norm_num) (by linarith)
    nlinarith
  have hq : ((s.proc p).vruntime : ℚ) ≤ (s.proc m).vruntime + 21845330 := by linarith
  have hn : (s.proc p).vruntime ≤ (s.proc m).vruntime + 21845330 := by exact_mod_cast hq
  omega

theorem LeadInv.eligible_le (h : LeadInv S w s) (ha : Alone S w s)
    (hw : ∀ p ∈ S, 15 ≤ w p ∧ w p ≤ 88761) (hv : ∀ p ∈ S, (s.proc p).vruntime < 2 ^ 64)
    (hp : p ∈ S) (he : eevdfIsEligible (s.proc p) (eevdfCollectRqStats s.proc) = true) :
    ((s.proc p).vruntime : ℚ) ≤ avgOf S w s := by
  have hpos := sum_weights_pos (fun q hq => (hw q hq).1) hp
  obtain ⟨m, hm, hmin⟩ := (collect_min s.proc).2.2 ⟨p, by rw [ha.rq_eq]; exact hp⟩
  have hfits : Fits s.proc := by
    refine fits_of_spread (V := 21845330) (by norm_num) ?_ ?_ ?_
    · exact fun i hi => hv i (ha.rq_eq ▸ hi)
    · intro i hi
      rw [ha.rq_eq] at hi
      rw [ha.weight i hi]
      exact (hw i hi).2
    · intro i hi
      rw [← hmin]
      exact h.spread (fun q hq => (hw q hq).1) (ha.rq_eq ▸ hi) (ha.rq_eq ▸ hm)
  have hweight : rqWeight s.proc = ∑ i ∈ S, w i := by
    rw [rqWeight, ha.rq_eq]
    exact sum_congr rfl ha.weight
  have hvirtual : rqVirtual s.proc = ∑ i ∈ S, w i * (s.proc i).vruntime := by
    rw [rqVirtual, ha.rq_eq]
    exact sum_congr rfl fun i hi => by rw [ha.weight i hi]
  have hle := (eligible_iff hfits (by rw [hweight]; exact hpos) (by rw [ha.rq_eq]; exact hp)).1 he
  rw [hweight, hvirtual] at hle
  exact (le_average_iff hpos _).2 hle

/-! ### Runs -/

/-- The next tick does not wrap. -/
def TickFits (S : Finset (Fin NPROC)) (s : Kernel) : Prop :=
  ∀ p ∈ S, (s.proc p).vruntime + eevdfTickDelta (s.proc p).weight < 2 ^ 64

instance (S : Finset (Fin NPROC)) (s : Kernel) : Decidable (TickFits S s) :=
  inferInstanceAs (Decidable (∀ p ∈ S, _ < _))

theorem LeadInv.step {s s' : Kernel} {a : Act} (hi : WeightInv s) (h : LeadInv S w s)
    (ha : Alone S w s) (ha' : Alone S w s') (hf : TickFits S s) (hm : Moved s a s') :
    LeadInv S w s' := by
  have hcases := fun p (hp : p ∈ S) => (hm.task p).onRq_cases
    (fun c hc => hi.cpu.running c p hc) (ha.onRq hp) (ha'.onRq hp)
  have hbounds : ∀ p ∈ S, 15 ≤ w p ∧ w p ≤ 88761 := fun p hp => ha.bounds hi hp
  have hticked : ∀ p ∈ S, (s.proc p).task.ticked.vruntime =
      (s.proc p).vruntime + eevdfTickDelta (w p) := by
    intro p hp
    have := hf p hp
    rw [← ha.weight p hp]
    exact Nat.mod_eq_of_lt this
  have hmono : ∀ p ∈ S, (s.proc p).vruntime ≤ (s'.proc p).vruntime := by
    intro p hp
    rcases hcases p hp with ⟨hv, -, -⟩ | ⟨hv, -, -, -⟩ | ⟨-, hv, -⟩
    · exact hv.ge
    · exact hv.ge
    · rw [hticked p hp] at hv
      have hv' : (s'.proc p).vruntime = _ := hv
      omega
  have havg : avgOf S w s ≤ avgOf S w s' := average_mono hmono
  refine ⟨fun p hp => ?_, fun p hp => ?_⟩
  · have hs := h.slice p hp
    rcases hcases p hp with ⟨-, hr, -⟩ | ⟨-, hr, -⟩ | ⟨-, -, ⟨hr, hpos, -⟩ | ⟨hr, -⟩⟩
    · rw [← Proc.task_remainSlice, hr]; exact hs
    · rw [← Proc.task_remainSlice, hr]; exact hs
    · have hrem : (s.proc p).task.ticked.remainSlice = (s.proc p).remainSlice - 1 :=
        if_pos (by show 0 < (s.proc p).remainSlice; omega)
      rw [← Proc.task_remainSlice, hr]
      rw [hrem] at hpos ⊢
      exact ⟨by omega, by have := hs.2; omega⟩
    · rw [← Proc.task_remainSlice, hr]
      exact full_slice
  · have hl := h.lead p hp
    have hd : (0 : ℚ) ≤ eevdfTickDelta (w p) := by positivity
    have hs := h.slice p hp
    rcases hcases p hp with ⟨hv, hr, hst⟩ | ⟨hv, hr, hst, he⟩ | ⟨hrun, hv, hnext⟩
    · -- nothing happened to it, and the average did not fall
      have hused : (s'.proc p).task.used = (s.proc p).task.used := by
        unfold Task.used
        rw [hst, hr]
      rw [hused, ← Proc.task_vruntime, hv, Proc.task_vruntime]
      linarith
    · -- dispatched: not ahead of the average
      have hle := h.eligible_le ha hbounds
        (fun q hq => by have := hf q hq; omega) hp he
      have hused : (0 : ℚ) ≤ (s'.proc p).task.used := by
        have : 0 ≤ (s'.proc p).task.used := by
          unfold Task.used
          rw [if_pos hst, hr]
          show (0 : Int) ≤ 5 - (s.proc p).remainSlice
          have : (s.proc p).remainSlice ≤ 5 := hs.2
          omega
        exact_mod_cast this
      rw [← Proc.task_vruntime, hv, Proc.task_vruntime]
      have := mul_nonneg hused hd
      linarith
    · -- charged for a tick: one more tick of its slice is used
      have hused : (s'.proc p).task.used = (s.proc p).task.used + 1 := by
        have hrem : (s.proc p).task.ticked.remainSlice = (s.proc p).remainSlice - 1 :=
          if_pos (by show 0 < (s.proc p).remainSlice; omega)
        unfold Task.used
        rw [if_pos hrun]
        rcases hnext with ⟨hr, -, hst⟩ | ⟨-, hle, hst⟩
        · rw [if_pos hst, hr, hrem, Proc.task_remainSlice]
          omega
        · rw [if_neg (by rw [hst]; simp), Proc.task_remainSlice]
          rw [hrem] at hle
          omega
      rw [hused, ← Proc.task_vruntime, hv, hticked p hp]
      push_cast
      linarith

section

variable [Image]

/-- **Bounded lag.**  The processes `S` start with equal virtual times and full slices
and are the run queue in every state of the run, with constant weights; no tick wraps.
Then at the end no process is ahead of the weighted average by more than its slice, and
none is behind by more, by weight, than a slice of each of the others. -/
theorem lag_of_run {k s t : Kernel} {bs as : List Act} (hb : Booted k)
    (h0 : Run step (fun _ _ => True) k bs s)
    (hv : ∀ p ∈ S, ∀ q ∈ S, (s.proc p).vruntime = (s.proc q).vruntime)
    (hslice : ∀ p ∈ S, (s.proc p).remainSlice = BASE_SLICE)
    (hr : Run step (fun s _ => Alone S w s ∧ TickFits S s) s as t) (ht : Alone S w t)
    {p : Fin NPROC} (hp : p ∈ S) :
    ((t.proc p).vruntime : ℚ) - average S w (fun q => (t.proc q).vruntime) ≤
      (5120000 / w p : Nat) ∧
    (w p : ℚ) * (average S w (fun q => (t.proc q).vruntime) - (t.proc p).vruntime) ≤
      (S.card - 1) * 5120000 := by
  have hi : WeightInv s := h0.invariant (booted_weightInv hb) fun _ _ _ hi _ hs => hi.step hs
  -- all virtual times are equal at the start, and so equal to their average
  have hstart : Alone S w s → LeadInv S w s := by
    intro ha
    have hpos := sum_weights_pos (fun q hq => (ha.bounds hi hq).1) hp
    refine ⟨fun q hq => by rw [hslice q hq]; exact full_slice, fun q hq => ?_⟩
    have hle : ((s.proc q).vruntime : ℚ) ≤ avgOf S w s :=
      (le_average_iff hpos _).2 (min_mul_le fun i hi => (hv q hq i hi).le)
    have hused : (0 : ℚ) ≤ (s.proc q).task.used := by
      have : 0 ≤ (s.proc q).task.used := by
        unfold Task.used
        rw [Proc.task_remainSlice, hslice q hq]
        split <;> decide
      exact_mod_cast this
    have hd : (0 : ℚ) ≤ eevdfTickDelta (w q) := by positivity
    have := mul_nonneg hused hd
    linarith
  have hfinal : WeightInv t ∧ (Alone S w t → LeadInv S w t) := by
    refine hr.invariant (I := fun t => WeightInv t ∧ (Alone S w t → LeadInv S w t)) ⟨hi, hstart⟩ ?_
    rintro u a u' ⟨hi, hl⟩ ⟨ha, hf⟩ hs
    exact ⟨hi.step hs, fun ha' => (hl ha).step hi ha ha' hf (step_moved hi.cpu hs)⟩
  have hl := hfinal.2 ht
  have hpos := sum_weights_pos (fun q hq => (ht.bounds hfinal.1 hq).1) hp
  refine ⟨(hl.le_five hp).trans ?_, hl.weighted_lag hpos hp⟩
  exact_mod_cast five_ticks_le (w p)

end

/-- Init and a child of it, over one slice of init and one tick of the child. -/
theorem lag_of_run_two : ∃ t : Kernel,
    Run (@step smallImage) (fun s _ => Alone {0, 1} (fun _ => 1024) s ∧ TickFits {0, 1} s)
      (smallAfter [.schedule 0, .forkret 0 (some 0), .fork 0])
      [.userTimer 0, .userTimer 0, .userTimer 0, .userTimer 0, .userTimer 0, .schedule 0,
        .userTimer 0] t ∧
    (t.proc 0).vruntime = 5000 ∧ (t.proc 1).vruntime = 1000 ∧
    ((t.proc 0).vruntime : ℚ) - average {0, 1} (fun _ => 1024) (fun q => (t.proc q).vruntime) ≤
      (5120000 / 1024 : Nat) := by
  obtain ⟨t, hr, hp⟩ := exists_run (@step smallImage)
    (fun s _ => decide (Alone {0, 1} (fun _ => 1024) s ∧ TickFits {0, 1} s))
    (fun t => decide (Alone {0, 1} (fun _ => 1024) t ∧
      (t.proc 0).vruntime = 5000 ∧ (t.proc 1).vruntime = 1000))
    (smallAfter [.schedule 0, .forkret 0 (some 0), .fork 0])
    [.userTimer 0, .userTimer 0, .userTimer 0, .userTimer 0, .userTimer 0, .schedule 0,
      .userTimer 0] (by decide +kernel)
  obtain ⟨ha, h0, h1⟩ := of_decide_eq_true hp
  have hr' := hr.mono fun _ _ h => of_decide_eq_true h
  have h := @lag_of_run _ _ smallImage _ _ _ _ _ booted_small (run_smallAfter (by decide +kernel))
    (by decide +kernel) (by decide +kernel) hr' ha 0 (by decide)
  exact ⟨t, hr', h0, h1, h.1⟩

end Xv6
