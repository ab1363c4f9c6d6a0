import Xv6.Smp.Links

/-!
# Every run keeps to the service

`Good` says that what the contexts know is true and that each of them will go on as the service
has it, also the ones that are switched away.  It holds in every state that a run reaches:
`good_of_run`.
-/

namespace Xv6.Smp

open Xv6.Lib

variable {C : Type} [DecidableEq C] {quiet : Prop} {s t : Sys C} {L L' : Ctx C → Loc} {c d : C}
  {x y : Loc} {i j : Fin NPROC} {v : View}

/-- A context that has nothing left to do. -/
structure Rest (me : Option (Fin NPROC)) (x : Loc) : Prop where
  held : x.held = []
  cpu : x.cpu = me
  born : x.born = none
  wf : x.WF

theorem Idle.rest {p : Fin NPROC} (h : Idle p x) : Rest (some p) x := ⟨h.held, h.cpu, h.born, h.wf⟩

theorem Rest.idle {p : Fin NPROC} (h : Rest (some p) x) : Idle p x := ⟨h.held, h.cpu, h.born, h.wf⟩

/-- The thread of a process is switched to. -/
def Resume (i : Fin NPROC) (x y : Loc) : Prop :=
  ∃ v : View, v.proc.state = .running ∧ v.live = true ∧ v.saved = false ∧ v.nap = none ∧
    y = x.only i v

/-- Each context will go on as the service has it. -/
structure Codes (quiet : Prop) (s : Sys C) (L : Ctx C → Loc) : Prop where
  run : ∀ c, Code.Fits (s.code c) (s.on c) quiet (L (s.ctx c)) fun _ y => Rest (s.on c) y
  sched : ∀ c i, s.on c = some i → ∀ y, Gives none quiet (L (.inl c)) (.load (some i)) () y →
    Code.Fits (s.sched c) none quiet y fun _ z => Rest none z
  thread : ∀ i, (∀ c, s.on c ≠ some i) → (s.proc i).state ≠ .zombie →
    (s.proc i).state ≠ .unused → ∀ y, Resume i (L (.inr i)) y →
      Code.Fits (s.thread i) (some i) quiet y fun _ z => Rest (some i) z

def Good (quiet : Prop) (s : Sys C) : Prop := ∃ L, Links quiet s L ∧ Codes quiet s L

/-! ### Requests -/

/-- What a request leaves of the programs: a process that is not executed is what it was, or it
has just been created. -/
structure After (s t : Sys C) (c : C) (L L' : Ctx C → Loc) : Prop where
  on : t.on = s.on
  sched : t.sched = s.sched
  live : ∀ d j, s.on d = some j → t.thread j = s.thread j
  others : ∀ d, d ≠ c → L' (s.ctx d) = L (s.ctx d)
  inl : ∀ d j, s.on d = some j → L' (.inl d) = L (.inl d)
  parked : ∀ j, (∀ d, s.on d ≠ some j) →
    t.thread j = s.thread j ∧ L' (.inr j) = L (.inr j) ∧
      ((t.proc j).state ≠ .zombie → (t.proc j).state ≠ .unused →
        (s.proc j).state ≠ .zombie ∧ (s.proc j).state ≠ .unused) ∨
    t.thread j = forkret ∧ (L' (.inr j)).cpu = some j ∧ (L' (.inr j)).born = none

omit [DecidableEq C] in
theorem Sys.ctx_of_on (h : s.on c = some i) : s.ctx c = .inr i := by rw [Sys.ctx, h]

omit [DecidableEq C] in
theorem Sys.ctx_of_none (h : s.on c = none) : s.ctx c = .inl c := by rw [Sys.ctx, h]

omit [DecidableEq C] in
theorem Sys.inl_ne_ctx (h : s.on d = some j) : Sum.inl d ≠ s.ctx c := by
  intro he
  cases hc : s.on c with
  | none =>
    rw [Sys.ctx_of_none hc] at he
    cases he
    rw [hc] at h
    cases h
  | some k =>
    rw [Sys.ctx_of_on hc] at he
    cases he

omit [DecidableEq C] in
theorem Sys.inr_ne_ctx (h : ∀ d, s.on d ≠ some j) : Sum.inr j ≠ s.ctx c := by
  intro he
  cases hc : s.on c with
  | none =>
    rw [Sys.ctx_of_none hc] at he
    cases he
  | some k =>
    rw [Sys.ctx_of_on hc] at he
    cases he
    exact h c hc

theorem After.of_upd (h : Links quiet s L) (hon : t.on = s.on) (hs : t.sched = s.sched)
    (ht : t.thread = s.thread)
    (hp : ∀ j, (∀ d, s.on d ≠ some j) → (t.proc j).state ≠ .zombie →
      (t.proc j).state ≠ .unused → (s.proc j).state ≠ .zombie ∧ (s.proc j).state ≠ .unused) :
    After s t c L (upd L (s.ctx c) y) where
  on := hon
  sched := hs
  live _ _ _ := by rw [ht]
  others d hd := upd_other _ _ fun he => hd (h.ctx_inj he)
  inl d j hj := upd_other _ _ (Sys.inl_ne_ctx hj)
  parked j hj := Or.inl ⟨by rw [ht], upd_other _ _ (Sys.inr_ne_ctx hj), hp j hj⟩

theorem After.same (h : Links quiet s L) (hon : t.on = s.on) (hs : t.sched = s.sched)
    (ht : t.thread = s.thread) (hp : t.proc = s.proc) : After s t c L (upd L (s.ctx c) y) :=
  After.of_upd h hon hs ht fun j _ hz hu => by rw [← hp]; exact ⟨hz, hu⟩

/-- A context that holds no lock knows nothing. -/
def Loc.bare (o b : Option (Fin NPROC)) : Loc :=
  ⟨[], o, fun _ => none, b, fun _ _ => False, none, false⟩

theorem Links.reset (h : Links quiet s L) (hi : ∀ d, s.on d ≠ some i) :
    Links quiet s (upd L (.inr i) (.bare (some i) none)) where
  toShared := h.toShared
  own d := by
    rw [upd_other _ _ (Sys.inr_ne_ctx hi).symm]
    exact h.own d
  born a j hj := by
    by_cases ha : a = .inr i
    · rw [ha, upd_same] at hj
      cases hj
    · rw [upd_other _ _ ha] at hj
      exact h.born a j hj
  bornOne a b j ha hb := by
    by_cases hai : a = .inr i
    · rw [hai, upd_same] at ha
      cases ha
    · by_cases hbi : b = .inr i
      · rw [hbi, upd_same] at hb
        cases hb
      · rw [upd_other _ _ hai] at ha
        rw [upd_other _ _ hbi] at hb
        exact h.bornOne a b j ha hb
  threadCpu j := by
    by_cases hj : j = i
    · rw [hj, upd_same]
      rfl
    · rw [upd_other _ _ fun he => hj (Sum.inr.inj he)]
      exact h.threadCpu j
  schedCpu d j hj := by
    rw [upd_other _ _ Sum.inl_ne_inr]
    exact h.schedCpu d j hj

/-- A write: the process remains one that can be switched to, or it is created. -/
theorem Links.perform_write {w : Write} (h : Links quiet s L)
    (hok : Ok (s.on c) quiet (L (s.ctx c)) (.write i w)) (hsp : quiet → Spares s i w) :
    ∃ L', Gives (s.on c) quiet (L (s.ctx c)) (.write i w) () (L' (s.ctx c)) ∧
      Links quiet (s.put i w) L' ∧ After s (s.put i w) c L L' := by
  obtain ⟨y, hg, hl⟩ := h.write hok hsp
  obtain ⟨v, hv, ha⟩ := hok
  have hsees := (h.own c).known i v hv
  by_cases hcr : w = .create
  · subst hcr
    have hnot : ∀ d, s.on d ≠ some i := by
      intro d hd
      have hlive := hsees.live.2 ⟨d, h.onCpu d i hd⟩
      rw [ha.2.1] at hlive
      cases hlive
    have hnot' : ∀ d, (s.put i .create).on d ≠ some i := by
      rw [put_on]
      exact hnot
    refine ⟨_, ?_, hl.reset hnot', put_on, put_sched, ?_, ?_, ?_, ?_⟩
    · rw [upd_other _ _ (Sys.inr_ne_ctx hnot).symm, upd_same]
      exact hg
    · intro d j hj
      refine put_thread (Or.inl ?_)
      intro he
      rw [he] at hj
      exact hnot d hj
    · intro d hd
      rw [upd_other _ _ (Sys.inr_ne_ctx hnot).symm, upd_other _ _ fun he => hd (h.ctx_inj he)]
    · intro d j hj
      rw [upd_other _ _ Sum.inl_ne_inr, upd_other _ _ (Sys.inl_ne_ctx hj)]
    · intro j hj
      by_cases hji : j = i
      · subst hji
        refine Or.inr ⟨upd_same .., ?_, ?_⟩
        · rw [upd_same]
          rfl
        · rw [upd_same]
          rfl
      · refine Or.inl ⟨put_thread (Or.inl hji), ?_, ?_⟩
        · rw [upd_other _ _ fun he => hji (Sum.inr.inj he), upd_other _ _ (Sys.inr_ne_ctx hj)]
        · rw [put_proc_other hji]
          exact fun hz hu => ⟨hz, hu⟩
  · refine ⟨_, ?_, hl, After.of_upd h put_on put_sched (funext fun j => put_thread (Or.inr hcr)) ?_⟩
    · rw [upd_same]
      exact hg
    · intro j hj hz hu
      by_cases hji : j = i
      · subst hji
        have hst : ∀ st, v.proc.state = st → st ≠ .zombie → st ≠ .unused →
            (s.proc j).state ≠ .zombie ∧ (s.proc j).state ≠ .unused := by
          intro st hvs h1 h2
          rw [← hsees.proc, hvs]
          exact ⟨h1, h2⟩
        rw [put_proc_same] at hz hu
        cases w with
        | rouse chan => exact hst _ ha.1 ProcState.noConfusion ProcState.noConfusion
        | kill => exact ⟨hz, hu⟩
        | run => exact hst _ ha.1 ProcState.noConfusion ProcState.noConfusion
        | yield | doze chan | exit => exact absurd ha.1 (hj c)
        | unchan => exact ⟨hz, hu⟩
        | create => exact absurd rfl hcr
        | start =>
          rw [h.born _ j ha]
          exact ⟨ProcState.noConfusion, ProcState.noConfusion⟩
        | free => exact absurd rfl hu
      · rw [put_proc_other hji] at hz hu
        exact ⟨hz, hu⟩

theorem Links.perform_learn {q : Req} {a : q.Ans} (h : Links quiet s L) (y : Loc)
    (hg : Gives (s.on c) quiet (L (s.ctx c)) q a y) (hown : Own quiet s c y)
    (hb : y.born = (L (s.ctx c)).born) (hc : y.cpu = (L (s.ctx c)).cpu) :
    ∃ L', Gives (s.on c) quiet (L (s.ctx c)) q a (L' (s.ctx c)) ∧ Links quiet s L' ∧
      After s s c L L' := by
  refine ⟨_, ?_, h.learn hown hb hc, After.same h rfl rfl rfl rfl⟩
  rw [upd_same]
  exact hg

/-- **One request that is not a switch.** -/
theorem Links.perform {q : Req} {a : q.Ans} {n : Nat} (h : Links quiet s L)
    (hq : ∀ p, q ≠ .load p) (hok : Ok (s.on c) quiet (L (s.ctx c)) q)
    (hsp : quiet → ∀ i w, q = .write i w → Spares s i w)
    (hp : s.perform c n q = .ok (a, t)) :
    ∃ L', Gives (s.on c) quiet (L (s.ctx c)) q a (L' (s.ctx c)) ∧ Links quiet t L' ∧
      After s t c L L' := by
  have ho := h.own c
  have hupd : ∀ {y : Loc}, Gives (s.on c) quiet (L (s.ctx c)) q a y →
      Links quiet t (upd L (s.ctx c) y) → t.on = s.on → t.sched = s.sched →
      t.thread = s.thread → t.proc = s.proc →
      ∃ L', Gives (s.on c) quiet (L (s.ctx c)) q a (L' (s.ctx c)) ∧ Links quiet t L' ∧
        After s t c L L' := by
    intro y hg hl h1 h2 h3 h4
    refine ⟨_, ?_, hl, After.same h h1 h2 h3 h4⟩
    rw [upd_same]
    exact hg
  cases q with
  | acquire l =>
    rw [Sys.perform] at hp
    cases hl : s.owner l with
    | some d =>
      rw [hl] at hp
      cases hp
    | none =>
      rw [hl] at hp
      cases hp
      obtain ⟨y, hg, hlinks⟩ := h.acquire hl
      exact hupd hg hlinks rfl rfl rfl rfl
  | release l =>
    rw [Sys.perform, if_pos ((ho.held l).1 hok.1)] at hp
    cases hp
    obtain ⟨y, hg, hlinks⟩ := h.release hok
    exact hupd hg hlinks rfl rfl rfl rfl
  | releaseTo chan l =>
    obtain ⟨hl, i, hi, y, hg, hlinks⟩ := h.releaseTo hok
    rw [Sys.perform, if_pos hl] at hp
    rw [hi] at hp
    cases hp
    exact hupd hg hlinks rfl rfl rfl rfl
  | holding l =>
    cases hp
    refine h.perform_learn _ ⟨?_, rfl⟩ ho rfl rfl
    exact decide_eq_decide.2 (ho.held l).symm
  | noff =>
    cases hp
    exact h.perform_learn _ ⟨ho.noff, rfl⟩ ho rfl rfl
  | myproc =>
    cases hp
    refine h.perform_learn _ ⟨ho.cpu.symm, rfl⟩ ⟨ho.held, ho.nodup, ho.noff, ho.cpu, ho.known,
      ho.pipe, ?_, ho.calm, ho.wf.known, ho.wf.pipe, ?_, ho.wf.calm⟩ rfl rfl
    · rintro i n (hn | ⟨hm, hi, -, -⟩)
      · exact ho.clear i n hn
      · rw [h.napRun c i hm fun hoi => hi ((ho.held _).2 hoi)]
        exact (Option.some_ne_none n).symm
    · rintro i n (hn | ⟨-, -, h1, h2⟩)
      · exact ho.wf.clear i n hn
      · exact ⟨h1, h2⟩
  | read i =>
    cases hp
    obtain ⟨v, hv⟩ := ho.wf.known_some hok
    have hsees := ho.known i v hv
    have hcalm : (L (s.ctx c)).calm = true ∨ s.on c = some i ∧ Lock.pipe ∈ (L (s.ctx c)).held ∧
        v.proc.killed = false ∨ ((L (s.ctx c)).calm || decide (s.on c = some i ∧
          Lock.pipe ∈ (L (s.ctx c)).held ∧ v.proc.killed = false)) = false := by
      by_cases h1 : (L (s.ctx c)).calm = true
      · exact Or.inl h1
      · by_cases h2 : s.on c = some i ∧ Lock.pipe ∈ (L (s.ctx c)).held ∧ v.proc.killed = false
        · exact Or.inr (Or.inl h2)
        · rw [Bool.eq_false_iff.2 h1, decide_eq_false h2]
          exact Or.inr (Or.inr rfl)
    refine h.perform_learn _ ⟨v, hv, hsees.proc.symm, rfl⟩ ⟨ho.held, ho.nodup, ho.noff, ho.cpu,
      ho.known, ho.pipe, ho.clear, ?_, ho.wf.known, ho.wf.pipe, ho.wf.clear, ?_⟩ rfl rfl
    · intro hq hc j hj
      rcases hcalm with h1 | ⟨h2, -, h3⟩ | h1
      · exact ho.calm hq h1 j hj
      · cases hj.symm.trans h2
        rw [← hsees.proc]
        exact h3
      · exact absurd (hc.symm.trans h1) Bool.noConfusion
    · intro hc
      rcases hcalm with h1 | ⟨-, h2, -⟩ | h1
      · exact ho.wf.calm h1
      · exact h2
      · exact absurd (hc.symm.trans h1) Bool.noConfusion
  | write i w =>
    cases hp
    exact h.perform_write hok fun hq => hsp hq i w rfl
  | setCpu p =>
    cases hp
    cases p with
    | none =>
      obtain ⟨y, hg, hlinks⟩ := h.setCpu_none hok
      exact hupd hg hlinks rfl rfl rfl rfl
    | some i =>
      obtain ⟨y, hg, hlinks⟩ := h.setCpu_some hok
      exact hupd hg hlinks rfl rfl rfl rfl
  | save =>
    rw [Sys.perform] at hp
    cases hon : s.on c with
    | none =>
      rw [hon] at hp
      cases hp
      have hg : Gives none quiet (L (s.ctx c)) .save () (L (s.ctx c)) := rfl
      rw [← hon] at hg ⊢
      exact h.perform_learn _ hg ho rfl rfl
    | some i =>
      rw [hon] at hp
      cases hp
      obtain ⟨y, hg, hlinks⟩ := h.save hon hok
      rw [← hon]
      exact hupd hg hlinks rfl rfl rfl rfl
  | load p => exact absurd rfl (hq p)
  | pipe =>
    cases hp
    obtain ⟨pi, hpi⟩ := Option.isSome_iff_exists.1 (ho.wf.pipe.2 hok)
    have hpi' := ho.pipe pi hpi
    subst hpi'
    exact h.perform_learn _ ⟨hpi, rfl⟩ ho rfl rfl
  | setPipe pi =>
    cases hp
    exact hupd rfl (h.setPipe hok.1 hok.2) rfl rfl rfl rfl
  | copyout ch =>
    obtain ⟨pi, hpi, hs⟩ := hok
    have hpi' := ho.pipe pi hpi
    subst hpi'
    have hm : Lock.pipe ∈ (L (s.ctx c)).held := ho.wf.pipe.1 (by rw [hpi]; rfl)
    rw [Sys.perform] at hp
    split at hp
    · cases hp
      exact hupd ⟨s.pipe, hpi, rfl⟩ (h.setPipe hm hs) rfl rfl rfl rfl
    · cases hp
      exact h.perform_learn _ ⟨s.pipe, hpi, rfl⟩ ho rfl rfl
  | choose =>
    cases hp
    exact h.perform_learn (q := .choose) _ rfl ho rfl rfl
  | woken chan =>
    cases hp
    exact h.perform_learn (q := .woken chan) _ rfl ho rfl rfl

/-! ### Programs -/

section SetCode

variable {m : Option (Fin NPROC)} {k : Code Unit}

@[simp] theorem setCode_on : (s.setCode c m k).on = s.on := by cases m <;> rfl

@[simp] theorem setCode_proc : (s.setCode c m k).proc = s.proc := by cases m <;> rfl

@[simp] theorem setCode_ctx : (s.setCode c m k).ctx d = s.ctx d := by cases m <;> rfl

theorem Shared.setCode (h : Shared quiet s) : Shared quiet (s.setCode c m k) := by
  have hsees : ∀ j u, Sees s j u → Sees (s.setCode c m k) j u := by
    intro j u hu
    cases m <;> exact ⟨hu.proc, hu.live, hu.saved, hu.nap⟩
  have hfree : ∀ j, s.owner (.proc j) = none → ∃ v, Sees (s.setCode c m k) j v ∧ v.Free := by
    intro j hj
    obtain ⟨u, hu, hf⟩ := h.free j hj
    exact ⟨u, hsees j u hu, hf⟩
  cases m <;> exact ⟨hfree, h.inj, h.onCpu, h.cpuLock, h.napRun, h.doze, h.napPipe, h.pipe, h.sound⟩

theorem Own.setCode (h : Own quiet s d x) : Own quiet (s.setCode c m k) d x := by
  have hsees : ∀ j u, x.known j = some u → Sees (s.setCode c m k) j u := by
    intro j u hu
    have hs := h.known j u hu
    cases m <;> exact ⟨hs.proc, hs.live, hs.saved, hs.nap⟩
  cases m <;> exact ⟨h.held, h.nodup, h.noff, h.cpu, hsees, h.pipe, h.clear, h.calm, h.wf⟩

/-- What the contexts know does not depend on what they have left to do. -/
theorem Links.setCode (h : Links quiet s L) : Links quiet (s.setCode c m k) L where
  toShared := h.toShared.setCode
  own d := by
    rw [setCode_ctx]
    exact (h.own d).setCode
  born := by
    rw [setCode_proc]
    exact h.born
  bornOne := h.bornOne
  threadCpu := h.threadCpu
  schedCpu := by
    rw [setCode_on]
    exact h.schedCpu

end SetCode

theorem code_setCode_same {k : Code Unit} (hon : t.on c = s.on c) :
    (t.setCode c (s.on c) k).code c = k := by
  rw [Sys.code, setCode_on, hon]
  cases s.on c with
  | none | some i => exact upd_same ..

theorem code_setCode_other {k : Code Unit} (hon : t.on = s.on) (hd : d ≠ c)
    (hi : ∀ i, s.on c = some i → s.on d ≠ some i) :
    (t.setCode c (s.on c) k).code d = t.code d := by
  rw [Sys.code, setCode_on, Sys.code, hon]
  cases hdo : s.on d with
  | none =>
    cases hco : s.on c with
    | none => exact upd_other _ _ hd
    | some i => rfl
  | some j =>
    cases hco : s.on c with
    | none => rfl
    | some i =>
      refine upd_other _ _ ?_
      intro he
      exact hi i hco (he ▸ hdo)

theorem Codes.step {k : Code Unit} (h : Codes quiet s L) (hl : Links quiet s L)
    (ha : After s t c L L')
    (hk : Code.Fits k (s.on c) quiet (L' (s.ctx c)) fun _ y => Rest (s.on c) y) :
    Codes quiet (t.setCode c (s.on c) k) L' where
  run d := by
    have hctx : (t.setCode c (s.on c) k).ctx d = s.ctx d := by
      rw [setCode_ctx]
      unfold Sys.ctx
      rw [ha.on]
    rw [hctx, setCode_on, ha.on]
    by_cases hd : d = c
    · subst hd
      rw [code_setCode_same (by rw [ha.on])]
      exact hk
    · have hi : ∀ i, s.on c = some i → s.on d ≠ some i := fun i hci hdi =>
        hd (hl.inj d c i (hl.onCpu d i hdi) (hl.onCpu c i hci))
      rw [code_setCode_other ha.on hd hi, ha.others d hd]
      have hcode : t.code d = s.code d := by
        rw [Sys.code, Sys.code, ha.on]
        cases hdo : s.on d with
        | none => exact congrFun ha.sched d
        | some j => exact ha.live d j hdo
      rw [hcode]
      exact h.run d
  sched d i hi y hy := by
    rw [setCode_on, ha.on] at hi
    rw [ha.inl d i hi] at hy
    have hs : (t.setCode c (s.on c) k).sched d = s.sched d := by
      cases hco : s.on c with
      | none =>
        have hd : d ≠ c := by
          intro he
          rw [he, hco] at hi
          cases hi
        exact (upd_other _ _ hd).trans (congrFun ha.sched d)
      | some j => exact congrFun ha.sched d
    rw [hs]
    exact h.sched d i hi y hy
  thread j hj hz hu y hy := by
    rw [setCode_on, ha.on] at hj
    rw [setCode_proc] at hz hu
    have ht : (t.setCode c (s.on c) k).thread j = t.thread j := by
      cases hco : s.on c with
      | none => rfl
      | some i =>
        refine upd_other _ _ ?_
        intro he
        exact hj c (he ▸ hco)
    rw [ht]
    rcases ha.parked j hj with ⟨h1, h2, h3⟩ | ⟨h1, h2, h3⟩
    · rw [h1]
      rw [h2] at hy
      obtain ⟨hz', hu'⟩ := h3 hz hu
      exact h.thread j hj hz' hu' y hy
    · rw [h1]
      obtain ⟨v, hr, hlive, hs, hn, rfl⟩ := hy
      refine Eff.Uses.mono (fits_forkret (x := L' (.inr j)) ⟨rfl, rfl, rfl,
        ⟨v, Loc.known_only, hr, hlive, hs, hn⟩, Loc.WF.only⟩ rfl h2 h3) ?_
      intro _ z hz
      exact hz.rest

/-! ### Switches -/

/-- The state after CPU `c` has switched: it executes `o`, and `f` says which contexts are saved. -/
def Sys.switchTo (s : Sys C) (c : C) (o : Option (Fin NPROC)) (f : Fin NPROC → Bool) : Sys C :=
  { s with on := upd s.on c o, saved := f }

section Switch

variable {o : Option (Fin NPROC)} {f : Fin NPROC → Bool} {a : Ctx C}

theorem Sys.switchTo_on_same : (s.switchTo c o f).on c = o := upd_same ..

theorem Sys.switchTo_on_other (hd : d ≠ c) : (s.switchTo c o f).on d = s.on d := upd_other _ _ hd

theorem Sys.switchTo_ctx_other (hd : d ≠ c) : (s.switchTo c o f).ctx d = s.ctx d := by
  unfold Sys.ctx
  rw [Sys.switchTo_on_other hd]

/-- **A switch.**  The CPU holds the lock of process `i` and no other, and the context it goes to was
executed by nobody: from now on that context knows the process. -/
theorem Links.switch (hl : Links quiet s L) (hcp : s.cproc c = some i) (hheld : (L (s.ctx c)).held = [.proc i])
    (ho : o = none ∨ o = some i) (hf : ∀ j, j ≠ i → s.saved j = f j) (ha : (s.switchTo c o f).ctx c = a)
    (hne : ∀ d, d ≠ c → s.ctx d ≠ a) (hcpu : (L a).cpu = some i) (hsched : (L (.inl c)).cpu = some i)
    (hsees : Sees (s.switchTo c o f) i v) :
    Links quiet (s.switchTo c o f) (upd L a ((L a).only i v)) := by
  have hown := hl.own c
  have hi : s.owner (.proc i) = some c := (hown.held _).1 (by rw [hheld]; exact List.mem_singleton_self _)
  have hother : ∀ j u, j ≠ i → Sees s j u → Sees (s.switchTo c o f) j u := fun j u hj hu =>
    ⟨hu.proc, hu.live, hu.saved.trans (hf j hj), hu.nap⟩
  have hon : ∀ j, (s.switchTo c o f).on c = some j → j = i := by
    intro j hj
    rw [Sys.switchTo_on_same] at hj
    rcases ho with rfl | rfl
    · cases hj
    · exact (Option.some.inj hj).symm
  have hborn : ∀ b, (upd L a ((L a).only i v) b).born = (L b).born := by
    intro b
    by_cases hb : b = a
    · rw [hb, upd_same]
      rfl
    · rw [upd_other _ _ hb]
  have hcpus : ∀ b, (upd L a ((L a).only i v) b).cpu = (L b).cpu := by
    intro b
    by_cases hb : b = a
    · rw [hb, upd_same]
      rfl
    · rw [upd_other _ _ hb]
  refine ⟨⟨fun j hj => ?_, hl.inj, fun d j hj => ?_, fun d j hj => ?_, fun d j hj hjo => ?_, hl.doze, hl.napPipe,
    hl.pipe, hl.sound⟩, fun d => ?_, fun b j hj => ?_, fun b b' j hb hb' => ?_, fun j => ?_, fun d j hj => ?_⟩
  · obtain ⟨u, hu, hfree⟩ := hl.free j hj
    refine ⟨u, hother j u ?_ hu, hfree⟩
    rintro rfl
    cases hi.symm.trans hj
  · by_cases hd : d = c
    · subst hd
      rw [hon j hj]
      exact hcp
    · exact hl.onCpu d j ((Sys.switchTo_on_other hd).symm.trans hj)
  · by_cases hd : d = c
    · subst hd
      cases hcp.symm.trans hj
      exact .inr hi
    · exact (hl.cpuLock d j hj).imp_left fun hs => (Sys.switchTo_on_other hd).trans hs
  · by_cases hd : d = c
    · subst hd
      rw [hon j hj] at hjo
      exact absurd hi hjo
    · exact hl.napRun d j ((Sys.switchTo_on_other hd).symm.trans hj) hjo
  · by_cases hd : d = c
    · subst hd
      rw [ha, upd_same]
      refine ⟨fun l => ?_, List.nodup_cons.2 ⟨List.not_mem_nil, List.nodup_nil⟩, ?_, hcpu.trans hcp.symm,
        fun j u hu => ?_, fun pi hpi => ?_, fun _ _ hn => hn.elim, fun _ hn => absurd hn Bool.false_ne_true,
        Loc.WF.only⟩
      · have hm := hown.held l
        rw [hheld] at hm
        exact hm
      · exact hown.noff.trans (by rw [hheld]; rfl)
      · by_cases hj : j = i
        · subst hj
          have hu' : some v = some u := (Loc.known_only (x := L a)).symm.trans hu
          cases hu'
          exact hsees
        · have hu' : upd (fun _ => none) i (some v) j = some u := hu
          rw [upd_other _ _ hj] at hu'
          cases hu'
      · cases hpi
    · rw [Sys.switchTo_ctx_other hd, upd_other _ _ (hne d hd)]
      refine (hl.own d).frame ⟨fun _ => Iff.rfl, rfl, rfl, Sys.switchTo_on_other hd, fun j u hj hu => ?_,
        fun _ => rfl, fun _ _ _ hn => hn, fun _ _ _ _ hk => hk⟩
      refine hother j u ?_ hu
      rintro rfl
      exact hd (Option.some.inj (hi.symm.trans hj)).symm
  · rw [hborn] at hj
    exact hl.born b j hj
  · rw [hborn] at hb hb'
    exact hl.bornOne b b' j hb hb'
  · rw [hcpus]
    exact hl.threadCpu j
  · rw [hcpus]
    by_cases hd : d = c
    · subst hd
      rw [hon j hj]
      exact hsched
    · exact hl.schedCpu d j ((Sys.switchTo_on_other hd).symm.trans hj)

theorem Codes.switch_other {k : Code Unit} (hl : Links quiet s L) (hc : Codes quiet s L) (hd : d ≠ c)
    (hne : s.ctx d ≠ a) : Code.Fits (((s.switchTo c o f).setCode c (s.on c) k).code d)
      (((s.switchTo c o f).setCode c (s.on c) k).on d) quiet
      (upd L a x (((s.switchTo c o f).setCode c (s.on c) k).ctx d))
      fun _ y => Rest (((s.switchTo c o f).setCode c (s.on c) k).on d) y := by
  have hi : ∀ i, s.on c = some i → s.on d ≠ some i := fun i hci hdi =>
    hd (hl.inj d c i (hl.onCpu d i hdi) (hl.onCpu c i hci))
  have hcode : ((s.switchTo c o f).setCode c (s.on c) k).code d = s.code d := by
    rw [Sys.code, setCode_on, Sys.switchTo_on_other hd, Sys.code]
    cases hdo : s.on d with
    | none =>
      cases hco : s.on c with
      | none => exact upd_other _ _ hd
      | some i => rfl
    | some j =>
      cases hco : s.on c with
      | none => rfl
      | some i =>
        refine upd_other _ _ ?_
        rintro rfl
        exact hi j hco hdo
  rw [hcode, setCode_ctx, Sys.switchTo_ctx_other hd, setCode_on, Sys.switchTo_on_other hd, upd_other _ _ hne]
  exact hc.run d

end Switch

theorem Good.load_some {k : Unit → Code Unit} (hl : Links quiet s L) (hc : Codes quiet s L)
    (hcode : s.code c = .ask (.load (some i)) k) :
    Good quiet ((s.switchTo c (some i) (upd s.saved i false)).setCode c (s.on c) (k ())) := by
  have hrun := hc.run c
  rw [hcode] at hrun
  obtain ⟨⟨v, hme, hcpu, hheld, hv, hlive, hsv, hr, hnap⟩, hk⟩ := hrun
  have hsees := (hl.own c).known i v hv
  have hcp : s.cproc c = some i := (hl.own c).cpu.symm.trans hcpu
  have hctx : s.ctx c = .inl c := Sys.ctx_of_none hme
  have hnot : ∀ d, s.on d ≠ some i := by
    intro d hd
    have hdc := hl.inj d c i (hl.onCpu d i hd) hcp
    rw [hdc, hme] at hd
    cases hd
  refine ⟨upd L (.inr i) ((L (.inr i)).only i { v with saved := false }), ?_, ?_⟩
  · have hnew : Sees (s.switchTo c (some i) (upd s.saved i false)) i { v with saved := false } :=
      ⟨hsees.proc, hsees.live, (upd_same ..).symm, hsees.nap⟩
    refine (hl.switch hcp hheld (.inr rfl) (fun j hj => (upd_other _ _ hj).symm)
      (Sys.ctx_of_on Sys.switchTo_on_same) (fun d _ => (Sys.inr_ne_ctx hnot).symm) (hl.threadCpu i) ?_
      hnew).setCode
    rw [← hctx]
    exact hcpu
  · refine ⟨fun d => ?_, fun d j hj y hy => ?_, fun j hj hz hu y hy => ?_⟩
    · by_cases hd : d = c
      · subst hd
        have hon : ((s.switchTo d (some i) (upd s.saved i false)).setCode d (s.on d) (k ())).on d = some i := by
          rw [setCode_on, Sys.switchTo_on_same]
        rw [Sys.ctx_of_on hon, upd_same, hon, Sys.code, hon, hme]
        refine hc.thread i hnot ?_ ?_ _ ⟨{ v with saved := false }, hr, hlive, rfl, hnap, rfl⟩
        · rw [← hsees.proc, hr]
          exact ProcState.noConfusion
        · rw [← hsees.proc, hr]
          exact ProcState.noConfusion
      · exact hc.switch_other hl hd (Sys.inr_ne_ctx hnot).symm
    · rw [upd_other _ _ Sum.inl_ne_inr] at hy
      rw [setCode_on] at hj
      rw [hme]
      by_cases hd : d = c
      · subst hd
        cases Sys.switchTo_on_same.symm.trans hj
        have hs : ((s.switchTo d (some i) (upd s.saved i false)).setCode d none (k ())).sched d = k () :=
          upd_same ..
        rw [hs]
        rw [hme, hctx] at hk
        have hwf : y.WF := by
          obtain ⟨v', -, -, -, -, rfl⟩ := hy
          exact Loc.WF.only
        exact hk () y ⟨hy, hwf⟩
      · have hs : ((s.switchTo c (some i) (upd s.saved i false)).setCode c none (k ())).sched d = s.sched d :=
          upd_other _ _ hd
        rw [hs]
        exact hc.sched d j ((Sys.switchTo_on_other hd).symm.trans hj) y hy
    · rw [setCode_on] at hj
      rw [setCode_proc] at hz hu
      have hji : j ≠ i := by
        rintro rfl
        exact hj c Sys.switchTo_on_same
      have hjs : ∀ d, s.on d ≠ some j := by
        intro d hdj
        by_cases hd : d = c
        · rw [hd, hme] at hdj
          cases hdj
        · exact hj d ((Sys.switchTo_on_other hd).trans hdj)
      rw [upd_other _ _ fun he => hji (Sum.inr.inj he)] at hy
      rw [hme]
      exact hc.thread j hjs hz hu y hy

theorem Good.load_none {k : Unit → Code Unit} (hl : Links quiet s L) (hc : Codes quiet s L)
    (hcode : s.code c = .ask (.load none) k) :
    Good quiet ((s.switchTo c none s.saved).setCode c (s.on c) (k ())) := by
  have hrun := hc.run c
  rw [hcode] at hrun
  obtain ⟨⟨i, v, hme, hcpu, hheld, hv, hlive, hsv, hr, hnap, -⟩, hk⟩ := hrun
  have hsees := (hl.own c).known i v hv
  have hcp : s.cproc c = some i := (hl.own c).cpu.symm.trans hcpu
  have hctx : s.ctx c = .inr i := Sys.ctx_of_on hme
  -- the context of the scheduler of this CPU is executed by no other
  have hne : ∀ d, d ≠ c → s.ctx d ≠ .inl c := by
    intro d hd he
    cases hdo : s.on d with
    | none =>
      rw [Sys.ctx_of_none hdo] at he
      exact hd (Sum.inl.inj he)
    | some j =>
      rw [Sys.ctx_of_on hdo] at he
      cases he
  have hoff : ∀ d j, ((s.switchTo c none s.saved).setCode c (s.on c) (k ())).on d = some j → d ≠ c := by
    rintro d j hj rfl
    rw [setCode_on, Sys.switchTo_on_same] at hj
    cases hj
  refine ⟨upd L (.inl c) ((L (.inl c)).only i v), ?_, ?_⟩
  · exact (hl.switch hcp hheld (.inl rfl) (fun _ _ => rfl) (Sys.ctx_of_none Sys.switchTo_on_same) hne
      (hl.schedCpu c i hme) (hl.schedCpu c i hme) ⟨hsees.proc, hsees.live, hsees.saved, hsees.nap⟩).setCode
  · refine ⟨fun d => ?_, fun d j hj y hy => ?_, fun j hj hz hu y hy => ?_⟩
    · by_cases hd : d = c
      · subst hd
        have hon : ((s.switchTo d none s.saved).setCode d (s.on d) (k ())).on d = none := by
          rw [setCode_on, Sys.switchTo_on_same]
        rw [Sys.ctx_of_none hon, upd_same, hon, Sys.code, hon, hme]
        exact hc.sched d i hme _ ⟨v, hr, hlive, hsv, hnap, rfl⟩
      · exact hc.switch_other hl hd (hne d hd)
    · have hd := hoff d j hj
      rw [upd_other _ _ fun he => hd (Sum.inl.inj he)] at hy
      rw [setCode_on] at hj
      rw [hme]
      exact hc.sched d j ((Sys.switchTo_on_other hd).symm.trans hj) y hy
    · rw [upd_other _ _ Sum.inr_ne_inl] at hy
      rw [setCode_on] at hj
      rw [setCode_proc] at hz hu
      by_cases hji : j = i
      · subst hji
        have ht : ((s.switchTo c none s.saved).setCode c (some j) (k ())).thread j = k () := upd_same ..
        rw [hme, ht]
        rw [hme, hctx] at hk
        obtain ⟨v', h1, h2, h3, h4, rfl⟩ := hy
        refine hk () _ ⟨⟨j, v, v', rfl, hctx ▸ hv, ?_, h1, h2, h3, h4, rfl⟩, Loc.WF.only⟩
        rw [hsees.proc]
        exact hz
      · have hjs : ∀ d, s.on d ≠ some j := by
          intro d hdj
          by_cases hd : d = c
          · rw [hd, hme] at hdj
            exact hji (Option.some.inj hdj).symm
          · exact hj d ((Sys.switchTo_on_other hd).trans hdj)
        have ht : ((s.switchTo c none s.saved).setCode c (some i) (k ())).thread j = s.thread j :=
          upd_other _ _ hji
        rw [hme, ht]
        exact hc.thread j hjs hz hu y hy

/-! ### Steps -/

theorem Loc.WF.eq_bare (h : x.WF) (hh : x.held = []) : x = .bare x.cpu x.born := by
  have hnot : ∀ l : Lock, l ∉ x.held := by
    intro l
    rw [hh]
    exact List.not_mem_nil
  have hk : x.known = fun _ => none := funext fun i => h.known_none (hnot _)
  have hc : x.clear = fun _ _ => False := by
    funext i n
    exact propext ⟨fun hn => hnot _ (h.clear i n hn).1, fun hn => hn.elim⟩
  have hp : x.pipe = none := by
    cases hp : x.pipe with
    | none => rfl
    | some pi => exact absurd (h.pipe.1 (by rw [hp]; rfl)) (hnot _)
  have hcalm : x.calm = false := by
    cases hcalm : x.calm with
    | false => rfl
    | true => exact absurd (h.calm hcalm) (hnot _)
  cases x
  cases hh
  cases hk
  cases hc
  cases hp
  cases hcalm
  rfl

theorem Back.eq (h : Back x y) (hx : x.WF) (hh : x.held = []) : y = x := by
  rw [h.wf.eq_bare h.held, h.cpu, h.born, ← hx.eq_bare hh]

theorem Good.setCode {k : Code Unit} (hl : Links quiet s L) (hc : Codes quiet s L)
    (hk : Code.Fits k (s.on c) quiet (L (s.ctx c)) fun _ y => Rest (s.on c) y) :
    Good quiet (s.setCode c (s.on c) k) :=
  ⟨L, hl.setCode, hc.step hl ⟨rfl, rfl, fun _ _ _ => rfl, fun _ _ => rfl, fun _ _ _ => rfl,
    fun _ _ => Or.inl ⟨rfl, rfl, fun hz hu => ⟨hz, hu⟩⟩⟩ hk⟩

/-- No process is killed while it holds the lock of the pipe. -/
def Act.Spares (s : Sys C) : Act C → Prop
  | .run c _ => ∀ i w k, s.code c = .ask (.write i w) k → Smp.Spares s i w
  | _ => True

theorem Good.run {n : Nat} (h : Good quiet s) (hsp : quiet → (Act.run c n).Spares s)
    (hstep : step s (.run c n) = .ok t) : Good quiet t := by
  obtain ⟨L, hl, hc⟩ := h
  rw [step] at hstep
  cases hcode : s.code c with
  | ret a | stop e =>
    rw [hcode] at hstep
    cases hstep
  | ask q k =>
    rw [hcode] at hstep
    cases hp : s.perform c n q with
    | error e =>
      dsimp only at hstep
      rw [hp] at hstep
      cases hstep
    | ok r =>
      obtain ⟨a, u⟩ := r
      dsimp only at hstep
      rw [hp] at hstep
      have hu : t = u.setCode c (s.on c) (k a) := (Except.ok.inj hstep).symm
      subst hu
      by_cases hq : ∃ p, q = .load p
      · obtain ⟨p, rfl⟩ := hq
        cases p with
        | none =>
          cases hp
          exact Good.load_none hl hc hcode
        | some i =>
          cases hp
          exact Good.load_some hl hc hcode
      · have hrun := hc.run c
        rw [hcode] at hrun
        obtain ⟨hok, hk⟩ := hrun
        obtain ⟨L', hg, hl', ha⟩ := hl.perform (fun p he => hq ⟨p, he⟩) hok
          (fun hquiet i w he => by subst he; exact hsp hquiet i w k hcode) hp
        refine ⟨L', hl'.setCode, hc.step hl ha (hk a _ ⟨hg, ?_⟩)⟩
        have hctx : u.ctx c = s.ctx c := by
          unfold Sys.ctx
          rw [ha.on]
        rw [← hctx]
        exact (hl'.own c).wf

/-- **Each step keeps what the service promises.** -/
theorem Good.step {a : Act C} (h : Good quiet s) (hsp : quiet → a.Spares s)
    (hstep : Smp.step s a = .ok t) : Good quiet t := by
  cases a with
  | run c n => exact h.run hsp hstep
  | call c op =>
    obtain ⟨L, hl, hc⟩ := h
    rw [Smp.step] at hstep
    have hrun := hc.run c
    cases hon : s.on c with
    | none =>
      rw [hon] at hstep
      cases hstep
    | some i =>
      cases hcode : s.code c with
      | ret a =>
        rw [hon, hcode] at hstep
        rw [hon, hcode] at hrun
        cases hstep
        have hrest : Rest (some i) (L (s.ctx c)) := hrun
        rw [← hon]
        refine Good.setCode hl hc ?_
        rw [hon]
        exact (fits_op op hrest.idle).mono fun _ y hy => hy.rest
      | stop e | ask q k =>
        rw [hon, hcode] at hstep
        cases hstep
  | intr c hd =>
    obtain ⟨L, hl, hc⟩ := h
    rw [Smp.step] at hstep
    split at hstep
    case isFalse => cases hstep
    case isTrue hn =>
      cases hstep
      have ho := hl.own c
      have hheld : (L (s.ctx c)).held = [] := List.length_eq_zero_iff.1 (ho.noff.symm.trans hn)
      have hcpu : (L (s.ctx c)).cpu = s.on c := by
        rw [ho.cpu]
        cases hcp : s.cproc c with
        | none =>
          cases hon : s.on c with
          | none => rfl
          | some i =>
            rw [hl.onCpu c i hon] at hcp
            cases hcp
        | some i =>
          rcases hl.cpuLock c i hcp with hon | hlock
          · exact hon.symm
          · rw [← ho.held, hheld] at hlock
            cases hlock
      refine Good.setCode hl hc (fits_bind ((fits_intr hd hcpu hheld).mono ?_))
      intro _ y hy
      rw [hy.eq ho.wf hheld]
      exact hc.run c
  | again c =>
    obtain ⟨L, hl, hc⟩ := h
    rw [Smp.step] at hstep
    have hrun := hc.run c
    cases hon : s.on c with
    | some i =>
      rw [hon] at hstep
      cases hstep
    | none =>
      cases hcode : s.code c with
      | ret a =>
        rw [hon, hcode] at hstep
        rw [hon, hcode] at hrun
        cases hstep
        have hrest : Rest none (L (s.ctx c)) := hrun
        rw [← hon]
        refine Good.setCode hl hc ?_
        rw [hon]
        refine (fits_scheduler hrest.wf hrest.cpu hrest.held).mono ?_
        rintro _ y ⟨h1, h2, h3, h4⟩
        exact ⟨h1, h2, h3.trans hrest.born, h4⟩
      | stop e | ask q k =>
        rw [hon, hcode] at hstep
        cases hstep

/-! ### Runs -/

/-- The current processes are where they are. -/
def Placed (cur : C → Option (Fin NPROC)) (home : Fin NPROC → Option C) : Prop :=
  ∀ c i, cur c = some i ↔ home i = some c

section Start

variable {cur : C → Option (Fin NPROC)} {home : Fin NPROC → Option C} {ready : Fin NPROC → Bool}

theorem Loc.WF.bare {o b : Option (Fin NPROC)} : (Loc.bare o b).WF where
  known _ := ⟨fun h => absurd h Bool.false_ne_true, fun h => absurd h List.not_mem_nil⟩
  pipe := ⟨fun h => absurd h Bool.false_ne_true, fun h => absurd h List.not_mem_nil⟩
  clear _ _ h := h.elim
  calm h := absurd h Bool.false_ne_true

omit [DecidableEq C] in
theorem settled_start : (start cur home ready).pipe.Settled :=
  ⟨rfl, rfl, le_rfl, Nat.zero_le _, fun j hj => absurd hj (Nat.not_lt_zero j), List.prefix_rfl⟩

omit [DecidableEq C] in
theorem sees_start (h : Placed cur home) (i : Fin NPROC) :
    ∃ v, Sees (start cur home ready) i v ∧ v.Free := by
  refine ⟨⟨(start cur home ready).proc i, (home i).isSome, (home i).isNone, none⟩,
    ⟨rfl, ?_, rfl, rfl⟩, ⟨?_, ?_, fun _ _ hn => absurd hn (Option.some_ne_none _).symm⟩⟩
  · rw [Option.isSome_iff_exists]
    exact ⟨fun ⟨c, hc⟩ => ⟨c, (h c i).2 hc⟩, fun ⟨c, hc⟩ => ⟨c, (h c i).1 hc⟩⟩
  · show (home i).isSome = true ↔
      (if (home i).isSome then ProcState.running else if ready i then .runnable else .unused) =
        .running
    cases (home i).isSome with
    | true => exact ⟨fun _ => rfl, fun _ => rfl⟩
    | false =>
      refine ⟨fun hf => absurd hf Bool.false_ne_true, ?_⟩
      intro hf
      rw [if_neg Bool.false_ne_true] at hf
      split at hf
      · cases hf
      · cases hf
  · show (home i).isNone = !(home i).isSome
    cases home i with
    | none | some c => rfl

omit [DecidableEq C] in
theorem good_start (h : Placed cur home) : Good quiet (start cur home ready) := by
  have hctx : ∀ c, Sum.elim (fun c => Loc.bare (cur c) none) (fun i => Loc.bare (some i) none)
      ((start cur home ready).ctx c) = Loc.bare (cur c) none := by
    intro c
    cases hc : cur c with
    | none =>
      rw [Sys.ctx_of_none (show (start cur home ready).on c = none from hc), Sum.elim_inl, hc]
    | some i => rw [Sys.ctx_of_on (show (start cur home ready).on c = some i from hc), Sum.elim_inr]
  refine ⟨Sum.elim (fun c => .bare (cur c) none) fun i => .bare (some i) none,
    ⟨⟨fun i _ => sees_start h i, ?_, fun _ _ hc => hc, fun _ _ hc => Or.inl hc, fun _ _ _ _ => rfl,
      ?_, ?_, fun _ => ⟨settled_start, fun _ _ n _ => (Option.some_ne_none n).symm⟩,
      settled_start.sound⟩, ?_, ?_, ?_, fun _ => rfl, fun _ _ hc => hc⟩, ⟨?_, ?_, ?_⟩⟩
  · intro c d i hc hd
    have h1 := (h c i).1 hc
    have h2 := (h d i).1 hd
    exact Option.some.inj (h1.symm.trans h2)
  · intro i hi
    have hi' : (if (home i).isSome then ProcState.running else if ready i then .runnable else
      .unused) = .sleeping := hi
    split at hi'
    · cases hi'
    · split at hi' <;> cases hi'
  · intro i chan l hn
    cases hn
  · intro c
    rw [hctx]
    exact ⟨fun l => ⟨fun hm => absurd hm List.not_mem_nil, fun hm => absurd hm.symm
      (Option.some_ne_none c)⟩, List.nodup_nil, rfl, rfl, fun _ _ hk => absurd hk.symm
      (Option.some_ne_none _), fun _ hk => absurd hk.symm (Option.some_ne_none _),
      fun _ _ hk => hk.elim, fun _ hk => absurd hk Bool.false_ne_true, Loc.WF.bare⟩
  · intro a i ha
    cases a <;> cases ha
  · intro a b i ha
    cases a <;> cases ha
  · intro c
    rw [hctx]
    have hon : (start cur home ready).on c = cur c := rfl
    rw [Sys.code, hon]
    cases hc : cur c with
    | none =>
      have hs : (start cur home ready).sched c = pure () := by simp only [start, hc]
      rw [hs]
      exact fits_pure ⟨rfl, rfl, rfl, Loc.WF.bare⟩
    | some i =>
      have ht : (start cur home ready).thread i = pure () := by
        show (if (home i).isSome then pure () else forkret) = _
        rw [(h c i).1 hc]
        rfl
      dsimp only
      rw [ht]
      exact fits_pure ⟨rfl, rfl, rfl, Loc.WF.bare⟩
  · rintro c i hc y ⟨v', h1, -, h3, h4, rfl⟩
    have hci : cur c = some i := hc
    have hs : (start cur home ready).sched c = schedulerBack i := by simp only [start, hci]
    rw [hs]
    refine (fits_schedulerBack ?_ rfl Loc.known_only h1 h3 h4).mono ?_
    · exact hc
    · rintro _ z ⟨e1, e2, e3, e4⟩
      exact ⟨e1, e2, e3, e4⟩
  · rintro i hi - - y ⟨v', h1, h2, h3, h4, rfl⟩
    have ht : (start cur home ready).thread i = forkret := by
      show (if (home i).isSome then pure () else forkret) = _
      refine if_neg ?_
      intro hs
      obtain ⟨c, hc⟩ := Option.isSome_iff_exists.1 hs
      exact hi c ((h c i).2 hc)
    rw [ht]
    refine Eff.Uses.mono (fits_forkret (x := .bare (some i) none)
      ⟨rfl, rfl, rfl, ⟨v', Loc.known_only, h1, h2, h3, h4⟩, Loc.WF.only⟩ rfl rfl rfl) ?_
    intro _ z hz
    exact hz.rest

/-- **Every run keeps to the service.** -/
theorem good_of_run {as : List (Act C)} (h : Placed cur home)
    (hrun : Run step (fun s a => quiet → a.Spares s) (start cur home ready) as s) : Good quiet s :=
  hrun.invariant (I := Good quiet) (good_start h) fun _ _ _ hs hsp hstep => hs.step hsp hstep

end Start

end Xv6.Smp
