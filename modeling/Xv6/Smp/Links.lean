import Xv6.Smp.Pipe
import Mathlib.Data.Sum.Basic

/-!
# What the contexts know is true

`Links` ties what each context knows to the state of the machine.  `Links.perform` says that a
request that a context is allowed to make leaves it so: the context learns what the service
promises, and what the others know remains true, because it is protected by a lock that they
hold.
-/

namespace Xv6.Smp

open Xv6.Lib

variable {C : Type} [DecidableEq C]

/-- The scheduler of a CPU, or the thread of a process. -/
abbrev Ctx (C : Type) : Type := C ⊕ Fin NPROC

/-- The context that a CPU executes. -/
def Sys.ctx (s : Sys C) (c : C) : Ctx C :=
  match s.on c with
  | none => .inl c
  | some i => .inr i

/-- The view is the process. -/
structure Sees (s : Sys C) (i : Fin NPROC) (v : View) : Prop where
  proc : v.proc = s.proc i
  live : v.live = true ↔ ∃ c, s.cproc c = some i
  saved : v.saved = s.saved i
  nap : v.nap = s.nap i

/-- What the context that a CPU executes knows is true. -/
structure Own (quiet : Prop) (s : Sys C) (c : C) (x : Loc) : Prop where
  held : ∀ l, l ∈ x.held ↔ s.owner l = some c
  nodup : x.held.Nodup
  noff : s.noff c = x.held.length
  cpu : x.cpu = s.cproc c
  known : ∀ i v, x.known i = some v → Sees s i v
  pipe : ∀ pi, x.pipe = some pi → pi = s.pipe
  clear : ∀ i n, x.clear i n → s.nap i ≠ some n
  calm : quiet → x.calm = true → ∀ i, s.on c = some i → (s.proc i).killed = false
  wf : x.WF

/-- What does not depend on who knows what. -/
structure Shared (quiet : Prop) (s : Sys C) : Prop where
  free : ∀ i, s.owner (.proc i) = none → ∃ v, Sees s i v ∧ v.Free
  inj : ∀ c d i, s.cproc c = some i → s.cproc d = some i → c = d
  onCpu : ∀ c i, s.on c = some i → s.cproc c = some i
  cpuLock : ∀ c i, s.cproc c = some i → s.on c = some i ∨ s.owner (.proc i) = some c
  napRun : ∀ c i, s.on c = some i → s.owner (.proc i) ≠ some c → s.nap i = none
  doze : ∀ i, (s.proc i).state = .sleeping →
    ∃ chan l, s.nap i = some (chan, l) ∧ (s.proc i).chan = some chan
  napPipe : ∀ i chan l, s.nap i = some (chan, l) → (chan = .nread ∨ chan = .nwrite ↔ l = .pipe)
  pipe : s.owner .pipe = none → s.pipe.Settled ∧
    (quiet → ∀ i n, s.pipe.Unawaited n → s.nap i ≠ some n)
  sound : s.pipe.Sound

structure Links (quiet : Prop) (s : Sys C) (L : Ctx C → Loc) : Prop extends Shared quiet s where
  own : ∀ c, Own quiet s c (L (s.ctx c))
  born : ∀ a i, (L a).born = some i → (s.proc i).state = .used
  bornOne : ∀ a b i, (L a).born = some i → (L b).born = some i → a = b
  threadCpu : ∀ i, (L (.inr i)).cpu = some i
  schedCpu : ∀ c i, s.on c = some i → (L (.inl c)).cpu = some i

variable {quiet : Prop} {s t : Sys C} {L : Ctx C → Loc} {c d : C} {x y : Loc} {i j : Fin NPROC}
  {v : View} {l : Lock}

/-- What a CPU relies on is not touched. -/
structure Untouched (quiet : Prop) (s t : Sys C) (d : C) : Prop where
  owner : ∀ l, t.owner l = some d ↔ s.owner l = some d
  noff : t.noff d = s.noff d
  cproc : t.cproc d = s.cproc d
  on : t.on d = s.on d
  sees : ∀ i v, s.owner (.proc i) = some d → Sees s i v → Sees t i v
  pipe : s.owner .pipe = some d → t.pipe = s.pipe
  nap : ∀ i n, s.owner n.2 = some d → t.nap i = some n → s.nap i = some n
  killed : quiet → s.owner .pipe = some d → ∀ i, s.on d = some i →
    (s.proc i).killed = false → (t.proc i).killed = false

omit [DecidableEq C] in
theorem Own.frame (h : Own quiet s d x) (hu : Untouched quiet s t d) : Own quiet t d x where
  held l := (h.held l).trans (hu.owner l).symm
  nodup := h.nodup
  noff := hu.noff.trans h.noff
  cpu := h.cpu.trans hu.cproc.symm
  known i v hv := by
    refine hu.sees i v ((h.held _).1 ((h.wf.known i).1 ?_)) (h.known i v hv)
    rw [hv]
    rfl
  pipe pi hpi := by
    rw [hu.pipe ((h.held _).1 (h.wf.pipe.1 (by rw [hpi]; rfl)))]
    exact h.pipe pi hpi
  clear i n hn hnap :=
    h.clear i n hn (hu.nap i n ((h.held _).1 (h.wf.clear i n hn).1) hnap)
  calm hq hc i hi := by
    rw [hu.on] at hi
    exact hu.killed hq ((h.held _).1 (h.wf.calm hc)) i hi (h.calm hq hc i hi)
  wf := h.wf

namespace Links

omit [DecidableEq C] in
theorem ctx_inj (h : Links quiet s L) (hc : s.ctx c = s.ctx d) : c = d := by
  unfold Sys.ctx at hc
  cases hcc : s.on c with
  | none =>
    cases hd : s.on d with
    | none =>
      rw [hcc, hd] at hc
      exact Sum.inl.inj hc
    | some j =>
      rw [hcc, hd] at hc
      cases hc
  | some i =>
    cases hd : s.on d with
    | none =>
      rw [hcc, hd] at hc
      cases hc
    | some j =>
      rw [hcc, hd] at hc
      cases hc
      exact h.inj c d i (h.onCpu c i hcc) (h.onCpu d i hd)

omit [DecidableEq C] in
theorem known_owner (h : Links quiet s L) (hv : (L (s.ctx c)).known i = some v) :
    s.owner (.proc i) = some c := by
  have hw := (h.own c).wf.known i
  rw [hv] at hw
  exact ((h.own c).held _).1 (hw.1 rfl)

/-- **The frame rule**: a CPU has changed what is protected by its locks, and knows what it is
now. -/
theorem change (h : Links quiet s L) (hs : Shared quiet t) (hon : t.on = s.on)
    (hown : Own quiet t c y) (hu : ∀ d, d ≠ c → Untouched quiet s t d)
    (hborn : ∀ a i, (upd L (s.ctx c) y a).born = some i → (t.proc i).state = .used)
    (hone : ∀ a b i, (upd L (s.ctx c) y a).born = some i → (upd L (s.ctx c) y b).born = some i →
      a = b)
    (hcpu : s.on c ≠ none → y.cpu = (L (s.ctx c)).cpu) :
    Links quiet t (upd L (s.ctx c) y) where
  toShared := hs
  own d := by
    have hctx : t.ctx d = s.ctx d := by
      unfold Sys.ctx
      rw [hon]
    rw [hctx]
    by_cases hd : d = c
    · rw [hd, upd_same]
      exact hown
    · rw [upd_other _ _ fun he => hd (h.ctx_inj he)]
      exact (h.own d).frame (hu d hd)
  born := hborn
  bornOne := hone
  threadCpu i := by
    by_cases hi : Sum.inr i = s.ctx c
    · rw [← hi, upd_same, hcpu, ← hi]
      · exact h.threadCpu i
      · intro hn
        unfold Sys.ctx at hi
        rw [hn] at hi
        cases hi
    · rw [upd_other _ _ hi]
      exact h.threadCpu i
  schedCpu d i hi := by
    rw [hon] at hi
    have hne : Sum.inl d ≠ s.ctx c := by
      intro he
      unfold Sys.ctx at he
      cases hc : s.on c with
      | none =>
        rw [hc] at he
        cases he
        rw [hc] at hi
        cases hi
      | some j =>
        rw [hc] at he
        cases he
    rw [upd_other _ _ hne]
    exact h.schedCpu d i hi

theorem change' (h : Links quiet s L) (hs : Shared quiet t) (hon : t.on = s.on)
    (hown : Own quiet t c y) (hu : ∀ d, d ≠ c → Untouched quiet s t d)
    (hproc : ∀ a i, (L a).born = some i → (t.proc i).state = .used)
    (hborn : y.born = (L (s.ctx c)).born) (hcpu : s.on c ≠ none → y.cpu = (L (s.ctx c)).cpu) :
    Links quiet t (upd L (s.ctx c) y) := by
  have hb : ∀ a, (upd L (s.ctx c) y a).born = (L a).born := by
    intro a
    by_cases ha : a = s.ctx c
    · rw [ha, upd_same, hborn]
    · rw [upd_other _ _ ha]
  refine h.change hs hon hown hu ?_ ?_ hcpu
  · intro a i hi
    rw [hb] at hi
    exact hproc a i hi
  · intro a b i ha hb'
    rw [hb] at ha hb'
    exact h.bornOne a b i ha hb'

theorem learn (h : Links quiet s L) (hown : Own quiet s c y)
    (hborn : y.born = (L (s.ctx c)).born) (hcpu : y.cpu = (L (s.ctx c)).cpu) :
    Links quiet s (upd L (s.ctx c) y) :=
  h.change' h.toShared rfl hown (fun _ _ => ⟨fun _ => Iff.rfl, rfl, rfl, rfl, fun _ _ _ hv => hv,
    fun _ => rfl, fun _ _ _ hn => hn, fun _ _ _ _ hk => hk⟩) h.born hborn fun _ => hcpu

end Links

/-! ### Locks -/

/-- The CPU has taken a lock. -/
def Sys.take (s : Sys C) (c : C) (l : Lock) : Sys C :=
  { s with owner := upd s.owner l (some c), noff := upd s.noff c (s.noff c + 1) }

theorem untouched_take (hl : s.owner l = none) (hd : d ≠ c) : Untouched quiet s (s.take c l) d where
  owner k := by
    show upd s.owner l (some c) k = some d ↔ _
    by_cases hk : k = l
    · rw [hk, upd_same, hl, Option.some.injEq]
      exact ⟨fun h => absurd h.symm hd, fun h => absurd h.symm (Option.some_ne_none d)⟩
    · rw [upd_other _ _ hk]
  noff := upd_other _ _ hd
  cproc := rfl
  on := rfl
  sees _ _ _ h := ⟨h.proc, h.live, h.saved, h.nap⟩
  pipe _ := rfl
  nap _ _ _ h := h
  killed _ _ _ _ h := h

theorem Shared.take (h : Shared quiet s) (hl : s.owner l = none) : Shared quiet (s.take c l) where
  free i hi := by
    have hne : Lock.proc i ≠ l := by
      intro he
      have hi' : upd s.owner l (some c) (.proc i) = none := hi
      rw [he, upd_same] at hi'
      cases hi'
    obtain ⟨v, hv, hf⟩ := h.free i ((upd_other _ _ hne).symm.trans hi)
    exact ⟨v, ⟨hv.proc, hv.live, hv.saved, hv.nap⟩, hf⟩
  inj := h.inj
  onCpu := h.onCpu
  cpuLock d i hi := by
    refine (h.cpuLock d i hi).imp_right fun hs => ?_
    have hne : Lock.proc i ≠ l := by
      intro he
      rw [he, hl] at hs
      cases hs
    exact (upd_other _ _ hne).trans hs
  napRun d i hi ho := by
    refine h.napRun d i hi fun hs => ho ?_
    have hne : Lock.proc i ≠ l := by
      intro he
      rw [he, hl] at hs
      cases hs
    exact (upd_other _ _ hne).trans hs
  doze := h.doze
  napPipe := h.napPipe
  pipe hp := by
    have hne : Lock.pipe ≠ l := by
      intro he
      have hp' : upd s.owner l (some c) .pipe = none := hp
      rw [he, upd_same] at hp'
      cases hp'
    exact h.pipe ((upd_other _ _ hne).symm.trans hp)
  sound := h.sound

theorem Own.take (h : Own quiet s c x) (hl : s.owner l = none) :
    (∀ k, k ∈ l :: x.held ↔ (s.take c l).owner k = some c) ∧ (l :: x.held).Nodup ∧
      (s.take c l).noff c = (l :: x.held).length := by
  have hnot : l ∉ x.held := by
    intro hm
    rw [(h.held l).1 hm] at hl
    cases hl
  refine ⟨?_, List.nodup_cons.2 ⟨hnot, h.nodup⟩, ?_⟩
  · intro k
    show k ∈ l :: x.held ↔ upd s.owner l (some c) k = some c
    by_cases hk : k = l
    · rw [hk, upd_same]
      exact ⟨fun _ => rfl, fun _ => List.mem_cons_self⟩
    · rw [upd_other _ _ hk, List.mem_cons, ← h.held]
      exact ⟨fun hm => hm.resolve_left hk, Or.inr⟩
  · show upd s.noff c (s.noff c + 1) c = _
    rw [upd_same, h.noff, List.length_cons]

namespace Loc.WF

theorem lock (h : x.WF) : (x.lock i v).WF where
  known j := by
    show (upd x.known i (some v) j).isSome = true ↔ Lock.proc j ∈ Lock.proc i :: x.held
    by_cases hj : j = i
    · rw [hj, upd_same]
      exact ⟨fun _ => List.mem_cons_self, fun _ => rfl⟩
    · rw [upd_other _ _ hj, h.known, List.mem_cons, Lock.proc.injEq]
      exact ⟨Or.inr, fun hm => hm.resolve_left hj⟩
  pipe := by
    show x.pipe.isSome = true ↔ Lock.pipe ∈ Lock.proc i :: x.held
    rw [h.pipe, List.mem_cons]
    exact ⟨Or.inr, fun hm => hm.resolve_left fun he => Lock.noConfusion he⟩
  clear j n hn := ⟨List.mem_cons_of_mem _ (h.clear j n hn).1, (h.clear j n hn).2⟩
  calm hc := List.mem_cons_of_mem _ (h.calm hc)

theorem lockCond (h : x.WF) (hl : l.Cond) (hp : l ≠ .pipe) : (x.lockCond l).WF where
  known j := by
    show (x.known j).isSome = true ↔ Lock.proc j ∈ l :: x.held
    rw [h.known, List.mem_cons]
    exact ⟨Or.inr, fun hm => hm.resolve_left fun he => hl j he.symm⟩
  pipe := by
    show x.pipe.isSome = true ↔ Lock.pipe ∈ l :: x.held
    rw [h.pipe, List.mem_cons]
    exact ⟨Or.inr, fun hm => hm.resolve_left fun he => hp he.symm⟩
  clear j n hn := ⟨List.mem_cons_of_mem _ (h.clear j n hn).1, (h.clear j n hn).2⟩
  calm hc := List.mem_cons_of_mem _ (h.calm hc)

theorem lockPipe {pi : Pipe} (h : x.WF) : (x.lockPipe quiet pi).WF where
  known j := by
    show (x.known j).isSome = true ↔ Lock.proc j ∈ Lock.pipe :: x.held
    rw [h.known, List.mem_cons]
    exact ⟨Or.inr, fun hm => hm.resolve_left fun he => Lock.noConfusion he⟩
  pipe := ⟨fun _ => List.mem_cons_self, fun _ => rfl⟩
  clear j n hn := by
    rcases hn with hn | ⟨-, hn⟩
    · exact ⟨List.mem_cons_of_mem _ (h.clear j n hn).1, (h.clear j n hn).2⟩
    · rcases hn with ⟨rfl, -⟩ | ⟨rfl, -⟩
      · exact ⟨List.mem_cons_self, pipe_cond⟩
      · exact ⟨List.mem_cons_self, pipe_cond⟩
  calm hc := List.mem_cons_of_mem _ (h.calm hc)

theorem unlock (h : x.WF) (hn : x.held.Nodup) : (x.unlock i).WF where
  known j := by
    show (upd x.known i none j).isSome = true ↔ Lock.proc j ∈ x.held.erase (.proc i)
    rw [hn.mem_erase_iff]
    by_cases hj : j = i
    · rw [hj, upd_same]
      exact ⟨fun h => absurd h Bool.false_ne_true, fun h => absurd rfl h.1⟩
    · rw [upd_other _ _ hj, h.known]
      exact ⟨fun hm => ⟨fun he => hj (Lock.proc.inj he), hm⟩, fun hm => hm.2⟩
  pipe := by
    show x.pipe.isSome = true ↔ Lock.pipe ∈ x.held.erase (.proc i)
    rw [hn.mem_erase_iff, h.pipe]
    exact ⟨fun hm => ⟨fun he => Lock.noConfusion he, hm⟩, fun hm => hm.2⟩
  clear j n hc := by
    show n.2 ∈ x.held.erase (.proc i) ∧ n.2.Cond
    rw [hn.mem_erase_iff]
    rcases hc with hc | ⟨-, hm, hcond, -⟩
    · exact ⟨⟨(h.clear j n hc).2 i, (h.clear j n hc).1⟩, (h.clear j n hc).2⟩
    · exact ⟨⟨hcond i, hm⟩, hcond⟩
  calm hc := by
    show Lock.pipe ∈ x.held.erase (.proc i)
    rw [hn.mem_erase_iff]
    exact ⟨fun he => Lock.noConfusion he, h.calm hc⟩

theorem unlockCond (h : x.WF) (hn : x.held.Nodup) (hl : l.Cond) : (x.unlockCond l).WF where
  known j := by
    show (x.known j).isSome = true ↔ Lock.proc j ∈ x.held.erase l
    rw [hn.mem_erase_iff, h.known]
    exact ⟨fun hm => ⟨fun he => hl j he.symm, hm⟩, fun hm => hm.2⟩
  pipe := by
    show (if l = .pipe then none else x.pipe).isSome = true ↔ Lock.pipe ∈ x.held.erase l
    rw [hn.mem_erase_iff]
    split
    case isTrue he => exact ⟨fun h => absurd h Bool.false_ne_true, fun hm => absurd he.symm hm.1⟩
    case isFalse he =>
      rw [h.pipe]
      exact ⟨fun hm => ⟨fun h => he h.symm, hm⟩, fun hm => hm.2⟩
  clear j n hc := by
    show n.2 ∈ x.held.erase l ∧ n.2.Cond
    rw [hn.mem_erase_iff]
    exact ⟨⟨hc.2, (h.clear j n hc.1).1⟩, (h.clear j n hc.1).2⟩
  calm hc := by
    show Lock.pipe ∈ x.held.erase l
    rw [hn.mem_erase_iff]
    have hc' : (if l = .pipe then false else x.calm) = true := hc
    split at hc'
    case isTrue => exact absurd hc' Bool.false_ne_true
    case isFalse he => exact ⟨fun h => he h.symm, h.calm hc'⟩

theorem only : (x.only i v).WF where
  known j := by
    show (upd (fun _ => none) i (some v) j).isSome = true ↔ Lock.proc j ∈ [Lock.proc i]
    rw [List.mem_singleton, Lock.proc.injEq]
    by_cases hj : j = i
    · rw [hj, upd_same]
      exact ⟨fun _ => rfl, fun _ => rfl⟩
    · rw [upd_other _ _ hj]
      exact ⟨fun h => absurd h Bool.false_ne_true, fun h => absurd h hj⟩
  pipe := ⟨fun h => absurd h Bool.false_ne_true, fun h => by cases h; contradiction⟩
  clear _ _ h := h.elim
  calm h := absurd h Bool.false_ne_true

theorem set {w : View} (h : x.WF) (hv : x.known i = some v) (y : Loc) (hy : y.known = upd x.known i (some w))
    (hh : y.held = x.held) (hp : y.pipe = x.pipe) (hc : y.clear = x.clear)
    (hcalm : y.calm = x.calm) : y.WF where
  known j := by
    rw [hy, hh, ← h.known]
    by_cases hj : j = i
    · rw [hj, upd_same, hv]
      exact Iff.rfl
    · rw [upd_other _ _ hj]
  pipe := by
    rw [hp, hh]
    exact h.pipe
  clear := by
    rw [hc, hh]
    exact h.clear
  calm := by
    rw [hcalm, hh]
    exact h.calm

end Loc.WF

theorem owner_free {k : Lock} (hk : k ≠ l) : (s.free c l).owner k = s.owner k := upd_other _ _ hk

theorem untouched_free {nap : Fin NPROC → Option (Chan × Lock)} (hl : s.owner l = some c) (hd : d ≠ c)
    (hnap : ∀ i n, s.owner n.2 = some d → nap i = some n → s.nap i = some n)
    (hsees : ∀ i, s.owner (.proc i) = some d → nap i = s.nap i) :
    Untouched quiet s { s.free c l with nap := nap } d where
  owner k := by
    show upd s.owner l none k = some d ↔ _
    by_cases hk : k = l
    · rw [hk, upd_same, hl, Option.some.injEq]
      exact ⟨fun h => absurd h.symm (Option.some_ne_none d), fun h => absurd h.symm hd⟩
    · rw [upd_other _ _ hk]
  noff := upd_other _ _ hd
  cproc := rfl
  on := rfl
  sees i _ hi h := ⟨h.proc, h.live, h.saved, h.nap.trans (hsees i hi).symm⟩
  pipe _ := rfl
  nap := hnap
  killed _ _ _ _ h := h

theorem Own.free (h : Own quiet s c x) (hl : s.owner l = some c) :
    (∀ k, k ∈ x.held.erase l ↔ (s.free c l).owner k = some c) ∧ (x.held.erase l).Nodup ∧
      (s.free c l).noff c = (x.held.erase l).length := by
  refine ⟨?_, h.nodup.erase l, ?_⟩
  · intro k
    show k ∈ x.held.erase l ↔ upd s.owner l none k = some c
    rw [h.nodup.mem_erase_iff]
    by_cases hk : k = l
    · rw [hk, upd_same]
      exact ⟨fun hm => absurd rfl hm.1, fun hm => absurd hm.symm (Option.some_ne_none c)⟩
    · rw [upd_other _ _ hk, h.held]
      exact ⟨fun hm => hm.2, fun hm => ⟨hk, hm⟩⟩
  · show upd s.noff c (s.noff c - 1) c = _
    rw [upd_same, h.noff, List.length_erase_of_mem ((h.held l).2 hl)]

theorem Shared.free_proc (h : Shared quiet s) (hl : s.owner (.proc i) = some c)
    (hv : Sees s i v) (hf : v.Free) (hm : s.cproc c = some i → s.on c = some i) :
    Shared quiet (s.free c (.proc i)) where
  free j hj := by
    by_cases hji : j = i
    · rw [hji]
      exact ⟨v, ⟨hv.proc, hv.live, hv.saved, hv.nap⟩, hf⟩
    · have hne : Lock.proc j ≠ .proc i := fun he => hji (Lock.proc.inj he)
      obtain ⟨w, hw, hwf⟩ := h.free j ((upd_other _ _ hne).symm.trans hj)
      exact ⟨w, ⟨hw.proc, hw.live, hw.saved, hw.nap⟩, hwf⟩
  inj := h.inj
  onCpu := h.onCpu
  cpuLock d j hj := by
    rcases h.cpuLock d j hj with hs | hs
    · exact Or.inl hs
    · by_cases hji : j = i
      · subst hji
        cases hl.symm.trans hs
        exact Or.inl (hm hj)
      · exact Or.inr ((owner_free fun he => hji (Lock.proc.inj he)).trans hs)
  napRun d j hj ho := by
    by_cases hs : s.owner (.proc j) = some d
    · -- the process has released its own lock, and it is running
      by_cases hji : j = i
      · subst hji
        show s.nap j = none
        rw [← hv.nap]
        refine hf.nap_none ?_
        rw [hf.live.1 (hv.live.2 ⟨d, h.onCpu d j hj⟩)]
        exact ProcState.noConfusion
      · have hne : Lock.proc j ≠ .proc i := fun he => hji (Lock.proc.inj he)
        exact absurd ((upd_other _ _ hne).trans hs) ho
    · exact h.napRun d j hj hs
  doze := h.doze
  napPipe := h.napPipe
  pipe hp := h.pipe ((owner_free fun he => Lock.noConfusion he).symm.trans hp)
  sound := h.sound

/-- A condition lock is released, maybe by a process that is about to sleep. -/
theorem Shared.free_cond {nap : Fin NPROC → Option (Chan × Lock)} (h : Shared quiet s) (hc : l.Cond)
    (hfree : ∀ i, s.owner (.proc i) = none → nap i = s.nap i)
    (hrun : ∀ d i, s.on d = some i → s.owner (.proc i) ≠ some d → nap i = s.nap i)
    (hdoze : ∀ i, (s.proc i).state = .sleeping → nap i = s.nap i)
    (hpipe : ∀ i chan l, nap i = some (chan, l) → (chan = .nread ∨ chan = .nwrite ↔ l = .pipe))
    (hset : (s.free c l).owner .pipe = none → s.pipe.Settled ∧
      (quiet → ∀ i n, s.pipe.Unawaited n → nap i ≠ some n)) :
    Shared quiet { s.free c l with nap := nap } where
  free j hj := by
    have hj' := (upd_other _ _ fun he => hc j he.symm).symm.trans hj
    obtain ⟨w, hw, hwf⟩ := h.free j hj'
    exact ⟨w, ⟨hw.proc, hw.live, hw.saved, hw.nap.trans (hfree j hj').symm⟩, hwf⟩
  inj := h.inj
  onCpu := h.onCpu
  cpuLock d j hj := (h.cpuLock d j hj).imp_right fun hs =>
    (owner_free (c := c) fun he => hc j he.symm).trans hs
  napRun d j hj ho := by
    have ho' : s.owner (.proc j) ≠ some d := fun hs =>
      ho ((upd_other _ _ fun he => hc j he.symm).trans hs)
    exact (hrun d j hj ho').trans (h.napRun d j hj ho')
  doze i hi := by
    show ∃ chan l, nap i = some (chan, l) ∧ _
    rw [hdoze i hi]
    exact h.doze i hi
  napPipe := hpipe
  pipe := hset
  sound := h.sound

namespace Links

theorem acquire (h : Links quiet s L) (hl : s.owner l = none) :
    ∃ y, Gives (s.on c) quiet (L (s.ctx c)) (.acquire l) () y ∧
      Links quiet (s.take c l) (upd L (s.ctx c) y) := by
  have ho := h.own c
  obtain ⟨h1, h2, h3⟩ := ho.take hl
  have hchange : ∀ y : Loc, y.held = l :: (L (s.ctx c)).held → y.cpu = (L (s.ctx c)).cpu →
      y.born = (L (s.ctx c)).born → y.calm = (L (s.ctx c)).calm →
      (∀ i v, y.known i = some v → Sees s i v) → (∀ pi, y.pipe = some pi → pi = s.pipe) →
      (∀ i n, y.clear i n → s.nap i ≠ some n) → y.WF →
      Links quiet (s.take c l) (upd L (s.ctx c) y) := by
    intro y hh hc hb hcalm hk hp hcl hw
    refine h.change' (h.toShared.take hl) rfl ⟨?_, ?_, ?_, hc.trans ho.cpu, ?_, hp, hcl, ?_, hw⟩
      (fun d hd => untouched_take hl hd) h.born hb fun _ => hc
    · rw [hh]
      exact h1
    · rw [hh]
      exact h2
    · rw [hh]
      exact h3
    · intro i v hv
      have hsees := hk i v hv
      exact ⟨hsees.proc, hsees.live, hsees.saved, hsees.nap⟩
    · rw [hcalm]
      exact ho.calm
  have hcond : l.Cond → l ≠ .pipe →
      Links quiet (s.take c l) (upd L (s.ctx c) ((L (s.ctx c)).lockCond l)) := fun hc hp =>
    hchange _ rfl rfl rfl rfl ho.known ho.pipe ho.clear (ho.wf.lockCond hc hp)
  cases l with
  | proc i =>
    obtain ⟨v, hv, hf⟩ := h.free i hl
    refine ⟨_, ⟨v, hf, ?_, ?_, ?_, rfl⟩, hchange _ rfl rfl rfl rfl ?_ ho.pipe ho.clear ho.wf.lock⟩
    · intro hc
      exact hv.live.2 ⟨c, ho.cpu.symm.trans hc⟩
    · intro hb
      rw [hv.proc]
      exact h.born _ i hb
    · intro hq hc hm
      rw [hv.proc]
      exact ho.calm hq hc i hm
    · intro j w hw
      by_cases hj : j = i
      · subst hj
        have hw' : some v = some w := (Loc.known_lock).symm.trans hw
        cases hw'
        exact hv
      · exact ho.known j w ((upd_other _ _ hj).symm.trans hw)
  | pipe =>
    obtain ⟨hset, hwoke⟩ := h.pipe hl
    refine ⟨_, ⟨s.pipe, hset, rfl⟩, hchange _ rfl rfl rfl rfl ho.known ?_ ?_ ho.wf.lockPipe⟩
    · intro pi hpi
      exact (Option.some.inj hpi).symm
    · rintro i n (hn | ⟨hq, hn⟩)
      · exact ho.clear i n hn
      · exact hwoke hq i n hn
  | wait => exact ⟨_, rfl, hcond wait_cond wait_ne_pipe⟩
  | pid => exact ⟨_, rfl, hcond (fun i he => Lock.noConfusion he) fun he => Lock.noConfusion he⟩
  | other n => exact ⟨_, rfl, hcond (other_cond n) (other_ne_pipe n)⟩

theorem release (h : Links quiet s L) (hok : Ok (s.on c) quiet (L (s.ctx c)) (.release l)) :
    ∃ y, Gives (s.on c) quiet (L (s.ctx c)) (.release l) () y ∧
      Links quiet (s.free c l) (upd L (s.ctx c) y) := by
  obtain ⟨hm, hproc, hpipe⟩ := hok
  have ho := h.own c
  have hl : s.owner l = some c := (ho.held l).1 hm
  obtain ⟨h1, h2, h3⟩ := ho.free hl
  have hu : ∀ d, d ≠ c → Untouched quiet s { s.free c l with nap := s.nap } d := fun d hd =>
    untouched_free hl hd (fun _ _ _ hn => hn) fun _ _ => rfl
  -- a lock that is not that of a process
  have hcond : l.Cond →
      Links quiet (s.free c l) (upd L (s.ctx c) ((L (s.ctx c)).unlockCond l)) := by
    intro hc
    have hsh : Shared quiet { s.free c l with nap := s.nap } := by
      refine h.toShared.free_cond hc (fun _ _ => rfl) (fun _ _ _ _ => rfl)
        (fun _ _ => rfl) h.napPipe ?_
      intro hp
      by_cases hlp : l = .pipe
      · obtain ⟨pi, hpi⟩ := Option.isSome_iff_exists.1 (ho.wf.pipe.2 (hlp ▸ hm))
        obtain ⟨hset, hwoke⟩ := hpipe pi hlp hpi
        rw [ho.pipe pi hpi] at hset hwoke
        exact ⟨hset, fun hq i n hn => ho.clear i n (hwoke hq n hn i)⟩
      · exact h.pipe ((owner_free fun he => hlp he.symm).symm.trans hp)
    refine h.change' hsh rfl ⟨h1, h2, h3, ho.cpu, ?_, ?_, fun i n hn => ho.clear i n hn.1, ?_,
      ho.wf.unlockCond ho.nodup hc⟩ hu h.born rfl fun _ => rfl
    · intro i v hv
      have hsees := ho.known i v hv
      exact ⟨hsees.proc, hsees.live, hsees.saved, hsees.nap⟩
    · intro pi hpi
      have hpi' : (if l = .pipe then none else (L (s.ctx c)).pipe) = some pi := hpi
      split at hpi'
      · cases hpi'
      · exact ho.pipe pi hpi'
    · intro hq hc'
      have hc2 : (if l = .pipe then false else (L (s.ctx c)).calm) = true := hc'
      split at hc2
      · cases hc2
      · exact ho.calm hq hc2
  cases l with
  | proc i =>
    obtain ⟨v, hv⟩ := ho.wf.known_some hm
    have hsees := ho.known i v hv
    obtain ⟨hf, hme⟩ := hproc i v rfl hv
    have hme' : s.cproc c = some i → s.on c = some i := fun he => hme (ho.cpu.trans he)
    refine ⟨_, rfl, h.change' (h.toShared.free_proc hl hsees hf hme') rfl ⟨h1, h2, h3, ho.cpu, ?_,
      ho.pipe, ?_, ho.calm, ho.wf.unlock ho.nodup⟩ hu h.born rfl fun _ => rfl⟩
    · intro j w hw
      by_cases hj : j = i
      · subst hj
        have hw' : none = some w := (upd_same ..).symm.trans hw
        cases hw'
      · have hsw := ho.known j w ((upd_other _ _ hj).symm.trans hw)
        exact ⟨hsw.proc, hsw.live, hsw.saved, hsw.nap⟩
    · rintro j n (hn | ⟨rfl, -, -, hn⟩)
      · exact ho.clear j n hn
      · show s.nap j ≠ some n
        rw [← hsees.nap]
        exact hn v hv
  | pipe => exact ⟨_, rfl, hcond pipe_cond⟩
  | wait => exact ⟨_, rfl, hcond wait_cond⟩
  | pid => exact ⟨_, rfl, hcond fun i he => Lock.noConfusion he⟩
  | other n => exact ⟨_, rfl, hcond (other_cond n)⟩

theorem releaseTo {chan : Chan} (h : Links quiet s L)
    (hok : Ok (s.on c) quiet (L (s.ctx c)) (.releaseTo chan l)) :
    s.owner l = some c ∧ ∃ i, s.on c = some i ∧
      ∃ y, Gives (s.on c) quiet (L (s.ctx c)) (.releaseTo chan l) () y ∧
        Links quiet { s.free c l with nap := upd s.nap i (some (chan, l)) }
          (upd L (s.ctx c) y) := by
  obtain ⟨i, v, hme, hheld, hc, hv, hr, hch, hpipe⟩ := hok
  have ho := h.own c
  have hl : s.owner l = some c := by
    rw [← ho.held, hheld]
    exact List.mem_cons_of_mem _ List.mem_cons_self
  have hi : s.owner (.proc i) = some c := by
    rw [← ho.held, hheld]
    exact List.mem_cons_self
  have hsees := ho.known i v hv
  have hrun : (s.proc i).state = .running := by
    rw [← hsees.proc]
    exact hr
  have hother : ∀ j, j ≠ i → upd s.nap i (some (chan, l)) j = s.nap j := fun j hj =>
    upd_other _ _ hj
  refine ⟨hl, i, hme, _, ⟨i, v, hme, hv, rfl⟩, ?_⟩
  obtain ⟨h1, h2, h3⟩ := ho.free hl
  have hne : Lock.proc i ≠ l := fun he => hc i he.symm
  have herase : (L (s.ctx c)).held.erase l = [.proc i] := by
    rw [hheld, List.erase_cons_tail (by simpa using hne)]
    exact congrArg _ (List.erase_cons_head ..)
  rw [herase] at h1 h2 h3
  refine h.change' ?_ rfl ⟨h1, h2, h3, ho.cpu, ?_, ?_, fun _ _ hn => hn.elim,
    fun _ hcalm => absurd hcalm Bool.false_ne_true, Loc.WF.only⟩ ?_ h.born rfl fun _ => rfl
  · refine h.toShared.free_cond hc ?_ ?_ ?_ ?_ ?_
    · intro j hj
      refine hother j ?_
      intro he
      rw [he, hi] at hj
      cases hj
    · intro d j hj hjo
      refine hother j ?_
      intro he
      subst he
      rw [h.inj d c j (h.onCpu d j hj) (h.onCpu c j hme)] at hjo
      exact hjo hi
    · intro j hj
      refine hother j ?_
      intro he
      rw [he, hrun] at hj
      cases hj
    · intro j ch k hj
      by_cases hji : j = i
      · rw [hji, upd_same] at hj
        cases hj
        exact hch
      · rw [hother j hji] at hj
        exact h.napPipe j ch k hj
    · intro hp
      by_cases hlp : l = .pipe
      · have hmem : Lock.pipe ∈ (L (s.ctx c)).held := by
          rw [hheld, hlp]
          exact List.mem_cons_of_mem _ List.mem_cons_self
        obtain ⟨pi, hpi⟩ := Option.isSome_iff_exists.1 (ho.wf.pipe.2 hmem)
        obtain ⟨hset, hun, hwoke⟩ := hpipe pi hlp hpi
        rw [ho.pipe pi hpi] at hset hun hwoke
        refine ⟨hset, ?_⟩
        intro hq j n hn
        by_cases hji : j = i
        · rw [hji, upd_same]
          intro he
          cases he
          exact hun hn
        · rw [hother j hji]
          exact ho.clear j n (hwoke hq n hn j)
      · obtain ⟨hset, hold⟩ := h.pipe ((owner_free fun he => hlp he.symm).symm.trans hp)
        refine ⟨hset, ?_⟩
        intro hq j n hn
        by_cases hji : j = i
        · rw [hji, upd_same]
          intro he
          cases he
          rcases hn with ⟨he, -⟩ | ⟨he, -⟩
          · exact hlp (Prod.mk.inj he).2
          · exact hlp (Prod.mk.inj he).2
        · rw [hother j hji]
          exact hold hq j n hn
  · intro j w hw
    by_cases hji : j = i
    · subst hji
      have hw' : some { v with nap := some (chan, l) } = some w :=
        (Loc.known_only (x := L (s.ctx c))).symm.trans hw
      cases hw'
      exact ⟨hsees.proc, hsees.live, hsees.saved, (upd_same ..).symm⟩
    · have hw' : upd (fun _ => none) i (some { v with nap := some (chan, l) }) j = some w := hw
      rw [upd_other _ _ hji] at hw'
      cases hw'
  · intro pi hpi
    cases hpi
  · intro d hd
    refine untouched_free hl hd ?_ ?_
    · intro j n hn hj
      by_cases hji : j = i
      · rw [hji, upd_same] at hj
        cases hj
        rw [hl] at hn
        exact absurd (Option.some.inj hn).symm hd
      · rw [hother j hji] at hj
        exact hj
    · intro j hj
      refine hother j ?_
      intro he
      rw [he, hi] at hj
      exact hd (Option.some.inj hj).symm

end Links

/-! ### Writes -/

section Put

omit [DecidableEq C]

variable {w : Write}

@[simp] theorem put_owner : (s.put i w).owner = s.owner := by cases w <;> rfl
@[simp] theorem put_noff : (s.put i w).noff = s.noff := by cases w <;> rfl
@[simp] theorem put_cproc : (s.put i w).cproc = s.cproc := by cases w <;> rfl
@[simp] theorem put_on : (s.put i w).on = s.on := by cases w <;> rfl
@[simp] theorem put_saved : (s.put i w).saved = s.saved := by cases w <;> rfl
@[simp] theorem put_pipe : (s.put i w).pipe = s.pipe := by cases w <;> rfl
@[simp] theorem put_sched : (s.put i w).sched = s.sched := by cases w <;> rfl

theorem put_proc : (s.put i w).proc = upd s.proc i (w.proc (s.proc i)) := by cases w <;> rfl

theorem put_proc_other (hj : j ≠ i) : (s.put i w).proc j = s.proc j := by
  rw [put_proc, upd_other _ _ hj]

theorem put_proc_same : (s.put i w).proc i = w.proc (s.proc i) := by rw [put_proc, upd_same]

theorem put_nap_same : (s.put i w).nap i = w.nap (s.nap i) := by
  cases w with
  | rouse chan => exact upd_same ..
  | _ => rfl

theorem put_nap_other (hj : j ≠ i) : (s.put i w).nap j = s.nap j := by
  cases w with
  | rouse chan => exact upd_other _ _ hj
  | _ => rfl

theorem put_thread (hj : j ≠ i ∨ w ≠ .create) : (s.put i w).thread j = s.thread j := by
  cases w with
  | create => exact upd_other _ _ (hj.resolve_right fun h => h rfl)
  | _ => rfl

theorem put_nap_some {n : Chan × Lock} (h : (s.put i w).nap j = some n) : s.nap j = some n := by
  by_cases hj : j = i
  · rw [hj, put_nap_same] at h
    rw [hj]
    cases w with
    | rouse chan => cases h
    | _ => exact h
  · rwa [put_nap_other hj] at h

theorem sees_put_other (hj : j ≠ i) (h : Sees s j v) : Sees (s.put i w) j v where
  proc := h.proc.trans (put_proc_other hj).symm
  live := by
    rw [put_cproc]
    exact h.live
  saved := by
    rw [put_saved]
    exact h.saved
  nap := h.nap.trans (put_nap_other hj).symm

theorem sees_put_same (h : Sees s i v) : Sees (s.put i w) i (w.view v) where
  proc := by
    rw [put_proc_same, ← h.proc]
    rfl
  live := by
    rw [put_cproc]
    exact h.live
  saved := by
    rw [put_saved]
    exact h.saved
  nap := by
    rw [put_nap_same, ← h.nap]
    rfl

theorem killed_put (hj : j ≠ i ∨ w ≠ .kill) (h : (s.proc j).killed = false) :
    ((s.put i w).proc j).killed = false := by
  by_cases hji : j = i
  · rw [hji, put_proc_same, ← hji]
    cases w with
    | kill => exact absurd rfl (hj.resolve_left fun hne => hne hji)
    | free => rfl
    | _ => exact h
  · rwa [put_proc_other hji]

end Put

/-- Nobody who holds the lock of the pipe is killed. -/
def Spares (s : Sys C) (i : Fin NPROC) (w : Write) : Prop :=
  w = .kill → ∀ d, s.on d = some i → s.owner .pipe ≠ some d

omit [DecidableEq C] in
theorem Shared.put {w : Write} {me b : Option (Fin NPROC)} (h : Shared quiet s)
    (hi : s.owner (.proc i) = some c) (hv : Sees s i v) (ha : w.Allowed me b i v) :
    Shared quiet (s.put i w) where
  free j hj := by
    rw [put_owner] at hj
    have hji : j ≠ i := by
      intro he
      rw [he, hi] at hj
      cases hj
    obtain ⟨u, hu, hf⟩ := h.free j hj
    exact ⟨u, sees_put_other hji hu, hf⟩
  inj := by
    rw [put_cproc]
    exact h.inj
  onCpu := by
    rw [put_cproc, put_on]
    exact h.onCpu
  cpuLock := by
    rw [put_cproc, put_on, put_owner]
    exact h.cpuLock
  napRun d j hj ho := by
    rw [put_on] at hj
    rw [put_owner] at ho
    have hn := h.napRun d j hj ho
    cases hp : (s.put i w).nap j with
    | none => rfl
    | some n =>
      rw [put_nap_some hp] at hn
      cases hn
  doze j hj := by
    by_cases hji : j = i
    · subst hji
      rw [put_proc_same] at hj ⊢
      rw [put_nap_same]
      cases w with
      | doze chan =>
        obtain ⟨-, -, l, hl⟩ := ha
        refine ⟨chan, l, ?_, rfl⟩
        rw [← hv.nap]
        exact hl
      | kill => exact h.doze j hj
      | unchan =>
        have hr : (s.proc j).state = .running := by
          rw [← hv.proc]
          exact ha
        have hj' : (s.proc j).state = .sleeping := hj
        rw [hr] at hj'
        cases hj'
      | _ => cases hj
    · rw [put_proc_other hji] at hj ⊢
      rw [put_nap_other hji]
      exact h.doze j hj
  napPipe j chan l hj := h.napPipe j chan l (put_nap_some hj)
  pipe hp := by
    rw [put_owner] at hp
    rw [put_pipe]
    obtain ⟨hset, hw⟩ := h.pipe hp
    exact ⟨hset, fun hq j n hn hj => hw hq j n hn (put_nap_some hj)⟩
  sound := by
    rw [put_pipe]
    exact h.sound

namespace Links

theorem born_put {w : Write} (h : Links quiet s L) (hv : Sees s i v)
    (ha : w.Allowed (s.on c) (L (s.ctx c)).born i v) (y : Loc)
    (hy : y.born = w.born i (L (s.ctx c)).born) :
    (∀ a j, (upd L (s.ctx c) y a).born = some j → ((s.put i w).proc j).state = .used) ∧
      ∀ a b j, (upd L (s.ctx c) y a).born = some j → (upd L (s.ctx c) y b).born = some j →
        a = b := by
  have hstate : ∀ st, (s.proc i).state = st → v.proc.state = st := fun st hst => by
    rw [hv.proc]
    exact hst
  -- who else is creating the process
  have hold : ∀ a j, a ≠ s.ctx c → (upd L (s.ctx c) y a).born = some j →
      (L a).born = some j := fun a j ha hj => by rwa [upd_other _ _ ha] at hj
  have hkeep : ∀ a j, a ≠ s.ctx c → (L a).born = some j → ((s.put i w).proc j).state = .used := by
    intro a j hac hj
    have hu := h.born a j hj
    by_cases hji : j = i
    · subst hji
      have hvu := hstate _ hu
      rw [put_proc_same]
      cases w with
      | kill => exact hu
      | rouse chan | run => rw [Write.Allowed, hvu] at ha; exact ProcState.noConfusion ha.1
      | yield => rw [Write.Allowed, hvu] at ha; exact ProcState.noConfusion ha.2
      | doze chan | exit => rw [Write.Allowed, hvu] at ha; exact ProcState.noConfusion ha.2.1
      | unchan => exact hu
      | create => rw [Write.Allowed, hvu] at ha; exact ProcState.noConfusion ha.1
      | start => exact absurd (h.bornOne a _ j hj ha) hac
      | free =>
        rcases ha with ha | ha
        · rw [hvu] at ha
          cases ha
        · exact absurd (h.bornOne a _ j hj ha) hac
    · rw [put_proc_other hji]
      exact hu
  -- what the CPU itself is creating
  have hself : ∀ j, y.born = some j →
      ((s.put i w).proc j).state = .used ∧
        ((L (s.ctx c)).born = some j ∨ (s.proc j).state = .unused) := by
    intro j hj
    rw [hy] at hj
    have hsame : ∀ hb : (L (s.ctx c)).born = some j,
        (j = i → (w.proc (s.proc i)).state = .used) → ((s.put i w).proc j).state = .used ∧
        ((L (s.ctx c)).born = some j ∨ (s.proc j).state = .unused) := by
      intro hb hji
      refine ⟨?_, Or.inl hb⟩
      by_cases he : j = i
      · rw [he, put_proc_same]
        exact hji he
      · rw [put_proc_other he]
        exact h.born _ j hb
    have hused : (L (s.ctx c)).born = some j → j = i → v.proc.state = .used := fun hb he =>
      hstate _ (he ▸ h.born _ j hb)
    cases w with
    | create =>
      cases hj
      rw [put_proc_same]
      refine ⟨rfl, Or.inr ?_⟩
      rw [← hv.proc]
      exact ha.1
    | start => cases hj
    | free =>
      have hj' : (if (L (s.ctx c)).born = some i then none else (L (s.ctx c)).born) = some j := hj
      split at hj'
      · cases hj'
      · rename_i hne
        exact hsame hj' fun he => absurd (he ▸ hj') hne
    | kill | unchan => exact hsame hj fun he => he ▸ h.born _ j hj
    | rouse chan | run =>
      refine hsame hj fun he => ?_
      have hu := hused hj he
      rw [ha.1] at hu
      cases hu
    | yield =>
      refine hsame hj fun he => ?_
      have hu := hused hj he
      rw [ha.2] at hu
      cases hu
    | doze chan | exit =>
      refine hsame hj fun he => ?_
      have hu := hused hj he
      rw [ha.2.1] at hu
      cases hu
  refine ⟨?_, ?_⟩
  · intro a j hj
    by_cases hac : a = s.ctx c
    · rw [hac, upd_same] at hj
      exact (hself j hj).1
    · exact hkeep a j hac (hold a j hac hj)
  · have hcross : ∀ a j, a ≠ s.ctx c → (upd L (s.ctx c) y a).born = some j → y.born ≠ some j := by
      intro a j hac haj hyj
      have hb := hold a j hac haj
      rcases (hself j hyj).2 with hs | hs
      · exact hac (h.bornOne a _ j hb hs)
      · rw [h.born a j hb] at hs
        cases hs
    intro a b j haj hbj
    by_cases hac : a = s.ctx c
    · by_cases hbc : b = s.ctx c
      · rw [hac, hbc]
      · rw [hac, upd_same] at haj
        exact absurd haj (hcross b j hbc hbj)
    · by_cases hbc : b = s.ctx c
      · rw [hbc, upd_same] at hbj
        exact absurd hbj (hcross a j hac haj)
      · exact h.bornOne a b j (hold a j hac haj) (hold b j hbc hbj)

theorem write {w : Write} (h : Links quiet s L)
    (hok : Ok (s.on c) quiet (L (s.ctx c)) (.write i w)) (hsp : quiet → Spares s i w) :
    ∃ y, Gives (s.on c) quiet (L (s.ctx c)) (.write i w) () y ∧
      Links quiet (s.put i w) (upd L (s.ctx c) y) := by
  obtain ⟨v, hv, ha⟩ := hok
  have ho := h.own c
  have hsees := ho.known i v hv
  have hi := h.known_owner hv
  obtain ⟨hb1, hb2⟩ := h.born_put hsees ha ((L (s.ctx c)).written i w v) rfl
  have hkill : ∀ d j, quiet → s.owner .pipe = some d → s.on d = some j → j ≠ i ∨ w ≠ .kill := by
    intro d j hq hp hj
    by_cases hji : j = i
    · exact Or.inr fun hw => hsp hq hw d (hji ▸ hj) hp
    · exact Or.inl hji
  refine ⟨_, ⟨v, hv, rfl⟩, h.change (h.toShared.put hi hsees ha) put_on
    ⟨?_, ho.nodup, ?_, ?_, ?_, ?_, ?_, ?_, ?_⟩ ?_ hb1 hb2 fun _ => rfl⟩
  · rw [put_owner]
    exact ho.held
  · rw [put_noff]
    exact ho.noff
  · rw [put_cproc]
    exact ho.cpu
  · intro j u hu
    by_cases hj : j = i
    · subst hj
      have hu' : some (w.view v) = some u := (Loc.known_written (x := L (s.ctx c))).symm.trans hu
      cases hu'
      exact sees_put_same hsees
    · exact sees_put_other hj (ho.known j u ((upd_other _ _ hj).symm.trans hu))
  · rw [put_pipe]
    exact ho.pipe
  · intro j n hn hj
    exact ho.clear j n hn (put_nap_some hj)
  · intro hq hc j hj
    rw [put_on] at hj
    exact killed_put (hkill c j hq ((ho.held _).1 (ho.wf.calm hc)) hj) (ho.calm hq hc j hj)
  · exact ho.wf.set hv _ rfl rfl rfl rfl rfl
  · intro d hd
    have hne : ∀ j, s.owner (.proc j) = some d → j ≠ i := by
      intro j hj he
      rw [he, hi] at hj
      exact hd (Option.some.inj hj).symm
    exact ⟨fun l => by rw [put_owner], by rw [put_noff], by rw [put_cproc], by rw [put_on],
      fun j u hj hu => sees_put_other (hne j hj) hu, fun _ => put_pipe,
      fun j n _ hj => put_nap_some hj, fun hq hp j hj hk => killed_put (hkill d j hq hp hj) hk⟩

/-! ### The other requests -/

/-- The current process of a CPU changes, from nobody or `i` to nobody or `i`, which is current nowhere else. -/
theorem setCpu {o : Option (Fin NPROC)} (h : Links quiet s L) (hme : s.on c = none)
    (hv : (L (s.ctx c)).known i = some v) (hcc : ∀ j, s.cproc c = some j → j = i)
    (ho : ∀ j, o = some j → j = i) (hno : ∀ d, d ≠ c → s.cproc d ≠ some i) :
    Links quiet { s with cproc := upd s.cproc c o } (upd L (s.ctx c)
      { (L (s.ctx c)).set i { v with live := o.isSome } with cpu := o }) := by
  have hown := h.own c
  have hi := h.known_owner hv
  have hsees := hown.known i v hv
  have hat : ∀ {d j}, upd s.cproc c o d = some j → d = c ∧ j = i ∨ d ≠ c ∧ s.cproc d = some j := by
    intro d j hd
    by_cases hdc : d = c
    · rw [hdc, upd_same] at hd
      exact .inl ⟨hdc, ho j hd⟩
    · rw [upd_other _ _ hdc] at hd
      exact .inr ⟨hdc, hd⟩
  -- the other processes are current where they were
  have hother : ∀ j u, j ≠ i → Sees s j u → Sees ({ s with cproc := upd s.cproc c o } : Sys C) j u := by
    intro j u hj hu
    refine ⟨hu.proc, hu.live.trans ⟨?_, ?_⟩, hu.saved, hu.nap⟩
    · rintro ⟨d, hd⟩
      refine ⟨d, (upd_other _ _ ?_).trans hd⟩
      rintro rfl
      exact hj (hcc j hd)
    · rintro ⟨d, hd⟩
      obtain ⟨-, rfl⟩ | ⟨-, hd⟩ := hat hd
      · exact absurd rfl hj
      · exact ⟨d, hd⟩
  refine h.change' ⟨?_, ?_, ?_, ?_, h.napRun, h.doze, h.napPipe, h.pipe, h.sound⟩ rfl
    ⟨hown.held, hown.nodup, hown.noff, (upd_same ..).symm, ?_, hown.pipe, hown.clear, hown.calm,
      hown.wf.set hv _ rfl rfl rfl rfl rfl⟩ ?_ h.born rfl fun hne => absurd hme hne
  · intro j hj
    obtain ⟨u, hu, hf⟩ := h.free j hj
    refine ⟨u, hother j u ?_ hu, hf⟩
    rintro rfl
    cases hi.symm.trans hj
  · intro d e j hd he
    obtain ⟨hdc, rfl⟩ | ⟨hdc, hd⟩ := hat hd
    · obtain ⟨hec, -⟩ | ⟨hec, he⟩ := hat he
      · rw [hdc, hec]
      · exact absurd he (hno e hec)
    · obtain ⟨-, rfl⟩ | ⟨-, he⟩ := hat he
      · exact absurd hd (hno d hdc)
      · exact h.inj d e j hd he
  · intro d j hj
    refine (upd_other _ _ ?_).trans (h.onCpu d j hj)
    rintro rfl
    cases hme.symm.trans hj
  · intro d j hj
    obtain ⟨rfl, rfl⟩ | ⟨-, hj⟩ := hat hj
    · exact Or.inr hi
    · exact h.cpuLock d j hj
  · intro j u hu
    by_cases hj : j = i
    · subst hj
      have hu' : some { v with live := o.isSome } = some u :=
        (Loc.known_set (x := L (s.ctx c))).symm.trans hu
      cases hu'
      refine ⟨hsees.proc, ⟨fun hs => ⟨c, (upd_same ..).trans ?_⟩, ?_⟩, hsees.saved, hsees.nap⟩
      · obtain ⟨k, hk⟩ := Option.isSome_iff_exists.1 hs
        rw [hk, ho k hk]
      · rintro ⟨d, hd⟩
        by_cases hdc : d = c
        · rw [hdc] at hd
          exact Option.isSome_iff_exists.2 ⟨j, (upd_same s.cproc c o).symm.trans hd⟩
        · exact absurd ((upd_other _ _ hdc).symm.trans hd) (hno d hdc)
    · exact hother j u hj (hown.known j u ((upd_other _ _ hj).symm.trans hu))
  · intro d hd
    refine ⟨fun _ => Iff.rfl, rfl, upd_other _ _ hd, rfl, ?_, fun _ => rfl, fun _ _ _ hn => hn,
      fun _ _ _ _ hk => hk⟩
    intro j u hj hu
    refine hother j u ?_ hu
    rintro rfl
    exact hd (Option.some.inj (hi.symm.trans hj)).symm

theorem setCpu_some (h : Links quiet s L)
    (hok : Ok (s.on c) quiet (L (s.ctx c)) (.setCpu (some i))) :
    ∃ y, Gives (s.on c) quiet (L (s.ctx c)) (.setCpu (some i)) () y ∧
      Links quiet { s with cproc := upd s.cproc c (some i) } (upd L (s.ctx c) y) := by
  obtain ⟨hme, hcpu, v, hv, hlive⟩ := hok
  have hcc : s.cproc c = none := (h.own c).cpu.symm.trans hcpu
  refine ⟨_, ⟨v, hv, rfl⟩, h.setCpu hme hv (fun j hj => ?_) (fun j hj => (Option.some.inj hj).symm) fun d _ hd => ?_⟩
  · cases hcc.symm.trans hj
  · rw [((h.own c).known i v hv).live.2 ⟨d, hd⟩] at hlive
    cases hlive

theorem setCpu_none (h : Links quiet s L)
    (hok : Ok (s.on c) quiet (L (s.ctx c)) (.setCpu none)) :
    ∃ y, Gives (s.on c) quiet (L (s.ctx c)) (.setCpu none) () y ∧
      Links quiet { s with cproc := upd s.cproc c none } (upd L (s.ctx c) y) := by
  obtain ⟨hme, i, v, hcpu, hv⟩ := hok
  have hcc : s.cproc c = some i := (h.own c).cpu.symm.trans hcpu
  refine ⟨_, ⟨i, v, hcpu, hv, rfl⟩, h.setCpu hme hv (fun j hj => ?_) (fun j hj => by cases hj) fun d hd hdi => ?_⟩
  · exact (Option.some.inj (hcc.symm.trans hj)).symm
  · exact hd (h.inj d c i hdi hcc)

theorem save (h : Links quiet s L) (hon : s.on c = some i)
    (hok : Ok (s.on c) quiet (L (s.ctx c)) .save) :
    ∃ y, Gives (s.on c) quiet (L (s.ctx c)) .save () y ∧
      Links quiet { s with saved := upd s.saved i true } (upd L (s.ctx c) y) := by
  obtain ⟨k, v, hcpu, -, hv, hme⟩ := hok
  have hk : k = i := by
    rcases hme with hme | ⟨hme, -⟩
    · rw [hon] at hme
      cases hme
    · exact (Option.some.inj (hon.symm.trans hme)).symm
  subst hk
  have ho := h.own c
  have hi := h.known_owner hv
  have hsees := ho.known k v hv
  have hother : ∀ j u, j ≠ k → Sees s j u →
      Sees ({ s with saved := upd s.saved k true } : Sys C) j u := fun j u hj hu =>
    ⟨hu.proc, hu.live, hu.saved.trans (upd_other _ _ hj).symm, hu.nap⟩
  have hgives : Gives (s.on c) quiet (L (s.ctx c)) .save ()
      ((L (s.ctx c)).set k { v with saved := true }) := by
    rw [hon]
    exact ⟨v, hv, rfl⟩
  refine ⟨_, hgives, h.change' ⟨?_, h.inj, h.onCpu, h.cpuLock, h.napRun, h.doze, h.napPipe, h.pipe, h.sound⟩
    rfl ⟨ho.held, ho.nodup, ho.noff, ho.cpu, ?_, ho.pipe, ho.clear, ho.calm,
      ho.wf.set hv _ rfl rfl rfl rfl rfl⟩ ?_ h.born rfl fun _ => rfl⟩
  · intro j hj
    obtain ⟨u, hu, hf⟩ := h.free j hj
    refine ⟨u, hother j u ?_ hu, hf⟩
    intro he
    have hj' : s.owner (.proc j) = none := hj
    rw [he, hi] at hj'
    cases hj'
  · intro j u hu
    by_cases hj : j = k
    · subst hj
      have hu' : some { v with saved := true } = some u :=
        (Loc.known_set (x := L (s.ctx c))).symm.trans hu
      cases hu'
      exact ⟨hsees.proc, hsees.live, (upd_same ..).symm, hsees.nap⟩
    · exact hother j u hj (ho.known j u ((upd_other _ _ hj).symm.trans hu))
  · intro d hd
    refine ⟨fun _ => Iff.rfl, rfl, rfl, rfl, ?_, fun _ => rfl, fun _ _ _ hn => hn,
      fun _ _ _ _ hk => hk⟩
    intro j u hj hu
    refine hother j u ?_ hu
    intro he
    rw [he, hi] at hj
    exact hd (Option.some.inj hj).symm

theorem setPipe {pi : Pipe} (h : Links quiet s L) (hm : Lock.pipe ∈ (L (s.ctx c)).held)
    (hpi : pi.Sound) :
    Links quiet { s with pipe := pi } (upd L (s.ctx c) { L (s.ctx c) with pipe := some pi }) := by
  have ho := h.own c
  have hp : s.owner .pipe = some c := (ho.held _).1 hm
  have hsees : ∀ j u, Sees s j u → Sees ({ s with pipe := pi } : Sys C) j u := fun j u hu =>
    ⟨hu.proc, hu.live, hu.saved, hu.nap⟩
  refine h.change' ⟨?_, h.inj, h.onCpu, h.cpuLock, h.napRun, h.doze, h.napPipe, ?_, hpi⟩ rfl
    ⟨ho.held, ho.nodup, ho.noff, ho.cpu, fun j u hu => hsees j u (ho.known j u hu), ?_, ho.clear,
      ho.calm, ?_⟩ ?_ h.born rfl fun _ => rfl
  · intro j hj
    obtain ⟨u, hu, hf⟩ := h.free j hj
    exact ⟨u, hsees j u hu, hf⟩
  · intro hn
    have hn' : s.owner .pipe = none := hn
    rw [hp] at hn'
    cases hn'
  · intro pi' hpi'
    exact (Option.some.inj hpi').symm
  · exact ⟨ho.wf.known, ⟨fun _ => hm, fun _ => rfl⟩, ho.wf.clear, ho.wf.calm⟩
  · intro d hd
    refine ⟨fun _ => Iff.rfl, rfl, rfl, rfl, fun j u _ hu => hsees j u hu, ?_, fun _ _ _ hn => hn,
      fun _ _ _ _ hk => hk⟩
    intro hpd
    rw [hp] at hpd
    exact absurd (Option.some.inj hpd).symm hd

end Links

end Xv6.Smp
