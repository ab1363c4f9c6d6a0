import Xv6.Lib.Ends
import Xv6.Wait.Step

/-!
# The exit/wait protocol

`lawful_go` and `lawful_step`: a step keeps the invariant, by one case for each place where a
process can stand, and reports the zombies it makes and frees; `inv_reached`: so every reachable
state has the invariant.  From it:

* `wait_protocol`: a child that exited is reaped at most once, by its parent, and no
  process sleeps in a wait while a child it waits for is a zombie;
* `process_tree`: the parent pointers form a tree under `init` and the pids are distinct.
-/

namespace Xv6.Wait

open Xv6.Lib

variable {s t : Sys} {i q : Fin NPROC} {c : Pc} {e : Option Event}

/-! ### Visits of a slot -/

theorem calm_wakeSlot (chan : Nat) (p : Proc) : Calm p (wakeSlot chan p) := by
  unfold wakeSlot
  split
  · rename_i hc
    exact ⟨rfl, rfl, rfl, .inr ⟨by rw [hc.1]; rfl, .inl rfl⟩⟩
  · exact Calm.refl p

theorem calm_killSlot (p : Proc) : Calm p (killSlot p) := by
  unfold killSlot
  split
  · rename_i hc
    exact ⟨rfl, rfl, rfl, .inr ⟨by rw [hc]; rfl, .inl rfl⟩⟩
  · exact ⟨rfl, rfl, rfl, .inl ⟨rfl, fun _ => rfl⟩⟩

theorem wakeSlot_running {chan : Nat} {p : Proc} (h : p.state = .running) :
    (wakeSlot chan p).state = .running := by
  unfold wakeSlot
  rw [if_neg (by rw [h]; simp)]
  exact h

theorem killSlot_running {p : Proc} (h : p.state = .running) : (killSlot p).state = .running := by
  unfold killSlot
  rw [if_neg (by rw [h]; simp)]
  exact h

/-- What `wakeup` by `i` makes of the slot it looks at. -/
def visited (s : Sys) (i : Fin NPROC) (chan : Nat) (q : Fin NPROC) : Proc :=
  if q = i then s.proc q else wakeSlot chan (s.proc q)

theorem visitWake_eq (s : Sys) (i : Fin NPROC) (chan : Nat) (q : Fin NPROC) :
    visitWake s i chan q = s.setProc q (visited s i chan q) := by
  unfold visitWake visited
  split
  · rw [setProc_self]
  · rfl

theorem calm_visited (s : Sys) (i : Fin NPROC) (chan : Nat) (q : Fin NPROC) :
    Calm (s.proc q) (visited s i chan q) := by
  unfold visited
  split
  · exact Calm.refl _
  · exact calm_wakeSlot chan _

/-- A process that slept in a wait does not after `wakeup` of its channel has seen it. -/
theorem Inv.awake (h : Inv s) {k : Fin NPROC} (hk : k ≠ i) (hc : ∀ w, c ≠ .asleep w) :
    ¬((s.setProc k (visited s i (procChan k) k)).setPc i c).Asleep k := by
  rintro ⟨⟨w, hw⟩, hsl⟩
  have hw' : s.pc k = .asleep w := asleep_of_upd (fun w hw => absurd hw (hc w)) hw
  have hsl' : (upd s.proc k (visited s i (procChan k) k) k).state = .sleeping := hsl
  rw [upd_same, visited, if_neg hk] at hsl'
  have hsleep : (s.proc k).state = .sleeping := by
    unfold wakeSlot at hsl'
    split at hsl'
    · cases hsl'
    · exact hsl'
  have hok := h.pcs k
  rw [hw'] at hok
  unfold wakeSlot at hsl'
  rw [if_pos ⟨hsleep, hok hsleep⟩] at hsl'
  cases hsl'

theorem Inv.visit (h : Inv s) (hr : (s.proc i).state = .running) (chan : Nat)
    (hholds : c.holds = (s.pc i).holds) (hchild : c.child = none) (hc : ∀ w, c ≠ .asleep w)
    (hown : PcOk ((s.setProc q (visited s i chan q)).setPc i c) i c)
    (hwin : ∀ st k x, s.pc i = .wakeInit st k x → x ≤ s.initproc.val →
      (∃ st' k' x', c = .wakeInit st' k' x' ∧ x' ≤ s.initproc.val) ∨
        ¬((s.setProc q (visited s i chan q)).setPc i c).Asleep s.initproc) :
    Inv ((visitWake s i chan q).setPc i c) := by
  rw [visitWake_eq]
  refine h.calm (calm_visited s i chan q) hholds (fun hq => ?_) (fun _ => by rw [hr]; rfl)
    (fun np hnp => by rw [hchild] at hnp; cases hnp) (fun w hw => absurd hw (hc w)) hown hwin
  unfold visited
  split
  · exact h.running q hq
  · exact wakeSlot_running (h.running q hq)

theorem Inv.wakeInit (h : Inv s) {st : Int} {k : Nat} (hpc : s.pc i = .wakeInit st k q.val) :
    Inv ((visitWake s i (procChan s.initproc) q).setPc i (.wakeInit st k (q.val + 1))) := by
  have hholds : (s.pc i).holds = true := by rw [hpc]; rfl
  have hok := h.pcs i
  rw [hpc] at hok
  obtain ⟨hinit, hdone, hwoken⟩ := hok
  have hc : ∀ w, Pc.wakeInit st k (q.val + 1) ≠ .asleep w := fun w hw => by cases hw
  have hcalm := calm_visited s i (procChan s.initproc) q
  have hsoft : Soft s ((s.setProc q (visited s i (procChan s.initproc) q)).setPc i
      (.wakeInit st k (q.val + 1))) none none :=
    soft_calm hcalm rfl rfl fun k' w => asleep_of_upd fun w hw => absurd hw (hc w)
  -- the slot just seen is `init` itself, or `init` was seen before
  have hseen : s.initproc.val < q.val + 1 →
      ¬((s.setProc q (visited s i (procChan s.initproc) q)).setPc i
        (.wakeInit st k (q.val + 1))).Asleep s.initproc := by
    intro hlt
    by_cases hq : s.initproc = q
    · subst hq
      exact h.awake (Ne.symm hinit) hc
    · have : s.initproc.val ≠ q.val := fun he => hq (Fin.ext he)
      exact fun ha => hwoken (by omega) (hsoft.asleep_of ha)
  refine h.visit (h.running i hholds) _ (by rw [hpc]; rfl) rfl hc
    ⟨hinit, fun j hj => ?_, hseen⟩ fun st' k' x hx hle => ?_
  · have : (((s.setProc q (visited s i (procChan s.initproc) q)).setPc i
        (.wakeInit st k (q.val + 1))).proc j).parent = (s.proc j).parent := hsoft.parent j
    rw [this]
    exact hdone j hj
  · by_cases hlt : s.initproc.val < q.val + 1
    · exact .inr (hseen hlt)
    · exact .inl ⟨st, k, q.val + 1, rfl, by omega⟩

theorem Inv.wakeParent (h : Inv s) {st : Int} (hpc : s.pc i = .wakeParent st q.val) :
    Inv ((visitWake s i (parentChan (s.proc i)) q).setPc i (.wakeParent st (q.val + 1))) := by
  have hholds : (s.pc i).holds = true := by rw [hpc]; rfl
  have hok := h.pcs i
  rw [hpc] at hok
  obtain ⟨hinit, hkids, hwoken⟩ := hok
  have hc : ∀ w, Pc.wakeParent st (q.val + 1) ≠ .asleep w := fun w hw => by cases hw
  have hcalm := calm_visited s i (parentChan (s.proc i)) q
  have hsoft : Soft s ((s.setProc q (visited s i (parentChan (s.proc i)) q)).setPc i
      (.wakeParent st (q.val + 1))) none none :=
    soft_calm hcalm rfl rfl fun k' w => asleep_of_upd fun w hw => absurd hw (hc w)
  refine h.visit (h.running i hholds) _ (by rw [hpc]; rfl) rfl hc
    ⟨hinit, fun j => ?_, fun k hk hlt => ?_⟩ fun st' k' x hx => ?_
  · have : (((s.setProc q (visited s i (parentChan (s.proc i)) q)).setPc i
        (.wakeParent st (q.val + 1))).proc j).parent = (s.proc j).parent := hsoft.parent j
    rw [this]
    exact hkids j
  · have hk' : (s.proc i).parent = some k := (hsoft.parent i).symm.trans hk
    have hki : k ≠ i := by
      rintro rfl
      exact hkids k hk'
    have hchan : parentChan (s.proc i) = procChan k := by
      unfold parentChan
      rw [hk']
    by_cases hq : k = q
    · subst hq
      rw [hchan]
      exact h.awake hki hc
    · have : k.val ≠ q.val := fun he => hq (Fin.ext he)
      exact fun ha => hwoken k hk' (by omega) (hsoft.asleep_of ha)
  · rw [hpc] at hx
    cases hx

/-! ### What a step reports -/

/-- The last exit of a process in this slot, if it has not been reaped since: its pid and
its status. -/
def pending : List Event → Fin NPROC → Option (Int × Int)
  | [], _ => none
  | .exited i pid status :: es, j => if i = j then some (pid, status) else pending es j
  | .reaped _ child _ _ :: es, j => if child = j then none else pending es j
  | _ :: es, j => pending es j

/-- A change of a slot that makes no zombie and changes none. -/
structure Tame (p p' : Proc) : Prop where
  zombie : p'.state = .zombie ↔ p.state = .zombie
  same : p.state = .zombie → p'.pid = p.pid ∧ p'.xstate = p.xstate

theorem Tame.refl (p : Proc) : Tame p p := ⟨Iff.rfl, fun _ => ⟨rfl, rfl⟩⟩

theorem Calm.tame {p p' : Proc} (h : Calm p p') : Tame p p' := by
  refine ⟨?_, fun _ => ⟨h.pid, h.xstate⟩⟩
  rcases h.state with ⟨hs, _⟩ | ⟨hl, hs | hs⟩
  · rw [hs]
  · rw [hs]
    constructor
    · intro hz; cases hz
    · intro hz; rw [hz] at hl; cases hl
  · rw [hs]
    constructor
    · intro hz; cases hz
    · intro hz; rw [hz] at hl; cases hl

theorem Tame.of_ne {p p' : Proc} (h : p.state ≠ .zombie) (h' : p'.state ≠ .zombie) : Tame p p' :=
  ⟨⟨fun hz => absurd hz h', fun hz => absurd hz h⟩, fun hz => absurd hz h⟩

/-- What a step does to the zombies, and how it reports it. -/
inductive Effect (s t : Sys) : Option Event → Prop
  | tame {e : Option Event} (hp : ∀ j, Tame (s.proc j) (t.proc j))
      (hx : ∀ i pid st, e ≠ some (.exited i pid st))
      (hr : ∀ i j pid st, e ≠ some (.reaped i j pid st)) : Effect s t e
  | exit (i : Fin NPROC) (st : Int) (hlive : (s.proc i).state ≠ .zombie)
      (hp : t.proc = upd s.proc i { s.proc i with xstate := st, state := .zombie }) :
      Effect s t (some (.exited i (s.proc i).pid st))
  | reap (i j : Fin NPROC) (hpar : (s.proc j).parent = some i) (hz : (s.proc j).state = .zombie)
      (hp : t.proc = upd s.proc j (clearSlot (s.proc j))) :
      Effect s t (some (.reaped i j (s.proc j).pid (s.proc j).xstate))

theorem Effect.calls (hp : ∀ j, Tame (s.proc j) (t.proc j)) : Effect s t none :=
  .tame hp (by simp) (by simp)

theorem Effect.returns {x : Int} (hp : ∀ j, Tame (s.proc j) (t.proc j)) :
    Effect s t (some (.returned i x)) :=
  .tame hp (by simp) (by simp)

theorem tame_upd {p' : Proc} (h : Tame (s.proc q) p') (j : Fin NPROC) :
    Tame (s.proc j) (upd s.proc q p' j) := by
  by_cases hj : j = q
  · subst hj
    rw [upd_same]
    exact h
  · rw [upd_other _ _ hj]
    exact Tame.refl _

theorem tame_visitWake (s : Sys) (i : Fin NPROC) (chan : Nat) (q j : Fin NPROC) :
    Tame (s.proc j) ((visitWake s i chan q).proc j) := by
  rw [visitWake_eq]
  exact tame_upd (calm_visited s i chan q).tame j

/-! ### One step -/

/-- The step keeps the invariant, and reports what it does to the zombies. -/
abbrev Lawful (s : Sys) (x : Outcome) : Prop :=
  Ends x (fun r => Inv r.1 ∧ Effect s r.1 r.2) fun _ => True

theorem Inv.allocSlot (h : Inv s) (hr : (s.proc i).state = .running)
    (hpc : (s.pc i).holds = false) (hq : (s.proc q).state = .unused) (ok : Bool) :
    Lawful s (allocSlot s i q ok) := by
  have hnz : (s.proc q).state ≠ .zombie := by rw [hq]; simp
  refine .ite (fun _ => trivial) fun _ => ?_
  cases ok with
  | true => exact ⟨h.alloc hr hpc hq (h.tree.unused q hq) rfl rfl, .calls (tame_upd (.of_ne hnz nofun))⟩
  | false => exact ⟨h.unalloc hpc hq rfl rfl, .returns (tame_upd (.of_ne hnz nofun))⟩

/-- **Every region keeps the invariant**, by one case for each place where a process can stand. -/
theorem lawful_go (h : Inv s) (hr : (s.proc i).state = .running) (ok : Bool) : Lawful s (go s i ok) := by
  have hlive : (s.proc i).state.live = true := by rw [hr]; rfl
  have hnz : (s.proc i).state ≠ .zombie := by rw [hr]; simp
  have hsame : ∀ j, Tame (s.proc j) (s.proc j) := fun j => .refl _
  have hmild : ∀ {p' : Proc} {j}, p'.state = (s.proc j).state → p'.pid = (s.proc j).pid →
      p'.xstate = (s.proc j).xstate → Tame (s.proc j) p' := fun hs hp hx =>
    ⟨by rw [hs], fun _ => ⟨hp, hx⟩⟩
  have hok := h.pcs i
  unfold go
  generalize hpc : s.pc i = c₀ at hok
  -- where the process only goes on
  have hnext : ∀ {c : Pc}, c.holds = c₀.holds → c.child = none → (∀ w, c ≠ .asleep w) → PcOk s i c →
      (∀ st k x, c₀ = .wakeInit st k x → s.initproc.val < x) → Lawful s (next s i c) := by
    intro c hholds hchild hasl hown hwin
    rw [← hpc] at hholds hwin
    exact ⟨h.goto hholds (fun _ => hlive) hchild hasl hown hwin, .calls hsame⟩
  have hret : ∀ x, c₀.holds = false → Lawful s (ret s i x) := by
    intro x hholds
    rw [← hpc] at hholds
    refine ⟨h.goto hholds.symm (fun _ => hlive) rfl nofun trivial fun st k x hx => ?_, .returns hsame⟩
    rw [hx] at hholds
    cases hholds
  have hrelease : ∀ x, c₀.holds = true → (∀ st k x, c₀ ≠ .wakeInit st k x) → Lawful s (ret s.unlock i x) := by
    intro x hholds hwin
    rw [← hpc] at hholds hwin
    exact ⟨h.release hholds hwin, .returns hsame⟩
  -- back from `sleep`
  have hwoken : ∀ {c : Pc}, c.holds = c₀.holds → c.child = none → (∀ w, c ≠ .asleep w) →
      (∀ st k x, c₀ ≠ .wakeInit st k x) →
      PcOk ((s.setProc i { s.proc i with chan := 0 }).setPc i c) i c →
      Lawful s (next (s.setProc i { s.proc i with chan := 0 }) i c) := by
    intro c hholds hchild hasl hwin hown
    rw [← hpc] at hholds hwin
    have hcalm : Calm (s.proc i) { s.proc i with chan := 0 } :=
      ⟨rfl, rfl, rfl, .inl ⟨rfl, fun hs => by rw [hr] at hs; cases hs⟩⟩
    exact ⟨h.calm hcalm hholds (fun _ => hr) (fun _ => hlive) (fun np hnp => by rw [hchild] at hnp; cases hnp)
      (fun w hw => absurd hw (hasl w)) hown fun st k x hx => absurd hx (hwin st k x),
      .calls (tame_upd (hmild rfl rfl rfl))⟩
  have hreap : ∀ {w k b q}, c₀ = .scan w k b → (s.proc q).parent = some i → (s.proc q).state = .zombie →
      Lawful s (reap s i q) := fun hc hp hz =>
    ⟨h.reap (hpc.trans hc) hz, .reap i _ hp hz rfl⟩
  cases c₀ with
  | user => exact trivial
  | alloc k =>
    refine .dite (fun hk => .ite (fun hu => ?_) fun _ => hnext rfl rfl nofun trivial nofun) fun _ => hret _ rfl
    exact h.allocSlot hr (by rw [hpc]; rfl) hu ok
  | adopt np =>
    exact .ite (fun hl => ⟨h.adopt hr hpc hl, .calls (tame_upd (hmild rfl rfl rfl))⟩) fun _ => trivial
  | launch np =>
    exact ⟨h.launch hpc, .tame (tame_upd (.of_ne (by rw [hok.1]; simp) nofun)) (by simp) (by simp)⟩
  | exiting st =>
    refine .ite (fun hl => ⟨h.acquire hl rfl hr rfl ⟨hok, ?_⟩, .calls hsame⟩) fun _ => trivial
    exact fun j hj => absurd hj (Nat.not_lt_zero _)
  | reparent st k =>
    obtain ⟨hinit, hdone⟩ := hok
    refine .dite (fun hk => .ite (fun hq => ?_) fun hq => ?_) fun hk => ?_
    · exact ⟨h.handOver (q := ⟨k, hk⟩) hpc hq, .calls (tame_upd (hmild rfl rfl rfl))⟩
    · refine hnext rfl rfl nofun ⟨hinit, fun j hj => ?_⟩ nofun
      by_cases hjk : j.val = k
      · have : j = ⟨k, hk⟩ := Fin.ext hjk
        rw [this]
        exact hq
      · exact hdone j (by omega)
    · refine hnext rfl rfl nofun ⟨hinit, fun j => hdone j ?_, fun k' _ hlt => absurd hlt (Nat.not_lt_zero _)⟩
        nofun
      have := j.isLt
      omega
  | wakeInit st k x =>
    obtain ⟨hinit, hdone, hwoken⟩ := hok
    refine .dite (fun hx => ?_) fun hx => ?_
    · exact ⟨h.wakeInit (q := ⟨x, hx⟩) hpc, .calls (tame_visitWake s i _ _)⟩
    · refine hnext rfl rfl nofun ⟨hinit, fun j hj => hdone j (by omega)⟩ fun st' k' x' hx' => ?_
      cases hx'
      have := s.initproc.isLt
      omega
  | wakeParent st x =>
    obtain ⟨hinit, hkids, hwoken⟩ := hok
    refine .dite (fun hx => ?_) fun hx => ?_
    · exact ⟨h.wakeParent (q := ⟨x, hx⟩) hpc, .calls (tame_visitWake s i _ _)⟩
    · refine hnext rfl rfl nofun ⟨hinit, hkids, fun k hk => hwoken k hk ?_⟩ nofun
      have := k.isLt
      omega
  | dying st => exact ⟨h.bury hpc, .exit i st hnz rfl⟩
  | enter w =>
    refine .ite (fun hl => ⟨h.acquire hl rfl hr rfl ?_, .calls hsame⟩) fun _ => trivial
    cases w with
    | any a => exact fun j hj => absurd hj (Nat.not_lt_zero _)
    | pid n => trivial
  | scan w k b =>
    cases w with
    | any addr =>
      refine .dite (fun hk => .ite (fun hp => .ite (fun hz => ?_) fun hz => ?_) fun hp => ?_) fun hk =>
        .ite (fun _ => ?_) fun _ => hrelease _ rfl nofun
      · exact .ite (fun _ => hrelease _ rfl nofun) fun _ => hreap rfl hp hz
      -- the slot just seen is no zombie child
      · refine hnext rfl rfl nofun (fun j hj hjp => ?_) nofun
        by_cases hjk : j.val = k
        · have : j = ⟨k, hk⟩ := Fin.ext hjk
          rw [this]
          exact hz
        · exact hok j (by omega) hjp
      · refine hnext rfl rfl nofun (fun j hj hjp => hok j ?_ hjp) nofun
        have : j.val ≠ k := by
          rintro rfl
          exact hp hjp
        omega
      · refine hnext rfl rfl nofun (fun j hj => hok j ?_ hj) nofun
        have := j.isLt
        omega
    | pid n =>
      refine .dite (fun hk => .ite (fun hfound => ?_) fun _ => hnext rfl rfl nofun trivial nofun) fun _ =>
        hrelease _ rfl nofun
      refine .ite (fun _ => hrelease _ rfl nofun) fun hp => ?_
      have hp' : (s.proc ⟨k, hk⟩).parent = some i := by simpa using hp
      refine .ite (fun hz => hreap rfl hp' hz) fun hz => ?_
      exact hnext rfl rfl nofun ⟨⟨k, hk⟩, hfound.1, hz, hfound.2, hp'⟩ nofun
  | check w =>
    refine .ite (fun _ => hrelease _ rfl nofun) fun _ => hnext rfl rfl nofun ?_ nofun
    cases w with
    | any a | pid n => exact hok
  | rest w => exact ⟨h.rest hpc, .calls (tame_upd (.of_ne hnz nofun))⟩
  | asleep w => exact hwoken rfl rfl nofun nofun trivial
  | kill n k =>
    refine .dite (fun hk => .ite (fun _ => ⟨?_, .returns (tame_upd (calm_killSlot _).tame)⟩) fun _ => ?_)
      fun _ => hret _ rfl
    · refine h.calm (calm_killSlot _) (by rw [hpc]; rfl) (fun hq => killSlot_running (h.running _ hq))
        (fun _ => hlive) nofun nofun trivial ?_
      rw [hpc]
      nofun
    · exact hnext rfl rfl nofun trivial nofun
  | slept => exact hwoken rfl rfl nofun nofun trivial
  | wake chan x =>
    refine .dite (fun hx => ⟨?_, .calls (tame_visitWake s i _ _)⟩) fun _ => hnext rfl rfl nofun trivial nofun
    refine h.visit hr chan (by rw [hpc]; rfl) rfl nofun trivial ?_
    rw [hpc]
    nofun

theorem lawful_call (h : Inv s) (hr : (s.proc i).state = .running) (hpc : s.pc i = .user) (x : Call) :
    Lawful s (call s i x) := by
  have hgoto : ∀ c : Pc, c.holds = false → c.child = none → (∀ w, c ≠ .asleep w) → PcOk s i c →
      Lawful s (next s i c) := by
    intro c hc hchild hasl hown
    exact ⟨h.goto (by rw [hpc, hc]; rfl) (fun _ => by rw [hr]; rfl) hchild hasl hown (by rw [hpc]; simp),
      .calls fun _ => .refl _⟩
  cases x with
  | exit st => exact .ite (fun _ => trivial) fun hinit => hgoto _ rfl rfl nofun hinit
  | sleep chan => exact ⟨h.sleep hr hpc chan, .calls (tame_upd (.of_ne (by rw [hr]; simp) nofun))⟩
  | fork | wait a | waitpid n | kill n | wakeup chan => exact hgoto _ rfl rfl nofun trivial

variable {a : Act} {es : List Event}

/-- **Every step keeps the invariant.** -/
theorem lawful_step (h : Inv s) (a : Act) : Lawful s (stepEvent s a) := by
  cases a with
  | dispatch j =>
    refine .ite (fun hj => ⟨?_, .calls (tame_upd (.of_ne (by rw [hj]; simp) nofun))⟩) fun _ => trivial
    exact h.calmSlot ⟨rfl, rfl, rfl, .inr ⟨by rw [hj]; rfl, .inr rfl⟩⟩ fun _ => rfl
  | yield j =>
    refine .ite (fun _ => trivial) fun hj => .ite (fun _ => trivial) fun hl => ?_
    have hj' : (s.proc j).state = .running := by simpa using hj
    exact ⟨h.calmSlot ⟨rfl, rfl, rfl, .inr ⟨by rw [hj']; rfl, .inl rfl⟩⟩
      fun hh => absurd ((h.held j).2 hh) hl, .calls (tame_upd (.of_ne (by rw [hj']; simp) nofun))⟩
  | call j x => exact .ite (fun hj => lawful_call h hj.1 hj.2 x) fun _ => trivial
  | go j ok => exact .ite (fun hj => lawful_go h hj ok) fun _ => trivial
  | handler j chan =>
    exact ⟨h.calmSlot (calm_wakeSlot chan _) fun hh => wakeSlot_running (h.running j hh),
      .calls (tame_upd (calm_wakeSlot chan _).tame)⟩

theorem inv_start : Inv start where
  tree := treeInv_start
  nextpid := by decide
  pcs := fun _ => trivial
  held := fun _ => ⟨fun h => (by cases h), fun h => (by cases h)⟩
  running := fun _ h => by cases h
  alive := fun _ h => absurd rfl h
  child_inj := fun _ _ _ h => by cases h
  missed := fun _ _ _ h => by cases h

/-! ### Whole runs -/

/-- The zombies are the processes whose exit is pending. -/
def Reported (s : Sys) (es : List Event) : Prop :=
  ∀ j, pending es j =
    if (s.proc j).state = .zombie then some ((s.proc j).pid, (s.proc j).xstate) else none

theorem Effect.reported (h : Effect s t e) (hs : Reported s es) : Reported t (e.toList ++ es) := by
  intro j
  cases h with
  | tame hp hx hr =>
    have hpend : pending (e.toList ++ es) j = pending es j := by
      cases e with
      | none => rfl
      | some ev =>
        cases ev with
        | returned i x | forked i np pid => rfl
        | exited i pid st => exact absurd rfl (hx i pid st)
        | reaped i k pid st => exact absurd rfl (hr i k pid st)
    rw [hpend, hs j]
    by_cases hz : (s.proc j).state = .zombie
    · rw [if_pos hz, if_pos ((hp j).zombie.2 hz), ((hp j).same hz).1, ((hp j).same hz).2]
    · rw [if_neg hz, if_neg fun hz' => hz ((hp j).zombie.1 hz')]
  | exit i st hlive hp =>
    show (if i = j then some ((s.proc i).pid, st) else pending es j) = _
    rw [hp]
    by_cases hij : i = j
    · subst hij
      rw [upd_same, if_pos rfl, if_pos rfl]
    · rw [if_neg hij, upd_other _ _ (Ne.symm hij), hs j]
  | reap i k hpar hz hp =>
    show (if k = j then none else pending es j) = _
    rw [hp]
    by_cases hkj : k = j
    · subst hkj
      rw [upd_same, if_pos rfl, if_neg nofun]
    · rw [if_neg hkj, upd_other _ _ (Ne.symm hkj), hs j]

theorem step_eq_ok {x y : Traced} (h : step x a = .ok y) :
    ∃ e, stepEvent x.1 a = .ok (y.1, e) ∧ y.2 = e.toList ++ x.2 := by
  unfold step at h
  cases hs : stepEvent x.1 a with
  | ok r =>
    rw [hs] at h
    cases h
    exact ⟨r.2, rfl, rfl⟩
  | error _ =>
    rw [hs] at h
    cases h

/-- **The invariant of every run.** -/
theorem inv_reached (h : Reached s es) : Inv s ∧ Reported s es := by
  obtain ⟨as, hrun⟩ := h
  refine hrun.invariant (I := fun x => Inv x.1 ∧ Reported x.1 x.2) ⟨inv_start, fun j => ?_⟩ ?_
  · by_cases hj : j = 0
    · subst hj
      rfl
    · have : start.proc j = {} := if_neg hj
      show none = if (start.proc j).state = .zombie then _ else none
      rw [this, if_neg nofun]
  · intro x a y hx _ hstep
    obtain ⟨e, he, hy⟩ := step_eq_ok hstep
    rw [hy]
    obtain ⟨hinv, heff⟩ := (lawful_step hx.1 a).of_ok he
    exact ⟨hinv, heff.reported hx.2⟩

/-! ### The protocol -/

/-- What exit and wait guarantee in a state `s` after the reports `es`. -/
structure WaitProtocol (s : Sys) (es : List Event) : Prop where
  /-- A child is freed by its parent only, and only once for each exit: the exit is
  still pending, with the pid and the status that the parent gets, and then it is not. -/
  reaped_once : ∀ a t i j pid status, step (s, es) a = .ok (t, .reaped i j pid status :: es) →
    (s.proc j).parent = some i ∧ pending es j = some (pid, status) ∧
      (t.proc j).state = .unused ∧ pending (.reaped i j pid status :: es) j = none
  /-- Nobody sleeps in a wait while a child it waits for is a zombie. -/
  not_missed : s.waitLock = none → ∀ i w j, s.pc i = .asleep w → (s.proc i).state = .sleeping →
    (s.proc j).parent = some i → w.wants (s.proc j).pid → (s.proc j).state ≠ .zombie
  /-- When the status cannot be copied out, `kwait` returns `-1` and nothing is changed. -/
  copyout_fails : ∀ i j addr b, s.pc i = .scan (.any addr) j.val b → (s.proc i).state = .running →
    (s.proc j).parent = some i → (s.proc j).state = .zombie → addr ≠ 0 →
    ∃ t, step (s, es) (.go i false) = .ok (t, .returned i (-1) :: es) ∧ t.proc = s.proc

/-- The step that frees a child, in a state that satisfies the invariant. -/
theorem reaped_of_step (h : Inv s) (hes : Reported s es) {j : Fin NPROC} {pid status : Int}
    (hstep : step (s, es) a = .ok (t, .reaped i j pid status :: es)) :
    (s.proc j).parent = some i ∧ pending es j = some (pid, status) ∧ (t.proc j).state = .unused := by
  obtain ⟨e, he, hy⟩ := step_eq_ok hstep
  have hev : e = some (.reaped i j pid status) := by
    cases e with
    | none => exact absurd hy (List.cons_ne_self _ _)
    | some ev => rw [(List.cons.inj hy).1]
  subst hev
  cases ((lawful_step h a).of_ok he).2 with
  | tame _ _ hr => exact absurd rfl (hr i j pid status)
  | reap _ _ hpar hz hp =>
    have hp' : t.proc = upd s.proc j (clearSlot (s.proc j)) := hp
    refine ⟨hpar, ?_, ?_⟩
    · rw [hes j, if_pos hz]
    · rw [hp', upd_same]
      rfl

/-- **The exit/wait protocol** holds in every state that can be reached, under every
interleaving. -/
theorem wait_protocol {es : List Event} (h : Reached s es) : WaitProtocol s es := by
  obtain ⟨hinv, hes⟩ := inv_reached h
  refine ⟨fun a t i j pid status hstep => ?_, fun hl i w j hpc hsl hj hwant hz => ?_,
    fun i j addr b hpc hr hj hz haddr => ?_⟩
  · obtain ⟨hpar, hpend, hun⟩ := reaped_of_step hinv hes hstep
    exact ⟨hpar, hpend, hun, if_pos rfl⟩
  · -- the only one who may be late is `init`, and then `wait_lock` is held
    obtain ⟨_, x, st, k, q, hx, _⟩ := hinv.missed i w j hpc hsl hj hz hwant
    have := hinv.free hl (k := x)
    rw [hx] at this
    cases this
  · refine ⟨s.unlock.setPc i .user, ?_, rfl⟩
    have hgo : go s i false = ret s.unlock i (-1) := by
      unfold go
      rw [hpc]
      dsimp only
      rw [dif_pos j.isLt, scanAny, if_pos hj, if_pos hz, if_pos ⟨haddr, rfl⟩]
    unfold step stepEvent
    dsimp only
    rw [if_pos hr, hgo]
    rfl

/-- What the parent pointers and the pids satisfy in a state `s`. -/
structure ProcessTree (s : Sys) : Prop where
  unused : ∀ j, (s.proc j).state = .unused → (s.proc j).parent = none
  /-- A parent is alive; in particular a slot that is being reused has no children. -/
  parent : ∀ j k, (s.proc j).parent = some k →
    (s.proc k).state ≠ .unused ∧ (s.proc k).state ≠ .used ∧ (s.proc k).state ≠ .zombie
  /-- The parent pointers of a process that has left `kfork` lead to `init`. -/
  rooted : ∀ j, (s.proc j).state ≠ .unused → (s.proc j).state ≠ .used →
    ∃ n, ancestor (parents s.proc) n j = some s.initproc
  acyclic : ∀ j n, (s.proc j).state ≠ .unused → (s.proc j).state ≠ .used →
    ancestor (parents s.proc) (n + 1) j ≠ some j
  pid_pos : ∀ j, (s.proc j).state ≠ .unused → 0 < (s.proc j).pid
  pid_inj : ∀ j k, (s.proc j).state ≠ .unused → (s.proc k).state ≠ .unused →
    (s.proc j).pid = (s.proc k).pid → j = k
  /-- A zombie has a parent that is alive. -/
  zombie : ∀ j, (s.proc j).state = .zombie → ∃ k, (s.proc j).parent = some k ∧
    (s.proc k).state ≠ .unused ∧ (s.proc k).state ≠ .used ∧ (s.proc k).state ≠ .zombie

theorem live_iff {x : ProcState} : x.live = true ↔ x ≠ .unused ∧ x ≠ .used ∧ x ≠ .zombie := by
  cases x <;> decide

/-- **The tree of processes** is intact in every state that can be reached, whether
`wait_lock` is free or not. -/
theorem process_tree {es : List Event} (h : Reached s es) : ProcessTree s := by
  have htree := (inv_reached h).1.tree
  have hreach : ∀ j, (s.proc j).state ≠ .unused → (s.proc j).state ≠ .used →
      Reaches (parents s.proc) s.initproc j := by
    intro j hu hu'
    by_cases hp : (s.proc j).parent = none
    · rcases htree.orphan j hp with rfl | hs | hs
      · exact .root
      · exact absurd hs hu
      · exact absurd hs hu'
    · exact htree.rooted j hp
  refine ⟨htree.unused, fun j k hjk => live_iff.1 (htree.parent_live j k hjk),
    fun j hu hu' => (hreach j hu hu').exists_ancestor,
    fun j n hu hu' => (hreach j hu hu').acyclic htree.init_root n,
    fun j hu => ?_, htree.pid_inj, fun j hz => ?_⟩
  · have := (htree.pid_pos j hu).1
    omega
  · cases hp : (s.proc j).parent with
    | some k => exact ⟨k, rfl, live_iff.1 (htree.parent_live j k hp)⟩
    | none =>
      rcases htree.orphan j hp with rfl | hs | hs
      · have := htree.init_live
        rw [hz] at this
        cases this
      · rw [hz] at hs; cases hs
      · rw [hz] at hs; cases hs

/-- `init` forks a child, which exits with status 7, and waits for it: the acts up to the
slot of the child. -/
def childExits : List Act :=
  [.dispatch 0, .call 0 .fork] ++ List.replicate 4 (.go 0 true) ++
    [.dispatch 1, .call 1 (.exit 7)] ++ List.replicate 132 (.go 1 true) ++
    [.call 0 (.wait 4096), .go 0 true, .go 0 true]

theorem exists_childExits : ∃ x : Traced, Run step (fun _ _ => True) (start, []) childExits x ∧
    ((x.1.proc 1).state = .zombie ∧ x.1.pc 0 = .scan (.any 4096) 1 false ∧
      pending x.2 1 = some (2, 7)) := by
  obtain ⟨x, hrun, hp⟩ := exists_run step (fun _ _ => true)
    (fun x => decide ((x.1.proc 1).state = .zombie ∧ x.1.pc 0 = .scan (.any 4096) 1 false ∧
      pending x.2 1 = some (2, 7))) (start, []) childExits (by decide +kernel)
  exact ⟨x, hrun.mono fun _ _ _ => trivial, of_decide_eq_true hp⟩

theorem wait_protocol_child : ∃ s es, Reached s es ∧ (s.proc 1).state = .zombie ∧
    s.pc 0 = .scan (.any 4096) 1 false ∧ pending es 1 = some (2, 7) ∧ WaitProtocol s es := by
  obtain ⟨⟨s, es⟩, hrun, hz, hpc, hpend⟩ := exists_childExits
  exact ⟨s, es, ⟨_, hrun⟩, hz, hpc, hpend, wait_protocol ⟨_, hrun⟩⟩

theorem process_tree_child : ∃ s es, Reached s es ∧ (s.proc 1).state = .zombie ∧ ProcessTree s := by
  obtain ⟨⟨s, es⟩, hrun, hz, _, _⟩ := exists_childExits
  exact ⟨s, es, ⟨_, hrun⟩, hz, process_tree ⟨_, hrun⟩⟩

end Xv6.Wait
