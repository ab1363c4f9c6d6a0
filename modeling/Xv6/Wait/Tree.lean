import Xv6.Lib.Forest
import Xv6.Wait.Model

/-!
# The tree of processes

`TreeInv` is what the process table always satisfies, whoever holds `wait_lock`: a free
slot has no parent, a parent is alive, a process without a parent is `init` or still
being forked, the parent pointers lead to `init`, and pids are distinct.  A step changes
one slot, and each way in which it can keeps the tree (`TreeInv.calm`, `stir`, `alloc`,
`unalloc`, `adopt`, `launch`, `handOver`, `bury`, `reap`).
-/

namespace Xv6

open Xv6.Lib

/-- The process can run, now or later. -/
def ProcState.live : ProcState → Bool
  | .sleeping | .runnable | .running => true
  | _ => false

namespace Wait

/-- The parent pointers of a table. -/
def parents (t : ProcTable) : Fin NPROC → Option (Fin NPROC) := fun j => (t j).parent

theorem parents_upd (t : ProcTable) (q : Fin NPROC) (p : Proc) :
    parents (upd t q p) = upd (parents t) q p.parent := by
  funext j
  by_cases hj : j = q
  · subst hj
    simp [parents]
  · simp [parents, hj]

/-- The invariant of the process tree. -/
structure TreeInv (t : ProcTable) (init : Fin NPROC) (nextpid : Int) : Prop where
  unused : ∀ j, (t j).state = .unused → (t j).parent = none
  parent_live : ∀ j k, (t j).parent = some k → (t k).state.live = true
  orphan : ∀ j, (t j).parent = none → j = init ∨ (t j).state = .unused ∨ (t j).state = .used
  rooted : ∀ j, (t j).parent ≠ none → Reaches (parents t) init j
  init_live : (t init).state.live = true
  init_root : (t init).parent = none
  pid_pos : ∀ j, (t j).state ≠ .unused → 1 ≤ (t j).pid ∧ (t j).pid < nextpid
  pid_inj : ∀ j k, (t j).state ≠ .unused → (t k).state ≠ .unused → (t j).pid = (t k).pid → j = k

/-- A change of a slot that is not one of the tree: the process stays where it is and
what it is, and it does not fall asleep. -/
structure Calm (p p' : Proc) : Prop where
  parent : p'.parent = p.parent
  pid : p'.pid = p.pid
  xstate : p'.xstate = p.xstate
  state : (p'.state = p.state ∧ (p.state = .sleeping → p'.chan = p.chan)) ∨
    (p.state.live = true ∧ (p'.state = .runnable ∨ p'.state = .running))

theorem Calm.refl (p : Proc) : Calm p p := ⟨rfl, rfl, rfl, .inl ⟨rfl, fun _ => rfl⟩⟩

variable {t : ProcTable} {init q : Fin NPROC} {n : Int} {p' : Proc}

theorem TreeInv.reaches (h : TreeInv t init n) {j : Fin NPROC} (hj : (t j).state.live = true) :
    Reaches (parents t) init j := by
  by_cases hp : (t j).parent = none
  · rcases h.orphan j hp with rfl | hs | hs
    · exact .root
    · rw [hs] at hj; cases hj
    · rw [hs] at hj; cases hj
  · exact h.rooted j hp

theorem TreeInv.childless (h : TreeInv t init n) (hq : (t q).state.live = false) (j : Fin NPROC) :
    (t j).parent ≠ some q := by
  intro hj
  rw [h.parent_live j q hj] at hq
  cases hq

theorem Calm.live (h : Calm (t q) p') : p'.state.live = (t q).state.live := by
  rcases h.state with ⟨hs, _⟩ | ⟨hl, hs | hs⟩
  · rw [hs]
  · rw [hl, hs]; rfl
  · rw [hl, hs]; rfl

theorem Calm.state_eq (h : Calm (t q) p') (hq : (t q).state.live = false) :
    p'.state = (t q).state := by
  rcases h.state with ⟨hs, _⟩ | ⟨hl, _⟩
  · exact hs
  · rw [hl] at hq; cases hq

section

variable (h : TreeInv t init n)
include h

theorem TreeInv.ne_init (hq : (t q).state.live = false) : q ≠ init := by
  rintro rfl
  rw [h.init_live] at hq
  cases hq

theorem TreeInv.pid_inj_upd {n' : Int} (hn : n ≤ n')
    (hpid : p'.state ≠ .unused → 1 ≤ p'.pid ∧ p'.pid < n' ∧
      ((t q).state ≠ .unused ∧ p'.pid = (t q).pid ∨ n ≤ p'.pid)) :
    (∀ j, (upd t q p' j).state ≠ .unused → 1 ≤ (upd t q p' j).pid ∧ (upd t q p' j).pid < n') ∧
      ∀ j k, (upd t q p' j).state ≠ .unused → (upd t q p' k).state ≠ .unused →
        (upd t q p' j).pid = (upd t q p' k).pid → j = k := by
  have hother : ∀ k, k ≠ q → (t k).state ≠ .unused → p'.state ≠ .unused → (t k).pid ≠ p'.pid := by
    intro k hk hu hu' he
    obtain ⟨_, _, ⟨hqu, hqp⟩ | hge⟩ := hpid hu'
    · exact hk (h.pid_inj k q hu hqu (he.trans hqp))
    · have := (h.pid_pos k hu).2
      omega
  constructor
  · intro j hj
    by_cases hjq : j = q
    · subst hjq
      rw [upd_same] at hj ⊢
      exact ⟨(hpid hj).1, (hpid hj).2.1⟩
    · rw [upd_other _ _ hjq] at hj ⊢
      obtain ⟨h1, h2⟩ := h.pid_pos j hj
      exact ⟨h1, by omega⟩
  · intro j k hj hk hjk
    by_cases hjq : j = q <;> by_cases hkq : k = q
    · rw [hjq, hkq]
    · subst hjq
      rw [upd_same] at hj hjk
      rw [upd_other _ _ hkq] at hk hjk
      exact absurd hjk.symm (hother k hkq hk hj)
    · subst hkq
      rw [upd_same] at hk hjk
      rw [upd_other _ _ hjq] at hj hjk
      exact absurd hjk (hother j hjq hj hk)
    · rw [upd_other _ _ hjq] at hj hjk
      rw [upd_other _ _ hkq] at hk hjk
      exact h.pid_inj j k hj hk hjk

theorem TreeInv.rooted_same (hp : p'.parent = (t q).parent) (j : Fin NPROC)
    (hj : upd (parents t) q p'.parent j ≠ none) : Reaches (upd (parents t) q p'.parent) init j := by
  have hself : upd (parents t) q (t q).parent = parents t := upd_self (parents t) q
  rw [hp, hself] at hj ⊢
  exact h.rooted j hj

/-- **The tree after a change of the slot `q`**, from what has to be said of that slot: where it hangs, what
hangs on it, and its pid. -/
theorem TreeInv.set {n' : Int} (hn : n ≤ n') (hunused : p'.state = .unused → p'.parent = none)
    (hkids : p'.state.live = true ∨ ∀ j, (t j).parent ≠ some q)
    (hparent : ∀ k, p'.parent = some k → (upd t q p' k).state.live = true)
    (horphan : p'.parent = none → q = init ∨ p'.state = .unused ∨ p'.state = .used)
    (hroot : ∀ j, upd (parents t) q p'.parent j ≠ none → Reaches (upd (parents t) q p'.parent) init j)
    (hinit : q = init → p'.state.live = true ∧ p'.parent = none)
    (hpid : p'.state ≠ .unused → 1 ≤ p'.pid ∧ p'.pid < n' ∧
      ((t q).state ≠ .unused ∧ p'.pid = (t q).pid ∨ n ≤ p'.pid)) :
    TreeInv (upd t q p') init n' := by
  constructor
  · intro j hj
    by_cases hjq : j = q
    · subst hjq
      rw [upd_same] at hj ⊢
      exact hunused hj
    · rw [upd_other _ _ hjq] at hj ⊢
      exact h.unused j hj
  · intro j k hjk
    by_cases hjq : j = q
    · subst hjq
      rw [upd_same] at hjk
      exact hparent k hjk
    · rw [upd_other _ _ hjq] at hjk
      by_cases hkq : k = q
      · subst hkq
        rw [upd_same]
        exact hkids.resolve_right fun hno => hno j hjk
      · rw [upd_other _ _ hkq]
        exact h.parent_live j k hjk
  · intro j hj
    by_cases hjq : j = q
    · subst hjq
      rw [upd_same] at hj ⊢
      exact horphan hj
    · rw [upd_other _ _ hjq] at hj ⊢
      exact h.orphan j hj
  · intro j hj
    rw [parents_upd]
    refine hroot j ?_
    rw [← parents_upd]
    exact hj
  · by_cases hq : q = init
    · subst hq
      rw [upd_same]
      exact (hinit rfl).1
    · rw [upd_other _ _ (Ne.symm hq)]
      exact h.init_live
  · by_cases hq : q = init
    · subst hq
      rw [upd_same]
      exact (hinit rfl).2
    · rw [upd_other _ _ (Ne.symm hq)]
      exact h.init_root
  · exact (h.pid_inj_upd hn hpid).1
  · exact (h.pid_inj_upd hn hpid).2

theorem TreeInv.pid_keep (hu : (t q).state ≠ .unused) (hpid : p'.pid = (t q).pid) :
    1 ≤ p'.pid ∧ p'.pid < n ∧ ((t q).state ≠ .unused ∧ p'.pid = (t q).pid ∨ n ≤ p'.pid) := by
  obtain ⟨h1, h2⟩ := h.pid_pos q hu
  exact ⟨by omega, by omega, .inl ⟨hu, hpid⟩⟩

/-- A change that leaves the parent, the pid and the kind of the slot alone keeps the tree. -/
theorem TreeInv.keep (hp' : p'.parent = (t q).parent) (hpid : p'.pid = (t q).pid)
    (hlive : p'.state.live = (t q).state.live)
    (hdead : (t q).state.live = false → p'.state = (t q).state) : TreeInv (upd t q p') init n := by
  have hsame : p'.state = .unused → (t q).state = .unused := by
    intro hu
    rw [← hdead (by rw [← hlive, hu]; rfl), hu]
  refine h.set (Int.le_refl n) (fun hu => hp'.trans (h.unused q (hsame hu))) ?_ (fun k hk => ?_)
    (fun hno => ?_) (h.rooted_same hp') ?_ fun hu => h.pid_keep (fun hqu => hu ?_) hpid
  · cases hl : (t q).state.live with
    | true => exact .inl (hlive.trans hl)
    | false => exact .inr (h.childless hl)
  · have hk' := h.parent_live q k (hp'.symm.trans hk)
    by_cases hkq : k = q
    · subst hkq
      rw [upd_same, hlive]
      exact hk'
    · rwa [upd_other _ _ hkq]
  · refine (h.orphan q (hp'.symm.trans hno)).imp_right ?_
    rintro (hs | hs)
    · exact .inl (by rw [hdead (by rw [hs]; rfl), hs])
    · exact .inr (by rw [hdead (by rw [hs]; rfl), hs])
  · rintro rfl
    exact ⟨hlive.trans h.init_live, hp'.trans h.init_root⟩
  · rw [hdead (by rw [hqu]; rfl), hqu]

theorem TreeInv.calm (hc : Calm (t q) p') : TreeInv (upd t q p') init n :=
  h.keep hc.parent hc.pid hc.live hc.state_eq

theorem TreeInv.stir (hq : (t q).state.live = true) (hp' : p'.parent = (t q).parent)
    (hpid : p'.pid = (t q).pid) (hs' : p'.state.live = true) : TreeInv (upd t q p') init n :=
  h.keep hp' hpid (hs'.trans hq.symm) fun hf => by rw [hq] at hf; cases hf

theorem TreeInv.setDead {n' : Int} (hn : n ≤ n') (hq : (t q).state.live = false)
    (hqp : (t q).parent = none) (hp' : p'.parent = none)
    (hs' : p'.state = .unused ∨ p'.state = .used)
    (hpid : p'.state ≠ .unused → 1 ≤ p'.pid ∧ p'.pid < n' ∧
      ((t q).state ≠ .unused ∧ p'.pid = (t q).pid ∨ n ≤ p'.pid)) :
    TreeInv (upd t q p') init n' :=
  h.set hn (fun _ => hp') (.inr (h.childless hq)) (fun k hk => by rw [hp'] at hk; cases hk) (fun _ => .inr hs')
    (h.rooted_same (hp'.trans hqp.symm)) (fun hi => absurd hi (h.ne_init hq)) hpid

theorem TreeInv.alloc (hpos : 1 ≤ n) (hq : (t q).state = .unused) (hp' : p'.parent = none)
    (hs' : p'.state = .used) (hpid : p'.pid = n) : TreeInv (upd t q p') init (n + 1) :=
  h.setDead (by omega) (by rw [hq]; rfl) (h.unused q hq) hp' (.inr hs')
    fun _ => ⟨by omega, by omega, .inr (by omega)⟩

theorem TreeInv.unalloc (hq : (t q).state = .unused) (hp' : p'.parent = none)
    (hs' : p'.state = .unused) : TreeInv (upd t q p') init (n + 1) :=
  h.setDead (by omega) (by rw [hq]; rfl) (h.unused q hq) hp' (.inl hs')
    fun hu => absurd hs' hu

theorem TreeInv.adopt {i : Fin NPROC} (hq : (t q).state = .used) (hqp : (t q).parent = none)
    (hi : (t i).state.live = true) :
    TreeInv (upd t q { t q with parent := some i }) init n := by
  have hdead : (t q).state.live = false := by rw [hq]; rfl
  have hu : (t q).state ≠ .unused := by rw [hq]; simp
  refine h.set (Int.le_refl n) (fun hs => absurd hs hu) (.inr (h.childless hdead)) (fun k hk => ?_)
    nofun (fun j hj => ?_) (fun hi => absurd hi (h.ne_init hdead)) fun _ => h.pid_keep hu rfl
  · cases hk
    have hiq : i ≠ q := by
      rintro rfl
      rw [hi] at hdead
      cases hdead
    rwa [upd_other _ _ hiq]
  · by_cases hjq : j = q
    · subst hjq
      exact Reaches.link_self hqp (h.reaches hi)
    · rw [upd_other _ _ hjq] at hj
      exact (h.rooted j hj).link hqp

theorem TreeInv.launch (hq : (t q).state = .used) (hqp : (t q).parent ≠ none) :
    TreeInv (upd t q { t q with state := .runnable }) init n := by
  have hdead : (t q).state.live = false := by rw [hq]; rfl
  have hu : (t q).state ≠ .unused := by rw [hq]; simp
  refine h.set (Int.le_refl n) nofun (.inl rfl) (fun k hk => ?_) (fun hno => absurd hno hqp)
    (h.rooted_same rfl) (fun hi => absurd hi (h.ne_init hdead)) fun _ => h.pid_keep hu rfl
  have hkq : k ≠ q := by
    rintro rfl
    exact h.childless hdead k hk
  rw [upd_other _ _ hkq]
  exact h.parent_live q k hk

theorem TreeInv.handOver (hqp : (t q).parent ≠ none) :
    TreeInv (upd t q { t q with parent := some init }) init n := by
  have hu : (t q).state ≠ .unused := fun hu => hqp (h.unused q hu)
  have hinit : q ≠ init := by
    rintro rfl
    exact hqp h.init_root
  refine h.set (Int.le_refl n) (fun hs => absurd hs hu) ?_ (fun k hk => ?_) nofun (fun j hj => ?_)
    (fun hi => absurd hi hinit) fun _ => h.pid_keep hu rfl
  · by_cases hl : (t q).state.live = true
    · exact .inl hl
    · exact .inr (h.childless (Bool.eq_false_iff.2 hl))
  · cases hk
    rw [upd_other _ _ hinit.symm]
    exact h.init_live
  · by_cases hjq : j = q
    · subst hjq
      exact (h.rooted j hqp).handOver j
    · rw [upd_other _ _ hjq] at hj
      exact (h.rooted j hj).handOver q

theorem TreeInv.bury (hq : (t q).state.live = true) (hinit : init ≠ q)
    (hkids : ∀ j, (t j).parent ≠ some q) (status : Int) :
    TreeInv (upd t q { t q with xstate := status, state := .zombie }) init n := by
  have hu : (t q).state ≠ .unused := by
    intro hu
    rw [hu] at hq
    cases hq
  refine h.set (Int.le_refl n) nofun (.inr hkids) (fun k hk => ?_) (fun hno => ?_)
    (h.rooted_same rfl) (fun hi => absurd hi.symm hinit) fun _ => h.pid_keep hu rfl
  · have hkq : k ≠ q := by
      rintro rfl
      exact hkids k hk
    rw [upd_other _ _ hkq]
    exact h.parent_live q k hk
  · rcases h.orphan q hno with hi | hs | hs
    · exact .inl hi
    · exact absurd hs hu
    · rw [hs] at hq
      cases hq

theorem TreeInv.reap (hq : (t q).state = .zombie) (hp' : p'.parent = none)
    (hs' : p'.state = .unused) : TreeInv (upd t q p') init n := by
  have hdead : (t q).state.live = false := by rw [hq]; rfl
  refine h.set (Int.le_refl n) (fun _ => hp') (.inr (h.childless hdead)) (fun k hk => by rw [hp'] at hk; cases hk)
    (fun _ => .inr (.inl hs')) (fun j hj => ?_) (fun hi => absurd hi (h.ne_init hdead)) fun hu => absurd hs' hu
  have hjq : j ≠ q := by
    rintro rfl
    rw [upd_same] at hj
    exact hj hp'
  rw [upd_other _ _ hjq] at hj
  rw [hp']
  exact (h.rooted j hj).cut (h.childless hdead) hjq

end

theorem treeInv_start : TreeInv start.proc start.initproc start.nextpid := by
  have hother : ∀ j : Fin NPROC, j ≠ 0 → start.proc j = {} := by
    intro j hj
    show (if j = 0 then _ else ({} : Proc)) = {}
    rw [if_neg hj]
  have hstate : ∀ j : Fin NPROC, j ≠ 0 → (start.proc j).state = .unused := by
    intro j hj
    rw [hother j hj]
  have hpar : ∀ j, (start.proc j).parent = none := by
    intro j
    by_cases hj : j = 0
    · subst hj
      rfl
    · rw [hother j hj]
  constructor
  · exact fun j _ => hpar j
  · intro j k hjk
    rw [hpar] at hjk
    cases hjk
  · intro j _
    by_cases hj : j = 0
    · exact .inl hj
    · exact .inr (.inl (hstate j hj))
  · intro j hj
    exact absurd (hpar j) hj
  · rfl
  · rfl
  · intro j hj
    have hj0 : j = 0 := by
      by_contra hne
      exact hj (hstate j hne)
    subst hj0
    decide
  · intro j k hj hk _
    have hj0 : j = 0 := by
      by_contra hne
      exact hj (hstate j hne)
    have hk0 : k = 0 := by
      by_contra hne
      exact hk (hstate k hne)
    rw [hj0, hk0]

end Wait

end Xv6
