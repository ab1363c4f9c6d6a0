import Xv6.Wait.Tree

/-!
# The invariant of exit and wait

`PcOk` is what a process may rely on where it stands: a process that scans the table has
left no zombie child behind, one that is exiting has handed its children over and has
woken its parent.  `Inv` puts these together with the tree, with who holds `wait_lock`,
and with the point of the protocol (`missed`): a process that sleeps in a wait has no
zombie child that it waits for, except `init` while a process that is exiting is on its
way to wake it.

Each way in which a step can change the system keeps `Inv`; there is one lemma for each.
-/

namespace Xv6.Wait

open Xv6.Lib

/-- Whether a wait for this target takes a child with this pid. -/
def Target.wants : Target → Int → Prop
  | .any _, _ => True
  | .pid n, m => m = n

/-- The child that a process is forking. -/
def Pc.child : Pc → Option (Fin NPROC)
  | .adopt np | .launch np => some np
  | _ => none

/-- The process sleeps inside a wait. -/
def Sys.Asleep (s : Sys) (k : Fin NPROC) : Prop :=
  (∃ w, s.pc k = .asleep w) ∧ (s.proc k).state = .sleeping

/-- What the process `i` relies on where it stands. -/
def PcOk (s : Sys) (i : Fin NPROC) : Pc → Prop
  | .adopt np => (s.proc np).state = .used ∧ (s.proc np).parent = none
  | .launch np => (s.proc np).state = .used ∧ (s.proc np).parent = some i
  | .exiting _ => i ≠ s.initproc
  | .reparent _ k => i ≠ s.initproc ∧ ∀ j : Fin NPROC, j.val < k → (s.proc j).parent ≠ some i
  | .wakeInit _ k q =>
    i ≠ s.initproc ∧ (∀ j : Fin NPROC, j.val ≤ k → (s.proc j).parent ≠ some i) ∧
      (s.initproc.val < q → ¬s.Asleep s.initproc)
  | .wakeParent _ q =>
    i ≠ s.initproc ∧ (∀ j, (s.proc j).parent ≠ some i) ∧
      ∀ k, (s.proc i).parent = some k → k.val < q → ¬s.Asleep k
  | .dying _ =>
    i ≠ s.initproc ∧ (∀ j, (s.proc j).parent ≠ some i) ∧
      ∀ k, (s.proc i).parent = some k → ¬s.Asleep k
  | .scan (.any _) k _ =>
    ∀ j : Fin NPROC, j.val < k → (s.proc j).parent = some i → (s.proc j).state ≠ .zombie
  | .check (.any _) | .rest (.any _) =>
    ∀ j, (s.proc j).parent = some i → (s.proc j).state ≠ .zombie
  | .check (.pid n) | .rest (.pid n) =>
    ∃ j, (s.proc j).state ≠ .unused ∧ (s.proc j).state ≠ .zombie ∧ (s.proc j).pid = n ∧
      (s.proc j).parent = some i
  | .asleep _ => (s.proc i).state = .sleeping → (s.proc i).chan = procChan i
  | _ => True

/-- The invariant. -/
structure Inv (s : Sys) : Prop where
  tree : TreeInv s.proc s.initproc s.nextpid
  nextpid : 1 ≤ s.nextpid
  pcs : ∀ i, PcOk s i (s.pc i)
  held : ∀ i, s.waitLock = some i ↔ (s.pc i).holds = true
  running : ∀ i, (s.pc i).holds = true → (s.proc i).state = .running
  alive : ∀ i, s.pc i ≠ .user → (s.proc i).state.live = true
  child_inj : ∀ i k np, (s.pc i).child = some np → (s.pc k).child = some np → i = k
  missed : ∀ i w j, s.pc i = .asleep w → (s.proc i).state = .sleeping →
    (s.proc j).parent = some i → (s.proc j).state = .zombie → w.wants (s.proc j).pid →
    i = s.initproc ∧ ∃ h st k q, s.pc h = .wakeInit st k q ∧ q ≤ s.initproc.val

/-! ### What the others rely on -/

/-- A step that changes no parent and no zombie, and puts nobody to sleep in a wait.  It
may make `x` runnable and put `y` to sleep elsewhere. -/
structure Soft (s s' : Sys) (x y : Option (Fin NPROC)) : Prop where
  initproc : s'.initproc = s.initproc
  parent : ∀ j, (s'.proc j).parent = (s.proc j).parent
  zombie : ∀ j, (s'.proc j).state = .zombie ↔ (s.proc j).state = .zombie
  used : ∀ j, (s.proc j).state = .used → x ≠ some j → (s'.proc j).state = .used
  pid : ∀ j, (s.proc j).state ≠ .unused →
    (s'.proc j).state ≠ .unused ∧ (s'.proc j).pid = (s.proc j).pid
  live : ∀ j, (s.proc j).state.live = true → (s'.proc j).state.live = true
  asleep : ∀ k w, s'.pc k = .asleep w → (s'.proc k).state = .sleeping →
    s.pc k = .asleep w ∧ (s.proc k).state = .sleeping
  chan : ∀ j, y ≠ some j → (s'.proc j).state = .sleeping →
    (s.proc j).state = .sleeping ∧ (s'.proc j).chan = (s.proc j).chan

variable {k : Fin NPROC}

theorem Soft.asleep_of {s s' : Sys} {x y : Option (Fin NPROC)} (h : Soft s s' x y)
    (hk : s'.Asleep k) : s.Asleep k := by
  obtain ⟨⟨w, hw⟩, hs⟩ := hk
  obtain ⟨hw', hs'⟩ := h.asleep k w hw hs
  exact ⟨⟨w, hw'⟩, hs'⟩

theorem PcOk.soft {s s' : Sys} {x y : Option (Fin NPROC)} {c : Pc} (h : PcOk s k c)
    (hs : Soft s s' x y) (hy : y ≠ some k) (hchild : ∀ np, c.child = some np → x ≠ some np) :
    PcOk s' k c := by
  cases c with
  | adopt np | launch np => exact ⟨hs.used np h.1 (hchild np rfl), (hs.parent np).trans h.2⟩
  | exiting _ =>
    rw [PcOk, hs.initproc]
    exact h
  | reparent _ k' =>
    rw [PcOk, hs.initproc]
    exact ⟨h.1, fun j hj => by rw [hs.parent]; exact h.2 j hj⟩
  | wakeInit _ k' q =>
    rw [PcOk, hs.initproc]
    exact ⟨h.1, fun j hj => by rw [hs.parent]; exact h.2.1 j hj,
      fun hq ha => h.2.2 hq (hs.asleep_of ha)⟩
  | wakeParent _ q =>
    rw [PcOk, hs.initproc, hs.parent]
    exact ⟨h.1, fun j => by rw [hs.parent]; exact h.2.1 j,
      fun k' hk' hq ha => h.2.2 k' hk' hq (hs.asleep_of ha)⟩
  | dying _ =>
    rw [PcOk, hs.initproc, hs.parent]
    exact ⟨h.1, fun j => by rw [hs.parent]; exact h.2.1 j,
      fun k' hk' ha => h.2.2 k' hk' (hs.asleep_of ha)⟩
  | scan w k' _ =>
    cases w with
    | any a =>
      intro j hj hjp
      rw [hs.parent] at hjp
      rw [Ne, hs.zombie]
      exact h j hj hjp
    | pid n => trivial
  | check w | rest w =>
    cases w with
    | any a =>
      intro j hjp
      rw [hs.parent] at hjp
      rw [Ne, hs.zombie]
      exact h j hjp
    | pid n =>
      obtain ⟨j, hu, hz, hp, hpar⟩ := h
      exact ⟨j, (hs.pid j hu).1, by rw [Ne, hs.zombie]; exact hz, (hs.pid j hu).2.trans hp,
        (hs.parent j).trans hpar⟩
  | asleep w =>
    intro hsl
    obtain ⟨hsl', hch⟩ := hs.chan k hy hsl
    exact hch.trans (h hsl')
  | user | alloc _ | enter _ | kill _ _ | slept | wake _ _ => trivial

/-- A step of `i` under `wait_lock`: the processes that others are forking stay as they
are. -/
structure Firm (s s' : Sys) (i : Fin NPROC) : Prop where
  initproc : s'.initproc = s.initproc
  used : ∀ j, (s.proc j).state = .used → (s.proc j).parent ≠ some i → (s.pc i).child ≠ some j →
    (s'.proc j).state = .used ∧ (s'.proc j).parent = (s.proc j).parent
  chan : ∀ j, j ≠ i → (s'.proc j).state = .sleeping →
    (s.proc j).state = .sleeping ∧ (s'.proc j).chan = (s.proc j).chan

theorem PcOk.firm {s s' : Sys} {i k : Fin NPROC} {c : Pc} (h : PcOk s k c) (hs : Firm s s' i)
    (hk : k ≠ i) (hhold : c.holds = false)
    (hchild : ∀ np, c.child = some np → (s.pc i).child ≠ some np) : PcOk s' k c := by
  cases c with
  | adopt np =>
    obtain ⟨hu, hp⟩ := hs.used np h.1 (by rw [h.2]; simp) (hchild np rfl)
    exact ⟨hu, hp.trans h.2⟩
  | launch np =>
    obtain ⟨hu, hp⟩ := hs.used np h.1 (by rw [h.2]; simp [hk]) (hchild np rfl)
    exact ⟨hu, hp.trans h.2⟩
  | exiting _ =>
    rw [PcOk, hs.initproc]
    exact h
  | asleep w =>
    intro hsl
    obtain ⟨hsl', hch⟩ := hs.chan k hk hsl
    exact hch.trans (h hsl')
  | user | alloc _ | enter _ | kill _ _ | slept | wake _ _ => trivial
  | reparent _ _ | wakeInit _ _ _ | wakeParent _ _ | dying _ | scan _ _ _ | check _ | rest _ =>
    cases hhold

/-! ### One process at a time holds `wait_lock` -/

section

variable {s : Sys} {i : Fin NPROC} (h : Inv s)
include h

theorem Inv.alone (hi : (s.pc i).holds = true) (hk : k ≠ i) : (s.pc k).holds = false := by
  by_contra hh
  have hk' := (h.held k).2 (by simpa using hh)
  rw [(h.held i).2 hi] at hk'
  exact hk (Option.some.inj hk').symm

theorem Inv.free (hl : s.waitLock = none) : (s.pc k).holds = false := by
  by_contra hh
  rw [(h.held k).2 (by simpa using hh)] at hl
  cases hl

theorem Inv.child_ne (hk : k ≠ i) (np : Fin NPROC) (hc : (s.pc k).child = some np) :
    (s.pc i).child ≠ some np :=
  fun hi => hk (h.child_inj k i np hc hi)

theorem Inv.no_window (hw : ∀ st k q, s.pc i ≠ .wakeInit st k q)
    (hlock : (s.pc i).holds = true ∨ s.waitLock = none) {w : Target} {j : Fin NPROC}
    (hk : s.pc k = .asleep w) (hsl : (s.proc k).state = .sleeping)
    (hj : (s.proc j).parent = some k) (hz : (s.proc j).state = .zombie) :
    ¬w.wants (s.proc j).pid := by
  intro hwant
  obtain ⟨_, x, st, k', q, hx, _⟩ := h.missed k w j hk hsl hj hz hwant
  have hholds : (s.pc x).holds = true := by rw [hx]; rfl
  rcases hlock with hi | hl
  · by_cases hxi : x = i
    · subst hxi
      exact hw st k' q hx
    · rw [h.alone hi hxi] at hholds
      cases hholds
  · rw [h.free hl] at hholds
    cases hholds

end

/-- Whether `wait_lock` is held at the places of the table after one of them changed. -/
theorem held_upd {pc : Fin NPROC → Pc} {l l' : Option (Fin NPROC)} {i : Fin NPROC} {c : Pc}
    (h : ∀ k, l = some k ↔ (pc k).holds = true)
    (hi : l' = some i ↔ c.holds = true) (hk : ∀ k, k ≠ i → (l' = some k ↔ l = some k)) (k : Fin NPROC) :
    l' = some k ↔ (upd pc i c k).holds = true := by
  by_cases hki : k = i
  · subst hki
    rw [upd_same]
    exact hi
  · rw [upd_other _ _ hki, hk k hki]
    exact h k

end Xv6.Wait
