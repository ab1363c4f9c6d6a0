import Xv6.Lib.Upd
import Mathlib.Tactic.Common

/-!
# Parent pointers

A tree given by parent pointers, `par : α → Option α`.  `Reaches par root j` says that
following the pointers from `j` leads to `root`.  The three changes a pointer can go
through keep this: a node without a parent gets one (`Reaches.link`), a node is handed
to the root (`Reaches.handOver`), a node without children is cut off (`Reaches.cut`).
A node that reaches a root without a parent is on no cycle (`Reaches.acyclic`).
-/

namespace Xv6.Lib

variable {α : Type} [DecidableEq α] {par : α → Option α} {root : α}

/-- Following the pointers from `j` leads to the root. -/
inductive Reaches (par : α → Option α) (root : α) : α → Prop
  | root : Reaches par root root
  | up {j k : α} (hpar : par j = some k) (hk : Reaches par root k) : Reaches par root j

namespace Reaches

theorem link {x y : α} (hx : par x = none) {j : α}
    (hj : Reaches par root j) : Reaches (upd par x (some y)) root j := by
  induction hj with
  | root => exact .root
  | @up j k hpar hk ih =>
    have hjx : j ≠ x := by
      rintro rfl
      rw [hx] at hpar
      cases hpar
    exact .up (by rw [upd_other _ _ hjx]; exact hpar) ih

theorem link_self {x y : α} (hx : par x = none) (hy : Reaches par root y) :
    Reaches (upd par x (some y)) root x :=
  .up (upd_same _ _ _) (hy.link hx)

theorem handOver (x : α) {j : α} (hj : Reaches par root j) :
    Reaches (upd par x (some root)) root j := by
  induction hj with
  | root => exact .root
  | @up j k hpar hk ih =>
    by_cases hjx : j = x
    · subst hjx
      exact .up (upd_same _ _ _) .root
    · exact .up (by rw [upd_other _ _ hjx]; exact hpar) ih

theorem cut {x : α} (hx : ∀ j, par j ≠ some x) {j : α} (hj : Reaches par root j) (hjx : j ≠ x) :
    Reaches (upd par x none) root j := by
  induction hj with
  | root => exact .root
  | @up j k hpar hk ih =>
    refine .up (by rw [upd_other _ _ hjx]; exact hpar) (ih ?_)
    rintro rfl
    exact hx j hpar

end Reaches

/-! ### Ancestors -/

/-- The node `n` pointers up. -/
def ancestor (par : α → Option α) : ℕ → α → Option α
  | 0, j => some j
  | n + 1, j => (ancestor par n j).bind par

omit [DecidableEq α] in
theorem ancestor_step {j k : α} (h : par j = some k) (n : ℕ) :
    ancestor par (n + 1) j = ancestor par n k := by
  induction n with
  | zero => exact h
  | succ n ih => rw [ancestor, ih, ancestor]

omit [DecidableEq α] in
theorem ancestor_none {j : α} (h : par j = none) (n : ℕ) : ancestor par (n + 1) j = none := by
  induction n with
  | zero => exact h
  | succ n ih => rw [ancestor, ih]; rfl

omit [DecidableEq α] in
theorem Reaches.exists_ancestor {j : α} (h : Reaches par root j) :
    ∃ n, ancestor par n j = some root := by
  induction h with
  | root => exact ⟨0, rfl⟩
  | up hpar _ ih =>
    obtain ⟨n, hn⟩ := ih
    exact ⟨n + 1, (ancestor_step hpar n).trans hn⟩

omit [DecidableEq α] in
/-- **No cycle** goes through a node that reaches a root without a parent. -/
theorem Reaches.acyclic (hroot : par root = none) {j : α} (h : Reaches par root j) (n : ℕ) :
    ancestor par (n + 1) j ≠ some j := by
  induction h with
  | root =>
    rw [ancestor_none hroot]
    simp
  | @up j k hpar hk ih =>
    intro hcyc
    apply ih
    have h1 : ancestor par (n + 2) j = some k := by
      rw [ancestor, hcyc]
      exact hpar
    rw [← ancestor_step hpar (n + 1)]
    exact h1

end Xv6.Lib
