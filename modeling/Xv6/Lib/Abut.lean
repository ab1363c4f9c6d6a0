import Mathlib.Algebra.GroupWithZero.Nat
import Mathlib.Tactic.Common

/-!
# Ranges that follow one another

A list of ranges, given by where each starts and how long it is: `Abut pos len a l b` says that the
first one starts at `a`, each other one where the one before it ends, and that the last one ends at
`b`.
-/

namespace Xv6.Lib

variable {α : Type} {pos len : α → ℕ}

/-- The ranges of `l` cover `[a, b)`, in this order. -/
def Abut (pos len : α → ℕ) (a : ℕ) : List α → ℕ → Prop
  | [], b => a = b
  | c :: l, b => pos c = a ∧ Abut pos len (a + len c) l b

theorem Abut.append {a b c : ℕ} {l l' : List α} (h : Abut pos len a l b)
    (h' : Abut pos len b l' c) : Abut pos len a (l ++ l') c := by
  induction l generalizing a with
  | nil =>
    cases h
    exact h'
  | cons x l ih => exact ⟨h.1, ih h.2⟩

variable {a b : ℕ} {l : List α}

theorem Abut.snoc (h : Abut pos len a l b) {x : α} (hx : pos x = b) :
    Abut pos len a (l ++ [x]) (b + len x) :=
  h.append ⟨hx, rfl⟩

theorem Abut.eq_add_sum (h : Abut pos len a l b) : b = a + (l.map len).sum := by
  induction l generalizing a with
  | nil =>
    cases h
    simp
  | cons x l ih =>
    rw [ih h.2, List.map_cons, List.sum_cons, Nat.add_assoc]

theorem Abut.le (h : Abut pos len a l b) : a ≤ b := by
  rw [h.eq_add_sum]
  exact Nat.le_add_right _ _

theorem Abut.bounds (h : Abut pos len a l b) {x : α} (hx : x ∈ l) :
    a ≤ pos x ∧ pos x + len x ≤ b := by
  induction l generalizing a with
  | nil => cases hx
  | cons y l ih =>
    rcases List.mem_cons.1 hx with rfl | hx
    · exact ⟨Nat.le_of_eq h.1.symm, by rw [h.1]; exact h.2.le⟩
    · obtain ⟨hlow, hhigh⟩ := ih h.2 hx
      exact ⟨Nat.le_trans (Nat.le_add_right _ _) hlow, hhigh⟩

end Xv6.Lib
