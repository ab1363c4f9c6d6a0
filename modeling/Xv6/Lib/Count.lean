import Xv6.Lib.Upd
import Mathlib.Algebra.BigOperators.Group.Finset.Basic
import Mathlib.Algebra.Order.BigOperators.Group.Finset
import Mathlib.Tactic.Common

/-!
# Counting references

A finite set of slots, each empty or holding a reference to an object: `count S f a` is
the number of slots of `S` that hold `a`.

* `count_upd`: what writing one slot does to the counts;
* `count_pos`, `eq_of_count_le_one`: a count that is positive, or at most one;
* `sum_change`: a sum of which one term changes.
-/

namespace Xv6.Lib

open Finset

variable {ι α : Type} [DecidableEq α]

/-- One if the slot holds `a`. -/
def holds (o : Option α) (a : α) : ℕ := if o = some a then 1 else 0

@[simp] theorem holds_none (a : α) : holds none a = 0 := rfl

@[simp] theorem holds_some (b a : α) : holds (some b) a = if b = a then 1 else 0 := by
  unfold holds
  simp

theorem holds_self (a : α) : holds (some a) a = 1 := by simp

theorem holds_pos {o : Option α} {a : α} : 0 < holds o a ↔ o = some a := by
  unfold holds
  split
  · simp [*]
  · simp [*]

/-- The number of slots that hold `a`. -/
def count (S : Finset ι) (f : ι → Option α) (a : α) : ℕ := ∑ x ∈ S, holds (f x) a

variable {S : Finset ι} {f : ι → Option α}

theorem count_congr {f g : ι → Option α} (h : ∀ x ∈ S, f x = g x) (a : α) :
    count S f a = count S g a :=
  sum_congr rfl fun x hx => by rw [h x hx]

theorem count_pos {a : α} : 0 < count S f a ↔ ∃ x ∈ S, f x = some a := by
  unfold count
  rw [sum_pos_iff]
  simp only [holds_pos]

theorem count_eq_zero {a : α} : count S f a = 0 ↔ ∀ x ∈ S, f x ≠ some a := by
  have h := count_pos (S := S) (f := f) (a := a)
  constructor
  · intro h0 x hx hf
    have := h.2 ⟨x, hx, hf⟩
    omega
  · intro hne
    by_contra h0
    obtain ⟨x, hx, hf⟩ := h.1 (by omega)
    exact hne x hx hf

/-- Two slots that hold an object counted at most once are the same slot. -/
theorem eq_of_count_le_one {a : α} (h : count S f a ≤ 1) {x y : ι} (hx : x ∈ S) (hy : y ∈ S)
    (hfx : f x = some a) (hfy : f y = some a) : x = y := by
  classical
  by_contra hne
  have hsub : ({x, y} : Finset ι) ⊆ S := by
    intro z hz
    rw [mem_insert, mem_singleton] at hz
    rcases hz with rfl | rfl
    · exact hx
    · exact hy
  have hle : ∑ z ∈ ({x, y} : Finset ι), holds (f z) a ≤ count S f a := sum_le_sum_of_subset hsub
  rw [sum_pair hne, hfx, hfy, holds_self] at hle
  omega

/-- **Writing one slot** takes a reference from what it held and gives one to what it
holds now. -/
theorem count_upd [DecidableEq ι] {x : ι} (hx : x ∈ S) (o : Option α) (a : α) :
    count S (upd f x o) a + holds (f x) a = count S f a + holds o a := by
  unfold count
  rw [← add_sum_erase S _ hx, ← add_sum_erase S (fun y => holds (f y) a) hx]
  have hrest : ∑ y ∈ S.erase x, holds (upd f x o y) a = ∑ y ∈ S.erase x, holds (f y) a := by
    refine sum_congr rfl fun y hy => ?_
    rw [upd_other _ _ (ne_of_mem_erase hy)]
  rw [hrest, upd_same]
  omega

theorem sum_change {f g : ι → ℕ} {x : ι} (hx : x ∈ S) (h : ∀ y ∈ S, y ≠ x → f y = g y) :
    ∑ y ∈ S, f y + g x = ∑ y ∈ S, g y + f x := by
  classical
  have hrest : ∑ y ∈ S.erase x, f y = ∑ y ∈ S.erase x, g y :=
    sum_congr rfl fun y hy => h y (mem_of_mem_erase hy) (ne_of_mem_erase hy)
  rw [← add_sum_erase S f hx, ← add_sum_erase S g hx, hrest]
  omega

end Xv6.Lib
