import Mathlib.Algebra.BigOperators.Field
import Mathlib.Algebra.Order.BigOperators.Group.Finset
import Mathlib.Algebra.Order.Field.Basic
import Mathlib.Data.Rat.Cast.Order
import Mathlib.Tactic.Linarith
import Mathlib.Tactic.Ring

/-!
# Weighted averages

The average of natural numbers `v i` with weights `w i`, over a finite set.

* `le_average_iff`, `sub_mul_le_iff`: being at most the average, as an inequality of
  natural numbers, also with all values counted from a common base;
* `average_mono`: the average grows with the values;
* `lag_le`: a value that no other one exceeds the average by much is not far below it.
-/

namespace Xv6.Lib

open Finset

variable {ι : Type} (s : Finset ι) (w v : ι → ℕ)

/-- The average of the values `v`, with the weights `w`. -/
def average : ℚ := (∑ i ∈ s, (w i : ℚ) * v i) / ∑ i ∈ s, (w i : ℚ)

variable {s w v}

theorem sum_cast_pos (hw : 0 < ∑ i ∈ s, w i) : (0 : ℚ) < ∑ i ∈ s, (w i : ℚ) := by
  exact_mod_cast hw

theorem le_average_iff (hw : 0 < ∑ i ∈ s, w i) (x : ℕ) :
    (x : ℚ) ≤ average s w v ↔ x * ∑ i ∈ s, w i ≤ ∑ i ∈ s, w i * v i := by
  rw [average, le_div_iff₀ (sum_cast_pos hw)]
  exact_mod_cast Iff.rfl

/-- The comparison with the average does not depend on the base from which the values
are counted. -/
theorem sub_mul_le_iff {b x : ℕ} (hb : ∀ i ∈ s, b ≤ v i) (hx : b ≤ x) :
    (x - b) * ∑ i ∈ s, w i ≤ ∑ i ∈ s, (v i - b) * w i ↔
      x * ∑ i ∈ s, w i ≤ ∑ i ∈ s, w i * v i := by
  have hsum : ∑ i ∈ s, (v i - b) * w i + b * ∑ i ∈ s, w i = ∑ i ∈ s, w i * v i := by
    rw [mul_sum, ← sum_add_distrib]
    refine sum_congr rfl fun i hi => ?_
    rw [← Nat.add_mul, Nat.sub_add_cancel (hb i hi), Nat.mul_comm]
  have hmul : (x - b) * ∑ i ∈ s, w i + b * ∑ i ∈ s, w i = x * ∑ i ∈ s, w i := by
    rw [← Nat.add_mul, Nat.sub_add_cancel hx]
  omega

theorem min_mul_le {x : ℕ} (hx : ∀ i ∈ s, x ≤ v i) :
    x * ∑ i ∈ s, w i ≤ ∑ i ∈ s, w i * v i := by
  rw [mul_sum]
  refine sum_le_sum fun i hi => ?_
  rw [Nat.mul_comm]
  exact Nat.mul_le_mul_left _ (hx i hi)

theorem average_mono {v' : ι → ℕ} (h : ∀ i ∈ s, v i ≤ v' i) : average s w v ≤ average s w v' := by
  refine div_le_div_of_nonneg_right (sum_le_sum fun i hi => ?_) (sum_nonneg fun i _ => by positivity)
  have hi' : (v i : ℚ) ≤ v' i := by exact_mod_cast h i hi
  exact mul_le_mul_of_nonneg_left hi' (by positivity)

theorem sum_sub_average (hw : 0 < ∑ i ∈ s, w i) :
    ∑ i ∈ s, (w i : ℚ) * (v i - average s w v) = 0 := by
  have hne : (∑ i ∈ s, (w i : ℚ)) ≠ 0 := (sum_cast_pos hw).ne'
  simp only [mul_sub, sum_sub_distrib, ← sum_mul]
  rw [average, mul_div_cancel₀ _ hne, sub_self]

/-- **Bounded lead gives bounded lag**: if no weighted value exceeds the average by more
than `B`, then none is below it by more than `B` for each of the others. -/
theorem lag_le {B : ℚ} (hw : 0 < ∑ i ∈ s, w i)
    (hlead : ∀ i ∈ s, (w i : ℚ) * (v i - average s w v) ≤ B) {p : ι} (hp : p ∈ s) :
    (w p : ℚ) * (average s w v - v p) ≤ (s.card - 1) * B := by
  classical
  have hzero := sum_sub_average (v := v) hw
  rw [← add_sum_erase s _ hp] at hzero
  have hothers : ∑ i ∈ s.erase p, (w i : ℚ) * (v i - average s w v) ≤ (s.erase p).card • B :=
    sum_le_card_nsmul _ _ _ fun i hi => hlead i (mem_of_mem_erase hi)
  have hcard : (((s.erase p).card : ℕ) : ℚ) = s.card - 1 := by
    rw [card_erase_of_mem hp, Nat.cast_sub (card_pos.2 ⟨p, hp⟩), Nat.cast_one]
  rw [nsmul_eq_mul, hcard] at hothers
  linarith

end Xv6.Lib
