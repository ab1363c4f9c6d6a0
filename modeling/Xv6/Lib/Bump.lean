import Xv6.Lib.Upd
import Mathlib.Tactic.Common

/-!
# Handing out numbers one after the other

Slots `σ i k` hold numbers, or `0`.  `Bump live σ lo hi` says that the numbers from `lo` up to `hi`
have been handed out to the live slots, each to one slot.
-/

namespace Xv6.Lib

variable {ι κ : Type} {live live' : ι → κ → Prop} {σ σ' : ι → κ → ℕ} {lo hi : ℕ}

structure Bump (live : ι → κ → Prop) (σ : ι → κ → ℕ) (lo hi : ℕ) : Prop where
  range : ∀ i k, live i k → σ i k ≠ 0 → lo ≤ σ i k ∧ σ i k < hi
  inj : ∀ i k j l, live i k → live j l → σ i k ≠ 0 → σ i k = σ j l → i = j ∧ k = l
  cover : ∀ b, lo ≤ b → b < hi → ∃ i k, live i k ∧ σ i k = b

theorem Bump.congr (h : Bump live σ lo hi) (hσ : ∀ i k, live i k → σ' i k = σ i k) :
    Bump live σ' lo hi := by
  refine ⟨fun i k hk hne => ?_, fun i k j l hk hl hne heq => ?_, fun b hlo hhi => ?_⟩
  · rw [hσ i k hk] at hne ⊢
    exact h.range i k hk hne
  · rw [hσ i k hk] at hne heq
    rw [hσ j l hl] at heq
    exact h.inj i k j l hk hl hne heq
  · obtain ⟨i, k, hk, hb⟩ := h.cover b hlo hhi
    exact ⟨i, k, hk, (hσ i k hk).trans hb⟩

/-- **The next number goes to an empty slot.** -/
theorem Bump.add (h : Bump live σ lo hi) (hpos : 0 < lo) (hle : lo ≤ hi) {i : ι} {k : κ} (hik : live i k)
    (h0 : σ i k = 0) (hnew : σ' i k = hi)
    (hother : ∀ j l, live j l → ¬ (j = i ∧ l = k) → σ' j l = σ j l) : Bump live σ' lo (hi + 1) := by
  refine ⟨fun j l hl hne => ?_, fun j l j' l' hl hl' hne heq => ?_, fun b hlo hhi => ?_⟩
  · by_cases hj : j = i ∧ l = k
    · rw [hj.1, hj.2, hnew]
      omega
    · rw [hother j l hl hj] at hne ⊢
      have := h.range j l hl hne
      omega
  · by_cases hj : j = i ∧ l = k <;> by_cases hj' : j' = i ∧ l' = k
    · exact ⟨hj.1.trans hj'.1.symm, hj.2.trans hj'.2.symm⟩
    · -- the new number is above all old ones
      rw [hother j' l' hl' hj'] at heq
      have hne' : σ j' l' ≠ 0 := by
        rw [← heq]
        exact hne
      have := h.range j' l' hl' hne'
      rw [← heq, hj.1, hj.2, hnew] at this
      omega
    · rw [hother j l hl hj] at heq hne
      have := h.range j l hl hne
      rw [heq, hj'.1, hj'.2, hnew] at this
      omega
    · rw [hother j l hl hj] at heq hne
      rw [hother j' l' hl' hj'] at heq
      exact h.inj j l j' l' hl hl' hne heq
  · by_cases hb : b = hi
    · exact ⟨i, k, hik, hnew.trans hb.symm⟩
    · obtain ⟨j, l, hl, hjl⟩ := h.cover b hlo (by omega)
      refine ⟨j, l, hl, ?_⟩
      by_cases hj : j = i ∧ l = k
      · rw [hj.1, hj.2, h0] at hjl
        omega
      · rw [hother j l hl hj]
        exact hjl

theorem Bump.grow (h : Bump live σ lo hi) (hsub : ∀ i k, live i k → live' i k)
    (hnew : ∀ i k, live' i k → live i k ∨ σ i k = 0) : Bump live' σ lo hi := by
  refine ⟨fun i k hk hne => ?_, fun i k j l hk hl hne heq => ?_, fun b hlo hhi => ?_⟩
  · exact h.range i k ((hnew i k hk).resolve_right hne) hne
  · have hne' : σ j l ≠ 0 := by
      rw [← heq]
      exact hne
    exact h.inj i k j l ((hnew i k hk).resolve_right hne) ((hnew j l hl).resolve_right hne') hne heq
  · obtain ⟨i, k, hk, hb⟩ := h.cover b hlo hhi
    exact ⟨i, k, hsub i k hk, hb⟩

end Xv6.Lib
