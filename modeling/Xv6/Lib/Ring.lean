import Xv6.Lib.Upd
import Mathlib.Data.Nat.ModEq
import Mathlib.Tactic.Common

/-!
# Rings with wrapping indices

A ring of `N` slots between a producer and a consumer, whose indices count modulo `M`, a multiple of
`N`: `Window N M ring lo hi l` says that the entries from `lo` up to `hi` are those of `l`.

* `Window.write`, `Window.advance`: the producer fills the next slot, and then moves its index;
* `Window.pop`: the consumer takes the first entry;
* `Window.retract`: the producer takes its last entry back.
-/

namespace Xv6.Lib

variable {α : Type} {N M : ℕ} {ring : ℕ → α} {lo hi : ℕ} {l : List α}

/-- The ring holds `l` between the indices `lo` and `hi`. -/
structure Window (N M : ℕ) (ring : ℕ → α) (lo hi : ℕ) (l : List α) : Prop where
  len : l.length ≤ N
  low : lo < M
  high : hi = (lo + l.length) % M
  get : ∀ k < l.length, l[k]? = some (ring ((lo + k) % N))

theorem Window.slot (h : Window N M ring lo hi l) (hd : N ∣ M) : hi % N = (lo + l.length) % N := by
  rw [h.high, Nat.mod_mod_of_dvd _ hd]

theorem add_mod_ne {n a k m : ℕ} (hk : k < m) (hm : m < n) : (a + k) % n ≠ (a + m) % n := by
  intro heq
  have hmod : k % n = m % n := Nat.ModEq.add_left_cancel' a heq
  rw [Nat.mod_eq_of_lt (Nat.lt_trans hk hm), Nat.mod_eq_of_lt hm] at hmod
  omega

theorem Window.write (h : Window N M ring lo hi l) (hd : N ∣ M) (hl : l.length < N) (x : α) :
    Window N M (upd ring (hi % N) x) lo hi l := by
  refine ⟨h.len, h.low, h.high, fun k hk => ?_⟩
  rw [h.get k hk, upd_other]
  rw [h.slot hd]
  exact add_mod_ne hk hl

theorem Window.advance (h : Window N M ring lo hi l) (hd : N ∣ M) (hl : l.length < N) {x : α}
    (hx : ring (hi % N) = x) : Window N M ring lo ((hi + 1) % M) (l ++ [x]) := by
  refine ⟨?_, h.low, ?_, fun k hk => ?_⟩
  · rw [List.length_append, List.length_singleton]
    omega
  · rw [h.high, Nat.mod_add_mod, List.length_append, List.length_singleton, Nat.add_assoc]
  · rw [List.length_append, List.length_singleton] at hk
    by_cases hkl : k < l.length
    · rw [List.getElem?_append_left hkl]
      exact h.get k hkl
    · have hkl' : k = l.length := by omega
      subst hkl'
      rw [List.getElem?_concat_length, ← h.slot hd, hx]

theorem Window.push (h : Window N M ring lo hi l) (hd : N ∣ M) (hl : l.length < N) (x : α) :
    Window N M (upd ring (hi % N) x) lo ((hi + 1) % M) (l ++ [x]) :=
  (h.write hd hl x).advance hd hl (upd_same _ _ _)

theorem Window.head {x : α} (h : Window N M ring lo hi (x :: l)) : ring (lo % N) = x := by
  have h0 := h.get 0 (by simp)
  rw [List.getElem?_cons_zero, Nat.add_zero] at h0
  exact (Option.some.inj h0).symm

theorem Window.pop {x : α} (h : Window N M ring lo hi (x :: l)) (hd : N ∣ M) :
    Window N M ring ((lo + 1) % M) hi l := by
  have hlen := h.len
  rw [List.length_cons] at hlen
  refine ⟨by omega, Nat.mod_lt _ (Nat.lt_of_le_of_lt (Nat.zero_le _) h.low), ?_, fun k hk => ?_⟩
  · rw [h.high, Nat.mod_add_mod, List.length_cons]
    congr 1
    omega
  · have hk' := h.get (k + 1) (by rw [List.length_cons]; omega)
    rw [List.getElem?_cons_succ] at hk'
    rw [hk']
    congr 2
    have hmod : ((lo + 1) % M + k) % N = (lo + 1 + k) % N := by
      rw [Nat.add_mod, Nat.mod_mod_of_dvd _ hd, ← Nat.add_mod]
    rw [hmod]
    congr 1
    omega

/-- The producer takes its last entry back, and finds it in the slot below its index. -/
theorem Window.retract {x : α} (h : Window N M ring lo hi (l ++ [x])) (hd : N ∣ M) :
    Window N M ring lo ((hi + (M - 1)) % M) l ∧ ring ((hi + (M - 1)) % M % N) = x := by
  have hlen := h.len
  have hlow := h.low
  rw [List.length_append, List.length_singleton] at hlen
  have hhigh : (hi + (M - 1)) % M = (lo + l.length) % M := by
    rw [h.high, Nat.mod_add_mod, List.length_append, List.length_singleton]
    have : lo + (l.length + 1) + (M - 1) = lo + l.length + M := by omega
    rw [this, Nat.add_mod_right]
  refine ⟨⟨by omega, hlow, hhigh, fun k hk => ?_⟩, ?_⟩
  · have := h.get k (by rw [List.length_append]; omega)
    rwa [List.getElem?_append_left hk] at this
  · have hlast := h.get l.length (by rw [List.length_append, List.length_singleton]; omega)
    rw [List.getElem?_concat_length] at hlast
    rw [hhigh, Nat.mod_mod_of_dvd _ hd]
    exact (Option.some.inj hlast).symm

theorem Window.ne_nil (h : Window N M ring lo hi l) (hne : lo ≠ hi) : l ≠ [] := by
  rintro rfl
  have hhigh := h.high
  rw [List.length_nil, Nat.add_zero, Nat.mod_eq_of_lt h.low] at hhigh
  exact hne hhigh.symm

end Xv6.Lib
