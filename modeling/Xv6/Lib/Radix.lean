import Xv6.Lib.Count
import Mathlib.Algebra.BigOperators.Group.Finset.Sigma
import Mathlib.Algebra.BigOperators.Intervals
import Mathlib.Tactic.Ring

/-!
# Radix trees in linked memory

Nodes of a type `α` with `B` links each: `c t i` is the node that link `i` of `t` leads
to.  `node B c r d n` is the node at depth `d` and position `n` below `r`; the links on
the way are the digits of `n` to the base `B`.

* `node_congr`: the nodes depend only on the links of the nodes above them;
* `node_relink`: setting one link changes one node, when what hangs below the old and
  the new end of the link has no links itself;
* `treeCount`, `sum_node_eq_treeCount`: how often an object is a node of a tree, counted
  by recursion and by positions.
-/

namespace Xv6.Lib

open Finset

variable {α : Type} {B : ℕ}

/-- The node at depth `d` and position `n` below `r`. -/
def node (B : ℕ) (c : α → ℕ → Option α) (r : α) : ℕ → ℕ → Option α
  | 0, n => if n = 0 then some r else none
  | d + 1, n => (node B c r d (n / B)).bind fun t => c t (n % B)

theorem node_zero (c : α → ℕ → Option α) (r : α) : node B c r 0 0 = some r := rfl

theorem node_succ (c : α → ℕ → Option α) (r : α) (d n : ℕ) :
    node B c r (d + 1) n = (node B c r d (n / B)).bind fun t => c t (n % B) := rfl

variable {c : α → ℕ → Option α} {r t : α}

theorem node_link {d n i : ℕ} (h : node B c r d n = some t) (hi : i < B) :
    node B c r (d + 1) (n * B + i) = c t i := by
  have hB : 0 < B := by omega
  have hdiv : (n * B + i) / B = n := by
    rw [Nat.mul_comm, Nat.mul_add_div hB, Nat.div_eq_of_lt hi, Nat.add_zero]
  have hmod : (n * B + i) % B = i := by
    rw [Nat.mul_comm, Nat.mul_add_mod, Nat.mod_eq_of_lt hi]
  rw [node_succ, hdiv, hmod, h]
  rfl

theorem node_succ_some {r q : α} {d n : ℕ} (h : node B c r (d + 1) n = some q) :
    ∃ t, node B c r d (n / B) = some t ∧ c t (n % B) = some q := by
  rw [node_succ] at h
  exact Option.bind_eq_some_iff.1 h

theorem node_lt {d n : ℕ} (hB : 0 < B) (h : node B c r d n = some t) : n < B ^ d := by
  induction d generalizing n t with
  | zero =>
    unfold node at h
    split at h
    · subst n; simp
    · cases h
  | succ d ih =>
    obtain ⟨s, hs, -⟩ := node_succ_some h
    have := ih hs
    rw [Nat.div_lt_iff_lt_mul hB] at this
    rwa [pow_succ]

theorem node_congr {c c' : α → ℕ → Option α} {r : α} {d : ℕ}
    (h : ∀ k m t, k < d → node B c r k m = some t → c' t = c t) (n : ℕ) :
    node B c' r d n = node B c r d n := by
  induction d generalizing n with
  | zero => rfl
  | succ d ih =>
    rw [node_succ, node_succ, ih (fun k m t hk ht => h k m t (by omega) ht)]
    cases ht : node B c r d (n / B) with
    | none => rfl
    | some t => exact congrFun (h d (n / B) t (by omega) ht) (n % B)

theorem node_succ_root (c : α → ℕ → Option α) (r : α) (d : ℕ) {i j : ℕ} (hi : i < B)
    (hj : j < B ^ d) :
    node B c r (d + 1) (i * B ^ d + j) = (c r i).bind fun q => node B c q d j := by
  have hB : 0 < B := by omega
  induction d generalizing j with
  | zero =>
    have hj0 : j = 0 := by simpa using hj
    subst hj0
    rw [node_succ]
    simp only [pow_zero, Nat.mul_one, Nat.add_zero, Nat.div_eq_of_lt hi, Nat.mod_eq_of_lt hi]
    rw [node_zero]
    cases hc : c r i with
    | none => simp [hc]
    | some q => simp [hc, node_zero]
  | succ d ih =>
    have hdiv : (i * B ^ (d + 1) + j) / B = i * B ^ d + j / B := by
      rw [pow_succ, ← Nat.mul_assoc, Nat.mul_comm _ B, Nat.mul_add_div hB]
    have hmod : (i * B ^ (d + 1) + j) % B = j % B := by
      rw [pow_succ, ← Nat.mul_assoc, Nat.mul_comm _ B, Nat.mul_add_mod]
    have hj' : j / B < B ^ d := by
      rw [Nat.div_lt_iff_lt_mul hB, ← pow_succ]
      exact hj
    rw [node_succ, hdiv, hmod, ih hj', Option.bind_assoc]
    cases c r i with
    | none | some q => rfl

variable [DecidableEq α]

/-- The links with link `i` of `t` set to `x`. -/
def relink (c : α → ℕ → Option α) (t : α) (i : ℕ) (x : Option α) : α → ℕ → Option α :=
  fun s j => if s = t ∧ j = i then x else c s j

theorem relink_other {t s : α} (i : ℕ) (x : Option α) (h : s ≠ t) : relink c t i x s = c s := by
  funext j
  unfold relink
  rw [if_neg fun hs => h hs.1]

theorem node_relink_other {d : ℕ} (i : ℕ) (x : Option α)
    (h : ∀ k m, k < d → node B c r k m ≠ some t) (n : ℕ) :
    node B (relink c t i x) r d n = node B c r d n := by
  refine node_congr (fun k m s hk hs => relink_other i x ?_) n
  rintro rfl
  exact h k m hk hs

/-- **Setting one link** of a node that occurs only once changes one node, down to depth
`D`, if the ends of the link above that depth have no links. -/
theorem node_relink {D d n i : ℕ} {x : Option α} (ht : node B c r d n = some t)
    (huniq : ∀ k m, k < D → node B c r k m = some t → k = d ∧ m = n) (hi : i < B)
    (hold : d + 1 < D → ∀ p, c t i = some p → ∀ j, j < B → c p j = none)
    (hnew : d + 1 < D → ∀ p, x = some p → p ≠ t ∧ ∀ j, j < B → c p j = none) {k : ℕ} (hk : k ≤ D)
    (m : ℕ) :
    node B (relink c t i x) r k m =
      if k = d + 1 ∧ m = n * B + i then x else node B c r k m := by
  have hB : 0 < B := by omega
  induction k generalizing m with
  | zero => rw [if_neg (by omega)]; rfl
  | succ k ih =>
    rw [node_succ, ih (by omega), node_succ]
    have hmod : m % B < B := Nat.mod_lt m hB
    by_cases hend : k = d + 1 ∧ m / B = n * B + i
    · -- below the end of the link there is nothing before and after
      obtain ⟨rfl, hdiv⟩ := hend
      rw [if_pos ⟨rfl, hdiv⟩, if_neg (by omega), hdiv, node_link ht hi]
      have hnone : (c t i).bind (fun p => c p (m % B)) = none := by
        cases ho : c t i with
        | none => rfl
        | some p => exact hold (by omega) p ho _ hmod
      rw [hnone]
      cases hx : x with
      | none => rfl
      | some p =>
        obtain ⟨hne, hleaf⟩ := hnew (by omega) p hx
        show relink c t i (some p) p (m % B) = none
        rw [relink_other i _ hne, hleaf _ hmod]
    · rw [if_neg hend]
      have hat : k + 1 = d + 1 ∧ m = n * B + i → node B c r k (m / B) = some t := by
        rintro ⟨hkd, rfl⟩
        have hdiv : (n * B + i) / B = n := by
          rw [Nat.mul_comm, Nat.mul_add_div hB, Nat.div_eq_of_lt hi, Nat.add_zero]
        have hkd' : k = d := by omega
        rw [hdiv, hkd', ht]
      cases hs : node B c r k (m / B) with
      | none =>
        rw [if_neg fun hc => Option.some_ne_none t ((hat hc).symm.trans hs)]
        rfl
      | some s =>
        show relink c t i x s (m % B) = _
        by_cases hst : s = t
        · subst hst
          obtain ⟨rfl, hn⟩ := huniq k (m / B) (by omega) hs
          have hm : m = n * B + m % B := by
            have := Nat.div_add_mod m B
            rw [hn, Nat.mul_comm] at this
            omega
          unfold relink
          by_cases hmi : m % B = i
          · rw [if_pos ⟨rfl, hmi⟩, if_pos ⟨rfl, by omega⟩]
          · rw [if_neg (by rintro ⟨-, h⟩; exact hmi h), if_neg (by rintro ⟨-, h⟩; omega)]
            rfl
        · rw [relink_other i x hst, if_neg fun hc => hst (Option.some.inj (hs.symm.trans (hat hc)))]
          rfl

/-! ### Counting the nodes of a tree -/

/-- How often `a` is a node of the tree of `l + 1` levels below `p`. -/
def treeCount (B : ℕ) (c : α → ℕ → Option α) : ℕ → α → α → ℕ
  | 0, p, a => holds (some p) a
  | l + 1, p, a => holds (some p) a + ∑ i ∈ range B, (c p i).elim 0 fun q => treeCount B c l q a

theorem sum_range_mul (f : ℕ → ℕ) (a b : ℕ) :
    ∑ n ∈ range (a * b), f n = ∑ i ∈ range a, ∑ j ∈ range b, f (i * b + j) := by
  induction a with
  | zero => simp
  | succ a ih => rw [Nat.succ_mul, sum_range_add, ih, sum_range_succ]

theorem sum_node_succ (c : α → ℕ → Option α) (r : α) (d : ℕ) (a : α) :
    ∑ n ∈ range (B ^ (d + 1)), holds (node B c r (d + 1) n) a =
      ∑ i ∈ range B, (c r i).elim 0 fun q => ∑ j ∈ range (B ^ d), holds (node B c q d j) a := by
  rw [pow_succ, Nat.mul_comm, sum_range_mul]
  refine sum_congr rfl fun i hi => ?_
  rw [mem_range] at hi
  cases hc : c r i with
  | none =>
    refine sum_eq_zero fun j hj => ?_
    rw [node_succ_root c r d hi (mem_range.1 hj), hc]
    rfl
  | some q =>
    refine sum_congr rfl fun j hj => ?_
    rw [node_succ_root c r d hi (mem_range.1 hj), hc]
    rfl

/-- **The nodes of a tree, by their positions.** -/
theorem sum_node_eq_treeCount (c : α → ℕ → Option α) (l : ℕ) (r a : α) :
    ∑ k ∈ range (l + 1), ∑ n ∈ range (B ^ k), holds (node B c r k n) a = treeCount B c l r a := by
  induction l generalizing r with
  | zero => simp [node, treeCount]
  | succ l ih =>
    rw [sum_range_succ', treeCount]
    have hroot : ∑ n ∈ range (B ^ 0), holds (node B c r 0 n) a = holds (some r) a := by
      simp [node]
    rw [hroot, Nat.add_comm]
    congr 1
    simp only [sum_node_succ]
    rw [sum_comm]
    refine sum_congr rfl fun i _ => ?_
    cases c r i with
    | none => simp
    | some q => exact ih q

theorem sum_node_range (c : α → ℕ → Option α) (r a : α) (hB : 0 < B) {k N : ℕ} (hN : B ^ k ≤ N) :
    ∑ n ∈ range N, holds (node B c r k n) a = ∑ n ∈ range (B ^ k), holds (node B c r k n) a := by
  refine (sum_subset (range_subset_range.2 hN) fun n _ hn => ?_).symm
  cases hnode : node B c r k n with
  | none => rfl
  | some t => exact absurd (mem_range.2 (node_lt hB hnode)) hn

end Xv6.Lib
