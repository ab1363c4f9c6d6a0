import Mathlib.Algebra.Group.Nat.Defs
import Mathlib.Tactic.Common

/-!
# Numbers and lists in a block of bytes

A block is a function from offsets to bytes.  `le16` and `le32` read a number, little-endian, and
`put` overwrites a range by a list of bytes.
-/

namespace Xv6.Lib

abbrev Bytes : Type := ℕ → UInt8

/-- The byte `k` of a number. -/
def byte (x k : ℕ) : UInt8 := UInt8.ofNat (x / 256 ^ k)

def le16 (b : Bytes) (o : ℕ) : ℕ := (b o).toNat + 256 * (b (o + 1)).toNat

def le32 (b : Bytes) (o : ℕ) : ℕ := le16 b o + 65536 * le16 b (o + 2)

/-- Overwrite the bytes from `o` on. -/
def put (b : Bytes) (o : ℕ) (l : List UInt8) : Bytes := fun k =>
  if o ≤ k ∧ k < o + l.length then l.getD (k - o) 0 else b k

def bytes16 (x : ℕ) : List UInt8 := [byte x 0, byte x 1]

def bytes32 (x : ℕ) : List UInt8 := [byte x 0, byte x 1, byte x 2, byte x 3]

variable {b : Bytes} {l : List UInt8} {o : ℕ}

theorem put_of_lt {k : ℕ} (h : k < l.length) : put b o l (o + k) = l.getD k 0 := by
  unfold put
  rw [if_pos (by omega), Nat.add_sub_cancel_left]

theorem put_of_not {k : ℕ} (h : k < o ∨ o + l.length ≤ k) : put b o l k = b k := by
  unfold put
  rw [if_neg (by omega)]

theorem toNat_byte (x k : ℕ) : (byte x k).toNat = x / 256 ^ k % 256 := by
  unfold byte
  rw [UInt8.toNat_ofNat']

theorem le16_congr {b b' : Bytes} (h : ∀ k < 2, b (o + k) = b' (o + k)) : le16 b o = le16 b' o := by
  have h0 := h 0 (by decide)
  rw [Nat.add_zero] at h0
  unfold le16
  rw [h0, h 1 (by decide)]

theorem le32_congr {b b' : Bytes} (h : ∀ k < 4, b (o + k) = b' (o + k)) : le32 b o = le32 b' o := by
  have hhigh : le16 b (o + 2) = le16 b' (o + 2) := le16_congr fun k hk => by
    rw [Nat.add_assoc]
    exact h (2 + k) (by omega)
  unfold le32
  rw [le16_congr fun k hk => h k (by omega), hhigh]

theorem le16_of_byte {o x j : ℕ} (h0 : b o = byte x j) (h1 : b (o + 1) = byte x (j + 1)) :
    le16 b o = x / 256 ^ j % 65536 := by
  unfold le16
  rw [h0, h1, toNat_byte, toNat_byte, pow_succ, ← Nat.div_div_eq_div_mul]
  generalize x / 256 ^ j = y
  omega

theorem le16_put {o x : ℕ} (hx : x < 65536) : le16 (put b o (bytes16 x)) o = x := by
  rw [le16_of_byte (x := x) (j := 0)]
  · simp only [pow_zero, Nat.div_one]
    exact Nat.mod_eq_of_lt hx
  · exact put_of_lt (k := 0) (l := bytes16 x) (Nat.two_pos)
  · exact put_of_lt (k := 1) (l := bytes16 x) (Nat.one_lt_two)

theorem le32_of_byte {o x : ℕ} (hx : x < 2 ^ 32) (h : ∀ k < 4, b (o + k) = byte x k) :
    le32 b o = x := by
  unfold le32
  rw [le16_of_byte (b := b) (o := o) (x := x) (j := 0) (h 0 (by decide)) (h 1 (by decide)),
    le16_of_byte (b := b) (o := o + 2) (x := x) (j := 2) (h 2 (by decide)) (h 3 (by decide))]
  simp only [pow_zero, Nat.div_one]
  omega

theorem le32_put {o x : ℕ} (hx : x < 2 ^ 32) : le32 (put b o (bytes32 x)) o = x := by
  refine le32_of_byte hx fun k hk => ?_
  rw [put_of_lt (l := bytes32 x) hk]
  rcases k with _ | _ | _ | _ | k
  · rfl
  · rfl
  · rfl
  · rfl
  · omega

theorem le32_put_of_not {o p : ℕ} (h : p + 4 ≤ o ∨ o + l.length ≤ p) :
    le32 (put b o l) p = le32 b p :=
  le32_congr fun k hk => put_of_not (by omega)

end Xv6.Lib
