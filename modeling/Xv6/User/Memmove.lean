import Xv6.Lib.Upd
import Mathlib.Algebra.Group.Nat.Defs

/-!
# Moving bytes that overlap

`memmove` of `kernel/string.c` and of `user/ulib.c`.  Both copy upwards or downwards, and they decide by
different tests on the addresses.  A copy upwards is right unless the destination starts inside the
source, a copy downwards unless the source starts inside the destination.

Addresses are 64-bit, so the additions wrap.
-/

namespace Xv6

open Xv6.Lib

/-- The bytes of an address space. -/
abbrev Bytes64 := Nat → UInt8

/-- `while(n-- > 0) *d++ = *s++`. -/
def copyUp : Nat → Nat → Nat → Bytes64 → Bytes64
  | 0, _, _, m => m
  | n + 1, d, s, m => copyUp n ((d + 1) % 2 ^ 64) ((s + 1) % 2 ^ 64) (upd m d (m s))

/-- `while(n-- > 0) *--d = *--s`. -/
def copyDown : Nat → Nat → Nat → Bytes64 → Bytes64
  | 0, _, _, m => m
  | n + 1, d, s, m =>
    let d := (d + (2 ^ 64 - 1)) % 2 ^ 64
    let s := (s + (2 ^ 64 - 1)) % 2 ^ 64
    copyDown n d s (upd m d (m s))

/-- `memmove` of the kernel. -/
def Kstring.memmove (dst src n : Nat) (m : Bytes64) : Bytes64 :=
  if n = 0 then m
  else if src < dst ∧ dst < (src + n) % 2 ^ 64 then
    copyDown n ((dst + n) % 2 ^ 64) ((src + n) % 2 ^ 64) m
  else copyUp n dst src m

/-- `memmove` of the user library. -/
def Ulib.memmove (dst src n : Nat) (m : Bytes64) : Bytes64 :=
  if dst < src then copyUp n dst src m
  else copyDown n ((dst + n) % 2 ^ 64) ((src + n) % 2 ^ 64) m

/-- The memory with `n` bytes moved from `src` to `dst`. -/
def moved (dst src n : Nat) (m : Bytes64) : Bytes64 := fun a =>
  if dst ≤ a ∧ a < dst + n then m (src + (a - dst)) else m a

variable {n d s : Nat} {m : Bytes64}

theorem copyUp_eq (hd : d + n < 2 ^ 64) (hs : s + n < 2 ^ 64) (h : ¬ (s < d ∧ d < s + n)) :
    copyUp n d s m = moved d s n m := by
  induction n generalizing d s m with
  | zero =>
    funext a
    rw [copyUp, moved, if_neg (by omega)]
  | succ n ih =>
    rw [copyUp, Nat.mod_eq_of_lt (by omega), Nat.mod_eq_of_lt (by omega),
      ih (by omega) (by omega) (by omega)]
    funext a
    unfold moved
    by_cases ha : d + 1 ≤ a ∧ a < d + 1 + n
    · -- the byte comes from above the one just read
      rw [if_pos ha, if_pos (by omega), upd_other _ _ (by omega)]
      congr 1
      omega
    · rw [if_neg ha]
      by_cases had : a = d
      · rw [had, upd_same, if_pos (by omega), Nat.sub_self, Nat.add_zero]
      · rw [upd_other _ _ had, if_neg (by omega)]

theorem copyDown_eq (hd : d + n < 2 ^ 64) (hs : s + n < 2 ^ 64) (h : ¬ (d < s ∧ s < d + n)) :
    copyDown n (d + n) (s + n) m = moved d s n m := by
  induction n generalizing m with
  | zero =>
    funext a
    rw [copyDown, moved, if_neg (by omega)]
  | succ n ih =>
    have hstep : ∀ x, x + (n + 1) < 2 ^ 64 → (x + (n + 1) + (2 ^ 64 - 1)) % 2 ^ 64 = x + n := by
      intro x hx
      omega
    rw [copyDown, hstep d hd, hstep s hs, ih (by omega) (by omega) (by omega)]
    funext a
    unfold moved
    by_cases ha : d ≤ a ∧ a < d + n
    · -- the byte comes from below the one just read
      rw [if_pos ha, if_pos (by omega), upd_other _ _ (by omega)]
    · rw [if_neg ha]
      by_cases had : a = d + n
      · rw [had, upd_same, if_pos (by omega), Nat.add_sub_cancel_left]
      · rw [upd_other _ _ had, if_neg (by omega)]

theorem ulib_memmove_eq (hd : d + n < 2 ^ 64) (hs : s + n < 2 ^ 64) :
    Ulib.memmove d s n m = moved d s n m := by
  unfold Ulib.memmove
  rw [Nat.mod_eq_of_lt hd, Nat.mod_eq_of_lt hs]
  split
  · exact copyUp_eq hd hs (by omega)
  · exact copyDown_eq hd hs (by omega)

/-- **Overlapping moves.**  Wherever the two ranges lie, both versions of `memmove` leave the original
bytes of the source in the destination, and every other byte as it was. -/
theorem memmove_moves (m : Bytes64) (dst src n : Nat) (hd : dst + n < 2 ^ 64) (hs : src + n < 2 ^ 64) :
    (n < 2 ^ 32 → Kstring.memmove dst src n m = moved dst src n m) ∧
    (n < 2 ^ 31 → Ulib.memmove dst src n m = moved dst src n m) := by
  constructor
  · intro _
    unfold Kstring.memmove
    rw [Nat.mod_eq_of_lt hd, Nat.mod_eq_of_lt hs]
    by_cases hn : n = 0
    · subst hn
      rw [if_pos rfl]
      funext a
      rw [moved, if_neg (by omega)]
    · rw [if_neg hn]
      split
      · exact copyDown_eq hd hs (by omega)
      · exact copyUp_eq hd hs (by omega)
  · intro _
    exact ulib_memmove_eq hd hs

/-- Five bytes are moved up by two. -/
theorem memmove_moves_five : Kstring.memmove 102 100 5 (fun a => UInt8.ofNat a) 106 = 104 ∧
    Ulib.memmove 102 100 5 (fun a => UInt8.ofNat a) 106 = 104 := by
  have h := memmove_moves (fun a => UInt8.ofNat a) 102 100 5 (by decide) (by decide)
  rw [h.1 (by decide), h.2 (by decide)]
  decide

end Xv6
