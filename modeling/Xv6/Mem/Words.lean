import Xv6.PageTable
import Mathlib.Tactic.IntervalCases
import Mathlib.Tactic.NormNum

/-!
# Words and bytes

What the macros of `riscv.h` do to the bits of a page-table entry, how an address is
taken apart into page numbers, and what `blit` does to the bytes of a page.

* `pte2pa_mkPte`, `pteV_mkPte`, `pteW_mkPte`, …: an entry holds the frame and the flags
  it was made from;
* `px_eq`: the indices of an address are digits of its page number;
* `byteAt_blit`: the bytes of a page after a copy into it.
-/

namespace Xv6

open Xv6.Lib

/-! ### Entries -/

theorem mkPte_testBit_low (pa perm : Nat) {b : Nat} (hb : b < 10) :
    (mkPte pa perm).testBit b = (perm.testBit b || decide (b = 0)) := by
  have hpa : (pa2pte pa).testBit b = false := by
    unfold pa2pte
    rw [Nat.testBit_shiftLeft]
    simp [hb]
  have hv : (PTE_V).testBit b = decide (b = 0) := by
    interval_cases b <;> rfl
  unfold mkPte
  rw [Nat.testBit_or, Nat.testBit_or, hpa, hv, Bool.false_or]

theorem pteV_mkPte (pa perm : Nat) : pteV (mkPte pa perm) = true := by
  unfold pteV
  rw [mkPte_testBit_low pa perm (by norm_num)]
  simp

theorem pteW_mkPte (pa perm : Nat) : pteW (mkPte pa perm) = perm.testBit 2 := by
  unfold pteW
  rw [mkPte_testBit_low pa perm (by norm_num)]
  simp

theorem pteU_mkPte (pa perm : Nat) : pteU (mkPte pa perm) = perm.testBit 4 := by
  unfold pteU
  rw [mkPte_testBit_low pa perm (by norm_num)]
  simp

theorem pteRWX_mkPte (pa perm : Nat) : pteRWX (mkPte pa perm) = pteRWX perm := by
  unfold pteRWX
  rw [mkPte_testBit_low pa perm (by norm_num), mkPte_testBit_low pa perm (by norm_num),
    mkPte_testBit_low pa perm (by norm_num)]
  simp

theorem pte2pa_mkPte {pa perm : Nat} (h : pa % PGSIZE = 0) (hp : perm < 1024) :
    pte2pa (mkPte pa perm) = pa := by
  have hshift : mkPte pa perm >>> 10 = pa >>> 12 := by
    unfold mkPte pa2pte
    rw [Nat.shiftRight_or_distrib, Nat.shiftRight_or_distrib, Nat.shiftLeft_shiftRight]
    have h1 : perm >>> 10 = 0 := by
      rw [Nat.shiftRight_eq_div_pow]
      exact Nat.div_eq_of_lt hp
    rw [h1, show PTE_V >>> 10 = 0 from rfl, Nat.or_zero, Nat.or_zero]
  unfold pte2pa
  have h' : pa % 4096 = 0 := h
  rw [hshift, Nat.shiftRight_eq_div_pow, Nat.shiftLeft_eq]
  omega

theorem tablePte_eq (pa : Nat) : pa2pte pa ||| PTE_V = mkPte pa 0 := by
  unfold mkPte
  rw [Nat.or_zero]

/-! ### Addresses -/

/-- The page number of an address. -/
def pageOf (va : Nat) : Nat := va / PGSIZE

theorem pageOf_lt {va : Nat} (h : va < MAXVA) : pageOf va < 2 ^ 26 := by
  have h' : va < 274877906944 := h
  show va / 4096 < 67108864
  omega

theorem mul_pageOf {va : Nat} (h : va % PGSIZE = 0) : pageOf va * PGSIZE = va := by
  have h' : va % 4096 = 0 := h
  show va / 4096 * 4096 = va
  omega

theorem px_eq (level va : Nat) : px level va = pageOf va / 512 ^ level % 512 := by
  unfold px pageOf
  rw [Nat.div_div_eq_div_mul, Nat.pow_add, Nat.pow_mul]

theorem px_lt (level va : Nat) : px level va < 512 := Nat.mod_lt _ (by norm_num)

/-! ### Bytes -/

theorem byteAt_fillPage_zero (b : Nat) : byteAt (fillPage 0) b = 0 := by
  unfold byteAt fillPage
  simp

theorem byteAt_packWord (f : Nat → UInt8) {k : Nat} (hk : k < 8) :
    UInt8.ofNat (packWord f / 256 ^ k) = f k := by
  have h0 := (f 0).toNat_lt
  have h1 := (f 1).toNat_lt
  have h2 := (f 2).toNat_lt
  have h3 := (f 3).toNat_lt
  have h4 := (f 4).toNat_lt
  have h5 := (f 5).toNat_lt
  have h6 := (f 6).toNat_lt
  have h7 := (f 7).toNat_lt
  have hmod : packWord f / 256 ^ k % 256 = (f k).toNat := by
    unfold packWord
    interval_cases k
    · omega
    · omega
    · omega
    · omega
    · omega
    · omega
    · omega
    · omega
  apply UInt8.toNat_inj.1
  rw [UInt8.toNat_ofNat']
  exact hmod

/-- **The bytes of a page after a copy into it.** -/
theorem byteAt_blit (g : Page) (o n : Nat) (src : Nat → UInt8) (b : Nat) :
    byteAt (blit g o n src) b = if o ≤ b ∧ b < o + n then src (b - o) else byteAt g b := by
  have hb : 8 * (b / 8) + b % 8 = b := by omega
  have hk : b % 8 < 8 := by omega
  by_cases hw : 8 * (b / 8) + 8 ≤ o ∨ o + n ≤ 8 * (b / 8)
  · have hword : blit g o n src (b / 8) = g (b / 8) := if_pos hw
    rw [if_neg (by omega), byteAt, hword]
    rfl
  · have hword : blit g o n src (b / 8) = packWord fun k =>
        if o ≤ 8 * (b / 8) + k ∧ 8 * (b / 8) + k < o + n then src (8 * (b / 8) + k - o)
        else byteAt g (8 * (b / 8) + k) := if_neg hw
    rw [byteAt, hword, byteAt_packWord _ hk, hb]

end Xv6
