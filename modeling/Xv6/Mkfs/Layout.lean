import Mathlib.Tactic.IntervalCases
import Xv6.Lib.Bump
import Xv6.Lib.Ends
import Xv6.Mkfs.Model

/-!
# The blocks and bytes of the files of an image

`Lay img fi fb D C`: the inodes below `fi` are `D`, the blocks from `nmeta` up to `fb` have been handed
out to them, each once, and file `i` has the bytes `C i`.  Appending to a file keeps this, up to the
place where the inode is written back, and stops only where the blocks of the image run out.
-/

namespace Xv6.Mkfs

open Xv6.Lib

/-! ### The slots of an inode -/

/-- The index of the indirect block in `addrs`. -/
abbrev last : Fin (NDIRECT + 1) := Fin.last NDIRECT

/-- How many block numbers an inode can hold: those of `addrs`, and those of the indirect block. -/
abbrev NSLOT : Nat := NDIRECT + 1 + NINDIRECT

/-- The block number in slot `k` of an inode. -/
def slot (img : Nat → Bytes) (d : Dinode) (k : Nat) : Nat :=
  if h : k < NDIRECT + 1 then d.addrs ⟨k, h⟩
  else if d.addrs last = 0 then 0 else le32 (img (d.addrs last)) (4 * (k - (NDIRECT + 1)))

/-- The slot of block `bn` of a file. -/
def slotIdx (bn : Nat) : Nat := if bn < NDIRECT then bn else bn + 1

/-- The block that holds block `bn` of a file. -/
def blockOf (img : Nat → Bytes) (d : Dinode) (bn : Nat) : Nat := slot img d (slotIdx bn)

theorem slotIdx_inj {a b : Nat} (h : slotIdx a = slotIdx b) : a = b := by
  unfold slotIdx at h
  split at h <;> split at h <;> omega

theorem slotIdx_lt {bn : Nat} (h : bn < MAXFILE) : slotIdx bn < NSLOT := by
  unfold slotIdx
  have h' : bn < 268 := h
  show _ < 269
  split <;> omega

theorem slotIdx_ne_last (bn : Nat) : slotIdx bn ≠ NDIRECT := by
  unfold slotIdx
  split <;> omega

variable {img img' : Nat → Bytes} {d d' : Dinode} {fi fb : Nat}

theorem slot_addr (k : Fin (NDIRECT + 1)) : slot img d k = d.addrs k := dif_pos k.2

theorem slot_last : slot img d NDIRECT = d.addrs last := slot_addr (k := last)

theorem slot_ind {k : Nat} (h : ¬ k < NDIRECT + 1) (ht : d.addrs last ≠ 0) :
    slot img d k = le32 (img (d.addrs last)) (4 * (k - (NDIRECT + 1))) := by
  unfold slot
  rw [dif_neg h, if_neg ht]

theorem slot_none {k : Nat} (h : ¬ k < NDIRECT + 1) (ht : d.addrs last = 0) : slot img d k = 0 := by
  unfold slot
  rw [dif_neg h, if_pos ht]

theorem slot_congr (ha : d'.addrs = d.addrs) (hi : d.addrs last ≠ 0 → img' (d.addrs last) = img (d.addrs last))
    (k : Nat) : slot img' d' k = slot img d k := by
  by_cases hk : k < NDIRECT + 1
  · rw [slot_addr (k := ⟨k, hk⟩), slot_addr (k := ⟨k, hk⟩), ha]
  · by_cases ht : d.addrs last = 0
    · rw [slot_none hk ht, slot_none hk (by rw [ha]; exact ht)]
    · rw [slot_ind hk ht, slot_ind hk (by rw [ha]; exact ht), ha, hi ht]

/-- The inodes that are in use. -/
def Live (fi i : Nat) : Prop := 1 ≤ i ∧ i < fi

def LiveSlot (fi i k : Nat) : Prop := Live fi i ∧ k < NSLOT

/-! ### The layout -/

/-- **The layout of the image.** -/
structure Lay (img : Nat → Bytes) (fi fb : Nat) (D : Nat → Dinode) (C : Nat → List UInt8) : Prop where
  bump : Bump (LiveSlot fi) (fun i k => slot img (D i) k) nmeta fb
  low : nmeta ≤ fb
  high : fb ≤ FSSIZE
  zero : ∀ b, fb ≤ b → img b = fun _ => 0
  fits : ∀ i, Live fi i → (C i).length ≤ MAXFILE * BSIZE
  alloc : ∀ i, Live fi i → ∀ bn < MAXFILE, blockOf img (D i) bn ≠ 0 ↔ bn * BSIZE < (C i).length
  ind : ∀ i, Live fi i → ((D i).addrs last ≠ 0 ↔ NDIRECT * BSIZE < (C i).length)
  bytes : ∀ i, Live fi i → ∀ x < (C i).length,
    (C i)[x]? = some (img (blockOf img (D i) (x / BSIZE)) (x % BSIZE))

variable {D : Nat → Dinode} {C : Nat → List UInt8}

/-- The block of a byte of a file. -/
theorem Lay.block {img : Nat → Bytes} {fi fb j y : Nat} (h : Lay img fi fb D C) (hj : Live fi j)
    (hy : y < (C j).length) : y / BSIZE < MAXFILE ∧ blockOf img (D j) (y / BSIZE) ≠ 0 := by
  have hbn : y / BSIZE < MAXFILE := by
    refine Nat.div_lt_of_lt_mul ?_
    rw [Nat.mul_comm]
    exact Nat.lt_of_lt_of_le hy (h.fits j hj)
  refine ⟨hbn, (h.alloc j hj _ hbn).2 ?_⟩
  have := Nat.div_mul_le_self y BSIZE
  omega

/-- The blocks that have to be handed out for block `fbn` of a file: its own, and the indirect block. -/
def need (img : Nat → Bytes) (d : Dinode) (fbn : Nat) : Nat :=
  (if blockOf img d fbn = 0 then 1 else 0) + if NDIRECT ≤ fbn ∧ d.addrs last = 0 then 1 else 0

/-- What finding a block for a file leaves. -/
structure Mapped (img : Nat → Bytes) (fi fb : Nat) (D : Nat → Dinode) (i fbn x : Nat)
    (img' : Nat → Bytes) (fb' : Nat) (d' : Dinode) : Prop where
  bump : Bump (LiveSlot fi) (fun j k => slot img' (upd D i d' j) k) nmeta fb'
  count : fb' = fb + need img (D i) fbn
  block : blockOf img' d' fbn = x
  ne : x ≠ 0
  high : x < FSSIZE → fb' ≤ FSSIZE
  bound : fb' ≤ FSSIZE + 1
  same : blockOf img (D i) fbn ≠ 0 → blockOf img (D i) fbn = x
  other : ∀ bn < MAXFILE, bn ≠ fbn → blockOf img' d' bn = blockOf img (D i) bn
  ind : d'.addrs last ≠ 0 ↔ NDIRECT ≤ fbn ∨ (D i).addrs last ≠ 0
  outside : ∀ j, Live fi j → j ≠ i → ∀ k < NSLOT, slot img' (D j) k = slot img (D j) k
  below : ∀ b < nmeta, img' b = img b
  fresh : ∀ b, fb' ≤ b → img' b = fun _ => 0
  data : ∀ j, Live fi j → ∀ bn < MAXFILE, blockOf img (D j) bn ≠ 0 →
    img' (blockOf img (D j) bn) = img (blockOf img (D j) bn)
  fields : d'.type = (D i).type ∧ d'.major = (D i).major ∧ d'.minor = (D i).minor ∧
    d'.nlink = (D i).nlink

theorem Mapped.range {i fbn x fb' : Nat} (hm : Mapped img fi fb D i fbn x img' fb' d') (hi : Live fi i)
    (hlt : fbn < MAXFILE) : nmeta ≤ x ∧ x < fb' := by
  have hself : slot img' (upd D i d' i) (slotIdx fbn) = x := by
    rw [upd_same]
    exact hm.block
  have hr := hm.bump.range i (slotIdx fbn) ⟨hi, slotIdx_lt hlt⟩ (by rw [hself]; exact hm.ne)
  rw [hself] at hr
  exact hr

theorem nmeta_pos : 0 < nmeta := by decide

theorem Lay.mapped (h : Lay img fi fb D C) {i fbn : Nat} (hne : blockOf img (D i) fbn ≠ 0)
    (hind : NDIRECT ≤ fbn → (D i).addrs last ≠ 0) :
    Mapped img fi fb D i fbn (blockOf img (D i) fbn) img fb (D i) where
  bump := by rw [upd_self]; exact h.bump
  count := by
    unfold need
    rw [if_neg hne, if_neg fun hc => hind hc.1 hc.2, Nat.add_zero]
  block := rfl
  ne := hne
  high := fun _ => h.high
  bound := Nat.le_succ_of_le h.high
  same := fun _ => rfl
  other := fun _ _ _ => rfl
  ind := ⟨fun h => .inr h, fun h => h.elim hind id⟩
  outside := fun _ _ _ _ _ => rfl
  below := fun _ _ => rfl
  fresh := h.zero
  data := fun _ _ _ _ _ => rfl
  fields := ⟨rfl, rfl, rfl, rfl⟩

theorem Lay.mapped_direct (h : Lay img fi fb D C) {i fbn : Nat} (hi : Live fi i) (hd : fbn < NDIRECT)
    (h0 : (D i).addrs ⟨fbn, Nat.lt_succ_of_lt hd⟩ = 0) :
    Mapped img fi fb D i fbn fb img (fb + 1)
      ((D i).setAddr ⟨fbn, Nat.lt_succ_of_lt hd⟩ fb) := by
  have hlast : ((D i).setAddr ⟨fbn, Nat.lt_succ_of_lt hd⟩ fb).addrs last = (D i).addrs last := by
    refine upd_other _ _ fun heq => ?_
    have := congrArg Fin.val heq
    have hv : NDIRECT = fbn := this
    omega
  have hslot : ∀ k, slot img ((D i).setAddr ⟨fbn, Nat.lt_succ_of_lt hd⟩ fb) k =
      if k = fbn then fb else slot img (D i) k := by
    intro k
    by_cases hk : k < NDIRECT + 1
    · rw [slot_addr (k := ⟨k, hk⟩), slot_addr (k := ⟨k, hk⟩)]
      show upd (D i).addrs _ fb _ = _
      rw [upd_apply]
      simp only [Fin.mk.injEq]
    · rw [if_neg (by omega)]
      by_cases ht : (D i).addrs last = 0
      · rw [slot_none hk ht, slot_none hk (by rw [hlast]; exact ht)]
      · rw [slot_ind hk ht, slot_ind hk (by rw [hlast]; exact ht), hlast]
  have hidx : slotIdx fbn = fbn := if_pos hd
  have h0' : slot img (D i) fbn = 0 := (slot_addr (k := ⟨fbn, Nat.lt_succ_of_lt hd⟩)).trans h0
  refine
    { bump := ?_
      count := by
        unfold need
        rw [if_pos (by unfold blockOf; rw [hidx]; exact h0'), if_neg fun hc => absurd hc.1 (by omega)]
      block := ?_
      ne := Nat.ne_of_gt (Nat.lt_of_lt_of_le nmeta_pos h.low)
      high := id
      bound := Nat.succ_le_succ h.high
      same := fun hne => absurd (by unfold blockOf; rw [hidx]; exact h0') hne
      other := fun bn _ hbn => ?_
      ind := ?_
      outside := fun _ _ _ _ _ => rfl
      below := fun _ _ => rfl
      fresh := fun b hb => h.zero b (by omega)
      data := fun _ _ _ _ _ => rfl
      fields := ⟨rfl, rfl, rfl, rfl⟩ }
  · refine h.bump.add nmeta_pos h.low (i := i) (k := fbn) ⟨hi, ?_⟩ h0' ?_ fun j l _ hjl => ?_
    · have hd' : fbn < 12 := hd
      show fbn < 269
      omega
    · rw [upd_same, hslot, if_pos rfl]
    · rw [upd_apply]
      split
      · rename_i hj
        subst hj
        rw [hslot, if_neg fun hl => hjl ⟨rfl, hl⟩]
      · rfl
  · unfold blockOf
    rw [hslot, hidx, if_pos rfl]
  · unfold blockOf
    rw [hslot, if_neg]
    intro heq
    exact hbn (slotIdx_inj (heq.trans hidx.symm))
  · rw [hlast]
    exact ⟨fun h => .inr h, fun h => h.elim (fun h => absurd h (by omega)) id⟩

theorem Lay.mapped_table (h : Lay img fi fb D C) {i : Nat} (hi : Live fi i)
    (h0 : (D i).addrs last = 0) :
    Bump (LiveSlot fi) (fun j k => slot img (upd D i ((D i).setAddr last fb) j) k) nmeta (fb + 1) ∧
      ∀ k, k ≠ NDIRECT → slot img ((D i).setAddr last fb) k = slot img (D i) k := by
  have hlast : ((D i).setAddr last fb).addrs last = fb := upd_same (D i).addrs last fb
  have hfb : fb ≠ 0 := Nat.ne_of_gt (Nat.lt_of_lt_of_le nmeta_pos h.low)
  have hslot : ∀ k, k ≠ NDIRECT → slot img ((D i).setAddr last fb) k = slot img (D i) k := by
    intro k hk
    by_cases hk' : k < NDIRECT + 1
    · rw [slot_addr (k := ⟨k, hk'⟩), slot_addr (k := ⟨k, hk'⟩)]
      refine upd_other _ _ fun heq => ?_
      exact hk (congrArg Fin.val heq)
    · rw [slot_none hk' h0, slot_ind hk' (by rw [hlast]; exact hfb), hlast, h.zero fb (Nat.le_refl _)]
      rfl
  refine ⟨?_, hslot⟩
  refine h.bump.add nmeta_pos h.low (i := i) (k := NDIRECT) ⟨hi, by decide⟩ ?_ ?_ fun j l _ hjl => ?_
  · exact (slot_last).trans h0
  · rw [upd_same]
    exact (slot_last).trans hlast
  · rw [upd_apply]
    split
    · rename_i hj
      subst hj
      exact hslot l fun hl => hjl ⟨rfl, hl⟩
    · rfl

theorem mapped_entry {i fbn : Nat} (hi : Live fi i) (hd : ¬ fbn < NDIRECT) (hfbn : fbn < MAXFILE)
    (hlow : nmeta ≤ fb) (hhigh : fb ≤ FSSIZE)
    (hbump : Bump (LiveSlot fi) (fun j k => slot img (upd D i d j) k) nmeta fb)
    (ht : d.addrs last ≠ 0) (h0 : slot img d (fbn + 1) = 0) :
    let img' := upd img (d.addrs last)
      (put (img (d.addrs last)) (4 * (fbn - NDIRECT)) (bytes32 fb))
    Bump (LiveSlot fi) (fun j k => slot img' (upd D i d j) k) nmeta (fb + 1) ∧
      slot img' d (fbn + 1) = fb ∧ (∀ k, k ≠ fbn + 1 → slot img' d k = slot img d k) ∧
      ∀ j, Live fi j → j ≠ i → ∀ k, slot img' (D j) k = slot img (D j) k := by
  intro img'
  have hentry : ∀ k, ¬ k < NDIRECT + 1 → slot img' d k =
      if k = fbn + 1 then fb else slot img d k := by
    intro k hk
    rw [slot_ind hk ht, slot_ind hk ht]
    show le32 (upd img _ _ (d.addrs last)) _ = _
    rw [upd_same]
    by_cases hkf : k = fbn + 1
    · subst hkf
      rw [if_pos rfl, Nat.add_sub_add_right]
      exact le32_put (Nat.lt_of_le_of_lt hhigh (by decide))
    · rw [if_neg hkf]
      refine le32_put_of_not ?_
      show 4 * (k - 13) + 4 ≤ 4 * (fbn - 12) ∨ 4 * (fbn - 12) + 4 ≤ 4 * (k - 13)
      have hk' : ¬ k < 13 := hk
      have hd' : ¬ fbn < 12 := hd
      omega
  have hnew : slot img' d (fbn + 1) = fb := by
    rw [hentry _ (by omega), if_pos rfl]
  have hsame : ∀ k, k ≠ fbn + 1 → slot img' d k = slot img d k := by
    intro k hk
    by_cases hk' : k < NDIRECT + 1
    · exact (slot_addr (k := ⟨k, hk'⟩)).trans (slot_addr (k := ⟨k, hk'⟩)).symm
    · rw [hentry k hk', if_neg hk]
  -- the indirect blocks of the other files are other blocks
  have hout : ∀ j, Live fi j → j ≠ i → ∀ k, slot img' (D j) k = slot img (D j) k := by
    intro j hj hne k
    refine slot_congr rfl (fun hjt => upd_other _ _ fun heq => ?_) k
    have hsi : slot img (upd D i d i) NDIRECT = d.addrs last := by
      rw [upd_same]
      exact slot_last
    have hsj : slot img (upd D i d j) NDIRECT = (D j).addrs last := by
      rw [upd_other _ _ hne]
      exact slot_last
    have := hbump.inj j NDIRECT i NDIRECT ⟨hj, by decide⟩ ⟨hi, by decide⟩ (by rw [hsj]; exact hjt)
      (by rw [hsj, hsi]; exact heq)
    exact hne this.1
  refine ⟨?_, hnew, hsame, hout⟩
  refine hbump.add nmeta_pos hlow (i := i) (k := fbn + 1) ⟨hi, ?_⟩ ?_ ?_ fun j l hl hjl => ?_
  · have hf : fbn < 268 := hfbn
    show fbn + 1 < 269
    omega
  · rw [upd_same]
    exact h0
  · rw [upd_same]
    exact hnew
  · rw [upd_apply]
    split
    · rename_i hj
      subst hj
      exact hsame l fun hl' => hjl ⟨rfl, hl'⟩
    · exact hout j hl.1 ‹_› l

theorem sector_eq {sec : Nat} (h : sec < 4194304) : sector sec = sec := by
  unfold sector
  rw [Nat.mod_eq_of_lt]
  · exact Nat.mul_div_cancel _ (by decide)
  · show sec * 1024 < 2 ^ 32
    omega

theorem rsect_ends {s : Image} {sec : Nat} (hsec : sec < 4194304) :
    Ends (rsect s sec) (fun b => sec < FSSIZE ∧ b = s.data sec) fun _ => FSSIZE ≤ sec := by
  unfold rsect
  rw [sector_eq hsec]
  exact .ite (fun h => ⟨h, rfl⟩) Nat.le_of_not_lt

theorem wsect_eq {s : Image} {sec : Nat} {b : Bytes} (hsec : sec < 4194304) :
    wsect s sec b = { s with data := upd s.data sec b } := by
  unfold wsect
  rw [sector_eq hsec]

theorem Lay.addTable {s : Image} (h : Lay s.data fi s.freeblock D C) {i : Nat} (hi : Live fi i) :
    ∃ (s₁ : Image) (d₁ : Dinode), addBlock s (D i) last = (s₁, d₁) ∧
      s₁.freeinode = s.freeinode ∧ s₁.data = s.data ∧
      Bump (LiveSlot fi) (fun j k => slot s.data (upd D i d₁ j) k) nmeta s₁.freeblock ∧
      s₁.freeblock = s.freeblock + (if (D i).addrs last = 0 then 1 else 0) ∧ d₁.addrs last ≠ 0 ∧
      (∀ k, k ≠ NDIRECT → slot s.data d₁ k = slot s.data (D i) k) ∧
      (d₁.type = (D i).type ∧ d₁.major = (D i).major ∧ d₁.minor = (D i).minor ∧
      d₁.nlink = (D i).nlink) ∧
      (d₁.addrs last < s₁.freeblock ∧ d₁.addrs last < 4194304 ∧
      (s₁.freeblock = s.freeblock ∨ d₁.addrs last + 1 = s₁.freeblock)) := by
  have hfb : s.freeblock ≠ 0 := Nat.ne_of_gt (Nat.lt_of_lt_of_le nmeta_pos h.low)
  have hbig : s.freeblock < 4194304 := Nat.lt_of_le_of_lt h.high (by decide)
  by_cases h0 : (D i).addrs last = 0
  · obtain ⟨hb, hs⟩ := h.mapped_table hi h0
    have hlast : ((D i).setAddr last s.freeblock).addrs last = s.freeblock :=
      upd_same (D i).addrs last s.freeblock
    refine ⟨{ s with freeblock := s.freeblock + 1 }, (D i).setAddr last s.freeblock,
      by simp only [addBlock, if_pos h0], rfl, rfl, hb, by rw [if_pos h0], ?_, hs,
      ⟨rfl, rfl, rfl, rfl⟩, ?_⟩
    · rw [hlast]
      exact hfb
    · rw [hlast]
      exact ⟨Nat.lt_succ_self _, hbig, .inr rfl⟩
  · have hr := h.bump.range i NDIRECT ⟨hi, by decide⟩ (by
      rw [slot_last]
      exact h0)
    rw [slot_last] at hr
    refine ⟨s, D i, by simp only [addBlock, if_neg h0], rfl, rfl, by rw [upd_self]; exact h.bump,
      by rw [if_neg h0, Nat.add_zero], h0, fun _ _ => rfl, ⟨rfl, rfl, rfl, rfl⟩, hr.2,
      Nat.lt_trans hr.2 hbig, .inl rfl⟩

/-- **`iappend` finds a block** for block `fbn` of file `i`. -/
theorem Lay.mapBlock {s : Image} (h : Lay s.data fi s.freeblock D C) {i fbn : Nat} (hi : Live fi i)
    (hfbn : fbn < MAXFILE) :
    Ends (mapBlock s (D i) fbn) (fun r => Mapped s.data fi s.freeblock D i fbn r.1 r.2.1.data
      r.2.1.freeblock r.2.2 ∧ r.2.1.freeinode = s.freeinode)
      fun _ => FSSIZE < s.freeblock + need s.data (D i) fbn := by
  unfold Mkfs.mapBlock
  split
  · rename_i hd
    have hidx : blockOf s.data (D i) fbn = (D i).addrs ⟨fbn, Nat.lt_succ_of_lt hd⟩ := by
      unfold blockOf slotIdx
      rw [if_pos hd]
      exact slot_addr (k := ⟨fbn, Nat.lt_succ_of_lt hd⟩)
    by_cases h0 : (D i).addrs ⟨fbn, Nat.lt_succ_of_lt hd⟩ = 0
    · simp only [addBlock, if_pos h0]
      have hx : ((D i).setAddr ⟨fbn, Nat.lt_succ_of_lt hd⟩ s.freeblock).addrs
          ⟨fbn, Nat.lt_succ_of_lt hd⟩ = s.freeblock := upd_same (D i).addrs _ _
      rw [hx]
      exact ⟨h.mapped_direct hi hd h0, rfl⟩
    · simp only [addBlock, if_neg h0]
      rw [← hidx] at h0 ⊢
      exact ⟨h.mapped h0 fun hge => absurd hge (by omega), rfl⟩
  · rename_i hd
    -- first the indirect block
    obtain ⟨s₁, d₁, hadd, hfi, hdata, hbump, hcount, ht, hslots, hfields, hrs⟩ := h.addTable hi
    have hle : s.freeblock ≤ s₁.freeblock := by omega
    have hneed : need s.data (D i) fbn = (if blockOf s.data (D i) fbn = 0 then 1 else 0) +
        (s₁.freeblock - s.freeblock) := by
      unfold need
      rw [hcount, Nat.add_sub_cancel_left]
      simp only [show NDIRECT ≤ fbn by omega, true_and]
    simp only [hadd]
    refine .bind ((rsect_ends hrs.2.1).mono (fun _ => id) fun _ hfull => ?_) fun b hb => ?_
    · have := hrs.1
      omega
    · obtain ⟨hin, rfl⟩ := hb
      have hhigh' : s₁.freeblock ≤ FSSIZE := by
        have := h.high
        rcases hrs.2.2 with he | he <;> omega
      have hidx : ∀ bn, bn < MAXFILE → slotIdx bn ≠ NDIRECT := fun bn _ => slotIdx_ne_last bn
      have hfidx : slotIdx fbn = fbn + 1 := if_neg hd
      have hentry : le32 (s₁.data (d₁.addrs last)) (4 * (fbn - NDIRECT)) = slot s.data d₁ (fbn + 1) := by
        rw [slot_ind (by omega) ht, hdata, Nat.add_sub_add_right]
      rw [hentry]
      have hold : blockOf s.data (D i) fbn = slot s.data d₁ (fbn + 1) := by
        unfold blockOf
        rw [hfidx, hslots _ (by omega)]
      have hlow : nmeta ≤ s₁.freeblock := Nat.le_trans h.low hle
      by_cases h0 : slot s.data d₁ (fbn + 1) = 0
      · -- then its entry
        rw [if_pos h0]
        show Mapped s.data fi s.freeblock D i fbn s₁.freeblock (wsect _ _ _).data _ d₁ ∧ _
        rw [hdata, wsect_eq (Nat.lt_trans hin (by decide))]
        obtain ⟨hb, hnew, hsame, hout⟩ :=
          mapped_entry hi hd hfbn hlow hhigh' hbump ht h0
        have htne : ∀ b, (b < nmeta ∨ s₁.freeblock + 1 ≤ b) → b ≠ d₁.addrs last := by
          intro b hb' heq
          have hrange := hbump.range i NDIRECT ⟨hi, by decide⟩ (by
            rw [upd_same, slot_last]
            exact ht)
          rw [upd_same, slot_last] at hrange
          omega
        refine ⟨?_, hfi⟩
        refine
          { bump := hb
            count := by
              show s₁.freeblock + 1 = _
              rw [hneed, if_pos (hold.trans h0)]
              omega
            block := by unfold blockOf; rw [hfidx]; exact hnew
            ne := Nat.ne_of_gt (Nat.lt_of_lt_of_le nmeta_pos hlow)
            high := id
            bound := Nat.succ_le_succ hhigh'
            same := fun hne => absurd (hold.trans h0) hne
            other := fun bn hbn hne => ?_
            ind := iff_of_true ht (.inl (by omega))
            outside := fun j hj hne k _ => hout j hj hne k
            below := fun b hb' => upd_other _ _ (htne b (.inl hb'))
            fresh := fun b hb' => ?_
            data := fun j hj bn hbn hne => upd_other _ _ fun heq => ?_
            fields := hfields }
        · unfold blockOf
          rw [hsame _ fun heq => hne (slotIdx_inj (heq.trans hfidx.symm)), hslots _ (hidx bn hbn)]
        · refine (upd_other _ _ (htne b (.inr hb'))).trans (h.zero b ?_)
          have : s₁.freeblock + 1 ≤ b := hb'
          omega
        · -- a block of a file is no indirect block
          have hsl : slot s.data (upd D i d₁ j) (slotIdx bn) = blockOf s.data (D j) bn := by
            unfold blockOf
            rw [upd_apply]
            split
            · rename_i hj'
              rw [hj', hslots _ (hidx bn hbn)]
            · rfl
          have hsi : slot s.data (upd D i d₁ i) NDIRECT = d₁.addrs last := by
            rw [upd_same]
            exact slot_last
          have := hbump.inj j (slotIdx bn) i NDIRECT ⟨hj, slotIdx_lt hbn⟩ ⟨hi, by decide⟩
            (by rw [hsl]; exact hne) (by rw [hsl, hsi]; exact heq)
          exact slotIdx_ne_last bn this.2
      · rw [if_neg h0]
        refine ⟨?_, hfi⟩
        show Mapped s.data fi s.freeblock D i fbn _ s₁.data s₁.freeblock d₁
        rw [hdata]
        exact
          { bump := hbump
            count := by
              rw [hneed, hold, if_neg h0]
              omega
            block := by unfold blockOf; rw [hfidx]
            ne := h0
            high := fun _ => hhigh'
            bound := Nat.le_succ_of_le hhigh'
            same := fun _ => hold
            other := fun bn hbn _ => hslots _ (hidx bn hbn)
            ind := iff_of_true ht (.inl (by omega))
            outside := fun _ _ _ _ _ => rfl
            below := fun _ _ => rfl
            fresh := fun b hb => h.zero b (by omega)
            data := fun _ _ _ _ _ => rfl
            fields := hfields }

/-- **A round of `iappend`** adds bytes at the end of the file. -/
theorem Lay.write (h : Lay img fi fb D C) {i fbn x fb' : Nat} (hi : Live fi i)
    (hm : Mapped img fi fb D i fbn x img' fb' d') (hfbn : (C i).length / BSIZE = fbn)
    (hlt : fbn < MAXFILE) (hx : x < FSSIZE) {p : List UInt8} (hp : 0 < p.length)
    (hle : p.length ≤ (fbn + 1) * BSIZE - (C i).length) :
    Lay (upd img' x (put (img' x) ((C i).length % BSIZE) p)) fi fb' (upd D i d')
      (upd C i (C i ++ p)) := by
  have hB : (0 : Nat) < BSIZE := by decide
  have hdiv := Nat.div_add_mod (C i).length BSIZE
  have hmod := Nat.mod_lt (C i).length hB
  rw [hfbn] at hdiv
  have hmul : (fbn + 1) * BSIZE = BSIZE * fbn + BSIZE := by rw [Nat.add_mul, Nat.one_mul, Nat.mul_comm]
  rw [hmul] at hle
  have hlen : (C i ++ p).length = (C i).length + p.length := List.length_append
  have hself : slot img' (upd D i d' i) (slotIdx fbn) = x := by
    rw [upd_same]
    exact hm.block
  -- the block is the one of this place of this file, and no indirect block
  have hsole : ∀ j k, LiveSlot fi j k → slot img' (upd D i d' j) k = x → j = i ∧ k = slotIdx fbn := by
    intro j k hjk heq
    exact hm.bump.inj j k i (slotIdx fbn) hjk ⟨hi, slotIdx_lt hlt⟩ (by rw [heq]; exact hm.ne)
      (by rw [heq, hself])
  have hslot : ∀ j, Live fi j → ∀ k,
      slot (upd img' x (put (img' x) ((C i).length % BSIZE) p)) (upd D i d' j) k =
        slot img' (upd D i d' j) k := by
    intro j hj k
    refine slot_congr rfl (fun ht => upd_other _ _ fun heq => ?_) k
    have := hsole j NDIRECT ⟨hj, by decide⟩ (slot_last.trans heq)
    exact slotIdx_ne_last fbn this.2.symm
  have hblock : ∀ j, Live fi j → ∀ bn,
      blockOf (upd img' x (put (img' x) ((C i).length % BSIZE) p)) (upd D i d' j) bn =
        blockOf img' (upd D i d' j) bn := fun j hj bn => hslot j hj _
  have houtside : ∀ j, Live fi j → j ≠ i → ∀ bn < MAXFILE,
      blockOf img' (upd D i d' j) bn = blockOf img (D j) bn := by
    intro j hj hne bn hbn
    rw [upd_other _ _ hne]
    exact hm.outside j hj hne _ (slotIdx_lt hbn)
  refine
    { bump := hm.bump.congr fun j k hjk => hslot j hjk.1 k
      low := Nat.le_trans h.low (by rw [hm.count]; omega)
      high := hm.high hx
      zero := fun b hb => ?_
      fits := fun j hj => ?_
      alloc := fun j hj bn hbn => ?_
      ind := fun j hj => ?_
      bytes := fun j hj y hy => ?_ }
  · have hxb := (hm.range hi hlt).2
    rw [upd_other _ _ (by omega)]
    exact hm.fresh b hb
  · rw [upd_apply]
    split
    · rw [hlen]
      have hlt' : fbn < 268 := hlt
      show (C i).length + p.length ≤ 274432
      have hle' : p.length ≤ 1024 * fbn + 1024 - (C i).length := hle
      omega
    · exact h.fits j hj
  · rw [hblock j hj]
    by_cases hji : j = i
    · subst hji
      rw [upd_same, upd_same, hlen]
      by_cases hbf : bn = fbn
      · subst hbf
        rw [hm.block]
        refine iff_of_true hm.ne ?_
        rw [Nat.mul_comm]
        omega
      · rw [hm.other bn hbn hbf, h.alloc j hj bn hbn]
        have hle' : p.length ≤ 1024 * fbn + 1024 - (C j).length := hle
        have hdiv' : 1024 * fbn + (C j).length % 1024 = (C j).length := hdiv
        show bn * 1024 < (C j).length ↔ bn * 1024 < (C j).length + p.length
        omega
    · rw [houtside j hj hji bn hbn, upd_other _ _ hji]
      exact h.alloc j hj bn hbn
  · by_cases hji : j = i
    · subst hji
      rw [upd_same, upd_same, hlen, hm.ind, h.ind j hj]
      have hle' : p.length ≤ 1024 * fbn + 1024 - (C j).length := hle
      have hdiv' : 1024 * fbn + (C j).length % 1024 = (C j).length := hdiv
      have hmod' : (C j).length % 1024 < 1024 := hmod
      show 12 ≤ fbn ∨ 12 * 1024 < (C j).length ↔ 12 * 1024 < (C j).length + p.length
      omega
    · rw [upd_other _ _ hji, upd_other _ _ hji]
      exact h.ind j hj
  · rw [hblock j hj]
    by_cases hji : j = i
    · subst hji
      rw [upd_same] at hy ⊢
      rw [hlen] at hy
      rw [upd_same]
      have hyd := Nat.div_add_mod y BSIZE
      have hym := Nat.mod_lt y hB
      have hbn : y / BSIZE < MAXFILE := by
        refine Nat.lt_of_le_of_lt ?_ hlt
        refine Nat.le_of_lt_succ (Nat.div_lt_of_lt_mul ?_)
        rw [Nat.mul_succ]
        omega
      by_cases hyf : y / BSIZE = fbn
      · rw [hyf, hm.block, upd_same]
        rw [hyf] at hyd
        by_cases hyo : y < (C j).length
        · -- an old byte of the same block
          have hne : blockOf img (D j) fbn ≠ 0 := (h.alloc j hj fbn hlt).2 (by rw [Nat.mul_comm]; omega)
          have hxo := hm.same hne
          rw [List.getElem?_append_left hyo, h.bytes j hj y hyo, hyf, put_of_not (.inl (by omega)), hxo]
          have hdata := hm.data j hj fbn hlt hne
          rw [hxo] at hdata
          rw [hdata]
        · have hr : y % BSIZE = (C j).length % BSIZE + (y - (C j).length) := by omega
          rw [List.getElem?_append_right (by omega), hr, put_of_lt (by omega),
            List.getD_eq_getElem?_getD]
          have hin : y - (C j).length < p.length := by omega
          rw [List.getElem?_eq_getElem hin]
          rfl
      · -- a byte of an earlier block
        have hyo : y < (C j).length := by
          by_contra hge
          refine hyf (Nat.le_antisymm ?_ ?_)
          · refine Nat.le_of_lt_succ (Nat.div_lt_of_lt_mul ?_)
            rw [Nat.mul_succ]
            omega
          · rw [← hfbn]
            exact Nat.div_le_div_right (by omega)
        have hold := h.bytes j hj y hyo
        have hne := (h.block hj hyo).2
        rw [List.getElem?_append_left hyo, hold, hm.other _ hbn hyf, upd_other, hm.data j hj _ hbn hne]
        intro heq
        have hx' : slot img' (upd D j d' j) (slotIdx (y / BSIZE)) = x := by
          rw [upd_same]
          exact (hm.other _ hbn hyf).trans heq
        exact hyf (slotIdx_inj (hsole j _ ⟨hj, slotIdx_lt hbn⟩ hx').2)
    · rw [upd_other _ _ hji] at hy ⊢
      obtain ⟨hbn, hne⟩ := h.block hj hy
      rw [houtside j hj hji _ hbn, h.bytes j hj y hy, upd_other, hm.data j hj _ hbn hne]
      intro heq
      have hx' : slot img' (upd D i d' j) (slotIdx (y / BSIZE)) = x :=
        (houtside j hj hji _ hbn).trans heq
      exact hji (hsole j _ ⟨hj, slotIdx_lt hbn⟩ hx').1

end Xv6.Mkfs
