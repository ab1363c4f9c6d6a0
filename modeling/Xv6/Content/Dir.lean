import Xv6.Content.Bytes

/-!
# Directories

`dirlookup` and `dirlink` of `kernel/fs.c` and the removal of an entry in `sys_unlink`, over the files of
`Content`.  A directory is a file of entries of 16 bytes: two bytes of the inode number and a name of
`DIRSIZ` bytes that need not end in a zero.  An entry lies in one block, so it is written as a whole or
not at all.

A C string is the list of its bytes; behind its end stand zeros.
-/

namespace Xv6.Content

open Xv6.Lib

/-! ### Names -/

/-- `strncmp` -/
def strncmp : Nat → List UInt8 → List UInt8 → Int
  | 0, _, _ => 0
  | n + 1, p, q =>
    if p.headD 0 ≠ 0 ∧ p.headD 0 = q.headD 0 then strncmp n p.tail q.tail
    else ((p.headD 0).toNat : Int) - (q.headD 0).toNat

/-- `namecmp` -/
def namecmp (s t : List UInt8) : Int := strncmp DIRSIZ s t

/-- `strncpy`: the bytes that it writes. -/
def strncpy : Nat → List UInt8 → List UInt8
  | 0, _ => []
  | n + 1, t => if t.headD 0 = 0 then 0 :: List.replicate n 0 else t.headD 0 :: strncpy n t.tail

/-- The first `n` bytes of a C string. -/
def cut (n : Nat) (name : List UInt8) : List UInt8 := (name.take n).takeWhile (· ≠ 0)

/-- A name as a directory keeps it. -/
def truncated (name : List UInt8) : List UInt8 := cut DIRSIZ name

theorem cut_cons (n : Nat) (name : List UInt8) :
    cut (n + 1) name = if name.headD 0 = 0 then [] else name.headD 0 :: cut n name.tail := by
  unfold cut
  cases name with
  | nil => rfl
  | cons x name =>
    rw [List.take_succ_cons, List.takeWhile_cons]
    by_cases hx : x = 0
    · simp [hx]
    · simp [hx]

theorem strncmp_cut (n : Nat) (p q : List UInt8) : strncmp n p q = 0 ↔ cut n p = cut n q := by
  induction n generalizing p q with
  | zero => simp [strncmp, cut]
  | succ n ih =>
    rw [strncmp, cut_cons, cut_cons]
    by_cases hp : p.headD 0 = 0
    · rw [if_neg fun hc => hc.1 hp, if_pos hp, hp]
      by_cases hq : q.headD 0 = 0
      · rw [if_pos hq, hq]
        simp only [Int.sub_self]
      · have hq' : (q.headD 0).toNat ≠ 0 := fun h => hq (UInt8.toNat_inj.1 h)
        rw [if_neg hq]
        simp only [UInt8.toNat_zero, reduceCtorEq, iff_false]
        omega
    · rw [if_neg hp]
      by_cases heq : p.headD 0 = q.headD 0
      · have hq : q.headD 0 ≠ 0 := heq ▸ hp
        rw [if_pos ⟨hp, heq⟩, ih, if_neg hq, heq]
        simp
      · rw [if_neg fun hc => heq hc.2]
        have hne : ¬ ((p.headD 0).toNat : Int) - (q.headD 0).toNat = 0 :=
          fun h => heq (UInt8.toNat_inj.1 (by omega))
        rw [iff_false_left hne]
        split
        · exact List.cons_ne_nil _ _
        · intro hc
          exact heq (List.cons.inj hc).1

/-- **Names are compared as they are kept.** -/
theorem namecmp_truncated (p q : List UInt8) : namecmp p q = 0 ↔ truncated p = truncated q :=
  strncmp_cut DIRSIZ p q

theorem cut_replicate (n m : Nat) : cut n (List.replicate m 0) = [] := by
  cases n with
  | zero => simp [cut]
  | succ n =>
    rw [cut_cons, if_pos]
    cases m with
    | zero | succ m => rfl

theorem cut_strncpy (n : Nat) (name : List UInt8) : cut n (strncpy n name) = cut n name := by
  induction n generalizing name with
  | zero => rfl
  | succ n ih =>
    rw [strncpy, cut_cons n name]
    by_cases h0 : name.headD 0 = 0
    · rw [if_pos h0, if_pos h0]
      exact cut_replicate (n + 1) (n + 1)
    · have hhead : (name.headD 0 :: strncpy n name.tail).headD 0 ≠ 0 := h0
      rw [if_neg h0, if_neg h0, cut_cons, if_neg hhead]
      exact congrArg _ (ih name.tail)

theorem strncpy_length (n : Nat) (name : List UInt8) : (strncpy n name).length = n := by
  induction n generalizing name with
  | zero => rfl
  | succ n ih =>
    rw [strncpy]
    split
    · rw [List.length_cons, List.length_replicate]
    · rw [List.length_cons, ih]

/-! ### Entries -/

/-- `de.inum` -/
def deInum (de : List UInt8) : Nat := (de.getD 0 0).toNat + 256 * (de.getD 1 0).toNat

/-- The bytes of `de`, with the name copied by `strncpy`. -/
def direntOf (inum : Nat) (name : List UInt8) : List UInt8 :=
  UInt8.ofNat inum :: UInt8.ofNat (inum / 256) :: strncpy DIRSIZ name

/-- `de.name` -/
def deName (de : List UInt8) : List UInt8 := de.drop 2

theorem direntOf_length (inum : Nat) (name : List UInt8) : (direntOf inum name).length = 16 := by
  unfold direntOf
  rw [List.length_cons, List.length_cons, strncpy_length]

theorem deInum_direntOf (name : List UInt8) {inum : Nat} (h : inum < 65536) : deInum (direntOf inum name) = inum := by
  show (UInt8.ofNat inum).toNat + 256 * (UInt8.ofNat (inum / 256)).toNat = inum
  rw [UInt8.toNat_ofNat', UInt8.toNat_ofNat']
  omega

theorem deName_direntOf (inum : Nat) (name : List UInt8) :
    truncated (deName (direntOf inum name)) = truncated name := cut_strncpy DIRSIZ name

namespace Disk

/-- The loop of `dirlookup`: the inode number and the offset. -/
def lookupLoop (i : Nat) (name : List UInt8) : Nat → Disk → Nat → Option (Option (Nat × Nat) × Disk)
  | 0, s, _ => some (none, s)
  | fuel + 1, s, off =>
    if off < s.size i then
      match s.readi i off 16 with
      | none => none
      | some (de, s) =>
        -- `dirlookup read`
        if de.length ≠ 16 then none
        else if deInum de = 0 then lookupLoop i name fuel s (off + 16)
        else if namecmp name (deName de) = 0 then some (some (deInum de, off), s)
        else lookupLoop i name fuel s (off + 16)
    else some (none, s)

/-- `dirlookup` -/
def dirlookup (s : Disk) (i : Nat) (name : List UInt8) : Option (Option (Nat × Nat) × Disk) :=
  lookupLoop i name (s.size i) s 0

/-- The loop of `dirlink` for an empty entry: `off` at its end. -/
def emptyLoop (i : Nat) : Nat → Disk → Nat → Option (Nat × Disk)
  | 0, s, off => some (off, s)
  | fuel + 1, s, off =>
    if off < s.size i then
      match s.readi i off 16 with
      | none => none
      | some (de, s) =>
        -- `dirlink read`
        if de.length ≠ 16 then none
        else if deInum de = 0 then some (off, s)
        else emptyLoop i fuel s (off + 16)
    else some (off, s)

/-- `dirlink` -/
def dirlink (s : Disk) (i : Nat) (name : List UInt8) (inum : Nat) : Option (Int × Disk) :=
  match s.dirlookup i name with
  | none => none
  | some (some _, s) => some (-1, s)
  | some (none, s) =>
    match emptyLoop i (s.size i) s 0 with
    | none => none
    | some (off, s) =>
      match s.writei i (fun k => (direntOf inum name).getD k 0) off 16 with
      | none => none
      | some (r, s) => some (if r ≠ 16 then -1 else 0, s)

/-- The removal of an entry in `sys_unlink`, which panics when `writei` does not write the entry. -/
def unlink (s : Disk) (i : Nat) (name : List UInt8) : Option (Int × Disk) :=
  match s.dirlookup i name with
  | none => none
  | some (none, s) => some (-1, s)
  | some (some (_, off), s) =>
    match s.writei i (fun _ => 0) off 16 with
    | none => none
    | some (r, s) => if r ≠ 16 then none else some (0, s)

/-! ### A directory as slots -/

/-- A directory: no holes, and a whole number of entries. -/
structure IsDir (s : Disk) (i : Nat) : Prop where
  sound : s.Sound
  whole : s.Whole i
  entries : s.size i % 16 = 0

/-- The number of entries. -/
def slots (s : Disk) (i : Nat) : Nat := s.size i / 16

/-- The bytes of an entry. -/
def slot (s : Disk) (i k : Nat) : List UInt8 := (List.range 16).map fun j => s.byteOf i (16 * k + j)

def inumAt (s : Disk) (i k : Nat) : Nat := deInum (s.slot i k)

def nameAt (s : Disk) (i k : Nat) : List UInt8 := truncated (deName (s.slot i k))

/-- A live entry for a name. -/
def Holds (s : Disk) (i k : Nat) (t : List UInt8) : Prop := k < s.slots i ∧ s.inumAt i k ≠ 0 ∧ s.nameAt i k = t

variable {s s' : Disk} {i k : Nat} {name : List UInt8}

theorem IsDir.size_eq (h : s.IsDir i) : s.size i = 16 * s.slots i := by
  have := h.entries
  unfold slots
  omega

theorem IsDir.slots_le (h : s.IsDir i) : s.slots i ≤ 17152 := by
  have h1 := h.size_eq
  have h2 : s.size i ≤ 268 * 1024 := h.whole.size
  omega

theorem slot_length (s : Disk) (i k : Nat) : (s.slot i k).length = 16 := by
  unfold slot
  rw [List.length_map, List.length_range]

theorem slot_get (s : Disk) (i k j : Nat) (hj : j < (s.slot i k).length) :
    (s.slot i k)[j] = s.byteOf i (16 * k + j) := by
  simp only [slot, List.getElem_map, List.getElem_range]

theorem IsDir.readi (h : s.IsDir i) (hk : k < s.slots i) : s.readi i (16 * k) 16 = some (s.slot i k, s) := by
  have h1 := h.size_eq
  have h2 := h.slots_le
  rw [h.whole.readi (by decide) (by omega), ← content_slice s i (16 * k) 16 (by omega)]
  rfl

/-- **`dirlookup`** on a directory. -/
theorem IsDir.lookupLoop (h : s.IsDir i) (name : List UInt8) (fuel k : Nat) (hfuel : s.slots i ≤ k + fuel) :
    ∃ r, Disk.lookupLoop i name fuel s (16 * k) = some (r, s) ∧
      ((r = none ∧ ∀ l, k ≤ l → ¬ s.Holds i l (truncated name)) ∨
        ∃ l, r = some (s.inumAt i l, 16 * l) ∧ s.Holds i l (truncated name)) := by
  have hsize := h.size_eq
  induction fuel generalizing k with
  | zero => exact ⟨none, rfl, .inl ⟨rfl, fun l hl hh => absurd hh.1 (by omega)⟩⟩
  | succ fuel ih =>
    rw [Disk.lookupLoop]
    by_cases hk : k < s.slots i
    · obtain ⟨r, hr, hcases⟩ := ih (k + 1) (by omega)
      have hlen : ¬ (s.slot i k).length ≠ 16 := fun hc => hc (slot_length s i k)
      rw [if_pos (by omega), h.readi hk]
      dsimp only
      rw [if_neg hlen]
      -- an entry that does not match leaves the search to the rest
      have hskip : ¬ s.Holds i k (truncated name) →
          (r = none ∧ ∀ l, k ≤ l → ¬ s.Holds i l (truncated name)) ∨
            ∃ l, r = some (s.inumAt i l, 16 * l) ∧ s.Holds i l (truncated name) := by
        intro hno
        refine hcases.imp (fun ⟨hnone, hall⟩ => ⟨hnone, fun l hl => ?_⟩) id
        rcases Nat.eq_or_lt_of_le hl with rfl | hlt
        · exact hno
        · exact hall l hlt
      by_cases h0 : deInum (s.slot i k) = 0
      · rw [if_pos h0]
        exact ⟨r, hr, hskip fun hh => hh.2.1 h0⟩
      · rw [if_neg h0]
        by_cases hname : namecmp name (deName (s.slot i k)) = 0
        · rw [if_pos hname]
          exact ⟨_, rfl, .inr ⟨k, rfl, hk, h0, ((namecmp_truncated _ _).1 hname).symm⟩⟩
        · rw [if_neg hname]
          exact ⟨r, hr, hskip fun hh => hname ((namecmp_truncated _ _).2 hh.2.2.symm)⟩
    · rw [if_neg (by omega)]
      exact ⟨none, rfl, .inl ⟨rfl, fun l hl hh => absurd hh.1 (by omega)⟩⟩

theorem IsDir.dirlookup (h : s.IsDir i) (name : List UInt8) :
    ∃ r, s.dirlookup i name = some (r, s) ∧
      ((r = none ∧ ∀ l, ¬ s.Holds i l (truncated name)) ∨
        ∃ l, r = some (s.inumAt i l, 16 * l) ∧ s.Holds i l (truncated name)) := by
  have hsize := h.size_eq
  obtain ⟨r, hr, hcases⟩ := h.lookupLoop name (s.size i) 0 (by omega)
  exact ⟨r, hr, hcases.imp (fun ⟨hnone, hall⟩ => ⟨hnone, fun l => hall l (Nat.zero_le l)⟩) id⟩

/-- The first cleared slot, or the slot behind the last one. -/
def FirstFree (s : Disk) (i k : Nat) : Prop :=
  (∀ l, l < k → s.inumAt i l ≠ 0) ∧ (k < s.slots i ∧ s.inumAt i k = 0 ∨ k = s.slots i)

theorem IsDir.emptyLoop (h : s.IsDir i) (fuel k : Nat) (hk : k ≤ s.slots i) (hfuel : s.slots i ≤ k + fuel)
    (hlow : ∀ l, l < k → s.inumAt i l ≠ 0) :
    ∃ e, Disk.emptyLoop i fuel s (16 * k) = some (16 * e, s) ∧ s.FirstFree i e := by
  have hsize := h.size_eq
  induction fuel generalizing k with
  | zero => exact ⟨k, rfl, hlow, .inr (by omega)⟩
  | succ fuel ih =>
    rw [Disk.emptyLoop]
    by_cases hlt : k < s.slots i
    · have hlen : ¬ (s.slot i k).length ≠ 16 := fun hc => hc (slot_length s i k)
      rw [if_pos (by omega), h.readi hlt]
      dsimp only
      rw [if_neg hlen]
      by_cases h0 : deInum (s.slot i k) = 0
      · rw [if_pos h0]
        exact ⟨k, rfl, hlow, .inl ⟨hlt, h0⟩⟩
      · rw [if_neg h0]
        refine ih (k + 1) hlt (by omega) fun l hl => ?_
        rcases Nat.eq_or_lt_of_le (Nat.le_of_lt_succ hl) with rfl | hl'
        · exact h0
        · exact hlow l hl'
    · rw [if_neg (by omega)]
      exact ⟨k, rfl, hlow, .inr (by omega)⟩

/-! ### Writing a slot -/

/-- The blocks of a file stay, and a block that is taken goes to it. -/
structure Kept (s s' : Disk) (i : Nat) : Prop where
  nblocks : s'.nblocks = s.nblocks
  held : ∀ k, k ≤ MAXFILE → s.held i k ≠ 0 → s'.held i k = s.held i k
  used : ∀ b, s'.used b = true → s.used b = true ∨ ∃ k, k ≤ MAXFILE ∧ s'.held i k = b

/-- The entries are the same. -/
structure Same (s s' : Disk) (i : Nat) : Prop where
  dir : s'.IsDir i
  slots : s'.slots i = s.slots i
  slot : ∀ l, l < s.slots i → s'.slot i l = s.slot i l
  kept : Kept s s' i

/-- Slot `k` has become `de`. -/
structure Put (s s' : Disk) (i k : Nat) (de : List UInt8) : Prop where
  dir : s'.IsDir i
  slots : s'.slots i = max (s.slots i) (k + 1)
  slot : s'.slot i k = de
  other : ∀ l, l < s.slots i → l ≠ k → s'.slot i l = s.slot i l
  kept : Kept s s' i

theorem Kept.refl (s : Disk) (i : Nat) : Kept s s i := ⟨rfl, fun _ _ _ => rfl, fun _ => .inl⟩

theorem Same.refl (h : s.IsDir i) : Same s s i := ⟨h, rfl, fun _ _ => rfl, .refl s i⟩

theorem Mapped.kept {s₁ : Disk} {bn a : Nat} (h : Mapped s s₁ i bn a) (hb : s'.held = s₁.held)
    (hu : s'.used = s₁.used) (hn : s'.nblocks = s₁.nblocks) : Kept s s' i := by
  refine ⟨hn.trans h.nblocks, fun k hk hne => ?_, fun b => ?_⟩
  · rw [hb]
    exact h.held i k hk hne
  · rw [hb, hu]
    exact h.used b

theorem slot_congr (h : ∀ x, 16 * k ≤ x → x < 16 * k + 16 → s'.byteOf i x = s.byteOf i x) :
    s'.slot i k = s.slot i k := by
  unfold slot
  refine List.map_congr_left fun j hj => ?_
  have hj' := List.mem_range.1 hj
  exact h _ (by omega) (by omega)

theorem IsDir.same {s₁ : Disk} {bn a : Nat} (h : s.IsDir i) (hm : Mapped s s₁ i bn a) : Same s s₁ i := by
  have hsize := h.whole.size
  refine ⟨⟨hm.sound, ⟨?_, fun x hx => ?_⟩, ?_⟩, ?_, fun l hl => ?_, hm.kept rfl rfl rfl⟩
  · rw [hm.size]
    exact hsize
  · rw [hm.size] at hx
    have hne := h.whole.held x hx
    rw [hm.held i _ ?_ hne]
    · exact hne
    · have hsize' : s.size i ≤ 268 * 1024 := hsize
      show x / 1024 ≤ 268
      omega
  · rw [hm.size]
    exact h.entries
  · unfold slots
    rw [hm.size]
  · have hle := h.slots_le
    refine slot_congr fun x hx hx' => hm.byteOf i x ?_
    show x / 1024 < 268
    omega

/-- An entry for which `bmap` has to take a block is one behind the last, at the start of a block. -/
theorem IsDir.at_end (h : s.IsDir i) (hk : k ≤ s.slots i)
    (h0 : s.held i (16 * k / BSIZE) = 0) : k = s.slots i ∧ s.size i % BSIZE = 0 := by
  have hsize := h.size_eq
  have hend : k = s.slots i := by
    by_contra hne
    exact h.whole.held (16 * k) (by omega) h0
  refine ⟨hend, ?_⟩
  by_contra hmod
  have hmod' : s.size i % 1024 ≠ 0 := hmod
  have hdiv : (s.size i - 1) / BSIZE = 16 * k / BSIZE := by
    show (s.size i - 1) / 1024 = 16 * k / 1024
    omega
  have hx := h.whole.held (s.size i - 1) (by omega)
  rw [hdiv] at hx
  exact hx h0

theorem IsDir.put {s₂ : Disk} {de : List UInt8} (h : s.IsDir i) (hk : k ≤ s.slots i)
    (hlast : 16 * k + 16 ≤ MAXFILE * BSIZE) (hlen : de.length = 16)
    (hw : Wrote s s₂ i (16 * k) 16 fun j => de.getD j 0) (hkept : Kept s s₂ i) :
    Put s (s₂.stretch i (16 * k + 16)) i k de := by
  have hsize := h.size_eq
  have hlast' : 16 * k + 16 ≤ 268 * 1024 := hlast
  have hnew : (s₂.stretch i (16 * k + 16)).size i = max (s.size i) (16 * k + 16) := by
    rw [stretch_size, if_pos rfl, hw.size]
  refine ⟨⟨stretch_sound hw.sound _ _, hw.whole h.whole (by omega) hlast, ?_⟩, ?_, ?_, fun l hl hne => ?_, ?_⟩
  · have := h.entries
    rw [hnew]
    omega
  · unfold slots
    rw [hnew]
    omega
  · refine List.ext_getElem (by rw [slot_length, hlen]) fun j hj hj' => ?_
    rw [hlen] at hj'
    have hx : (16 * k + j) / BSIZE < MAXFILE := by
      show (16 * k + j) / 1024 < 268
      omega
    rw [slot_get, stretch_byteOf, hw.byteOf i _ hx, if_pos ⟨rfl, by omega, by omega⟩, Nat.add_sub_cancel_left]
    exact (List.getElem_eq_getD 0).symm
  · have hle := h.slots_le
    refine slot_congr fun x hx hx' => ?_
    have hx : x / BSIZE < MAXFILE := by
      show x / 1024 < 268
      omega
    rw [stretch_byteOf, hw.byteOf i x hx, if_neg (by omega)]
  · refine ⟨(stretch_nblocks _ _ _).trans hkept.nblocks, fun k hk hne => ?_, fun b hb => ?_⟩
    · rw [stretch_held]
      exact hkept.held k hk hne
    · simp only [stretch_held]
      rw [stretch_used] at hb
      exact hkept.used b hb

/-- **Writing an entry**: all of it, or nothing when it needs a block and there is none. -/
theorem IsDir.writei (h : s.IsDir i) (hk : k ≤ s.slots i) (de : List UInt8) (hlen : de.length = 16) :
    ∃ (r : Int) (s' : Disk), s.writei i (fun j => de.getD j 0) (16 * k) 16 = some (r, s') ∧
      ((r = 16 ∧ Put s s' i k de) ∨
        (r ≠ 16 ∧ Same s s' i ∧ k = s.slots i ∧
          (s'.Full ∧ s.size i % BSIZE = 0 ∨ s.size i = MAXFILE * BSIZE))) := by
  have hsize := h.size_eq
  have hmax := h.slots_le
  by_cases hlast : 16 * k + 16 ≤ MAXFILE * BSIZE
  · have hlast' : 16 * k + 16 ≤ 268 * 1024 := hlast
    have hreq : ¬ s.Refused i (16 * k) 16 := by
      unfold Refused
      omega
    have hbn : 16 * k / BSIZE < MAXFILE := by
      show 16 * k / 1024 < 268
      omega
    obtain ⟨a, s₁, hmap, hmapped⟩ := h.sound.bmap i hbn
    rw [h.sound.writei hreq]
    by_cases ha : a = 0
    · subst ha
      have h0 : s.held i (16 * k / BSIZE) = 0 := by
        by_contra hne
        rw [bmap_held hbn hne] at hmap
        exact hne (Prod.mk.inj (Option.some.inj hmap)).1
      obtain ⟨hend, hmod⟩ := h.at_end hk h0
      have hle : 16 * k + 0 ≤ s₁.size i := by
        rw [hmapped.size]
        omega
      rw [bytesLoop_stop hmap]
      dsimp only
      rw [stretch_of_le hle]
      exact ⟨0, s₁, rfl, .inr ⟨by decide, h.same hmapped, hend, .inl ⟨hmapped.full rfl, hmod⟩⟩⟩
    · have hin : 16 * k % BSIZE + (15 + 1) ≤ BSIZE := by
        show 16 * k % 1024 + (15 + 1) ≤ 1024
        omega
      obtain ⟨t, s₂, -, hloop, hwrote, -⟩ := h.sound.bytesLoop (fun j => de.getD j 0) i 16 0 (16 * k) hlast
      have hblock := h.sound.bytesLoop_block (fun j => de.getD j 0) 0 hbn hmap ha 15 0 hin
      rw [show (0 : Nat) + (15 + 1) = 16 from rfl, hloop] at hblock
      obtain ⟨ht, hs₂⟩ := Prod.mk.inj hblock
      obtain rfl : t = 16 := by omega
      simp only [Nat.zero_add] at hwrote
      have hkept : Kept s s₂ i := by
        rw [hs₂]
        exact hmapped.kept rfl rfl rfl
      rw [hloop]
      exact ⟨16, _, rfl, .inl ⟨rfl, h.put hk hlast hlen hwrote hkept⟩⟩
  · have hk' : k = s.slots i ∧ s.slots i = 17152 := by
      have hlast' : ¬ 16 * k + 16 ≤ 268 * 1024 := hlast
      omega
    refine ⟨-1, s, writei_refused (.inr (.inr (by omega))) (by omega) (by decide),
      .inr ⟨by decide, .refl h, hk'.1, .inr ?_⟩⟩
    rw [hsize, hk'.2]
    rfl

/-! ### The operations -/

/-- What `dirlink` does. -/
def LinkPost (s s' : Disk) (i : Nat) (name : List UInt8) (inum : Nat) (r : Int) : Prop :=
  (r = 0 ∧ (∀ k, ¬ s.Holds i k (truncated name)) ∧
    ∃ k, s.FirstFree i k ∧ Put s s' i k (direntOf inum name)) ∨
  (r = -1 ∧ Same s s' i ∧
    ((∃ k, s.Holds i k (truncated name)) ∨
      (∀ k, k < s.slots i → s.inumAt i k ≠ 0) ∧
        (s'.Full ∧ s.size i % BSIZE = 0 ∨ s.size i = MAXFILE * BSIZE)))

/-- **`dirlink`** takes the first cleared slot, or appends one. -/
theorem IsDir.dirlink (h : s.IsDir i) (name : List UInt8) (inum : Nat) :
    ∃ r s', s.dirlink i name inum = some (r, s') ∧ LinkPost s s' i name inum r := by
  have hsize := h.size_eq
  unfold Disk.dirlink
  obtain ⟨r, hr, ⟨rfl, hnone⟩ | ⟨l, rfl, hl⟩⟩ := h.dirlookup name
  · rw [hr]
    dsimp only
    obtain ⟨e, he, hfree⟩ := h.emptyLoop (s.size i) 0 (Nat.zero_le _) (by omega) fun l hl => absurd hl (by omega)
    have hle : e ≤ s.slots i := by
      rcases hfree.2 with ⟨hlt, -⟩ | heq
      · omega
      · omega
    rw [Nat.mul_zero] at he
    rw [he]
    dsimp only
    obtain ⟨r, s', hw, hcases⟩ := h.writei hle (direntOf inum name) (direntOf_length inum name)
    rw [hw]
    refine ⟨_, s', rfl, ?_⟩
    rcases hcases with ⟨rfl, hput⟩ | ⟨hr16, hsame, hend, hwhy⟩
    · exact .inl ⟨if_neg fun hc => hc rfl, hnone, e, hfree, hput⟩
    · refine .inr ⟨if_pos hr16, hsame, .inr ⟨fun k hk => hfree.1 k (by omega), hwhy⟩⟩
  · rw [hr]
    exact ⟨-1, s, rfl, .inr ⟨rfl, .refl h, .inl ⟨l, hl⟩⟩⟩

/-- What the removal of an entry does. -/
def UnlinkPost (s s' : Disk) (i : Nat) (name : List UInt8) (r : Int) : Prop :=
  (r = 0 ∧ ∃ k, s.Holds i k (truncated name) ∧ Put s s' i k (List.replicate 16 0)) ∨
  (r = -1 ∧ s' = s ∧ ∀ k, ¬ s.Holds i k (truncated name))

theorem IsDir.unlink (h : s.IsDir i) (name : List UInt8) :
    ∃ r s', s.unlink i name = some (r, s') ∧ UnlinkPost s s' i name r := by
  unfold Disk.unlink
  obtain ⟨r, hr, ⟨rfl, hnone⟩ | ⟨l, rfl, hl⟩⟩ := h.dirlookup name
  · rw [hr]
    exact ⟨-1, s, rfl, .inr ⟨rfl, rfl, hnone⟩⟩
  · rw [hr]
    dsimp only
    have hzero : (fun j => (List.replicate 16 (0 : UInt8)).getD j 0) = fun _ => 0 := by
      funext j
      rw [List.getD_eq_getElem?_getD, List.getElem?_replicate]
      split
      · rfl
      · rfl
    obtain ⟨r, s', hw, hcases⟩ := h.writei (Nat.le_of_lt hl.1) (List.replicate 16 0) (List.length_replicate ..)
    rw [hzero] at hw
    rw [hw]
    dsimp only
    rcases hcases with ⟨rfl, hput⟩ | ⟨-, -, hend, -⟩
    · rw [if_neg fun hc => hc rfl]
      exact ⟨0, s', rfl, .inl ⟨rfl, l, hl, hput⟩⟩
    · exact absurd hl.1 (by omega)

end Disk

end Xv6.Content
