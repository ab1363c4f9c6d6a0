import Xv6.Mkfs.Build

/-!
# When the image of `mkfs` is well formed

`mkfs` never compares an inode number with `NINODES`, and it rounds the size of the root up by a whole
block when its entries fill their blocks exactly.  For all other inputs for which it finishes, the
image is well formed.
-/

namespace Xv6.Mkfs

open Xv6.Lib

/-! ### The number of inodes -/

section

variable {s s' : Image} {d d' : Dinode} {i : Nat}

/-- A step leaves the number of inodes as it is. -/
def Keeps (s : Image) (x : Except Stop Image) : Prop :=
  Ends x (fun s' => s'.freeinode = s.freeinode) fun _ => True

theorem Keeps.trans {x : Except Stop Image} (h : Keeps s x) (hs : s.freeinode = s'.freeinode) : Keeps s' x :=
  Ends.conseq h fun _ ht => ht.trans hs

theorem freeinode_winode (s : Image) (i : Nat) (d : Dinode) : Keeps s (winode s i d) :=
  .bind (Q := fun _ => True) (.ite (fun _ => trivial) fun _ => trivial) fun _ _ => rfl

theorem freeinode_addBlock (k : Fin (NDIRECT + 1)) : (addBlock s d k).1.freeinode = s.freeinode := by
  unfold addBlock
  split <;> rfl

theorem freeinode_mapBlock (s : Image) (d : Dinode) (fbn : Nat) :
    Ends (mapBlock s d fbn) (fun r => r.2.1.freeinode = s.freeinode) fun _ => True := by
  unfold mapBlock
  split
  · exact freeinode_addBlock _
  · have hadd := freeinode_addBlock (s := s) (d := d) (Fin.last NDIRECT)
    refine .bind (Q := fun _ => True) (.ite (fun _ => trivial) fun _ => trivial) fun b _ => ?_
    exact .ite (fun _ => hadd) fun _ => hadd

theorem freeinode_appendLoop (fuel : Nat) (s : Image) (d : Dinode) (off : Nat) (p : List UInt8) :
    Ends (appendLoop fuel s d off p) (fun r => r.1.freeinode = s.freeinode) fun _ => True := by
  induction fuel generalizing s d off p with
  | zero => exact rfl
  | succ fuel ih =>
    refine .ite (fun _ => rfl) fun _ => .ite (fun _ => ?_) fun _ => trivial
    refine .bind (freeinode_mapBlock s d _) fun r hr => ?_
    refine .bind (Q := fun _ => True) (.ite (fun _ => trivial) fun _ => trivial) fun b _ => ?_
    exact (ih _ _ _ _).conseq fun _ ht => Eq.trans ht hr

theorem freeinode_iappend (s : Image) (i : Nat) (p : List UInt8) : Keeps s (iappend s i p) := by
  refine .bind (Q := fun _ => True) ?_ fun d _ => .bind (freeinode_appendLoop _ s d _ p) fun r hr => ?_
  · exact .bind (Q := fun _ => True) (.ite (fun _ => trivial) fun _ => trivial) fun _ _ => trivial
  · exact (freeinode_winode _ _ _).trans hr

theorem freeinode_copyLoop (s : Image) (i : Nat) (rs : List Chunk) : Keeps s (copyLoop s i rs) := by
  induction rs generalizing s with
  | nil => exact rfl
  | cons r rs ih => exact .bind (freeinode_iappend s i r.1) fun s₁ h₁ => (ih s₁).trans h₁

theorem freeinode_addFiles (s : Image) (fs : List File) :
    Ends (addFiles s fs) (fun s' => s'.freeinode = s.freeinode + fs.length) fun _ => True := by
  induction fs generalizing s with
  | nil => exact rfl
  | cons f fs ih =>
    have hfile : Ends (addFile s f) (fun s' => s'.freeinode = s.freeinode + 1) fun _ => True := by
      refine .ite (fun _ => trivial) fun _ => .ite (fun _ => trivial) fun _ => ?_
      refine .bind (Q := fun r => r.2.freeinode = s.freeinode + 1) ?_ fun r hr => ?_
      · exact .bind (freeinode_winode _ _ _) fun t ht => ht
      · refine .bind (freeinode_iappend r.2 ROOTINO _) fun s₂ h₂ => ?_
        exact (freeinode_copyLoop s₂ r.1 f.reads).conseq fun _ h₃ => (h₃.trans h₂).trans hr
    refine .bind hfile fun s₁ h₁ => (ih s₁).conseq fun s₂ h₂ => ?_
    rw [h₂, h₁, List.length_cons]
    omega

end

/-! ### The beginning and the end -/

theorem good_blank : Good blank (fun _ => ⟨0, 0, 0, 0, 0, fun _ => 0⟩) fun _ => [] := by
  have hdata : blank.data = upd (fun _ _ => 0) 1 superblock := by
    unfold blank
    rw [wsect_eq (by decide)]
  have hno : ∀ i, ¬ Live blank.freeinode i := by
    rintro i ⟨h1, h2⟩
    have h2' : i < 1 := h2
    omega
  refine ⟨⟨⟨fun i k h => absurd h.1 (hno i), fun i k j l h => absurd h.1 (hno i), fun b h1 h2 => ?_⟩,
    Nat.le_refl _, by decide, fun b hb => ?_, fun i h => absurd h (hno i), fun i h => absurd h (hno i),
    fun i h => absurd h (hno i), fun i h => absurd h (hno i)⟩, fun i h => absurd h (hno i),
    fun i h => absurd h (hno i), fun i h => absurd h (hno i), ?_⟩
  · have h2' : b < nmeta := h2
    omega
  · rw [hdata, upd_other]
    have hb' : 47 ≤ b := hb
    omega
  · rw [hdata, upd_same]

/-- The entries that the root begins with. -/
def dots : List UInt8 := dirent ROOTINO [46] ++ dirent ROOTINO [46, 46]

theorem good_makeRoot : ∃ s D C, makeRoot = .ok s ∧ s.freeinode = 2 ∧ s.freeblock = nmeta + 1 ∧
    Good s D C ∧ C ROOTINO = dots := by
  obtain ⟨s₁, d₁, hia, hfi₁, hfb₁, h₁⟩ := good_blank.ialloc (by decide) T_DIR rfl
  have hfi₁' : s₁.freeinode = 2 := hfi₁
  have hfb₁' : s₁.freeblock = nmeta := hfb₁
  have hroot : ∀ {t : Image}, t.freeinode = 2 → Live t.freeinode ROOTINO := fun ht =>
    ⟨Nat.le_refl _, by rw [ht]; decide⟩
  have hspace : ∀ {t : Image}, t.freeinode = 2 → t.freeinode ≤ NSPACE := fun ht => by rw [ht]; decide
  have hone : blank.freeinode = ROOTINO := rfl
  rw [hone] at h₁
  have hdot := h₁.iappend (hspace hfi₁') (hroot hfi₁') (dirent ROOTINO [46])
  rw [upd_same, hfb₁'] at hdot
  obtain ⟨s₂, ha, hfi₂, hg₂, d₂, h₂⟩ :=
    (hdot.mono (fun _ => id) fun _ hnot => hnot ⟨by decide, by decide⟩).total
  have hfb₂ : s₂.freeblock = nmeta + 1 := hg₂
  have hfi₂' : s₂.freeinode = 2 := hfi₂.trans hfi₁'
  have hdotdot := h₂.iappend (hspace hfi₂') (hroot hfi₂') (dirent ROOTINO [46, 46])
  rw [upd_same, hfb₂] at hdotdot
  obtain ⟨s₃, hb, hfi₃, hg₃, d₃, h₃⟩ :=
    (hdotdot.mono (fun _ => id) fun _ hnot => hnot ⟨by decide, by decide⟩).total
  have hfb₃ : s₃.freeblock + 1 = nmeta + 1 + 1 := hg₃
  refine ⟨s₃, _, _, ?_, hfi₃.trans hfi₂', by omega, h₃, upd_same _ _ _⟩
  unfold makeRoot
  rw [hia, hone]
  show (if ROOTINO = ROOTINO then iappend s₁ ROOTINO (dirent ROOTINO [46]) >>= fun s =>
    iappend s ROOTINO (dirent ROOTINO [46, 46]) else .error .assert) = _
  rw [if_pos rfl, ha]
  exact hb

/-- **The image at the end.** -/
structure Made (s : Image) (D : Nat → Dinode) (C : Nat → List UInt8) : Prop where
  lay : Lay s.data s.freeinode s.freeblock D C
  size : ∀ i, Live s.freeinode i → i ≠ ROOTINO → (D i).size = (C i).length
  root : (D ROOTINO).size = ((C ROOTINO).length / BSIZE + 1) * BSIZE
  table : ∀ i, Live s.freeinode i → getDinode (s.data (iblock i)) (ioffset i) = D i
  kind : ∀ i, Live s.freeinode i → Kind i (D i)
  super : s.data 1 = superblock
  bits : s.data bmapstart = setBits s.freeblock

theorem Good.finish {s : Image} {D : Nat → Dinode} {C : Nat → List UInt8} (h : Good s D C)
    (hfi : s.freeinode ≤ NSPACE) (h1 : Live s.freeinode ROOTINO) :
    ∃ s' D', finish s = .ok s' ∧ s'.freeinode = s.freeinode ∧ Made s' D' C := by
  have hspace : ROOTINO < NSPACE := by decide
  unfold Mkfs.finish
  rw [rinode_eq s hspace, h.table _ h1]
  show ∃ s' D', (winode s ROOTINO { D ROOTINO with size := ((D ROOTINO).size / BSIZE + 1) * BSIZE } >>=
    fun t => balloc t t.freeblock) = .ok s' ∧ _
  rw [winode_eq _ _ hspace, h.size _ h1]
  have hused : s.freeblock < BPB := Nat.lt_of_le_of_lt h.lay.high (by decide)
  refine ⟨_, upd D ROOTINO { D ROOTINO with size := ((C ROOTINO).length / BSIZE + 1) * BSIZE },
    if_pos hused, rfl, ?_⟩
  rw [wsect_eq (show bmapstart < 4194304 by decide)]
  -- the root inode with its new size
  have hok : ({ D ROOTINO with size := ((C ROOTINO).length / BSIZE + 1) * BSIZE } : Dinode).Ok := by
    obtain ⟨k1, k2, k3, k4, -, k6⟩ := h.lay.ok h1 (h.kind _ h1) (h.size _ h1)
    refine ⟨k1, k2, k3, k4, ?_, k6⟩
    have hfits : (C ROOTINO).length ≤ 274432 := h.lay.fits _ h1
    show ((C ROOTINO).length / 1024 + 1) * 1024 < 2 ^ 32
    omega
  generalize hd : ({ D ROOTINO with size := ((C ROOTINO).length / BSIZE + 1) * BSIZE } : Dinode) = d at *
  have haddr : ∀ j, (upd D ROOTINO d j).addrs = (D j).addrs := by
    intro j
    rw [upd_apply]
    split
    · rename_i hj
      rw [← hd, hj]
    · rfl
  have hslot : ∀ img j k, slot img (upd D ROOTINO d j) k = slot img (D j) k := fun img j k =>
    slot_congr (haddr j) (fun _ => rfl) k
  have hlay : Lay s.data s.freeinode s.freeblock (upd D ROOTINO d) C := by
    refine ⟨h.lay.bump.congr fun j k _ => hslot _ j k, h.lay.low, h.lay.high, h.lay.zero, h.lay.fits,
      fun j hj bn hbn => ?_, fun j hj => ?_, fun j hj y hy => ?_⟩
    · unfold blockOf
      rw [hslot]
      exact h.lay.alloc j hj bn hbn
    · rw [haddr]
      exact h.lay.ind j hj
    · unfold blockOf
      rw [hslot]
      exact h.lay.bytes j hj y hy
  have hib : ∀ i, i < NSPACE → iblock i ≠ bmapstart := fun i hi => Nat.ne_of_lt (iblock_lt hi)
  refine ⟨?_, fun i hi hne => ?_, ?_, fun i hi => ?_, fun i hi => ?_, ?_, ?_⟩
  · refine hlay.congr fun b hb => ?_
    have hb' : 47 ≤ b := hb
    dsimp only
    rw [upd_other _ _ (show b ≠ bmapstart by show b ≠ 46; omega), upd_other]
    have := iblock_lt hspace
    have : iblock ROOTINO < 46 := this
    omega
  · rw [upd_other _ _ hne]
    exact h.size i hi
  · rw [upd_same, ← hd]
  · have hi' : i < NSPACE := Nat.lt_of_lt_of_le hi.2 hfi
    dsimp only
    rw [upd_other _ _ (hib i hi'), table_winode hok]
    by_cases hir : i = ROOTINO
    · rw [if_pos hir, hir, upd_same]
    · rw [if_neg hir, upd_other _ _ hir]
      exact h.table i hi
  · by_cases hir : i = ROOTINO
    · rw [hir, upd_same, ← hd]
      exact h.kind _ h1
    · rw [upd_other _ _ hir]
      exact h.kind i hi
  · dsimp only
    rw [upd_other _ _ (show 1 ≠ bmapstart by decide), upd_other _ _ (one_ne_iblock _)]
    exact h.super
  · dsimp only
    rw [upd_same]

/-- **The whole program**, for a number of files that the inode blocks have room for. -/
theorem mkfs_ends {files : List File} (hn : files.length + 2 ≤ NSPACE) :
    Ends (mkfs files) (fun s => (∀ f ∈ files, f.Named) ∧ s.freeinode = files.length + 2 ∧ ∃ D C, Made s D C ∧
      C ROOTINO = dots ++ entries 2 files ∧ ∀ k f, files[k]? = some f → C (2 + k) = f.content)
      fun _ => ¬ Fits (nmeta + 1) 32 files := by
  obtain ⟨s₀, D₀, C₀, hr, hfi₀, hfb₀, h₀, hC₀⟩ := good_makeRoot
  have hl₀ : Live s₀.freeinode ROOTINO := ⟨Nat.le_refl _, by rw [hfi₀]; decide⟩
  have hadd := h₀.addFiles hl₀ (show s₀.freeinode + files.length ≤ NSPACE by omega)
  rw [hC₀, hfb₀, hfi₀] at hadd
  unfold mkfs
  rw [hr]
  show Ends (addFiles s₀ files >>= finish) _ _
  refine .bind hadd ?_
  rintro s₁ ⟨hnamed, hfi₁, D₁, C₁, h₁, hroot, hother⟩
  obtain ⟨s₂, D₂, hf, hfi₂, h₂⟩ :=
    h₁.finish (by omega) ⟨Nat.le_refl _, by rw [hfi₁]; show 1 < _; omega⟩
  rw [hf]
  refine ⟨hnamed, by omega, D₂, C₁, h₂, hroot, fun k f hk => ?_⟩
  rw [hother _ (show 2 + k ≠ 1 by omega)]
  exact contents_get hk

/-- **`mkfs` finishes** when the files fit. -/
theorem mkfs_total {files : List File} (hn : files.length + 2 ≤ NSPACE) (h : Fits (nmeta + 1) 32 files) :
    ∃ s, mkfs files = .ok s ∧ (∀ f ∈ files, f.Named) ∧ s.freeinode = files.length + 2 ∧ ∃ D C, Made s D C ∧
      C ROOTINO = dots ++ entries 2 files ∧ ∀ k f, files[k]? = some f → C (2 + k) = f.content :=
  ((mkfs_ends hn).mono (fun _ => id) fun _ hnot => hnot h).total

/-! ### The map of the free blocks -/

theorem testBit_setBits (n i : Nat) :
    (setBits n (i / 8)).toNat.testBit (i % 8) = decide (i < n) := by
  induction n with
  | zero =>
    show (0 : UInt8).toNat.testBit (i % 8) = _
    simp
  | succ n ih =>
    have hlt : 2 ^ (n % 8) < 256 := by
      have : n % 8 < 8 := Nat.mod_lt _ (by decide)
      calc 2 ^ (n % 8) < 2 ^ 8 := Nat.pow_lt_pow_right (by decide) this
        _ = 256 := rfl
    rw [setBits, upd_apply]
    split
    · rename_i hd
      rw [UInt8.toNat_or, Nat.testBit_or, ← hd, ih, UInt8.toNat_ofNat', Nat.mod_eq_of_lt hlt,
        Nat.testBit_two_pow]
      by_cases hin : i = n
      · simp [hin]
      · have hmod : ¬ n % 8 = i % 8 := by omega
        have hiff : i < n + 1 ↔ i < n := by omega
        simp [hmod, hiff]
    · rename_i hd
      rw [ih]
      have hiff : i < n + 1 ↔ i < n := by
        have : i ≠ n := fun h => hd (by rw [h])
        omega
      simp [hiff]

/-! ### Well-formed images -/

/-- The inode `i` as it is on the image. -/
def inodeOf (s : Image) (i : Nat) : Dinode := getDinode (s.data (iblock i)) (ioffset i)

/-- The block number in slot `k` of inode `i`. -/
def heldBy (s : Image) (i k : Nat) : Nat := slot s.data (inodeOf s i) k

/-- The bit of a block in the free map. -/
def marked (s : Image) (b : Nat) : Bool := (s.data (b / BPB + bmapstart) (b % BPB / 8)).toNat.testBit (b % 8)

/-- **A well-formed image**: the inode numbers in use are below `sb.ninodes`; the blocks of the inodes
are data blocks, each held once and marked as used; the other data blocks are marked as free; and
every block below the size of an inode is there. -/
structure WellFormed (s : Image) : Prop where
  inums : ∀ i, Live s.freeinode i → i < NINODES
  range : ∀ i k, LiveSlot s.freeinode i k → heldBy s i k ≠ 0 →
    nmeta ≤ heldBy s i k ∧ heldBy s i k < FSSIZE ∧ marked s (heldBy s i k) = true
  once : ∀ i k j l, LiveSlot s.freeinode i k → LiveSlot s.freeinode j l → heldBy s i k ≠ 0 →
    heldBy s i k = heldBy s j l → i = j ∧ k = l
  free : ∀ b, nmeta ≤ b → b < FSSIZE → (∀ i k, LiveSlot s.freeinode i k → heldBy s i k ≠ b) →
    marked s b = false
  full : ∀ i, Live s.freeinode i → ∀ bn, bn * BSIZE < (inodeOf s i).size →
    bn < MAXFILE ∧ blockOf s.data (inodeOf s i) bn ≠ 0

theorem entries_length {i : Nat} {fs : List File} (h : ∀ f ∈ fs, f.Named) :
    (entries i fs).length = 16 * fs.length := by
  induction fs generalizing i with
  | nil => rfl
  | cons f fs ih =>
    rw [entries, List.length_append, dirent_length (h f (by simp)).2, List.length_cons,
      ih fun g hg => h g (List.mem_cons_of_mem _ hg)]
    omega

theorem marked_eq {s : Image} {D : Nat → Dinode} {C : Nat → List UInt8} (h : Made s D C) {b : Nat}
    (hb : b < FSSIZE) : marked s b = decide (b < s.freeblock) := by
  have hb' : b < 2000 := hb
  have hdiv : b / BPB + bmapstart = bmapstart := by
    show b / 8192 + 46 = 46
    omega
  have hmod : b % BPB = b := Nat.mod_eq_of_lt (by show b < 8192; omega)
  unfold marked
  rw [hdiv, hmod, h.bits]
  exact testBit_setBits _ _

theorem freeinode_mkfs (files : List File) :
    Ends (mkfs files) (fun s => s.freeinode = files.length + 2) fun _ => True := by
  obtain ⟨s₀, -, -, hr, hfi₀, -⟩ := good_makeRoot
  unfold mkfs
  rw [hr]
  show Ends (addFiles s₀ files >>= finish) _ _
  refine .bind (freeinode_addFiles s₀ files) fun s₁ h₁ => ?_
  have hfi : s₁.freeinode = files.length + 2 := by omega
  refine .bind (Q := fun _ => True) ?_ fun d _ => .bind (freeinode_winode s₁ _ _) fun t ht => ?_
  · exact .bind (Q := fun _ => True) (.ite (fun _ => trivial) fun _ => trivial) fun _ _ => trivial
  · exact .ite (fun _ => ht.trans hfi) fun _ => trivial

/-- With more than `198` files an inode number of `NINODES` or more is in use. -/
theorem not_wellFormed_of_many {files : List File} {s : Image} (h : mkfs files = .ok s)
    (hn : ¬ files.length ≤ 198) : ¬ WellFormed s := by
  intro hw
  have hfi := (freeinode_mkfs files).of_ok h
  have := hw.inums 200 ⟨by decide, by omega⟩
  exact absurd this (by decide)

section

variable {files : List File} {s : Image} {D : Nat → Dinode} {C : Nat → List UInt8}

theorem Made.held (hm : Made s D C) {i k : Nat} (hik : LiveSlot s.freeinode i k) :
    heldBy s i k = slot s.data (D i) k := by
  unfold heldBy inodeOf
  rw [hm.table i hik.1]

theorem live_root (hfi : s.freeinode = files.length + 2) : Live s.freeinode ROOTINO :=
  ⟨Nat.le_refl _, by rw [hfi]; show 1 < _; omega⟩

theorem root_length (hnamed : ∀ f ∈ files, f.Named) :
    (dots ++ entries 2 files).length = 16 * (files.length + 2) := by
  rw [List.length_append, entries_length hnamed]
  show 32 + 16 * files.length = _
  omega

end

/-- When the entries fill the blocks of the root, its last block is missing. -/
theorem not_wellFormed_of_full {files : List File} {s : Image} (h : mkfs files = .ok s)
    (hn : files.length ≤ 198) (hmul : (files.length + 2) % 64 = 0) : ¬ WellFormed s := by
  intro hw
  obtain ⟨hnamed, hfi, D, C, hm, hroot, -⟩ := (mkfs_ends (by show files.length + 2 ≤ 208; omega)).of_ok h
  have hlroot := live_root hfi
  have hlen : (C ROOTINO).length = 16 * (files.length + 2) := by rw [hroot, root_length hnamed]
  have hinode : inodeOf s ROOTINO = D ROOTINO := hm.table _ hlroot
  obtain ⟨hlt, hne⟩ := hw.full ROOTINO hlroot ((C ROOTINO).length / BSIZE) (by
    rw [hinode, hm.root]
    show (C ROOTINO).length / 1024 * 1024 < ((C ROOTINO).length / 1024 + 1) * 1024
    omega)
  rw [hinode] at hne
  have hlast : (C ROOTINO).length / 1024 * 1024 < (C ROOTINO).length :=
    (hm.lay.alloc _ hlroot _ hlt).1 hne
  omega

theorem wellFormed_of_mkfs {files : List File} {s : Image} (h : mkfs files = .ok s)
    (hn : files.length ≤ 198) (hmul : (files.length + 2) % 64 ≠ 0) : WellFormed s := by
  obtain ⟨hnamed, hfi, D, C, hm, hroot, -⟩ := (mkfs_ends (by show files.length + 2 ≤ 208; omega)).of_ok h
  have hlen : (C ROOTINO).length = 16 * (files.length + 2) := by rw [hroot, root_length hnamed]
  refine ⟨fun i hi => ?_, fun i k hik hne => ?_, fun i k j l hik hjl hne heq => ?_,
    fun b hlow hhigh hnot => ?_, fun i hi bn hbn => ?_⟩
  · have := hi.2
    show i < 200
    omega
  · rw [hm.held hik] at hne ⊢
    obtain ⟨hlow, hhigh⟩ := hm.lay.bump.range i k hik hne
    have hsize := Nat.lt_of_lt_of_le hhigh hm.lay.high
    refine ⟨hlow, hsize, ?_⟩
    rw [marked_eq hm hsize]
    exact decide_eq_true hhigh
  · rw [hm.held hik] at hne heq
    rw [hm.held hjl] at heq
    exact hm.lay.bump.inj i k j l hik hjl hne heq
  · rw [marked_eq hm hhigh]
    refine decide_eq_false fun hlt => ?_
    obtain ⟨i, k, hik, hb⟩ := hm.lay.bump.cover b hlow hlt
    exact hnot i k hik ((hm.held hik).trans hb)
  · have hinode : inodeOf s i = D i := hm.table i hi
    rw [hinode] at hbn ⊢
    have hfits : (C i).length ≤ 274432 := hm.lay.fits i hi
    have hbn' : bn * 1024 < (C i).length := by
      by_cases hir : i = ROOTINO
      · subst hir
        rw [hm.root] at hbn
        have hbn' : bn * 1024 < ((C ROOTINO).length / 1024 + 1) * 1024 := hbn
        omega
      · rw [hm.size i hi hir] at hbn
        exact hbn
    have hlt : bn < MAXFILE := by
      show bn < 268
      omega
    exact ⟨hlt, (hm.lay.alloc i hi bn hlt).2 hbn'⟩

/-- **When `mkfs` makes a well-formed image**: with at most `198` files, unless their entries fill the
blocks of the root exactly. -/
theorem mkfs_wellFormed {files : List File} {s : Image} (h : mkfs files = .ok s) :
    WellFormed s ↔ files.length ≤ 198 ∧ (files.length + 2) % 64 ≠ 0 := by
  constructor
  · intro hw
    have hn : files.length ≤ 198 := by
      by_contra hn
      exact not_wellFormed_of_many h hn hw
    exact ⟨hn, fun hmul => not_wellFormed_of_full h hn hmul hw⟩
  · intro hc
    exact wellFormed_of_mkfs h hc.1 hc.2

/-- An empty file of the name `a`. -/
def smallFile : File := ⟨[97], by decide, []⟩

/-- A file `b` of 1026 bytes, in two blocks. -/
def longFile : File :=
  ⟨[98], by decide, [⟨List.replicate 1024 7, nofun, Nat.le_of_eq List.length_replicate⟩, ⟨[8, 9], by decide⟩]⟩

theorem fits_two : Fits (nmeta + 1) 32 [smallFile, longFile] where
  named := by
    intro f hf
    simp only [List.mem_cons, List.not_mem_nil, or_false] at hf
    rcases hf with rfl | rfl
    · exact ⟨by decide, by decide⟩
    · exact ⟨by decide, by decide⟩
  size := by decide +kernel
  dir := by decide
  total := by decide +kernel

theorem mkfs_wellFormed_two : ∃ s, mkfs [smallFile, longFile] = .ok s ∧ WellFormed s := by
  obtain ⟨s, h, -⟩ := mkfs_total (by decide) fits_two
  exact ⟨s, h, (mkfs_wellFormed h).2 (by decide)⟩

/-- **Sixty-two files**: the entries of the root fill one block, and `mkfs` gives it the size of two. -/
theorem mkfs_root_short : ∃ s, mkfs (List.replicate 62 smallFile) = .ok s ∧ ¬ WellFormed s := by
  have hfits : Fits (nmeta + 1) 32 (List.replicate 62 smallFile) :=
    ⟨fun f hf => by rw [List.eq_of_mem_replicate hf]; exact ⟨by decide, by decide⟩, by decide, by decide,
      by decide⟩
  obtain ⟨s, h, -⟩ := mkfs_total (by decide) hfits
  exact ⟨s, h, not_wellFormed_of_full h (by decide) (by decide)⟩

end Xv6.Mkfs
