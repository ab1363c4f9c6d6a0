import Mathlib.Data.List.Nodup
import Mathlib.Data.List.TakeWhile
import Xv6.Mkfs.Kernel
import Xv6.Mkfs.Sound

/-!
# The kernel reads what `mkfs` wrote

`bmap` finds the blocks that `iappend` gave to a file, so `readi` copies its bytes, and the entries of
the root are found by `dirlookup` in the order of the arguments.  Three names are special: `.` and
`..` are found first as the root itself, and the empty name (an argument `_`) is no element of a path.
-/

namespace Xv6.Mkfs.Kernel

open Xv6.Lib
open Xv6.Content

/-! ### Reading a file -/

variable {fs : Fs} {inum : Nat} {xs : List UInt8}

theorem held_files (fs : Fs) (i : Nat) {bn : Nat} (hbn : bn < MAXFILE) :
    fs.files.held i bn = blockOf fs.disk (fs.dinode i) bn := by
  unfold Disk.held blockOf slotIdx
  by_cases hd : bn < NDIRECT
  · rw [if_pos hd, if_pos hd]
    exact (dif_pos (Nat.lt_succ_of_lt hd)).trans (slot_addr (k := ⟨bn, Nat.lt_succ_of_lt hd⟩)).symm
  · have hge : ¬ bn + 1 < NDIRECT + 1 := by omega
    have hlast : fs.files.addrs i NDIRECT = (fs.dinode i).addrs last := rfl
    rw [if_neg hd, if_pos hbn, if_neg hd, hlast]
    by_cases h0 : (fs.dinode i).addrs last = 0
    · rw [if_pos h0, slot_none hge h0]
    · rw [if_neg h0, slot_ind hge h0, Nat.add_sub_add_right]
      rfl

/-- The blocks of an inode hold these bytes. -/
def Holds (s : Disk) (i : Nat) (xs : List UInt8) : Prop :=
  ∀ x < xs.length, x / BSIZE < MAXFILE ∧ s.held i (x / BSIZE) ≠ 0 ∧ xs[x]? = some (s.byteOf i x)

theorem Holds.readLoop {s : Disk} {i : Nat} (h : Holds s i xs) {off n : Nat} (hlen : off + n ≤ xs.length) :
    Disk.readLoop i n s off n = some ((xs.drop off).take n, s) := by
  rw [Disk.readLoop_held n n off (Nat.le_refl n) fun x hx => ⟨(h x (by omega)).1, (h x (by omega)).2.1⟩]
  congr 2
  refine List.ext_getElem? fun k => ?_
  by_cases hk : k < n
  · rw [List.getElem?_take_of_lt hk, List.getElem?_drop, (h (off + k) (by omega)).2.2, List.getElem?_map,
      List.getElem?_range hk, Option.map_some]
  · rw [List.getElem?_eq_none (by simp; omega), List.getElem?_eq_none (by simp; omega)]

/-- **`readi`**, for a request that does not pass the last byte. -/
theorem Holds.readi {s : Disk} {i : Nat} (h : Holds s i xs) {off n : Nat} (hsize : xs.length ≤ s.size i)
    (hd : s.size i < 2 ^ 32) (hlen : off + n ≤ xs.length) : s.readi i off n = some ((xs.drop off).take n, s) := by
  have hmod : (off + n) % 2 ^ 32 = off + n := Nat.mod_eq_of_lt (by omega)
  unfold Disk.readi
  rw [hmod, if_neg (by omega), if_neg (by omega)]
  exact h.readLoop hlen

/-- **`readi` of a whole file**: the bytes that the request covers, unless the request passes the end
of the 32-bit offsets. -/
theorem Holds.readi_file {s : Disk} {i : Nat} (h : Holds s i xs) {off n : Nat} (hsize : s.size i = xs.length)
    (hd : s.size i < 2 ^ 32) (hoff : off < 2 ^ 32) (hn : n < 2 ^ 32) :
    s.readi i off n = some (if off + n < 2 ^ 32 then (xs.drop off).take n else [], s) := by
  by_cases hsum : off + n < 2 ^ 32
  · rw [if_pos hsum]
    have hmod : (off + n) % 2 ^ 32 = off + n := Nat.mod_eq_of_lt hsum
    by_cases hover : s.size i < off
    · unfold Disk.readi
      rw [if_pos (Or.inl hover), List.drop_eq_nil_of_le (by omega), List.take_nil]
    by_cases hclip : s.size i < off + n
    · unfold Disk.readi
      rw [hmod, if_neg (by omega), if_pos hclip, h.readLoop (by omega), hsize]
      rw [← List.length_drop, List.take_length, List.take_of_length_le]
      rw [List.length_drop]
      omega
    · exact h.readi (by omega) hd (by omega)
  · have hwrap : (off + n) % 2 ^ 32 < off := by omega
    unfold Disk.readi
    rw [if_neg hsum, if_pos (Or.inr hwrap)]

variable (fs) in
theorem holds_of_lay {fi fb i : Nat} {D : Nat → Dinode} {C : Nat → List UInt8}
    (h : Lay fs.disk fi fb D C) (hi : Live fi i) (hD : fs.dinode i = D i) : Holds fs.files i (C i) := by
  intro x hx
  have hfits : (C i).length ≤ 274432 := h.fits i hi
  have hlt : x / BSIZE < MAXFILE := by
    show x / 1024 < 268
    omega
  have hne : blockOf fs.disk (D i) (x / BSIZE) ≠ 0 :=
    (h.alloc i hi _ hlt).2 (Nat.lt_of_le_of_lt (Nat.div_mul_le_self x BSIZE) hx)
  unfold Disk.byteOf
  rw [held_files fs i hlt, hD, if_neg hne]
  exact ⟨hlt, hne, h.bytes i hi x hx⟩

/-! ### Names -/

theorem truncated_append {a : List UInt8} (ha : 0 ∉ a) (hla : a.length ≤ DIRSIZ) (m : Nat) :
    truncated (a ++ List.replicate m 0) = a := by
  have hall : ∀ x ∈ a, decide (x ≠ 0) = true := fun x hx =>
    decide_eq_true fun h0 => ha (by rw [← h0]; exact hx)
  unfold truncated cut
  rw [List.take_append, List.take_of_length_le hla, List.takeWhile_append_of_pos hall, List.take_replicate]
  cases min (DIRSIZ - a.length) m <;> simp [List.replicate_succ]

theorem namecmp_eq_zero {a b : List UInt8} (ha : 0 ∉ a) (hb : 0 ∉ b) (hla : a.length ≤ DIRSIZ)
    (hlb : b.length ≤ DIRSIZ) (m : Nat) : namecmp a (b ++ List.replicate m 0) = 0 ↔ a = b := by
  have ha' := truncated_append ha hla 0
  rw [List.replicate_zero, List.append_nil] at ha'
  rw [namecmp_truncated, ha', truncated_append hb hlb]

variable {name : List UInt8} {l : List (Nat × List UInt8)}

theorem deInum_dirent {i : Nat} (hi : i < 65536) : deInum (dirent i name) = i := by
  have h : le16 (put (fun _ => 0) 0 (bytes16 i)) 0 = i := le16_put hi
  exact h

theorem deName_dirent (i : Nat) (name : List UInt8) :
    deName (dirent i name) = name ++ List.replicate (DIRSIZ - name.length) 0 := rfl

/-! ### The root -/

/-- The entries of a directory, as pairs. -/
def pairs (i : Nat) : List File → List (Nat × List UInt8)
  | [] => []
  | f :: fs => (i, f.shortname) :: pairs (i + 1) fs

/-- The bytes of such entries. -/
def dirBytes (l : List (Nat × List UInt8)) : List UInt8 := l.flatMap fun p => dirent p.1 p.2

theorem dirBytes_pairs (i : Nat) (l : List File) : dirBytes (pairs i l) = entries i l := by
  induction l generalizing i with
  | nil => rfl
  | cons f l ih => exact congrArg (dirent i f.shortname ++ ·) (ih (i + 1))

theorem pairs_get {i k : Nat} {l : List File} {f : File} (h : l[k]? = some f) :
    (pairs i l)[k]? = some (i + k, f.shortname) := by
  induction l generalizing i k with
  | nil => simp at h
  | cons g l ih =>
    cases k with
    | zero =>
      rw [List.getElem?_cons_zero] at h
      cases h
      rfl
    | succ k =>
      rw [List.getElem?_cons_succ] at h
      have hk := ih (i := i + 1) h
      rw [Nat.add_assoc, Nat.add_comm 1 k] at hk
      exact hk

theorem length_pairs (i : Nat) (l : List File) : (pairs i l).length = l.length := by
  induction l generalizing i with
  | nil => rfl
  | cons f l ih => exact congrArg (· + 1) (ih (i + 1))

/-- What the kernel needs of an entry: a number, and a name without NUL. -/
def Entry (p : Nat × List UInt8) : Prop := 0 < p.1 ∧ p.1 < 65536 ∧ 0 ∉ p.2 ∧ p.2.length ≤ DIRSIZ

theorem dirBytes_get (hl : ∀ p ∈ l, Entry p) {e : Nat} {p : Nat × List UInt8} (h : l[e]? = some p) :
    16 * e + 16 ≤ (dirBytes l).length ∧ ((dirBytes l).drop (16 * e)).take 16 = dirent p.1 p.2 := by
  induction l generalizing e with
  | nil => simp at h
  | cons q l ih =>
    have hq : (dirent q.1 q.2).length = 16 := dirent_length (hl q List.mem_cons_self).2.2.2
    have hcons : dirBytes (q :: l) = dirent q.1 q.2 ++ dirBytes l := rfl
    rw [hcons, List.length_append, hq]
    cases e with
    | zero =>
      rw [List.getElem?_cons_zero] at h
      cases h
      refine ⟨by omega, ?_⟩
      rw [Nat.mul_zero, List.drop_zero, ← hq, List.take_left]
    | succ e =>
      rw [List.getElem?_cons_succ] at h
      obtain ⟨hlen, htake⟩ := ih (fun p hp => hl p (List.mem_cons_of_mem _ hp)) h
      refine ⟨by omega, ?_⟩
      have hdrop : 16 * (e + 1) = (dirent q.1 q.2).length + 16 * e := by omega
      rw [hdrop, List.drop_append, Nat.add_sub_cancel_left, List.drop_eq_nil_of_le (by omega), List.nil_append]
      exact htake

theorem lookupLoop_entry (hl : ∀ p ∈ l, Entry p) {s : Disk} {i : Nat} (h : Holds s i (dirBytes l))
    (hsize : (dirBytes l).length ≤ s.size i) (hd : s.size i < 2 ^ 32) (hname : 0 ∉ name)
    (hlen : name.length ≤ DIRSIZ) {e : Nat} {p : Nat × List UInt8} (he : l[e]? = some p) (fuel : Nat) :
    s.lookupLoop i name (fuel + 1) (16 * e) =
      if name = p.2 then some (some (p.1, 16 * e), s) else s.lookupLoop i name fuel (16 * (e + 1)) := by
  obtain ⟨hb, hbytes⟩ := dirBytes_get hl he
  obtain ⟨hpos, hlt, hnul, hplen⟩ := hl p (List.mem_of_getElem? he)
  have hread : s.readi i (16 * e) 16 = _ := h.readi hsize hd hb
  rw [hbytes] at hread
  have hne : p.1 ≠ 0 := Nat.ne_of_gt hpos
  conv_lhs => unfold Disk.lookupLoop
  rw [if_pos (by omega), hread]
  simp only [dirent_length hplen, ne_eq, not_true_eq_false, if_false, deInum_dirent hlt, hne, deName_dirent,
    namecmp_eq_zero hname hnul hlen hplen]
  rfl

/-- **The loop of `dirlookup`** stops at the first entry of the name. -/
theorem lookupLoop_first (hl : ∀ p ∈ l, Entry p) {s : Disk} {i : Nat} (h : Holds s i (dirBytes l))
    (hsize : (dirBytes l).length ≤ s.size i) (hd : s.size i < 2 ^ 32) (hname : 0 ∉ name)
    (hlen : name.length ≤ DIRSIZ) {e : Nat} (r : Nat) (he : l[e + r]? = some (inum, name))
    (hfirst : ∀ j p, e ≤ j → j < e + r → l[j]? = some p → p.2 ≠ name) {fuel : Nat}
    (hfuel : r < fuel) : s.lookupLoop i name fuel (16 * e) = some (some (inum, 16 * (e + r)), s) := by
  induction r generalizing e fuel with
  | zero =>
    cases fuel with
    | zero => omega
    | succ fuel =>
      rw [Nat.add_zero] at he
      rw [lookupLoop_entry hl h hsize hd hname hlen he, if_pos rfl, Nat.add_zero]
  | succ r ih =>
    cases fuel with
    | zero => omega
    | succ fuel =>
      have hex : e < l.length := by
        have := (List.getElem?_eq_some_iff.1 he).1
        omega
      have hp := List.getElem?_eq_getElem hex
      have hne := hfirst e _ (Nat.le_refl e) (by omega) hp
      have hassoc : e + (r + 1) = e + 1 + r := by omega
      rw [hassoc] at he ⊢
      rw [lookupLoop_entry hl h hsize hd hname hlen hp, if_neg (Ne.symm hne)]
      exact ih he (fun j q hj hjr => hfirst j q (by omega) (by omega)) (by omega)

/-! ### Paths -/

theorem skipelem_one (hne : name ≠ []) (hs : 47 ∉ name) (hlen : name.length ≤ DIRSIZ) :
    skipelem (47 :: name) = some (name, []) := by
  have hhead : (47 :: name).dropWhile (· == 47) = name := by
    cases name with
    | nil => exact absurd rfl hne
    | cons x name =>
      have hx : x ≠ 47 := fun h => hs (by rw [h]; exact List.mem_cons_self)
      simp [hx]
  have hall : ∀ x ∈ name, (x != 47) = true := fun x hx => by
    have hx' : x ≠ 47 := fun h => hs (by rw [← h]; exact hx)
    simp [hx']
  unfold skipelem
  simp only [hhead, if_neg hne]
  rw [List.takeWhile_eq_self_iff.2 hall, List.dropWhile_eq_nil_iff.2 hall, List.take_of_length_le hlen]
  rfl

theorem skipelem_nil : skipelem [] = none := rfl

/-- **A path of one element**, in a directory that has it. -/
theorem namei_one (hne : name ≠ []) (hs : 47 ∉ name) (hlen : name.length ≤ DIRSIZ) {d : Dinode}
    (hroot : ilock fs ROOTINO = .ok d) (hdir : d.type = T_DIR) (off : Nat)
    (hl : fs.files.dirlookup ROOTINO name = some (some (inum, off), fs.files)) :
    namei fs (47 :: name) = .ok (some inum, fs.files) := by
  obtain ⟨k, hk⟩ : ∃ k, name.length = k + 1 := Nat.exists_eq_succ_of_ne_zero fun h0 =>
    hne (List.eq_nil_of_length_eq_zero h0)
  unfold namei
  rw [List.length_cons, hk]
  unfold namex
  simp only [skipelem_one hne hs hlen, hroot, bind, Except.bind, hdir, ne_eq, not_true_eq_false, if_false, hl]
  unfold namex
  rw [skipelem_nil]

/-! ### The image of `mkfs` -/

theorem readsb_superblock {disk : Nat → Bytes} (h : disk 1 = superblock) :
    (readsb disk).magic = FSMAGIC ∧ (readsb disk).inodestart = inodestart := by
  unfold readsb
  rw [h]
  decide

theorem dinode_made {s : Image} {D : Nat → Dinode} {C : Nat → List UInt8} (hm : Made s D C) {i : Nat}
    (hi : Live s.freeinode i) : (⟨s.data, readsb s.data⟩ : Fs).dinode i = D i := by
  have ht := hm.table i hi
  unfold iblock ioffset at ht
  unfold Fs.dinode
  simp only [(readsb_superblock hm.super).2, ht]

theorem ilock_made {s : Image} {D : Nat → Dinode} {C : Nat → List UInt8} (hm : Made s D C) {i : Nat}
    (hi : Live s.freeinode i) : ilock ⟨s.data, readsb s.data⟩ i = .ok (D i) := by
  have hne : (D i).type ≠ 0 := by
    rw [(hm.kind i hi).1]
    split <;> decide
  unfold ilock
  rw [dinode_made hm hi, if_neg hne]

theorem noNul_shortname (f : File) : 0 ∉ f.shortname := by
  have hbase : 0 ∉ f.base := by
    unfold File.base
    split
    · exact fun h => f.noNul (List.mem_of_mem_drop h)
    · exact f.noNul
  unfold File.shortname
  split
  · exact fun h => hbase (List.mem_of_mem_drop h)
  · exact hbase

theorem slash_shortname {f : File} (h : f.Named) : 47 ∉ f.shortname := by
  unfold File.shortname
  split
  · exact fun hm => h.1 (List.mem_of_mem_drop hm)
  · exact h.1

/-- The entries of the root. -/
def rootPairs (files : List File) : List (Nat × List UInt8) :=
  (ROOTINO, [46]) :: (ROOTINO, [46, 46]) :: pairs 2 files

theorem dirBytes_rootPairs (files : List File) : dirBytes (rootPairs files) = dots ++ entries 2 files := by
  rw [← dirBytes_pairs]
  rfl

theorem entry_rootPairs {files : List File} (hn : files.length ≤ 198) (hnamed : ∀ f ∈ files, f.Named) :
    ∀ p ∈ rootPairs files, Entry p := by
  intro p hp
  rcases List.mem_cons.1 hp with rfl | hp
  · exact ⟨by decide, by decide, by decide, by decide⟩
  rcases List.mem_cons.1 hp with rfl | hp
  · exact ⟨by decide, by decide, by decide, by decide⟩
  obtain ⟨k, hk⟩ := List.mem_iff_getElem?.1 hp
  have hlt : k < files.length := by
    rw [← length_pairs 2 files]
    exact (List.getElem?_eq_some_iff.1 hk).1
  have hf := List.getElem?_eq_getElem hlt
  rw [pairs_get hf] at hk
  cases hk
  refine ⟨?_, ?_, noNul_shortname _, (hnamed _ (List.getElem_mem hlt)).2⟩
  · show 0 < 2 + k
    omega
  · show 2 + k < 65536
    omega

theorem rootPairs_first {files : List File} (hd : (files.map File.shortname).Nodup) {k : Nat} {f : File}
    (hk : files[k]? = some f) (h1 : f.shortname ≠ [46]) (h2 : f.shortname ≠ [46, 46]) :
    ∀ j p, 0 ≤ j → j < 0 + (k + 2) → (rootPairs files)[j]? = some p → p.2 ≠ f.shortname := by
  intro j p _ hj hp
  rcases j with _ | _ | j
  · cases hp
    exact h1.symm
  · cases hp
    exact h2.symm
  · have hkl : k < files.length := (List.getElem?_eq_some_iff.1 hk).1
    have hjl : j < files.length := by omega
    have hp' : (pairs 2 files)[j]? = some p := hp
    rw [pairs_get (List.getElem?_eq_getElem hjl)] at hp'
    cases hp'
    intro heq
    have hinj := (List.nodup_iff_getElem?_ne_getElem?.1 hd) j k (by omega) (by rw [List.length_map]; exact hkl)
    apply hinj
    rw [List.getElem?_map, List.getElem?_map, hk, List.getElem?_eq_getElem hjl]
    exact congrArg some heq

/-- **`mkfs` and the kernel agree**, on files that fit into the image: `mkfs` finishes, and a file whose
name is not empty and not `.` or `..` is found from the root, with its size, and `readi` returns its
bytes.  A request whose end does not fit into 32 bits returns nothing. -/
theorem kernel_reads_mkfs {files : List File} (hn : files.length ≤ 198)
    (hd : (files.map File.shortname).Nodup) (hnamed : ∀ f ∈ files, f.Named)
    (hfile : ∀ f ∈ files, f.content.length ≤ MAXFILE * BSIZE)
    (htotal : (files.map fun f => blocksOf f.content.length).sum + blocksOf (16 * (files.length + 2)) ≤
      nblocks) :
    ∃ s, mkfs files = .ok s ∧ ∀ f ∈ files, f.shortname ≠ [] → f.shortname ≠ [46] → f.shortname ≠ [46, 46] →
      ∃ fs inum d, fsinit s.data = .ok fs ∧ namei fs (47 :: f.shortname) = .ok (some inum, fs.files) ∧
        ilock fs inum = .ok d ∧ d.type = T_FILE ∧ d.size = f.content.length ∧
        ∀ off n, off < 2 ^ 32 → n < 2 ^ 32 → fs.files.readi inum off n =
          some (if off + n < 2 ^ 32 then (f.content.drop off).take n else [], fs.files) := by
  have hroom : 32 + 16 * files.length = 16 * (files.length + 2) := by omega
  have hfits : Fits (nmeta + 1) 32 files := by
    refine ⟨hnamed, hfile, by show 32 + 16 * files.length ≤ 274432; omega, ?_⟩
    have h32 : blocksOf 32 = 1 := rfl
    have hb : nmeta + nblocks = FSSIZE := by decide
    rw [hroom, h32]
    omega
  obtain ⟨s, hs, -, hfi, D, C, hm, hroot, hcont⟩ :=
    mkfs_total (by show files.length + 2 ≤ 208; omega) hfits
  refine ⟨s, hs, fun f hmem h0 h1 h2 => ?_⟩
  obtain ⟨k, hk⟩ := List.mem_iff_getElem?.1 hmem
  have hkl : k < files.length := (List.getElem?_eq_some_iff.1 hk).1
  have hf : f.Named := hnamed f hmem
  have hlr : Live s.freeinode ROOTINO := live_root hfi
  have hlk : Live s.freeinode (2 + k) := ⟨by omega, by omega⟩
  have hne : 2 + k ≠ ROOTINO := by show 2 + k ≠ 1; omega
  have hsize : (D (2 + k)).size = f.content.length := by rw [hm.size _ hlk hne, hcont k f hk]
  have hfits : (C (2 + k)).length ≤ 274432 := hm.lay.fits _ hlk
  have hbound : (D (2 + k)).size < 2 ^ 32 := by
    rw [hm.size _ hlk hne]
    omega
  have hsizes : ∀ i, Live s.freeinode i → (⟨s.data, readsb s.data⟩ : Fs).files.size i = (D i).size := fun i hi =>
    congrArg Dinode.size (dinode_made hm hi)
  refine ⟨⟨s.data, readsb s.data⟩, 2 + k, D (2 + k), ?_, ?_, ilock_made hm hlk, ?_, hsize,
    fun off n hoff hlen => ?_⟩
  · unfold fsinit
    rw [if_pos (readsb_superblock hm.super).1]
  · have hdir : (D ROOTINO).type = T_DIR := by rw [(hm.kind _ hlr).1, if_pos rfl]
    have hbytes : C ROOTINO = dirBytes (rootPairs files) := by rw [hroot, dirBytes_rootPairs]
    have hholds := holds_of_lay ⟨s.data, readsb s.data⟩ hm.lay hlr (dinode_made hm hlr)
    have hrfits : (C ROOTINO).length ≤ 274432 := hm.lay.fits _ hlr
    have hrlen : (C ROOTINO).length = 16 * (files.length + 2) := by rw [hroot, root_length hnamed]
    have hrsize : (D ROOTINO).size = ((C ROOTINO).length / 1024 + 1) * 1024 := hm.root
    have hrs := hsizes _ hlr
    refine namei_one h0 (slash_shortname hf) hf.2 (ilock_made hm hlr) hdir (16 * (0 + (k + 2))) ?_
    rw [hbytes] at hholds
    exact lookupLoop_first (e := 0) (entry_rootPairs hn hnamed) hholds (by rw [← hbytes]; omega) (by omega)
      (noNul_shortname f) hf.2 (k + 2) (by
        have hp := pairs_get (i := 2) hk
        rw [Nat.zero_add]
        exact hp) (rootPairs_first hd hk h1 h2) (by omega)
  · rw [(hm.kind _ hlk).1, if_neg hne]
  · have hholds := holds_of_lay ⟨s.data, readsb s.data⟩ hm.lay hlk (dinode_made hm hlk)
    rw [hcont k f hk] at hholds
    rw [← hsizes _ hlk] at hsize hbound
    exact hholds.readi_file hsize hbound hoff hlen

/-- A file whose name in the file system is empty. -/
def underscoreFile : File := ⟨[95], by decide, []⟩

/-- The last byte of one block and the bytes of the next. -/
theorem kernel_reads_two : ∃ s, mkfs [smallFile, longFile] = .ok s ∧
    ∃ fs inum d, fsinit s.data = .ok fs ∧ namei fs [47, 98] = .ok (some inum, fs.files) ∧
      ilock fs inum = .ok d ∧ d.type = T_FILE ∧ d.size = 1026 ∧
      fs.files.readi inum 1023 5 = some ([7, 8, 9], fs.files) := by
  obtain ⟨s, h, hall⟩ := @kernel_reads_mkfs [smallFile, longFile] (by decide) (by decide)
    fits_two.named fits_two.size (by decide +kernel)
  obtain ⟨fs, inum, d, hfs, hname, hlock, htype, hsize, hread⟩ :=
    hall longFile (by simp) (by decide) (by decide) (by decide)
  have hlen : longFile.content.length = 1026 := by decide +kernel
  have hbytes : (longFile.content.drop 1023).take 5 = [7, 8, 9] := by decide +kernel
  refine ⟨s, h, fs, inum, d, hfs, hname, hlock, htype, hsize.trans hlen, ?_⟩
  rw [hread 1023 5 (by decide) (by decide), if_pos (by decide), hbytes]

/-- **An argument `_`**: its name in the file system is empty, and the path that should name it is the
root, a directory. -/
theorem empty_name_is_root : ∃ s, mkfs [underscoreFile] = .ok s ∧
    ([underscoreFile].map File.shortname).Nodup ∧ underscoreFile.shortname.length ≤ DIRSIZ ∧
    ∃ fs d, fsinit s.data = .ok fs ∧ namei fs (47 :: underscoreFile.shortname) = .ok (some ROOTINO, fs.files) ∧
      ilock fs ROOTINO = .ok d ∧ d.type ≠ T_FILE := by
  have hfits : Fits (nmeta + 1) 32 [underscoreFile] :=
    ⟨fun f hf => by rw [List.mem_singleton.1 hf]; exact ⟨by decide, by decide⟩, by decide, by decide, by decide⟩
  obtain ⟨s, h, -, hfi, D, C, hm, -, -⟩ := mkfs_total (by decide) hfits
  have hlr : Live s.freeinode ROOTINO := live_root hfi
  refine ⟨s, h, by decide, by decide, ⟨s.data, readsb s.data⟩, D ROOTINO, ?_, rfl, ilock_made hm hlr, ?_⟩
  · exact if_pos (readsb_superblock hm.super).1
  · rw [(hm.kind _ hlr).1]
    decide

end Xv6.Mkfs.Kernel
