import Mathlib.Data.Finset.Card
import Mathlib.Data.Finset.Image
import Xv6.Content.Dir
import Xv6.Lib.Run

/-!
# Directories are finite maps

Runs of `dirlink` and of the removal of entries, from an empty directory.  The log holds the operations
that succeeded.  The live entries of the directory are then the map that the log describes: a name has
at most one entry, with the number of the last link to it.
-/

namespace Xv6.Content

open Xv6.Lib

inductive DirOp
  | link (name : List UInt8) (inum : Nat)
  | unlink (name : List UInt8)

namespace DirOp

def name : DirOp → List UInt8
  | link name _ => name
  | unlink name => name

/-- The operation on the directory `i`. -/
def run (i : Nat) (s : Disk) : DirOp → Option (Int × Disk)
  | link name inum => s.dirlink i name inum
  | unlink name => s.unlink i name

/-- An inode number that fits a directory entry. -/
def Valid : DirOp → Prop
  | link _ inum => 1 ≤ inum ∧ inum ≤ 65535
  | unlink _ => True

end DirOp

/-- The disk, and the operations that succeeded, the last one first. -/
structure DirState where
  disk : Disk
  log : List DirOp

/-- One operation; the error is a panic. -/
def dirStep (i : Nat) (s : DirState) (op : DirOp) : Except Unit DirState :=
  match op.run i s.disk with
  | none => .error ()
  | some (r, d) => .ok ⟨d, if r = 0 then op :: s.log else s.log⟩

/-- The inode number of the last operation on a name, when that was a link. -/
def lastOn (t : List UInt8) (log : List DirOp) : Option Nat :=
  match log.find? fun op => truncated op.name = t with
  | some (.link _ inum) => some inum
  | _ => none

theorem lastOn_link (t name : List UInt8) (inum : Nat) (log : List DirOp) :
    lastOn t (.link name inum :: log) = if truncated name = t then some inum else lastOn t log := by
  unfold lastOn
  rw [List.find?_cons]
  by_cases h : truncated name = t
  · have hd : decide (truncated (DirOp.link name inum).name = t) = true := decide_eq_true h
    rw [if_pos h, hd]
  · have hd : decide (truncated (DirOp.link name inum).name = t) = false := decide_eq_false h
    rw [if_neg h, hd]

theorem lastOn_unlink (t name : List UInt8) (log : List DirOp) :
    lastOn t (.unlink name :: log) = if truncated name = t then none else lastOn t log := by
  unfold lastOn
  rw [List.find?_cons]
  by_cases h : truncated name = t
  · have hd : decide (truncated (DirOp.unlink name).name = t) = true := decide_eq_true h
    rw [if_pos h, hd]
  · have hd : decide (truncated (DirOp.unlink name).name = t) = false := decide_eq_false h
    rw [if_neg h, hd]

/-! ### What a step does to the entries -/

namespace Disk

variable {s s' : Disk} {i k l : Nat} {t de : List UInt8}

theorem Same.holds (h : Same s s' i) : s'.Holds i k t ↔ s.Holds i k t := by
  unfold Holds inumAt nameAt
  rw [h.slots]
  refine and_congr_right fun hk => ?_
  rw [h.slot k hk]

theorem Same.inumAt (h : Same s s' i) (hk : k < s.slots i) : s'.inumAt i k = s.inumAt i k := by
  unfold Disk.inumAt
  rw [h.slot k hk]

theorem Put.inumAt_self (h : Put s s' i k de) : s'.inumAt i k = deInum de := by
  unfold Disk.inumAt
  rw [h.slot]

theorem Put.inumAt_other (h : Put s s' i k de) (hl : l < s.slots i) (hne : l ≠ k) :
    s'.inumAt i l = s.inumAt i l := by
  unfold Disk.inumAt
  rw [h.other l hl hne]

theorem Put.holds_self (h : Put s s' i k de) :
    s'.Holds i k t ↔ deInum de ≠ 0 ∧ truncated (deName de) = t := by
  have hlt : k < s'.slots i := by
    rw [h.slots]
    omega
  unfold Holds Disk.inumAt nameAt
  rw [h.slot]
  exact and_iff_right hlt

theorem Put.holds_other (h : Put s s' i k de) (hk : k ≤ s.slots i) (hne : l ≠ k) :
    s'.Holds i l t ↔ s.Holds i l t := by
  have hslots := h.slots
  have hiff : l < s'.slots i ↔ l < s.slots i := by omega
  unfold Holds Disk.inumAt nameAt
  rw [hiff]
  refine and_congr_right fun hl => ?_
  rw [h.other l hl hne]

theorem FirstFree.le (h : s.FirstFree i k) : k ≤ s.slots i := by
  rcases h.2 with ⟨hlt, -⟩ | heq
  · exact Nat.le_of_lt hlt
  · exact Nat.le_of_eq heq

theorem FirstFree.not_holds (h : s.FirstFree i k) : ¬ s.Holds i k t := by
  rintro ⟨hlt, hne, -⟩
  rcases h.2 with ⟨-, h0⟩ | heq
  · exact hne h0
  · omega

/-- The entries of the names other than `t₀` are the same. -/
def Others (s s' : Disk) (i : Nat) (t₀ : List UInt8) : Prop :=
  ∀ t, t ≠ t₀ → ∀ k, (s'.Holds i k t ↔ s.Holds i k t) ∧ (s.Holds i k t → s'.slot i k = s.slot i k)

theorem Same.others (h : Same s s' i) (t₀ : List UInt8) : Others s s' i t₀ :=
  fun _ _ k => ⟨h.holds, fun hh => h.slot k hh.1⟩

theorem Put.others {t₀ : List UInt8} (h : Put s s' i k de) (hk : k ≤ s.slots i)
    (hold : ∀ t, t ≠ t₀ → ¬ s.Holds i k t) (hnew : ∀ t, t ≠ t₀ → ¬ s'.Holds i k t) : Others s s' i t₀ := by
  intro t ht l
  by_cases hl : l = k
  · subst hl
    exact ⟨iff_of_false (hnew t ht) (hold t ht), fun hh => absurd hh (hold t ht)⟩
  · exact ⟨h.holds_other hk hl, fun hh => h.other l hh.1 hl⟩

theorem LinkPost.others {name : List UInt8} {inum : Nat} {r : Int} (h : LinkPost s s' i name inum r) :
    Others s s' i (truncated name) := by
  rcases h with ⟨-, -, k, hfree, hput⟩ | ⟨-, hsame, -⟩
  · refine hput.others hfree.le (fun t _ => hfree.not_holds) fun t ht hh => ?_
    have hname := (hput.holds_self.1 hh).2
    rw [deName_direntOf] at hname
    exact ht hname.symm
  · exact hsame.others _

theorem UnlinkPost.others {name : List UInt8} {r : Int} (h : UnlinkPost s s' i name r) :
    Others s s' i (truncated name) := by
  rcases h with ⟨-, k, hk, hput⟩ | ⟨-, rfl, -⟩
  · refine hput.others (Nat.le_of_lt hk.1) (fun t ht hh => ht (hh.2.2.symm.trans hk.2.2)) fun t ht hh => ?_
    exact (hput.holds_self.1 hh).1 (by decide)
  · exact fun _ _ _ => ⟨Iff.rfl, fun _ => rfl⟩

end Disk

/-! ### The invariant -/

open Disk

/-- The live entries are the map of the log. -/
structure DirInv (i : Nat) (s : DirState) : Prop where
  dir : s.disk.IsDir i
  unique : ∀ k l t, s.disk.Holds i k t → s.disk.Holds i l t → k = l
  last : ∀ t inum, lastOn t s.log = some inum ↔ ∃ k, s.disk.Holds i k t ∧ s.disk.inumAt i k = inum

variable {i : Nat} {s s' : Disk} {log : List DirOp} {name : List UInt8} {inum : Nat} {r : Int}

theorem DirInv.same (h : DirInv i ⟨s, log⟩) (hs : Same s s' i) : DirInv i ⟨s', log⟩ := by
  refine ⟨hs.dir, fun k l t hk hl => h.unique k l t (hs.holds.1 hk) (hs.holds.1 hl), fun t inum => ?_⟩
  rw [h.last t inum]
  refine exists_congr fun k => ?_
  show s.Holds i k t ∧ s.inumAt i k = inum ↔ s'.Holds i k t ∧ s'.inumAt i k = inum
  rw [hs.holds]
  refine and_congr_right fun hk => ?_
  rw [hs.inumAt hk.1]

theorem DirInv.link (h : DirInv i ⟨s, log⟩) (hinum : 1 ≤ inum ∧ inum ≤ 65535)
    (hp : LinkPost s s' i name inum r) :
    DirInv i ⟨s', if r = 0 then .link name inum :: log else log⟩ := by
  rcases hp with ⟨rfl, hnone, k, hfree, hput⟩ | ⟨rfl, hsame, -⟩
  · have hde : deInum (direntOf inum name) = inum := deInum_direntOf name (by omega)
    have hself : ∀ t, s'.Holds i k t ↔ truncated name = t := by
      intro t
      rw [hput.holds_self, hde, deName_direntOf]
      exact and_iff_right (by omega)
    -- an entry of `name` is in the new slot, and the others are the old ones
    have hnew : ∀ {l t}, s'.Holds i l t → l = k ∨ l ≠ k ∧ s.Holds i l t ∧ truncated name ≠ t := by
      intro l t hl
      by_cases hlk : l = k
      · exact .inl hlk
      · have hl' := (hput.holds_other hfree.le hlk).1 hl
        refine .inr ⟨hlk, hl', fun hc => ?_⟩
        rw [← hc] at hl'
        exact hnone l hl'
    rw [if_pos rfl]
    refine ⟨hput.dir, fun l m t hl hm => ?_, fun t num => ?_⟩
    · rcases hnew hl with rfl | ⟨-, hl', hlt⟩
      · rcases hnew hm with rfl | ⟨-, -, hmt⟩
        · rfl
        · exact absurd ((hself t).1 hl) hmt
      · rcases hnew hm with rfl | ⟨-, hm', -⟩
        · exact absurd ((hself t).1 hm) hlt
        · exact h.unique l m t hl' hm'
    · rw [lastOn_link]
      by_cases ht : truncated name = t
      · rw [if_pos ht]
        constructor
        · rintro ⟨⟩
          exact ⟨k, (hself t).2 ht, hput.inumAt_self.trans hde⟩
        · rintro ⟨l, hl, hnum⟩
          rcases hnew hl with rfl | ⟨-, -, hlt⟩
          · rw [← hnum]
            exact congrArg some (hput.inumAt_self.trans hde).symm
          · exact absurd ht hlt
      · rw [if_neg ht, h.last t num]
        constructor
        · rintro ⟨l, hl, hnum⟩
          have hlk : l ≠ k := by
            rintro rfl
            exact hfree.not_holds hl
          exact ⟨l, (hput.holds_other hfree.le hlk).2 hl, (hput.inumAt_other hl.1 hlk).trans hnum⟩
        · rintro ⟨l, hl, hnum⟩
          rcases hnew hl with rfl | ⟨hlk, hl', -⟩
          · exact absurd ((hself t).1 hl) ht
          · exact ⟨l, hl', (hput.inumAt_other hl'.1 hlk).symm.trans hnum⟩
  · rw [if_neg (by decide)]
    exact h.same hsame

theorem DirInv.unlink (h : DirInv i ⟨s, log⟩) (hp : UnlinkPost s s' i name r) :
    DirInv i ⟨s', if r = 0 then .unlink name :: log else log⟩ := by
  rcases hp with ⟨rfl, k, hk, hput⟩ | ⟨rfl, rfl, -⟩
  · have hle := Nat.le_of_lt hk.1
    -- the entry is gone, and the others are the old ones
    have hiff : ∀ {l t}, s'.Holds i l t ↔ l ≠ k ∧ s.Holds i l t := by
      intro l t
      by_cases hl : l = k
      · subst hl
        refine iff_of_false (fun hh => ?_) fun hh => hh.1 rfl
        exact (hput.holds_self.1 hh).1 (by decide)
      · rw [hput.holds_other hle hl]
        exact (and_iff_right hl).symm
    rw [if_pos rfl]
    refine ⟨hput.dir, fun l m t hl hm => h.unique l m t (hiff.1 hl).2 (hiff.1 hm).2, fun t num => ?_⟩
    rw [lastOn_unlink]
    by_cases ht : truncated name = t
    · rw [if_pos ht]
      refine iff_of_false (fun hc => by cases hc) ?_
      rintro ⟨l, hl, -⟩
      rw [← ht] at hl
      obtain ⟨hlk, hl'⟩ := hiff.1 hl
      exact hlk (h.unique l k _ hl' hk)
    · rw [if_neg ht, h.last t num]
      refine exists_congr fun l => ?_
      show s.Holds i l t ∧ s.inumAt i l = num ↔ s'.Holds i l t ∧ s'.inumAt i l = num
      by_cases hl : s.Holds i l t
      · have hlk : l ≠ k := by
          rintro rfl
          exact ht (hk.2.2.symm.trans hl.2.2)
        rw [hput.inumAt_other hl.1 hlk, hiff]
        exact and_congr_left fun _ => ⟨fun hh => ⟨hlk, hh⟩, fun hh => hh.2⟩
      · exact iff_of_false (fun hc => hl hc.1) fun hc => hl (hiff.1 hc.1).2
  · rw [if_neg (by decide)]
    exact h

theorem dirStep_link {d : Disk} (h : s.dirlink i name inum = some (r, d)) :
    dirStep i ⟨s, log⟩ (.link name inum) = .ok ⟨d, if r = 0 then .link name inum :: log else log⟩ := by
  unfold dirStep DirOp.run
  dsimp only
  rw [h]

theorem dirStep_unlink {d : Disk} (h : s.unlink i name = some (r, d)) :
    dirStep i ⟨s, log⟩ (.unlink name) = .ok ⟨d, if r = 0 then .unlink name :: log else log⟩ := by
  unfold dirStep DirOp.run
  dsimp only
  rw [h]

theorem DirInv.step {st st' : DirState} {op : DirOp} (h : DirInv i st) (hop : op.Valid)
    (hstep : dirStep i st op = .ok st') : DirInv i st' := by
  obtain ⟨s, log⟩ := st
  cases op with
  | link name inum =>
    obtain ⟨r, d, hrun, hpost⟩ := h.dir.dirlink name inum
    rw [dirStep_link hrun] at hstep
    cases hstep
    exact h.link hop hpost
  | unlink name =>
    obtain ⟨r, d, hrun, hpost⟩ := h.dir.unlink name
    rw [dirStep_unlink hrun] at hstep
    cases hstep
    exact h.unlink hpost

theorem DirInv.empty (h : s.Sound) (h0 : s.size i = 0) : DirInv i ⟨s, []⟩ := by
  have hslots : s.slots i = 0 := by
    unfold slots
    rw [h0]
  have hno : ∀ k t, ¬ s.Holds i k t := fun k t hh => absurd hh.1 (by omega)
  have hwhole : s.Whole i := ⟨by rw [h0]; exact Nat.zero_le _, fun x hx => absurd hx (by omega)⟩
  refine ⟨⟨h, hwhole, by rw [h0]⟩, fun k _ t hk _ => absurd hk (hno k t),
    fun t num => iff_of_false (fun hc => by cases hc) ?_⟩
  rintro ⟨k, hk, -⟩
  exact hno k t hk

/-- **Directories are finite maps.**  In every run from an empty directory a name has at most one
entry; a lookup finds the number of the last link to the name and the offset of its entry, unless the
entry was removed since; a link to a name that is there, or one that has no room to grow the directory,
changes no entry, and any other takes the first cleared slot or appends one; and no operation changes
the entries of other names. -/
theorem directory_map (i : Nat) (s₀ : Disk) (h : s₀.Sound) (hempty : s₀.size i = 0) (ops : List DirOp)
    (st : DirState) (hrun : Run (dirStep i) (fun _ op => op.Valid) ⟨s₀, []⟩ ops st) :
    (∀ k l t, st.disk.Holds i k t → st.disk.Holds i l t → k = l) ∧
    (∀ name, ∃ r, st.disk.dirlookup i name = some (r, st.disk) ∧
      (∀ inum, (∃ off, r = some (inum, off)) ↔ lastOn (truncated name) st.log = some inum) ∧
      ∀ inum off, r = some (inum, off) →
        ∃ k, off = 16 * k ∧ st.disk.Holds i k (truncated name) ∧ st.disk.inumAt i k = inum) ∧
    (∀ name inum, 1 ≤ inum → inum ≤ 65535 → ∃ r s', st.disk.dirlink i name inum = some (r, s') ∧
      LinkPost st.disk s' i name inum r ∧ Others st.disk s' i (truncated name)) ∧
    (∀ name, ∃ r s', st.disk.unlink i name = some (r, s') ∧
      UnlinkPost st.disk s' i name r ∧ Others st.disk s' i (truncated name)) := by
  have hinv : DirInv i st :=
    hrun.invariant (I := DirInv i) (DirInv.empty h hempty) fun _ _ _ hs hop hstep => hs.step hop hstep
  refine ⟨hinv.unique, fun name => ?_, fun name inum _ _ => ?_, fun name => ?_⟩
  · obtain ⟨r, hr, ⟨rfl, hnone⟩ | ⟨l, rfl, hl⟩⟩ := hinv.dir.dirlookup name
    · refine ⟨none, hr, fun inum => ?_, fun inum off hc => by cases hc⟩
      rw [hinv.last]
      refine iff_of_false (fun ⟨_, hc⟩ => by cases hc) ?_
      rintro ⟨k, hk, -⟩
      exact hnone k hk
    · refine ⟨_, hr, fun inum => ?_, fun inum off hc => ?_⟩
      · rw [hinv.last]
        constructor
        · rintro ⟨off, ⟨⟩⟩
          exact ⟨l, hl, rfl⟩
        · rintro ⟨k, hk, rfl⟩
          rw [hinv.unique k l _ hk hl]
          exact ⟨_, rfl⟩
      · cases hc
        exact ⟨l, rfl, hl, rfl⟩
  · obtain ⟨r, s', hlink, hpost⟩ := hinv.dir.dirlink name inum
    exact ⟨r, s', hlink, hpost, hpost.others⟩
  · obtain ⟨r, s', hunlink, hpost⟩ := hinv.dir.unlink name
    exact ⟨r, s', hunlink, hpost, hpost.others⟩

/-! ### A directory of the largest size -/

/-- An empty disk of a thousand blocks. -/
def emptyDisk : Disk where
  size _ := 0
  addrs _ _ := 0
  data _ _ := 0
  words _ _ := 0
  used b := b = 0
  nblocks := 1000

theorem emptyDisk_held (i k : Nat) : emptyDisk.held i k = 0 := by
  unfold Disk.held
  have ha : ∀ i k, emptyDisk.addrs i k = 0 := fun _ _ => rfl
  simp only [ha, if_true, ite_self]

theorem emptyDisk_sound : emptyDisk.Sound :=
  ⟨rfl, fun i k _ hne => absurd (emptyDisk_held i k) hne, fun i k _ _ _ _ hne => absurd (emptyDisk_held i k) hne⟩

/-- All blocks that are taken belong to the file `0`. -/
def Rooted (s : Disk) : Prop :=
  s.nblocks = 1000 ∧ ∀ b, s.used b = true → b = 0 ∨ ∃ k, k ≤ MAXFILE ∧ s.held 0 k = b

theorem Rooted.kept (h : Rooted s) (hk : Kept s s' 0) : Rooted s' := by
  refine ⟨hk.nblocks.trans h.1, fun b hb => ?_⟩
  rcases hk.used b hb with hold | hnew
  · rcases h.2 b hold with h0 | ⟨k, hle, heq⟩
    · exact .inl h0
    · by_cases hb0 : b = 0
      · exact .inl hb0
      · refine .inr ⟨k, hle, ?_⟩
        rw [hk.held k hle (by rw [heq]; exact hb0), heq]
  · exact .inr hnew

theorem Rooted.not_full (h : Rooted s) : ¬ s.Full := by
  intro hfull
  have hsub : Finset.range 1000 ⊆ insert 0 ((Finset.range (MAXFILE + 1)).image (s.held 0)) := by
    intro b hb
    rw [Finset.mem_insert, Finset.mem_image]
    rcases h.2 b (hfull b (by rw [h.1]; exact Finset.mem_range.1 hb)) with h0 | ⟨k, hk, heq⟩
    · exact .inl h0
    · exact .inr ⟨k, Finset.mem_range.2 (by omega), heq⟩
  have hcard := Finset.card_le_card hsub
  have himage := Finset.card_image_le (s := Finset.range (MAXFILE + 1)) (f := s.held 0)
  have hinsert := Finset.card_insert_le 0 ((Finset.range (MAXFILE + 1)).image (s.held 0))
  rw [Finset.card_range] at hcard himage
  have hmax : MAXFILE + 1 = 269 := rfl
  omega

/-- Names of two bytes. -/
def pairName (k : Nat) : List UInt8 := [UInt8.ofNat (k % 255 + 1), UInt8.ofNat (k / 255 + 1)]

theorem byte_ne_zero {n : Nat} (h : n < 255) : UInt8.ofNat (n + 1) ≠ 0 := by
  intro hc
  have := congrArg UInt8.toNat hc
  rw [UInt8.toNat_ofNat', UInt8.toNat_zero] at this
  omega

theorem byte_inj {m n : Nat} (hm : m < 255) (hn : n < 255) (h : UInt8.ofNat (m + 1) = UInt8.ofNat (n + 1)) :
    m = n := by
  have := congrArg UInt8.toNat h
  rw [UInt8.toNat_ofNat', UInt8.toNat_ofNat'] at this
  omega

theorem truncated_pairName {k : Nat} (hk : k ≤ 17152) : truncated (pairName k) = pairName k := by
  have h1 := byte_ne_zero (show k % 255 < 255 by omega)
  have h2 := byte_ne_zero (show k / 255 < 255 by omega)
  have hsnd : cut (12 + 1) [UInt8.ofNat (k / 255 + 1)] = [UInt8.ofNat (k / 255 + 1)] := by
    rw [cut_cons]
    exact if_neg h2
  show cut (13 + 1) (pairName k) = pairName k
  rw [cut_cons]
  refine (if_neg h1).trans ?_
  exact congrArg (UInt8.ofNat (k % 255 + 1) :: ·) hsnd

theorem pairName_inj {k l : Nat} (hk : k ≤ 17152) (hl : l ≤ 17152) (h : pairName k = pairName l) : k = l := by
  unfold pairName at h
  obtain ⟨h1, h2⟩ := List.cons.inj h
  have e1 := byte_inj (by omega) (by omega) h1
  have e2 := byte_inj (by omega) (by omega) (List.cons.inj h2).1
  omega

/-- The directory after `n` links. -/
structure Filled (n : Nat) (st : DirState) : Prop where
  dir : st.disk.IsDir 0
  slots : st.disk.slots 0 = n
  live : ∀ k, k < n → st.disk.inumAt 0 k ≠ 0 ∧ st.disk.nameAt 0 k = pairName k
  log : st.log = ((List.range n).map fun k => DirOp.link (pairName k) 1).reverse
  rooted : Rooted st.disk

theorem Filled.not_holds {n : Nat} {st : DirState} (h : Filled n st) (hn : n ≤ 17152) (k : Nat) :
    ¬ st.disk.Holds 0 k (truncated (pairName n)) := by
  rintro ⟨hlt, -, hname⟩
  rw [h.slots] at hlt
  rw [(h.live k hlt).2, truncated_pairName hn] at hname
  exact absurd (pairName_inj (by omega) hn hname) (by omega)

theorem Filled.link {n : Nat} {st : DirState} (h : Filled n st) (hn : n < 17152) :
    ∃ st', dirStep 0 st (.link (pairName n) 1) = .ok st' ∧ Filled (n + 1) st' := by
  have hslots := h.slots
  obtain ⟨r, d, hrun, hpost⟩ := h.dir.dirlink (pairName n) 1
  refine ⟨_, dirStep_link hrun, ?_⟩
  rcases hpost with ⟨rfl, -, k, hfree, hput⟩ | ⟨-, hsame, ⟨k, hk⟩ | ⟨-, ⟨hfull, -⟩ | hmax⟩⟩
  · obtain rfl : k = n := by
      rcases hfree.2 with ⟨hlt, h0⟩ | heq
      · exact absurd h0 (h.live k (by omega)).1
      · omega
    refine ⟨hput.dir, ?_, fun l hl => ?_, ?_, h.rooted.kept hput.kept⟩
    · rw [hput.slots, hslots]
      omega
    · by_cases hlk : l = k
      · subst hlk
        have hself := hput.holds_self.2 ⟨by rw [deInum_direntOf _ (by decide)]; decide, rfl⟩
        rw [deName_direntOf, truncated_pairName (by omega)] at hself
        exact ⟨hself.2.1, hself.2.2⟩
      · have hold := h.live l (by omega)
        unfold Disk.inumAt Disk.nameAt at hold ⊢
        rw [hput.other l (by omega) hlk]
        exact hold
    · rw [if_pos rfl, List.range_succ, List.map_append, List.reverse_append, h.log]
      rfl
  · exact absurd hk (h.not_holds (by omega) k)
  · exact absurd hfull (h.rooted.kept hsame.kept).not_full
  · have hsize := h.dir.size_eq
    have hmax' : st.disk.size 0 = 268 * 1024 := hmax
    omega

theorem exists_filled (n : Nat) (hn : n ≤ 17152) :
    ∃ st, Run (dirStep 0) (fun _ op => op.Valid) ⟨emptyDisk, []⟩
      ((List.range n).map fun k => .link (pairName k) 1) st ∧ Filled n st := by
  induction n with
  | zero =>
    refine ⟨_, .nil _, (DirInv.empty emptyDisk_sound rfl).dir, rfl, fun k hk => absurd hk (Nat.not_lt_zero k), rfl,
      rfl, fun b hb => .inl ?_⟩
    exact of_decide_eq_true hb
  | succ n ih =>
    obtain ⟨st, hrun, hfilled⟩ := ih (by omega)
    obtain ⟨st', hstep, hfilled'⟩ := hfilled.link (by omega)
    refine ⟨st', ?_, hfilled'⟩
    rw [List.range_succ, List.map_append]
    exact hrun.append (.cons ⟨by decide, by decide⟩ hstep (.nil _))

/-- After three links the first name is found. -/
theorem directory_map_three :
    ∃ st, Run (dirStep 0) (fun _ op => op.Valid) ⟨emptyDisk, []⟩
        ((List.range 3).map fun k => .link (pairName k) 1) st ∧
      ∃ off, st.disk.dirlookup 0 (pairName 0) = some (some (1, off), st.disk) := by
  obtain ⟨st, hrun, hfilled⟩ := exists_filled 3 (by decide)
  refine ⟨st, hrun, ?_⟩
  obtain ⟨r, hr, hiff, -⟩ := (directory_map 0 emptyDisk emptyDisk_sound rfl _ st hrun).2.1 (pairName 0)
  have hlast : lastOn (truncated (pairName 0)) st.log = some 1 := by
    rw [hfilled.log]
    decide
  obtain ⟨off, rfl⟩ := (hiff 1).2 hlast
  exact ⟨off, hr⟩

/-- **A directory of the largest size**: a link to a new name fails, and there are free blocks. -/
theorem dirlink_largest :
    ∃ ops st r s', Run (dirStep 0) (fun _ op => op.Valid) ⟨emptyDisk, []⟩ ops st ∧
      (∀ k, ¬ st.disk.Holds 0 k (truncated (pairName 17152))) ∧ ¬ st.disk.Full ∧
      st.disk.dirlink 0 (pairName 17152) 1 = some (r, s') ∧ r = -1 ∧ ¬ s'.Full := by
  obtain ⟨st, hrun, hfilled⟩ := exists_filled 17152 (Nat.le_refl _)
  obtain ⟨r, s', hlink, hpost⟩ := hfilled.dir.dirlink (pairName 17152) 1
  refine ⟨_, st, r, s', hrun, hfilled.not_holds (Nat.le_refl _), hfilled.rooted.not_full, hlink, ?_⟩
  rcases hpost with ⟨-, -, k, hfree, hput⟩ | ⟨hr, hsame, -⟩
  · -- the first free slot would be one too many
    have hle := hput.dir.slots_le
    have hslots := hput.slots
    have hn := hfilled.slots
    rcases hfree.2 with ⟨hlt, h0⟩ | heq
    · exact absurd h0 (hfilled.live k (by omega)).1
    · omega
  · exact ⟨hr, (hfilled.rooted.kept hsame.kept).not_full⟩

end Xv6.Content
