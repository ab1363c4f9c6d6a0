import Xv6.Mkfs.Layout

/-!
# What `mkfs` builds

Every step of `main` keeps the layout of the image, and what is on the inode blocks is the table of
the inodes, as long as the inode numbers are inside of the inode blocks.
-/

namespace Xv6.Mkfs

open Xv6.Lib

/-! ### Inodes on their blocks -/

/-- The fields fit. -/
structure Dinode.Ok (d : Dinode) : Prop where
  type : d.type < 65536
  major : d.major < 65536
  minor : d.minor < 65536
  nlink : d.nlink < 65536
  size : d.size < 2 ^ 32
  addrs : ∀ k, d.addrs k < 2 ^ 32

theorem Dinode.length_bytes (d : Dinode) : d.bytes.length = 64 := rfl

variable {b : Bytes} {l : List UInt8} {i : Nat}

theorem le16_put_bytes {o j x : Nat} (hx : x < 65536) (hj : j + 1 < l.length)
    (h0 : l.getD j 0 = byte x 0) (h1 : l.getD (j + 1) 0 = byte x 1) :
    le16 (put b o l) (o + j) = x := by
  rw [le16_of_byte (x := x) (j := 0)]
  · rw [Nat.pow_zero, Nat.div_one]
    exact Nat.mod_eq_of_lt hx
  · rw [put_of_lt (by omega)]
    exact h0
  · rw [Nat.add_assoc, put_of_lt hj]
    exact h1

theorem le32_put_bytes {o j x : Nat} (hx : x < 2 ^ 32) (hj : j + 3 < l.length)
    (h : ∀ k < 4, l.getD (j + k) 0 = byte x k) : le32 (put b o l) (o + j) = x := by
  refine le32_of_byte hx fun k hk => ?_
  rw [Nat.add_assoc, put_of_lt (by omega)]
  exact h k hk

theorem Dinode.getD_size (d : Dinode) : ∀ k < 4, d.bytes.getD (8 + k) 0 = byte d.size k := by
  intro k hk
  interval_cases k <;> rfl

theorem Dinode.getD_addrs (d : Dinode) (i : Fin (NDIRECT + 1)) :
    ∀ k < 4, d.bytes.getD (12 + 4 * i + k) 0 = byte (d.addrs i) k := by
  intro k hk
  obtain ⟨i, hi⟩ := i
  have hi' : i < 13 := hi
  interval_cases i <;> interval_cases k <;> rfl

/-- **An inode is read back** as it was written. -/
theorem getDinode_put {o : Nat} {d : Dinode} (h : d.Ok) : getDinode (put b o d.bytes) o = d := by
  have hlen := d.length_bytes
  refine Dinode.ext ?_ ?_ ?_ ?_ ?_ (funext fun i => ?_)
  · exact le16_put_bytes (j := 0) h.type (by omega) rfl rfl
  · exact le16_put_bytes (j := 2) h.major (by omega) rfl rfl
  · exact le16_put_bytes (j := 4) h.minor (by omega) rfl rfl
  · exact le16_put_bytes (j := 6) h.nlink (by omega) rfl rfl
  · exact le32_put_bytes (j := 8) h.size (by omega) d.getD_size
  · have hi : i.1 < 13 := i.2
    show le32 (put b o d.bytes) (o + 12 + 4 * i) = _
    rw [Nat.add_assoc]
    exact le32_put_bytes (h.addrs i) (by omega) (d.getD_addrs i)

theorem getDinode_put_other {o p : Nat} (hl : l.length = 64) (h : p + 64 ≤ o ∨ o + 64 ≤ p) :
    getDinode (put b o l) p = getDinode b p := by
  have h16 : ∀ j, j + 2 ≤ 64 → le16 (put b o l) (p + j) = le16 b (p + j) := fun j hj =>
    le16_congr fun k hk => put_of_not (by omega)
  have h32 : ∀ j, j + 4 ≤ 64 → le32 (put b o l) (p + j) = le32 b (p + j) := fun j hj =>
    le32_put_of_not (by omega)
  refine Dinode.ext ?_ ?_ ?_ ?_ ?_ (funext fun i => ?_)
  · exact h16 0 (by omega)
  · exact h16 2 (by omega)
  · exact h16 4 (by omega)
  · exact h16 6 (by omega)
  · exact h32 8 (by omega)
  · have hi : i.1 < 13 := i.2
    show le32 (put b o l) (p + 12 + 4 * i) = le32 b (p + 12 + 4 * i)
    rw [Nat.add_assoc]
    exact h32 _ (by omega)

/-- How many inodes the inode blocks have room for. -/
abbrev NSPACE : Nat := ninodeblocks * IPB

theorem iblock_lt (h : i < NSPACE) : iblock i < bmapstart := by
  have h' : i < 208 := h
  unfold iblock
  show i / 16 + 33 < 46
  omega

theorem iblock_big (h : i < NSPACE) : iblock i < 4194304 :=
  Nat.lt_trans (iblock_lt h) (by decide)

theorem one_ne_iblock (i : Nat) : 1 ≠ iblock i := by
  unfold iblock
  show 1 ≠ i / 16 + 33
  omega

theorem rsect_iblock (s : Image) (hi : i < NSPACE) : rsect s (iblock i) = .ok (s.data (iblock i)) := by
  unfold rsect
  rw [sector_eq (iblock_big hi), if_pos (Nat.lt_trans (iblock_lt hi) (by decide))]

theorem rinode_eq (s : Image) (hi : i < NSPACE) :
    rinode s i = .ok (getDinode (s.data (iblock i)) (ioffset i)) := by
  unfold rinode
  rw [rsect_iblock s hi]
  rfl

theorem winode_eq (s : Image) (d : Dinode) (hi : i < NSPACE) : winode s i d = .ok
    { s with data := upd s.data (iblock i) (put (s.data (iblock i)) (ioffset i) d.bytes) } := by
  unfold winode
  rw [rsect_iblock s hi]
  simp only [bind, Except.bind, pure, Except.pure, wsect_eq (iblock_big hi)]

theorem table_winode {data : Nat → Bytes} {i j : Nat} {d : Dinode} (hd : d.Ok) :
    getDinode (upd data (iblock i) (put (data (iblock i)) (ioffset i) d.bytes) (iblock j)) (ioffset j) =
      if j = i then d else getDinode (data (iblock j)) (ioffset j) := by
  by_cases hji : j = i
  · subst hji
    rw [if_pos rfl, upd_same]
    exact getDinode_put hd
  · rw [if_neg hji, upd_apply]
    split
    · rename_i hb
      rw [hb]
      refine getDinode_put_other d.length_bytes ?_
      have hb' : j / 16 + 33 = i / 16 + 33 := hb
      show j % 16 * 64 + 64 ≤ i % 16 * 64 ∨ i % 16 * 64 + 64 ≤ j % 16 * 64
      omega
    · rfl

/-! ### The loop of `iappend` -/

theorem Lay.congr {img img' : Nat → Bytes} {fi fb : Nat} {D : Nat → Dinode} {C : Nat → List UInt8}
    (h : Lay img fi fb D C) (himg : ∀ b, nmeta ≤ b → img' b = img b) : Lay img' fi fb D C := by
  have hslot : ∀ j, Live fi j → ∀ k, slot img' (D j) k = slot img (D j) k := by
    intro j hj k
    refine slot_congr rfl (fun ht => himg _ ?_) k
    have := h.bump.range j NDIRECT ⟨hj, by decide⟩ (by rw [slot_last]; exact ht)
    rw [slot_last] at this
    exact this.1
  refine
    { bump := h.bump.congr fun j k hjk => hslot j hjk.1 k
      low := h.low
      high := h.high
      zero := fun b hb => (himg b (Nat.le_trans h.low hb)).trans (h.zero b hb)
      fits := h.fits
      alloc := fun j hj bn hbn => ?_
      ind := h.ind
      bytes := fun j hj y hy => ?_ }
  · unfold blockOf
    rw [hslot j hj]
    exact h.alloc j hj bn hbn
  · obtain ⟨hbn, hne⟩ := h.block hj hy
    have hlow := (h.bump.range j _ ⟨hj, slotIdx_lt hbn⟩ hne).1
    have hb : blockOf img' (D j) (y / BSIZE) = blockOf img (D j) (y / BSIZE) := hslot j hj _
    rw [hb, himg (blockOf img (D j) (y / BSIZE)) hlow]
    exact h.bytes j hj y hy

/-- The blocks of a file of `n` bytes, with its indirect block. -/
def blocksOf (n : Nat) : Nat := (n + BSIZE - 1) / BSIZE + if NDIRECT * BSIZE < n then 1 else 0

theorem blocksOf_mono {m n : Nat} (h : m ≤ n) : blocksOf m ≤ blocksOf n := by
  show (m + 1024 - 1) / 1024 + (if 12288 < m then 1 else 0) ≤ (n + 1024 - 1) / 1024 + if 12288 < n then 1 else 0
  split <;> split <;> omega

/-- A file of `len` bytes can grow by `n` bytes when `fb` is the next block. -/
def Room (fb len n : Nat) : Prop :=
  len + n ≤ MAXFILE * BSIZE ∧ fb + blocksOf (len + n) ≤ FSSIZE + blocksOf len

/-- A file of `len` bytes has grown by `n` bytes, and the next block has gone from `fb` to `fb'`. -/
def Grew (fb len n fb' : Nat) : Prop := fb' + blocksOf len = fb + blocksOf (len + n)

theorem Room.first {fb len m n : Nat} (h : Room fb len (m + n)) : Room fb len m := by
  have := blocksOf_mono (show len + m ≤ len + (m + n) by omega)
  exact ⟨Nat.le_trans (by omega) h.1, by have := h.2; omega⟩

theorem Room.rest {fb fb' len m n : Nat} (h : Room fb len (m + n)) (hg : Grew fb len m fb') :
    Room fb' (len + m) n := by
  unfold Room Grew at *
  rw [Nat.add_assoc]
  exact ⟨h.1, by omega⟩

theorem Grew.trans {fb fb' fb'' len m n : Nat} (h : Grew fb len m fb') (h' : Grew fb' (len + m) n fb'') :
    Grew fb len (m + n) fb'' := by
  unfold Grew at *
  rw [Nat.add_assoc] at h'
  omega

/-- The blocks for the next bytes of a file, up to the end of a block. -/
theorem Lay.need_eq {img : Nat → Bytes} {fi fb i n : Nat} {D : Nat → Dinode} {C : Nat → List UInt8}
    (h : Lay img fi fb D C) (hi : Live fi i) (hlt : (C i).length / BSIZE < MAXFILE) (hn : 0 < n)
    (hle : n ≤ ((C i).length / BSIZE + 1) * BSIZE - (C i).length) :
    blocksOf (C i).length + need img (D i) ((C i).length / BSIZE) = blocksOf ((C i).length + n) := by
  have halloc := h.alloc i hi _ hlt
  have hind := h.ind i hi
  generalize (C i).length = len at *
  have hle' : n ≤ (len / 1024 + 1) * 1024 - len := hle
  have halloc' : ¬ blockOf img (D i) (len / 1024) = 0 ↔ len / 1024 * 1024 < len := halloc
  have hind' : ¬ (D i).addrs last = 0 ↔ 12288 < len := hind
  show (len + 1024 - 1) / 1024 + (if 12288 < len then 1 else 0) +
      ((if blockOf img (D i) (len / 1024) = 0 then 1 else 0) +
        if 12 ≤ len / 1024 ∧ (D i).addrs last = 0 then 1 else 0) =
    (len + n + 1024 - 1) / 1024 + if 12288 < len + n then 1 else 0
  split <;> split <;> split <;> split <;> omega

/-- **The loop of `iappend`** appends all of `p`, if there is room. -/
theorem lay_appendLoop {fi i : Nat} (hi : Live fi i) (fuel : Nat) {s : Image} {D : Nat → Dinode}
    {C : Nat → List UInt8} {p : List UInt8} (hp : p.length ≤ fuel) (h : Lay s.data fi s.freeblock D C) :
    Ends (appendLoop fuel s (D i) (C i).length p) (fun r =>
      Lay r.1.data fi r.1.freeblock (upd D i r.2.1) (upd C i (C i ++ p)) ∧
      r.2.2 = (C i).length + p.length ∧ r.1.freeinode = s.freeinode ∧
      Grew s.freeblock (C i).length p.length r.1.freeblock ∧
      (∀ b < nmeta, r.1.data b = s.data b) ∧
      r.2.1.type = (D i).type ∧ r.2.1.major = (D i).major ∧ r.2.1.minor = (D i).minor ∧
        r.2.1.nlink = (D i).nlink) fun _ => ¬ Room s.freeblock (C i).length p.length := by
  induction fuel generalizing s D C p with
  | zero =>
    have hp0 : p = [] := List.length_eq_zero_iff.1 (Nat.le_zero.1 hp)
    subst hp0
    refine ⟨?_, rfl, rfl, rfl, fun _ _ => rfl, rfl, rfl, rfl, rfl⟩
    rw [List.append_nil, upd_self, upd_self]
    exact h
  | succ fuel ih =>
    unfold appendLoop
    refine .ite (fun hp0 => ?_) fun hp0 => .ite (fun hfbn => ?_) fun hfbn hroom => ?_
    · have hp0' : p = [] := List.length_eq_zero_iff.1 hp0
      subst hp0'
      refine ⟨?_, rfl, rfl, rfl, fun _ _ => rfl, rfl, rfl, rfl, rfl⟩
      rw [List.append_nil, upd_self, upd_self]
      exact h
    · -- the part of `p` that this round writes
      generalize hn : min p.length (((C i).length / BSIZE + 1) * BSIZE - (C i).length) = n1
      have hroom : 0 < ((C i).length / BSIZE + 1) * BSIZE - (C i).length := by
        have := Nat.div_add_mod (C i).length BSIZE
        have := Nat.mod_lt (C i).length (show 0 < BSIZE by decide)
        rw [Nat.add_mul, Nat.one_mul, Nat.mul_comm]
        omega
      have hneed := h.need_eq hi hfbn (n := n1) (by omega) (by omega)
      have hp1 : p.length = n1 + (p.length - n1) := by omega
      have hfull : FSSIZE < s.freeblock + need s.data (D i) ((C i).length / BSIZE) →
          ¬ Room s.freeblock (C i).length p.length := by
        intro hlt hr
        rw [hp1] at hr
        have := hr.first.2
        omega
      refine .bind ((h.mapBlock hi hfbn).mono (fun _ => id) fun _ => hfull) ?_
      rintro ⟨x, s₁, d₁⟩ ⟨hm, hfi⟩
      obtain ⟨hlow, hxb⟩ := hm.range hi hfbn
      have hcount : s₁.freeblock = _ := hm.count
      have hbig : x < 4194304 := Nat.lt_of_lt_of_le hxb (Nat.le_trans hm.bound (by decide))
      refine .bind ((rsect_ends hbig).mono (fun _ => id) fun _ hx => hfull ?_) ?_
      · rw [← hcount]
        exact Nat.lt_of_le_of_lt hx hxb
      rintro b ⟨hx, rfl⟩
      simp only [hn, wsect_eq hbig]
      have hoff : (C i).length - (C i).length / BSIZE * BSIZE = (C i).length % BSIZE := by
        have := Nat.div_add_mod (C i).length BSIZE
        rw [Nat.mul_comm] at this
        omega
      have htake : (p.take n1).length = n1 := by
        rw [List.length_take]
        omega
      rw [hoff]
      have hw := h.write hi hm rfl hfbn hx (p := p.take n1) (by omega) (by omega)
      have hD : upd D i d₁ i = d₁ := upd_same _ _ _
      have hC : upd C i (C i ++ p.take n1) i = C i ++ p.take n1 := upd_same _ _ _
      have hlen : (upd C i (C i ++ p.take n1) i).length = (C i).length + n1 := by
        rw [hC, List.length_append, htake]
      have hgrew : Grew s.freeblock (C i).length n1 s₁.freeblock := by
        unfold Grew
        omega
      have hdrop : (p.drop n1).length = p.length - n1 := List.length_drop
      have hrest := ih (s := { s₁ with
        data := upd s₁.data x (put (s₁.data x) ((C i).length % BSIZE) (p.take n1)) }) (p := p.drop n1)
        (by omega) hw
      rw [hlen, hD, hdrop] at hrest
      refine hrest.mono ?_ fun _ hnot hr => hnot (Room.rest (by rw [← hp1]; exact hr) hgrew)
      rintro ⟨s', d', off'⟩ ⟨hlay, hoff', hfi', hg, hmeta, hf⟩
      rw [upd_upd, upd_upd, hC, List.append_assoc, List.take_append_drop] at hlay
      obtain ⟨f1, f2, f3, f4⟩ := hm.fields
      refine ⟨hlay, by omega, hfi'.trans hfi, by rw [hp1]; exact hgrew.trans hg, fun b hb => ?_, hf.1.trans f1,
        hf.2.1.trans f2, hf.2.2.1.trans f3, hf.2.2.2.trans f4⟩
      rw [hmeta b hb]
      show upd s₁.data x _ b = _
      rw [upd_other _ _ (by omega)]
      exact hm.below b hb
    · refine hfbn (Nat.div_lt_of_lt_mul ?_)
      rw [Nat.mul_comm]
      have := hroom.1
      omega

/-! ### The steps of `main` -/

/-- The fields of an inode that `mkfs` does not change. -/
def Kind (i : Nat) (d : Dinode) : Prop :=
  d.type = (if i = ROOTINO then T_DIR else T_FILE) ∧ d.major = 0 ∧ d.minor = 0 ∧ d.nlink = 1

/-- **The invariant of `main`.**  The inodes `D` are on the inode blocks, and file `i` has the bytes
`C i`. -/
structure Good (s : Image) (D : Nat → Dinode) (C : Nat → List UInt8) : Prop where
  lay : Lay s.data s.freeinode s.freeblock D C
  size : ∀ i, Live s.freeinode i → (D i).size = (C i).length
  table : ∀ i, Live s.freeinode i → getDinode (s.data (iblock i)) (ioffset i) = D i
  kind : ∀ i, Live s.freeinode i → Kind i (D i)
  super : s.data 1 = superblock

variable {s s' : Image} {D : Nat → Dinode} {C : Nat → List UInt8}

theorem Lay.ok {img : Nat → Bytes} {fi fb i : Nat} (h : Lay img fi fb D C) (hi : Live fi i)
    (hk : Kind i (D i)) (hs : (D i).size = (C i).length) : (D i).Ok := by
  obtain ⟨h1, h2, h3, h4⟩ := hk
  refine ⟨?_, by omega, by omega, by omega, ?_, fun k => ?_⟩
  · rw [h1]
    split <;> decide
  · rw [hs]
    exact Nat.lt_of_le_of_lt (h.fits i hi) (by decide)
  · have hk : k.1 < NSLOT := Nat.lt_of_lt_of_le k.2 (by decide)
    by_cases h0 : (D i).addrs k = 0
    · rw [h0]
      decide
    · have hr := h.bump.range i k ⟨hi, hk⟩ (by rw [slot_addr]; exact h0)
      rw [slot_addr] at hr
      exact Nat.lt_trans (Nat.lt_of_lt_of_le hr.2 h.high) (by decide)

theorem live_succ {fi i : Nat} (hi : Live (fi + 1) i) (hne : i ≠ fi) : Live fi i :=
  ⟨hi.1, by have := hi.2; omega⟩

theorem Good.ialloc (h : Good s D C) (hfi : s.freeinode < NSPACE) (type : Nat)
    (htype : type = if s.freeinode = ROOTINO then T_DIR else T_FILE) :
    ∃ s' d, ialloc s type = .ok (s.freeinode, s') ∧ s'.freeinode = s.freeinode + 1 ∧
      s'.freeblock = s.freeblock ∧ Good s' (upd D s.freeinode d) (upd C s.freeinode []) := by
  unfold Mkfs.ialloc
  dsimp only
  rw [winode_eq _ _ hfi]
  refine ⟨_, ⟨type, 0, 0, 1, 0, fun _ => 0⟩, rfl, rfl, rfl, ?_⟩
  have hd : (⟨type, 0, 0, 1, 0, fun _ => 0⟩ : Dinode).Ok := by
    refine ⟨?_, Nat.zero_lt_succ _, Nat.zero_lt_succ _, Nat.one_lt_succ_succ _, Nat.two_pow_pos 32,
      fun _ => Nat.two_pow_pos 32⟩
    rw [htype]
    split <;> decide
  have hmeta : ∀ b, nmeta ≤ b → upd s.data (iblock s.freeinode) (put (s.data (iblock s.freeinode))
      (ioffset s.freeinode) (⟨type, 0, 0, 1, 0, fun _ => 0⟩ : Dinode).bytes) b = s.data b := by
    intro b hb
    have hlt := iblock_lt hfi
    have hlt' : iblock s.freeinode < 46 := hlt
    have hb' : 47 ≤ b := hb
    exact upd_other _ _ (by omega)
  have hlay := h.lay.congr hmeta
  have hzero : ∀ img k, slot img ⟨type, 0, 0, 1, 0, fun _ => 0⟩ k = 0 := by
    intro img k
    unfold slot
    split
    · rfl
    · rfl
  have hold : ∀ i, Live (s.freeinode + 1) i → i ≠ s.freeinode →
      Live s.freeinode i ∧ upd D s.freeinode ⟨type, 0, 0, 1, 0, fun _ => 0⟩ i = D i ∧
        upd C s.freeinode [] i = C i := fun i hi hne =>
    ⟨live_succ hi hne, upd_other _ _ hne, upd_other _ _ hne⟩
  refine ⟨⟨?_, hlay.low, hlay.high, hlay.zero, fun i hi => ?_, fun i hi bn hbn => ?_, fun i hi => ?_,
    fun i hi y hy => ?_⟩, fun i hi => ?_, fun i hi => ?_, fun i hi => ?_, ?_⟩
  · -- the slots of the new inode are empty
    refine (hlay.bump.congr fun i k (hik : LiveSlot s.freeinode i k) => ?_).grow
      (fun i k hik => ⟨⟨hik.1.1, Nat.lt_succ_of_lt hik.1.2⟩, hik.2⟩) fun i k hik => ?_
    · rw [upd_other _ _ (Nat.ne_of_lt hik.1.2)]
    · by_cases hi : i = s.freeinode
      · subst hi
        rw [upd_same]
        exact .inr (hzero _ _)
      · exact .inl ⟨live_succ hik.1 hi, hik.2⟩
  · by_cases hne : i = s.freeinode
    · rw [hne, upd_same]
      exact Nat.zero_le _
    · obtain ⟨hl, -, hC⟩ := hold i hi hne
      rw [hC]
      exact hlay.fits i hl
  · by_cases hne : i = s.freeinode
    · rw [hne, upd_same, upd_same]
      exact iff_of_false (fun hc => hc (hzero _ _)) (Nat.not_lt_zero _)
    · obtain ⟨hl, hD, hC⟩ := hold i hi hne
      rw [hD, hC]
      exact hlay.alloc i hl bn hbn
  · by_cases hne : i = s.freeinode
    · rw [hne, upd_same, upd_same]
      exact iff_of_false (fun hc => hc rfl) (Nat.not_lt_zero _)
    · obtain ⟨hl, hD, hC⟩ := hold i hi hne
      rw [hD, hC]
      exact hlay.ind i hl
  · by_cases hne : i = s.freeinode
    · rw [hne, upd_same] at hy
      exact absurd hy (Nat.not_lt_zero _)
    · obtain ⟨hl, hD, hC⟩ := hold i hi hne
      rw [hC] at hy ⊢
      rw [hD]
      exact hlay.bytes i hl y hy
  · by_cases hne : i = s.freeinode
    · rw [hne, upd_same, upd_same]
      rfl
    · obtain ⟨hl, hD, hC⟩ := hold i hi hne
      rw [hD, hC]
      exact h.size i hl
  · rw [table_winode hd]
    by_cases hne : i = s.freeinode
    · rw [if_pos hne, hne, upd_same]
    · obtain ⟨hl, hD, -⟩ := hold i hi hne
      rw [if_neg hne, hD]
      exact h.table i hl
  · by_cases hne : i = s.freeinode
    · rw [hne, upd_same]
      exact ⟨htype, rfl, rfl, rfl⟩
    · obtain ⟨hl, hD, -⟩ := hold i hi hne
      rw [hD]
      exact h.kind i hl
  · dsimp only
    rw [upd_other _ _ (one_ne_iblock _)]
    exact h.super

/-- **`iappend`** appends its bytes to the file, if there is room. -/
theorem Good.iappend (h : Good s D C) (hfi : s.freeinode ≤ NSPACE) (hi : Live s.freeinode i)
    (p : List UInt8) :
    Ends (iappend s i p) (fun s' => s'.freeinode = s.freeinode ∧
      Grew s.freeblock (C i).length p.length s'.freeblock ∧
      ∃ d, Good s' (upd D i d) (upd C i (C i ++ p))) fun _ => ¬ Room s.freeblock (C i).length p.length := by
  have hspace : i < NSPACE := Nat.lt_of_lt_of_le hi.2 hfi
  unfold Mkfs.iappend
  rw [rinode_eq s hspace, h.table i hi]
  show Ends (appendLoop p.length s (D i) (D i).size p >>= _) _ _
  rw [h.size i hi]
  refine .bind (lay_appendLoop hi p.length (Nat.le_refl _) h.lay) ?_
  rintro ⟨s₁, d₁, off⟩ ⟨hlay, hoff, hfi₁, hgrew, hmeta, f1, f2, f3, f4⟩
  dsimp only at hlay hoff hfi₁ hgrew hmeta f1 f2 f3 f4 ⊢
  rw [winode_eq _ _ hspace]
  have hk := h.kind i hi
  have hkind : Kind i { d₁ with size := off } :=
    ⟨f1.trans hk.1, f2.trans hk.2.1, f3.trans hk.2.2.1, f4.trans hk.2.2.2⟩
  have hDi : upd D i { d₁ with size := off } i = { d₁ with size := off } := upd_same _ _ _
  have hCi : upd C i (C i ++ p) i = C i ++ p := upd_same _ _ _
  -- the size is not part of the layout
  have haddr : ∀ j, (upd D i { d₁ with size := off } j).addrs = (upd D i d₁ j).addrs := by
    intro j
    rw [upd_apply, upd_apply]
    split
    · rfl
    · rfl
  have hslot : ∀ img j k, slot img (upd D i { d₁ with size := off } j) k =
      slot img (upd D i d₁ j) k := fun img j k => slot_congr (haddr j) (fun _ => rfl) k
  have hblock : ∀ img j bn, blockOf img (upd D i { d₁ with size := off } j) bn =
      blockOf img (upd D i d₁ j) bn := fun img j bn => hslot img j _
  have hlay₁ : Lay s₁.data s.freeinode s₁.freeblock (upd D i { d₁ with size := off })
      (upd C i (C i ++ p)) := by
    refine ⟨hlay.bump.congr fun j k _ => hslot _ j k, hlay.low, hlay.high, hlay.zero, hlay.fits,
      fun j hj bn hbn => ?_, fun j hj => ?_, fun j hj y hy => ?_⟩
    · rw [hblock]
      exact hlay.alloc j hj bn hbn
    · rw [haddr]
      exact hlay.ind j hj
    · rw [hblock]
      exact hlay.bytes j hj y hy
  have hsize : (upd D i { d₁ with size := off } i).size = (upd C i (C i ++ p) i).length := by
    rw [hDi, hCi, List.length_append]
    exact hoff
  have hok : ({ d₁ with size := off } : Dinode).Ok := by
    have := hlay₁.ok hi (by rw [hDi]; exact hkind) hsize
    rw [hDi] at this
    exact this
  have hbm : iblock i < 46 := iblock_lt hspace
  refine ⟨hfi₁, hgrew, { d₁ with size := off }, ⟨?_, fun j hj => ?_, fun j hj => ?_, fun j hj => ?_, ?_⟩⟩
  · show Lay _ s₁.freeinode _ _ _
    rw [hfi₁]
    refine hlay₁.congr fun b hb => upd_other _ _ ?_
    have hb' : 47 ≤ b := hb
    omega
  · by_cases hji : j = i
    · rw [hji]
      exact hsize
    · rw [upd_other _ _ hji, upd_other _ _ hji]
      rw [hfi₁] at hj
      exact h.size j hj
  · rw [table_winode hok]
    by_cases hji : j = i
    · rw [if_pos hji, hji, hDi]
    · rw [if_neg hji, upd_other _ _ hji]
      rw [hfi₁] at hj
      have hj' : iblock j < 46 := iblock_lt (Nat.lt_of_lt_of_le hj.2 hfi)
      rw [hmeta _ (Nat.lt_trans hj' (by decide))]
      exact h.table j hj
  · by_cases hji : j = i
    · rw [hji, hDi]
      exact hkind
    · rw [upd_other _ _ hji]
      rw [hfi₁] at hj
      exact h.kind j hj
  · dsimp only
    rw [upd_other _ _ (one_ne_iblock _), hmeta 1 (by decide)]
    exact h.super

theorem Good.copyLoop (h : Good s D C) (hfi : s.freeinode ≤ NSPACE) (hi : Live s.freeinode i)
    (rs : List Chunk) :
    Ends (copyLoop s i rs) (fun s' => s'.freeinode = s.freeinode ∧
      Grew s.freeblock (C i).length (rs.flatMap Subtype.val).length s'.freeblock ∧
      ∃ d, Good s' (upd D i d) (upd C i (C i ++ rs.flatMap Subtype.val)))
      fun _ => ¬ Room s.freeblock (C i).length (rs.flatMap Subtype.val).length := by
  induction rs generalizing s D C with
  | nil =>
    refine ⟨rfl, rfl, D i, ?_⟩
    rw [List.flatMap_nil, List.append_nil, upd_self, upd_self]
    exact h
  | cons r rs ih =>
    rw [List.flatMap_cons, List.length_append]
    refine .bind ((h.iappend hfi hi r.1).mono (fun _ => id) fun _ hnot hr => hnot hr.first) ?_
    rintro s₁ ⟨hfi₁, hg₁, d₁, h₁⟩
    have hrest := ih h₁ (by omega) (by rw [hfi₁]; exact hi)
    rw [upd_same, List.length_append] at hrest
    refine hrest.mono ?_ fun _ hnot hr => hnot (hr.rest hg₁)
    rintro s₂ ⟨hfi₂, hg₂, d₂, h₂⟩
    rw [upd_upd, upd_upd, List.append_assoc] at h₂
    exact ⟨hfi₂.trans hfi₁, hg₁.trans hg₂, d₂, h₂⟩

/-- What the program checks of a name. -/
def File.Named (f : File) : Prop := 47 ∉ f.base ∧ f.shortname.length ≤ DIRSIZ

theorem dirent_length {i : Nat} {name : List UInt8} (h : name.length ≤ DIRSIZ) :
    (dirent i name).length = 16 := by
  have h' : name.length ≤ 14 := h
  unfold dirent
  rw [List.length_append, List.length_append, List.length_replicate]
  show 2 + name.length + (14 - name.length) = 16
  omega

/-- **The files fit** when `fb` is the next block and the root has `root` bytes. -/
structure Fits (fb root : Nat) (fs : List File) : Prop where
  named : ∀ f ∈ fs, f.Named
  size : ∀ f ∈ fs, f.content.length ≤ MAXFILE * BSIZE
  dir : root + 16 * fs.length ≤ MAXFILE * BSIZE
  total : fb + blocksOf (root + 16 * fs.length) + (fs.map fun f => blocksOf f.content.length).sum ≤
    FSSIZE + blocksOf root

theorem Fits.first {fb root : Nat} {f : File} {fs : List File} (h : Fits fb root (f :: fs)) :
    Fits fb root [f] := by
  have hmem : ∀ g ∈ [f], g ∈ f :: fs := fun g hg => by
    rw [List.mem_singleton.1 hg]
    exact List.mem_cons_self
  have hroot := h.dir
  have htotal := h.total
  rw [List.length_cons] at hroot htotal
  have hle : root + 16 * [f].length ≤ root + 16 * (fs.length + 1) := by
    rw [List.length_singleton]
    omega
  have := blocksOf_mono hle
  refine ⟨fun g hg => h.named g (hmem g hg), fun g hg => h.size g (hmem g hg), Nat.le_trans hle hroot, ?_⟩
  rw [List.map_cons, List.sum_cons] at htotal
  rw [List.map_singleton, List.sum_singleton]
  omega

theorem Fits.rest {fb fb' root : Nat} {f : File} {fs : List File} (h : Fits fb root (f :: fs))
    (hfb : fb' + blocksOf root = fb + blocksOf (root + 16) + blocksOf f.content.length) :
    Fits fb' (root + 16) fs := by
  have hroot := h.dir
  have htotal := h.total
  rw [List.length_cons] at hroot htotal
  rw [List.map_cons, List.sum_cons] at htotal
  have hidx : root + 16 + 16 * fs.length = root + 16 * (fs.length + 1) := by omega
  refine ⟨fun g hg => h.named g (List.mem_cons_of_mem _ hg), fun g hg => h.size g (List.mem_cons_of_mem _ hg),
    by omega, ?_⟩
  rw [hidx]
  omega

/-- **One file**: its entry goes to the root, and its bytes to a new inode. -/
theorem Good.addFile (h : Good s D C) (hfi : s.freeinode < NSPACE) (h1 : Live s.freeinode ROOTINO)
    (f : File) :
    Ends (addFile s f) (fun s' => f.Named ∧ s'.freeinode = s.freeinode + 1 ∧
      s'.freeblock + blocksOf (C ROOTINO).length = s.freeblock + blocksOf ((C ROOTINO).length + 16) +
        blocksOf f.content.length ∧
      ∃ D', Good s' D'
        (upd (upd C ROOTINO (C ROOTINO ++ dirent s.freeinode f.shortname)) s.freeinode f.content))
      fun _ => ¬ Fits s.freeblock (C ROOTINO).length [f] := by
  have hmem : f ∈ [f] := List.mem_singleton.2 rfl
  refine .ite (fun hslash hfit => (hfit.named f hmem).1 hslash) fun hslash => ?_
  refine .ite (fun hlen hfit => absurd (hfit.named f hmem).2 (by omega)) fun hlen => ?_
  have hlen' : f.shortname.length ≤ DIRSIZ := by omega
  have hne : s.freeinode ≠ ROOTINO := Nat.ne_of_gt h1.2
  obtain ⟨s₁, d₁, hia, hfi₁, hfb₁, h₁⟩ := h.ialloc hfi T_FILE (by rw [if_neg hne])
  rw [hia]
  have hroot : Live s₁.freeinode ROOTINO := ⟨Nat.le_refl _, by rw [hfi₁]; exact Nat.lt_succ_of_lt h1.2⟩
  have hnew : Live s₁.freeinode s.freeinode := ⟨Nat.le_of_lt h1.2, by omega⟩
  have hCr : upd C s.freeinode [] ROOTINO = C ROOTINO := upd_other _ _ (Ne.symm hne)
  -- what the two files need together
  have hroom : Fits s.freeblock (C ROOTINO).length [f] → Room s.freeblock (C ROOTINO).length 16 ∧
      ∀ fb, Grew s.freeblock (C ROOTINO).length 16 fb → Room fb 0 f.content.length := by
    intro hfit
    have hsize := hfit.size f hmem
    have htotal := hfit.total
    rw [List.length_singleton, List.map_singleton, List.sum_singleton, Nat.mul_one] at htotal
    refine ⟨⟨hfit.dir, by omega⟩, fun fb hg => ⟨by omega, ?_⟩⟩
    unfold Grew at hg
    rw [Nat.zero_add]
    omega
  have hentry := h₁.iappend (by omega) hroot (dirent s.freeinode f.shortname)
  rw [hCr, dirent_length hlen', hfb₁] at hentry
  show Ends (Mkfs.iappend s₁ ROOTINO (dirent s.freeinode f.shortname) >>= _) _ _
  refine .bind (hentry.mono (fun _ => id) fun _ hnot hfit => hnot (hroom hfit).1) ?_
  rintro s₂ ⟨hfi₂, hg₂, d₂, h₂⟩
  have hcopy := h₂.copyLoop (by omega) (by rw [hfi₂]; exact hnew) f.reads
  rw [upd_other _ _ hne, upd_same, List.length_nil, List.nil_append] at hcopy
  refine hcopy.mono ?_ fun _ hnot hfit => hnot ((hroom hfit).2 _ hg₂)
  rintro s₃ ⟨hfi₃, hg₃, d₃, h₃⟩
  refine ⟨⟨hslash, hlen'⟩, by omega, ?_, upd (upd (upd D s.freeinode d₁) ROOTINO d₂) s.freeinode d₃, ?_⟩
  · have hz : s₃.freeblock + blocksOf 0 = s₂.freeblock + blocksOf (0 + f.content.length) := hg₃
    have h0 : blocksOf 0 = 0 := rfl
    unfold Grew at hg₂
    rw [Nat.zero_add] at hz
    omega
  · -- the new file was empty, and is not the root
    have hC : upd (upd (upd C s.freeinode []) ROOTINO (C ROOTINO ++ dirent s.freeinode f.shortname))
        s.freeinode (f.reads.flatMap Subtype.val) =
        upd (upd C ROOTINO (C ROOTINO ++ dirent s.freeinode f.shortname)) s.freeinode f.content := by
      funext j
      simp only [upd_apply]
      split
      · rfl
      · split
        · rfl
        · rfl
    rw [hC] at h₃
    exact h₃

/-- The entries of the root for some files, numbered from `i` on. -/
def entries (i : Nat) : List File → List UInt8
  | [] => []
  | f :: fs => dirent i f.shortname ++ entries (i + 1) fs

/-- The contents of the inodes after some files, numbered from `i` on. -/
def contents (C : Nat → List UInt8) (i : Nat) : List File → Nat → List UInt8
  | [] => C
  | f :: fs => contents (upd C i f.content) (i + 1) fs

theorem contents_of_lt {C : Nat → List UInt8} {i j : Nat} (h : j < i) (fs : List File) :
    contents C i fs j = C j := by
  induction fs generalizing C i with
  | nil => rfl
  | cons f fs ih => rw [contents, ih (Nat.lt_succ_of_lt h), upd_other _ _ (Nat.ne_of_lt h)]

theorem contents_get {C : Nat → List UInt8} {i k : Nat} {fs : List File} {f : File}
    (h : fs[k]? = some f) : contents C i fs (i + k) = f.content := by
  induction fs generalizing C i k with
  | nil => simp at h
  | cons g fs ih =>
    cases k with
    | zero =>
      rw [List.getElem?_cons_zero] at h
      cases h
      exact (contents_of_lt (Nat.lt_succ_self i) fs).trans (upd_same _ _ _)
    | succ k =>
      rw [List.getElem?_cons_succ] at h
      rw [contents, Nat.add_comm k 1, ← Nat.add_assoc]
      exact ih h

theorem contents_congr {C C' : Nat → List UInt8} {i j : Nat} (h : C j = C' j) (fs : List File) :
    contents C i fs j = contents C' i fs j := by
  induction fs generalizing C C' i with
  | nil => exact h
  | cons f fs ih =>
    refine ih ?_
    rw [upd_apply, upd_apply, h]

/-- **All files.** -/
theorem Good.addFiles (h : Good s D C) (h1 : Live s.freeinode ROOTINO) {fs : List File}
    (hfi : s.freeinode + fs.length ≤ NSPACE) :
    Ends (addFiles s fs) (fun s' => (∀ f ∈ fs, f.Named) ∧ s'.freeinode = s.freeinode + fs.length ∧
      ∃ D' C', Good s' D' C' ∧ C' ROOTINO = C ROOTINO ++ entries s.freeinode fs ∧
        ∀ j, j ≠ ROOTINO → C' j = contents C s.freeinode fs j)
      fun _ => ¬ Fits s.freeblock (C ROOTINO).length fs := by
  induction fs generalizing s D C with
  | nil => exact ⟨by simp, rfl, D, C, h, (List.append_nil _).symm, fun _ _ => rfl⟩
  | cons f fs ih =>
    rw [List.length_cons] at hfi
    refine .bind ((h.addFile (by omega) h1 f).mono (fun _ => id) fun _ hnot hfit => hnot hfit.first) ?_
    rintro s₁ ⟨hnamed, hfi₁, hfb₁, D₁, h₁⟩
    have hne : s.freeinode ≠ ROOTINO := Nat.ne_of_gt h1.2
    have h1' : Live s₁.freeinode ROOTINO :=
      ⟨Nat.le_refl _, by rw [hfi₁]; exact Nat.lt_succ_of_lt h1.2⟩
    have hrest := ih h₁ h1' (by omega)
    rw [upd_other _ _ (Ne.symm hne), upd_same, List.length_append, dirent_length hnamed.2] at hrest
    refine hrest.mono ?_ fun _ hnot hfit => hnot (hfit.rest hfb₁)
    rintro s₂ ⟨hall, hfi₂, D₂, C₂, h₂, hroot, hother⟩
    refine ⟨fun g hg => ?_, by rw [hfi₂, List.length_cons]; omega, D₂, C₂, h₂, ?_, fun j hj => ?_⟩
    · rcases List.mem_cons.1 hg with rfl | hg
      · exact hnamed
      · exact hall g hg
    · rw [hroot, hfi₁, List.append_assoc]
      rfl
    · rw [hother j hj, hfi₁, contents]
      refine contents_congr ?_ fs
      rw [upd_apply, upd_apply, upd_apply, if_neg hj]

end Xv6.Mkfs
