import Xv6.Content.Bytes

/-!
# Files are byte arrays

The loop of `filewrite` cuts a write into chunks of at most `chunkMax` bytes.  A loop over bytes can be
cut anywhere, and the size that a chunk leaves behind is read by no step of the next one, so the
chunks leave the disk that one `writei` of the whole buffer leaves.
-/

namespace Xv6.Content

open Xv6.Lib

namespace Disk

variable {s s' : Disk} {i j a k m n x off tot : Nat} {src : Nat → UInt8}

/-! ### Cutting a write -/

theorem bytesLoop_shift (i : Nat) (src : Nat → UInt8) (d n : Nat) (s : Disk) (tot x : Nat) :
    bytesLoop i src n s (d + tot) x =
      (d + (bytesLoop i (fun j => src (d + j)) n s tot x).1, (bytesLoop i (fun j => src (d + j)) n s tot x).2) := by
  induction n generalizing s tot x with
  | zero => rfl
  | succ n ih =>
    rw [bytesLoop, bytesLoop]
    rcases s.bmap i (x / BSIZE) with - | ⟨a, s₁⟩
    · rfl
    · dsimp only
      by_cases ha : a = 0
      · rw [if_pos ha, if_pos ha]
      · rw [if_neg ha, if_neg ha, Nat.add_assoc, ih]

/-- A write of `m + n` bytes is one of `m` bytes and, when that did not stop, one of `n` bytes. -/
theorem bytesLoop_add (i : Nat) (src : Nat → UInt8) (m n : Nat) (s : Disk) (tot x : Nat) :
    bytesLoop i src (m + n) s tot x =
      if (bytesLoop i src m s tot x).1 = tot + m then
        bytesLoop i src n (bytesLoop i src m s tot x).2 (tot + m) (x + m)
      else bytesLoop i src m s tot x := by
  induction m generalizing s tot x with
  | zero =>
    rw [Nat.zero_add]
    exact (if_pos rfl).symm
  | succ m ih =>
    rw [show m + 1 + n = m + n + 1 by omega]
    have hstop : tot ≠ tot + (m + 1) := by omega
    rcases hmap : s.bmap i (x / BSIZE) with - | ⟨a, s₁⟩
    · rw [bytesLoop_none hmap, bytesLoop_none hmap]
      exact (if_neg hstop).symm
    · by_cases ha : a = 0
      · subst ha
        rw [bytesLoop_stop hmap, bytesLoop_stop hmap]
        exact (if_neg hstop).symm
      · rw [bytesLoop_succ hmap ha, bytesLoop_succ hmap ha, ih, Nat.add_assoc tot, Nat.add_comm 1 m,
          Nat.add_assoc x, Nat.add_comm 1 m]

/-! ### The size is not read -/

theorem balloc_setSize (s : Disk) (i n : Nat) :
    (s.setSize i n).balloc = (s.balloc.1, s.balloc.2.setSize i n) := by
  have hused : (s.setSize i n).used = s.used := rfl
  have hblocks : (s.setSize i n).nblocks = s.nblocks := rfl
  unfold balloc
  rw [hblocks, hused]
  rcases (List.range s.nblocks).find? fun b => !s.used b with - | b
  · rfl
  · rfl

theorem addrOf_setSize (s : Disk) (i n j k : Nat) :
    (s.setSize i n).addrOf j k = ((s.addrOf j k).1, (s.addrOf j k).2.setSize i n) := by
  unfold addrOf
  show (if s.addrs j k = 0 then _ else _) = _
  rw [balloc_setSize]
  dsimp only
  by_cases h0 : s.addrs j k = 0
  · rw [if_pos h0, if_pos h0]
    by_cases hb : s.balloc.1 = 0
    · rw [if_pos hb, if_pos hb]
    · rw [if_neg hb, if_neg hb]
      rfl
  · rw [if_neg h0, if_neg h0]
    rfl

theorem wordOf_setSize (s : Disk) (i n t k : Nat) :
    (s.setSize i n).wordOf t k = ((s.wordOf t k).1, (s.wordOf t k).2.setSize i n) := by
  unfold wordOf
  show (if s.words t k = 0 then _ else _) = _
  rw [balloc_setSize]
  dsimp only
  by_cases h0 : s.words t k = 0
  · rw [if_pos h0, if_pos h0]
    by_cases hb : s.balloc.1 = 0
    · rw [if_pos hb, if_pos hb]
    · rw [if_neg hb, if_neg hb]
      rfl
  · rw [if_neg h0, if_neg h0]
    rfl

theorem bmap_setSize (s : Disk) (i n j bn : Nat) :
    (s.setSize i n).bmap j bn = (s.bmap j bn).map fun p => (p.1, p.2.setSize i n) := by
  unfold bmap
  rw [addrOf_setSize, addrOf_setSize]
  dsimp only
  by_cases h1 : bn < NDIRECT
  · rw [if_pos h1, if_pos h1]
    rfl
  · rw [if_neg h1, if_neg h1]
    by_cases h2 : bn - NDIRECT < NINDIRECT
    · rw [if_pos h2, if_pos h2]
      by_cases ht : (s.addrOf j NDIRECT).1 = 0
      · rw [if_pos ht, if_pos ht]
        rfl
      · rw [if_neg ht, if_neg ht, wordOf_setSize]
        rfl
    · rw [if_neg h2, if_neg h2]
      rfl

theorem bytesLoop_setSize (i : Nat) (src : Nat → UInt8) (N n : Nat) (s : Disk) (tot x : Nat) :
    bytesLoop i src n (s.setSize i N) tot x =
      ((bytesLoop i src n s tot x).1, (bytesLoop i src n s tot x).2.setSize i N) := by
  induction n generalizing s tot x with
  | zero => rfl
  | succ n ih =>
    rw [bytesLoop, bytesLoop, bmap_setSize]
    rcases s.bmap i (x / BSIZE) with - | ⟨a, s₁⟩
    · rfl
    · dsimp only [Option.map_some]
      by_cases ha : a = 0
      · rw [if_pos ha, if_pos ha]
      · rw [if_neg ha, if_neg ha]
        exact ih (s₁.blit a (x % BSIZE) 1 fun _ => src tot) _ _

theorem Sound.bytesLoop_stretch (h : s.Sound) (i : Nat) (src : Nat → UInt8) (N : Nat)
    (hend : x + n ≤ MAXFILE * BSIZE) :
    Disk.bytesLoop i src n (s.stretch i N) tot x =
      ((Disk.bytesLoop i src n s tot x).1, (Disk.bytesLoop i src n s tot x).2.stretch i N) := by
  obtain ⟨k, s', -, hloop, hwrote, -⟩ := h.bytesLoop src i n tot x hend
  unfold stretch
  rw [hloop, hwrote.size]
  by_cases hlt : s.size i < N
  · rw [if_pos hlt, if_pos hlt, bytesLoop_setSize, hloop]
  · rw [if_neg hlt, if_neg hlt, hloop]

theorem stretch_stretch (s : Disk) (i : Nat) (h : m ≤ n) : (s.stretch i m).stretch i n = s.stretch i n := by
  by_cases hm : s.size i < m
  · have hsize : (s.setSize i m).size i = m := upd_same _ _ _
    rw [show s.stretch i m = s.setSize i m from if_pos hm]
    by_cases hmn : m < n
    · unfold stretch
      rw [hsize, if_pos hmn, if_pos (by omega)]
      unfold setSize
      rw [upd_upd]
    · obtain rfl : m = n := by omega
      rw [stretch_of_le (Nat.le_of_eq hsize.symm)]
      exact (if_pos hm).symm
  · rw [stretch_of_le (Nat.le_of_not_lt hm)]

/-! ### The loop of `filewrite` -/

theorem chunkMax_pos : 0 < chunkMax := by decide

/-- **The loop of `filewrite`** is one loop over the bytes. -/
theorem Sound.filewriteLoop (h : s.Sound) (i : Nat) (src : Nat → UInt8) (n fuel k off : Nat) (hk : k ≤ n)
    (hfuel : n - k ≤ fuel) (hoff : off ≤ s.size i) (hend : off + (n - k) ≤ MAXFILE * BSIZE) :
    ∃ (t : Nat) (s' : Disk) (k' : Nat), Disk.bytesLoop i (fun j => src (k + j)) (n - k) s 0 off = (t, s') ∧
      Disk.filewriteLoop i src (n : Int) fuel s k off = some (k', off + t, s'.stretch i (off + t)) ∧
      (k' = n ↔ t = n - k) := by
  induction fuel generalizing s k off with
  | zero =>
    obtain rfl : k = n := by omega
    rw [Nat.sub_self]
    exact ⟨0, s, k, rfl, by rw [Disk.filewriteLoop, Nat.add_zero, stretch_of_le hoff], by simp⟩
  | succ fuel ih =>
    rw [Disk.filewriteLoop]
    by_cases hlt : (k : Int) < (n : Int)
    · rw [if_pos hlt]
      have hn1 : ((n : Int) - (k : Int)).toNat = n - k := by omega
      rw [hn1]
      generalize hm : min (n - k) chunkMax = m
      have hpos := chunkMax_pos
      have hm1 : 0 < m := by omega
      have hmn : m ≤ n - k := by omega
      have hreq : ¬ s.Refused i off m := by
        have hend' : off + (n - k) ≤ 268 * 1024 := hend
        unfold Refused
        omega
      obtain ⟨t, s₁, ht, hloop, hwrote, -⟩ := h.bytesLoop (fun j => src (k + j)) i m 0 off
        (Nat.le_trans (by omega) hend)
      rw [Nat.zero_add] at hloop
      have hcut := bytesLoop_add i (fun j => src (k + j)) m (n - k - m) s 0 off
      rw [Nat.add_sub_cancel' hmn, hloop, Nat.zero_add] at hcut
      dsimp only at hcut
      dsimp only
      rw [h.writei hreq, hloop]
      dsimp only
      have hoff' : (if 0 < (t : Int) then (off + (t : Int).toNat) % 2 ^ 32 else off) = off + t := by
        have hend' : off + (n - k) ≤ 268 * 1024 := hend
        rw [Int.toNat_natCast, Nat.mod_eq_of_lt (by omega)]
        split
        · rfl
        · omega
      rw [hoff', Int.toNat_natCast]
      by_cases hfull : t = m
      · subst hfull
        have hne : ¬ ((t : Int) ≠ (t : Int)) := fun hc => hc rfl
        rw [if_pos rfl] at hcut
        rw [if_neg hne]
        have hsize : off + t ≤ (s₁.stretch i (off + t)).size i := by
          rw [stretch_size, if_pos rfl]
          exact Nat.le_max_right _ _
        obtain ⟨t', s₂, k', hrest, hfile, hiff⟩ := ih (stretch_sound hwrote.sound i (off + t)) (k + t)
          (off + t) (by omega) (by omega) hsize (by omega)
        rw [hwrote.sound.bytesLoop_stretch i _ _ (by omega)] at hrest
        obtain ⟨hr1, hr2⟩ := Prod.mk.inj hrest
        have hshift := bytesLoop_shift i (fun j => src (k + j)) t (n - k - t) s₁ 0 (off + t)
        rw [Nat.add_zero] at hshift
        simp only [← Nat.add_assoc] at hshift
        rw [show n - (k + t) = n - k - t by omega] at hr1 hr2
        rw [hshift, hr1] at hcut
        refine ⟨t + t', _, k', hcut, ?_, ?_⟩
        · rw [hfile, ← hr2, stretch_stretch _ _ (by omega), Nat.add_assoc]
        · rw [hiff]
          omega
      · rw [if_neg hfull] at hcut
        rw [if_pos (by omega)]
        exact ⟨t, s₁, k, hcut, rfl, by omega⟩
    · obtain rfl : k = n := by omega
      rw [if_neg hlt, Nat.sub_self]
      exact ⟨0, s, k, rfl, by rw [Nat.add_zero, stretch_of_le hoff], by simp⟩

theorem filewrite_refused (src : Nat → UInt8) (h : s.size i < off) (hoff : off < 2 ^ 32) (hn : n < 2 ^ 31) :
    ∃ r, s.filewrite i src off n = some (r, off, s) := by
  unfold filewrite
  rcases n with - | n
  · exact ⟨_, rfl⟩
  · have hpos := chunkMax_pos
    have hlt : ((0 : Nat) : Int) < ((n + 1 : Nat) : Int) := by omega
    have hmin : min ((n + 1 : Nat) - ((0 : Nat) : Int)).toNat chunkMax < 2 ^ 32 := by omega
    rw [Int.toNat_natCast, filewriteLoop, if_pos hlt]
    dsimp only
    rw [writei_refused (.inl h) hoff hmin]
    dsimp only
    have hneg : ¬ ((0 : Int) < -1) := by decide
    rw [if_neg hneg, if_pos (by omega)]
    exact ⟨_, rfl⟩

/-- **`filewrite` and `writei`** of the same buffer leave the same disk. -/
theorem Sound.filewrite (h : s.Sound) (i : Nat) (src : Nat → UInt8) (hend : off + n ≤ MAXFILE * BSIZE) :
    ∃ r r' s', s.writei i src off n = some (r, s') ∧ s.filewrite i src off n = some (r', off + r.toNat, s') := by
  have hend' : off + n ≤ 268 * 1024 := hend
  by_cases hoff : off ≤ s.size i
  · have hreq : ¬ s.Refused i off n := by
      unfold Refused
      omega
    obtain ⟨t, s', k', hloop, hfile, -⟩ := h.filewriteLoop i src n n 0 off (by omega) (by omega) hoff
      (by omega)
    simp only [Nat.zero_add, Nat.sub_zero] at hloop
    refine ⟨t, if (k' : Int) = n then n else -1, s'.stretch i (off + t), by rw [h.writei hreq, hloop], ?_⟩
    unfold Disk.filewrite
    rw [Int.toNat_natCast, hfile]
    rfl
  · obtain ⟨r, hr⟩ := filewrite_refused src (Nat.lt_of_not_le hoff) (show off < 2 ^ 32 by omega)
      (show n < 2 ^ 31 by omega)
    exact ⟨-1, r, s, writei_refused (.inl (by omega)) (by omega) (by omega), hr⟩

end Disk

/-! ### Files as arrays of bytes -/

open Disk in
/-- **Files are byte arrays.**  A write to a file without holes is refused and changes nothing, or it
overwrites a range of the contents with a part of the data, all of it unless the disk is full; a read
gives the bytes of its range, none when the range passes the largest number; and writing by chunks
comes to the same as one write. -/
theorem file_bytes (s : Disk) (i : Nat) (h : s.Sound) (hw : s.Whole i) (src : Nat → UInt8) (off n : Nat)
    (hoff : off < 2 ^ 32) (hn : n < 2 ^ 32) :
    ((s.Refused i off n ∧ s.writei i src off n = some (-1, s)) ∨
      (¬ s.Refused i off n ∧ ∃ (k : Nat) (s' : Disk), s.writei i src off n = some ((k : Int), s') ∧
        k ≤ n ∧ (k < n → s'.Full) ∧
        s'.content i = (s.content i).take off ++ (List.range k).map src ++ (s.content i).drop (off + k) ∧
        s'.size i = max (s.size i) (off + k) ∧ s'.Sound ∧ s'.Whole i ∧
        ∀ j, j ≠ i → s.size j ≤ MAXFILE * BSIZE → s'.content j = s.content j ∧ s'.size j = s.size j)) ∧
    s.readi i off n = some (if off + n < 2 ^ 32 then ((s.content i).drop off).take n else [], s) ∧
    (off + n ≤ MAXFILE * BSIZE →
      ∃ r r' s', s.writei i src off n = some (r, s') ∧ s.filewrite i src off n = some (r', off + r.toNat, s')) := by
  refine ⟨?_, ?_, h.filewrite i src⟩
  · by_cases hreq : s.Refused i off n
    · exact .inl ⟨hreq, writei_refused hreq hoff hn⟩
    · have hreq' := hreq
      unfold Refused at hreq'
      obtain ⟨k, s', hk, hloop, hwrote, hfull⟩ := h.bytesLoop src i n 0 off (by omega)
      simp only [Nat.zero_add] at hloop hwrote
      refine .inr ⟨hreq, k, s'.stretch i (off + k), by rw [h.writei hreq, hloop], hk, fun hlt => ?_,
        hwrote.content hw.size (by omega) (by omega), ?_, stretch_sound hwrote.sound _ _,
        hwrote.whole hw (by omega) (by omega), fun j hj hsize => ⟨hwrote.content_other hj hsize _, ?_⟩⟩
      · have hf := hfull hlt
        intro b hb
        rw [stretch_used]
        rw [stretch_nblocks] at hb
        exact hf b hb
      · rw [stretch_size, if_pos rfl, hwrote.size]
      · rw [stretch_size, if_neg hj, hwrote.size]
  · by_cases hfit : off + n < 2 ^ 32
    · rw [if_pos hfit, hw.readi hn hfit]
    · have hwrap : (off + n) % 2 ^ 32 < off := by omega
      unfold Disk.readi
      rw [if_pos (.inr hwrap), if_neg hfit]

/-- One file of two bytes, in block `1` of two blocks. -/
def twoBytes : Disk where
  size i := if i = 0 then 2 else 0
  addrs i k := if i = 0 ∧ k = 0 then 1 else 0
  data _ k := if k = 0 then 7 else 8
  words _ _ := 0
  used b := b ≤ 1
  nblocks := 2

theorem twoBytes_held (i k : Nat) : twoBytes.held i k = if i = 0 ∧ k = 0 then 1 else 0 := by
  have hw : ∀ a b, twoBytes.words a b = 0 := fun _ _ => rfl
  have ha : ∀ i k, twoBytes.addrs i k = if i = 0 ∧ k = 0 then 1 else 0 := fun _ _ => rfl
  have hind : twoBytes.addrs i NDIRECT = 0 := if_neg fun hc => absurd hc.2 (by decide)
  unfold Disk.held
  rw [hw, ha, hind]
  by_cases hk : k = 0
  · subst hk
    rw [if_pos (by decide)]
  · have hnot : ¬ (i = 0 ∧ k = 0) := fun hc => hk hc.2
    simp only [if_neg hnot, ite_self]

theorem twoBytes_sound : twoBytes.Sound := by
  refine ⟨rfl, fun i k _ hne => ?_, fun i k j l _ _ hne heq => ?_⟩
  · rw [twoBytes_held] at hne ⊢
    split at hne
    · rename_i h
      rw [if_pos h]
      rfl
    · exact absurd rfl hne
  · rw [twoBytes_held] at hne heq
    rw [twoBytes_held] at heq
    split at hne
    · split at heq
      · split at heq
        · omega
        · exact absurd heq (by decide)
      · contradiction
    · exact absurd rfl hne

theorem twoBytes_whole : twoBytes.Whole 0 := by
  refine ⟨by decide, fun x hx => ?_⟩
  have hx' : x < 2 := hx
  have hdiv : x / BSIZE = 0 := Nat.div_eq_of_lt (Nat.lt_trans hx' (by decide))
  rw [twoBytes_held, hdiv]
  decide

/-- A read of the last byte. -/
theorem file_bytes_two : twoBytes.readi 0 1 5 = some ([8], twoBytes) ∧
    ∃ (k : Nat) (s' : Disk), twoBytes.writei 0 (fun _ => 9) 1 3 = some ((k : Int), s') := by
  have hread := (file_bytes twoBytes 0 twoBytes_sound twoBytes_whole (fun _ => 9) 1 5 (by decide) (by decide)).2.1
  have hwrite := (file_bytes twoBytes 0 twoBytes_sound twoBytes_whole (fun _ => 9) 1 3 (by decide) (by decide)).1
  refine ⟨hread.trans ?_, ?_⟩
  · rw [if_pos (by decide)]
    have hcontent : ((twoBytes.content 0).drop 1).take 5 = [8] := by decide
    rw [hcontent]
  · rcases hwrite with ⟨hreq, -⟩ | ⟨-, k, s', hrun, -⟩
    · exact absurd hreq (by unfold Disk.Refused; decide)
    · exact ⟨k, s', hrun⟩

/-- **A range that passes the largest number**: the file has a byte at offset `1`, and reading
`2 ^ 32 - 1` bytes from there gives none. -/
theorem readi_wraps : twoBytes.Sound ∧ twoBytes.Whole 0 ∧ ((twoBytes.content 0).drop 1).take (2 ^ 32 - 1) = [8] ∧
    twoBytes.readi 0 1 (2 ^ 32 - 1) = some ([], twoBytes) := by
  refine ⟨twoBytes_sound, twoBytes_whole, ?_, ?_⟩
  · have hdrop : (twoBytes.content 0).drop 1 = [8] := by decide
    rw [hdrop]
    rfl
  · unfold Disk.readi
    rw [if_pos (by decide)]

end Xv6.Content
