import Xv6.Content.Blocks

/-!
# Reading and writing bytes

`writei` goes from block to block, and its loop does what a loop over the single bytes would do:
`bytesLoop`.  A byte of a block that is there finds the block again, so the rounds of the two loops
fall together.  What a write does is then an induction over its bytes, and a write that is cut in two is
two writes.
-/

namespace Xv6.Content

open Xv6.Lib

namespace Disk

variable {s s' : Disk} {i j b a o m n k x off tot : Nat} {src : Nat → UInt8}

/-! ### Single bytes -/

theorem blit_sound (h : s.Sound) (b o n : Nat) (src : Nat → UInt8) : (s.blit b o n src).Sound :=
  ⟨h.boot, h.used, h.inj⟩

theorem blit_congr {src' : Nat → UInt8} (h : ∀ k < n, src k = src' k) : s.blit b o n src = s.blit b o n src' := by
  unfold blit
  congr 1
  congr 1
  funext k
  split
  · exact h _ (by omega)
  · rfl

theorem blit_blit (s : Disk) (b o m n : Nat) (src : Nat → UInt8) :
    (s.blit b o m src).blit b (o + m) n (fun k => src (m + k)) = s.blit b o (m + n) src := by
  unfold blit
  simp only [upd_same, upd_upd]
  congr 1
  congr 1
  funext k
  by_cases h1 : o + m ≤ k ∧ k < o + m + n
  · have hk : m + (k - (o + m)) = k - o := by omega
    rw [if_pos h1, if_pos (by omega), hk]
  · rw [if_neg h1]
    by_cases h2 : o ≤ k ∧ k < o + m
    · rw [if_pos h2, if_pos (by omega)]
    · rw [if_neg h2, if_neg (by omega)]

/-- **Writing into a block of a file** changes the bytes there, and no other byte of any file. -/
theorem Sound.byteOf_blit (h : s.Sound) (hx : x / BSIZE < MAXFILE) (hne : s.held i (x / BSIZE) ≠ 0)
    (hn : n ≤ BSIZE - x % BSIZE) {y : Nat} (hy : y / BSIZE < MAXFILE) :
    (s.blit (s.held i (x / BSIZE)) (x % BSIZE) n src).byteOf j y =
      if j = i ∧ x ≤ y ∧ y < x + n then src (y - x) else s.byteOf j y := by
  have hheld : ∀ j k, (s.blit (s.held i (x / BSIZE)) (x % BSIZE) n src).held j k = s.held j k :=
    fun _ _ => rfl
  have hn' : n ≤ 1024 - x % 1024 := hn
  unfold byteOf
  rw [hheld]
  show (if s.held j (y / BSIZE) = 0 then 0 else upd s.data (s.held i (x / BSIZE)) (fun k =>
    if x % BSIZE ≤ k ∧ k < x % BSIZE + n then src (k - x % BSIZE) else s.data (s.held i (x / BSIZE)) k)
      (s.held j (y / BSIZE)) (y % BSIZE)) = _
  by_cases hsame : s.held j (y / BSIZE) = s.held i (x / BSIZE)
  · -- one block has one place in one file
    obtain ⟨rfl, hdiv⟩ := h.inj i _ j _ (Nat.le_of_lt hx) (Nat.le_of_lt hy) hne hsame.symm
    have hdiv' : x / 1024 = y / 1024 := hdiv
    rw [hsame, if_neg hne, if_neg hne, upd_same]
    show (if x % 1024 ≤ y % 1024 ∧ y % 1024 < x % 1024 + n then src (y % 1024 - x % 1024) else _) = _
    by_cases hin : x ≤ y ∧ y < x + n
    · have hidx : y % 1024 - x % 1024 = y - x := by omega
      rw [if_pos (by omega), if_pos ⟨rfl, hin⟩, hidx]
    · rw [if_neg (by omega), if_neg fun hc => hin hc.2]
  · have hnot : ¬ (j = i ∧ x ≤ y ∧ y < x + n) := by
      rintro ⟨rfl, hlow, hhigh⟩
      have hdiv : y / 1024 = x / 1024 := by omega
      exact hsame (congrArg (s.held j) hdiv)
    rw [upd_other _ _ hsame, if_neg hnot]

/-- The write of `n` bytes at `x`, byte by byte: how many were written. -/
def bytesLoop (i : Nat) (src : Nat → UInt8) : Nat → Disk → Nat → Nat → Nat × Disk
  | 0, s, tot, _ => (tot, s)
  | n + 1, s, tot, x =>
    match s.bmap i (x / BSIZE) with
    | none => (tot, s)
    | some (a, s) =>
      if a = 0 then (tot, s)
      else bytesLoop i src n (s.blit a (x % BSIZE) 1 fun _ => src tot) (tot + 1) (x + 1)

theorem bytesLoop_none (hmap : s.bmap i (x / BSIZE) = none) : bytesLoop i src (n + 1) s tot x = (tot, s) := by
  rw [bytesLoop, hmap]

theorem bytesLoop_stop (hmap : s.bmap i (x / BSIZE) = some (0, s')) :
    bytesLoop i src (n + 1) s tot x = (tot, s') := by
  rw [bytesLoop, hmap]
  exact if_pos rfl

theorem bytesLoop_succ (hmap : s.bmap i (x / BSIZE) = some (a, s')) (ha : a ≠ 0) :
    bytesLoop i src (n + 1) s tot x =
      bytesLoop i src n (s'.blit a (x % BSIZE) 1 fun _ => src tot) (tot + 1) (x + 1) := by
  rw [bytesLoop, hmap]
  exact if_neg ha

theorem Sound.bytesLoop_block (h : s.Sound) (src : Nat → UInt8) (tot : Nat) (hoff : off / BSIZE < MAXFILE)
    (hmap : s.bmap i (off / BSIZE) = some (a, s')) (ha : a ≠ 0) (m r : Nat)
    (hm : off % BSIZE + (m + 1) ≤ BSIZE) :
    bytesLoop i src (r + (m + 1)) s tot off =
      bytesLoop i src r (s'.blit a (off % BSIZE) (m + 1) fun k => src (tot + k)) (tot + (m + 1))
        (off + (m + 1)) := by
  obtain ⟨a', s₁, hmap', hmapped⟩ := h.bmap i hoff
  rw [hmap] at hmap'
  cases hmap'
  induction m generalizing r with
  | zero =>
    rw [bytesLoop_succ hmap ha]
    congr 1
    refine blit_congr fun k hk => ?_
    obtain rfl : k = 0 := by omega
    rfl
  | succ m ih =>
    have hm' : off % 1024 + (m + 1 + 1) ≤ 1024 := hm
    have hdiv : (off + (m + 1)) / BSIZE = off / BSIZE := by
      show (off + (m + 1)) / 1024 = off / 1024
      omega
    have hmod : (off + (m + 1)) % BSIZE = off % BSIZE + (m + 1) := by
      show (off + (m + 1)) % 1024 = off % 1024 + (m + 1)
      omega
    rw [show r + (m + 1 + 1) = r + 1 + (m + 1) by omega, ih (r + 1) (Nat.le_trans (by omega) hm)]
    have hheld : (s'.blit a (off % BSIZE) (m + 1) fun k => src (tot + k)).held i (off / BSIZE) = a :=
      hmapped.block
    have hagain := bmap_held (s := s'.blit a (off % BSIZE) (m + 1) fun k => src (tot + k)) hoff
      (by rw [hheld]; exact ha)
    rw [hheld, ← hdiv] at hagain
    rw [bytesLoop_succ hagain ha, hmod, ← blit_blit s' a (off % BSIZE) (m + 1) 1]
    congr 1
    refine blit_congr fun k hk => ?_
    obtain rfl : k = 0 := by omega
    rfl

/-! ### What is written -/

/-- `k` bytes of file `i` at `x` have been written. -/
structure Wrote (s s' : Disk) (i x k : Nat) (src : Nat → UInt8) : Prop where
  sound : s'.Sound
  size : s'.size = s.size
  byteOf : ∀ j y, y / BSIZE < MAXFILE → s'.byteOf j y =
    if j = i ∧ x ≤ y ∧ y < x + k then src (y - x) else s.byteOf j y
  keep : ∀ j l, l ≤ MAXFILE → s.held j l ≠ 0 → s'.held j l ≠ 0
  room : ∀ y, x ≤ y → y < x + k → s'.held i (y / BSIZE) ≠ 0

theorem Grown.wrote (h : Grown s s') (i x : Nat) (src : Nat → UInt8) : Wrote s s' i x 0 src := by
  refine ⟨h.sound, h.size, fun j y hy => ?_, fun j l hl hne => ?_, fun y h1 h2 => ?_⟩
  · rw [if_neg (by omega), h.byteOf j y hy]
  · rw [h.held j l hl hne]
    exact hne
  · omega

theorem Mapped.wrote_cons {s₁ : Disk} (h : Mapped s s₁ i (x / BSIZE) a) (ha : a ≠ 0)
    (hx : x / BSIZE < MAXFILE)
    (h' : Wrote (s₁.blit a (x % BSIZE) 1 fun _ => src 0) s' i (x + 1) k fun j => src (1 + j)) :
    Wrote s s' i x (k + 1) src := by
  have hblock := h.block
  subst hblock
  refine ⟨h'.sound, h'.size.trans h.size, fun j y hy => ?_, fun j l hl hne => ?_, fun y h1 h2 => ?_⟩
  · have hone : 1 ≤ BSIZE - x % BSIZE := Nat.sub_pos_of_lt (Nat.mod_lt x (by decide))
    rw [h'.byteOf j y hy, h.sound.byteOf_blit hx ha hone hy, h.byteOf j y hy]
    by_cases hlater : j = i ∧ x + 1 ≤ y ∧ y < x + 1 + k
    · have hidx : 1 + (y - (x + 1)) = y - x := by omega
      rw [if_pos hlater, if_pos ⟨hlater.1, by omega, by omega⟩, hidx]
    · rw [if_neg hlater]
      by_cases hhere : j = i ∧ x ≤ y ∧ y < x + 1
      · have hyx : y - x = 0 := by omega
        rw [if_pos hhere, if_pos ⟨hhere.1, by omega, by omega⟩, hyx]
      · rw [if_neg hhere, if_neg]
        rintro ⟨hj, hle, hlt⟩
        by_cases hyx : y = x
        · exact hhere ⟨hj, by omega, by omega⟩
        · exact hlater ⟨hj, by omega, by omega⟩
  · refine h'.keep j l hl ?_
    show s₁.held j l ≠ 0
    rw [h.held j l hl hne]
    exact hne
  · by_cases hyx : y = x
    · subst hyx
      exact h'.keep i _ (Nat.le_of_lt hx) ha
    · exact h'.room y (by omega) (by omega)

/-- **A write byte by byte**: a part of the data is written, all of it unless the disk is full. -/
theorem Sound.bytesLoop (h : s.Sound) (src : Nat → UInt8) (i n tot x : Nat) (hend : x + n ≤ MAXFILE * BSIZE) :
    ∃ k s', k ≤ n ∧ bytesLoop i src n s tot x = (tot + k, s') ∧
      Wrote s s' i x k (fun j => src (tot + j)) ∧ (k < n → s'.Full) := by
  induction n generalizing s tot x with
  | zero => exact ⟨0, s, Nat.le_refl 0, rfl, (Grown.refl h).wrote i x _, fun hlt => absurd hlt (Nat.lt_irrefl 0)⟩
  | succ n ih =>
    have hx : x / BSIZE < MAXFILE := by
      have hend' : x + (n + 1) ≤ 268 * 1024 := hend
      show x / 1024 < 268
      omega
    obtain ⟨a, s₁, hmap, hmapped⟩ := h.bmap i hx
    by_cases ha : a = 0
    · subst ha
      exact ⟨0, s₁, Nat.zero_le _, bytesLoop_stop hmap, hmapped.toGrown.wrote i x _, fun _ => hmapped.full rfl⟩
    · obtain ⟨k, s', hk, hloop, hwrote, hfull⟩ :=
        ih (s := s₁.blit a (x % BSIZE) 1 fun _ => src tot) (blit_sound hmapped.sound _ _ _ _) (tot + 1) (x + 1)
          (Nat.le_trans (by omega) hend)
      refine ⟨k + 1, s', by omega, ?_, ?_, fun hlt => hfull (by omega)⟩
      · rw [bytesLoop_succ hmap ha, hloop, Nat.add_assoc, Nat.add_comm 1 k]
      · refine hmapped.wrote_cons ha hx ?_
        simp only [Nat.add_assoc] at hwrote
        exact hwrote

/-- **The loop of `writei`** is the loop over the bytes. -/
theorem Sound.writeLoop (h : s.Sound) (i n fuel : Nat) (hfuel : n - tot ≤ fuel)
    (hend : off + (n - tot) ≤ MAXFILE * BSIZE) :
    writeLoop i src n fuel s tot off =
      some ((Disk.bytesLoop i src (n - tot) s tot off).1,
        off + ((Disk.bytesLoop i src (n - tot) s tot off).1 - tot),
        (Disk.bytesLoop i src (n - tot) s tot off).2) := by
  induction fuel generalizing s tot off with
  | zero =>
    obtain h0 : n - tot = 0 := by omega
    rw [Disk.writeLoop, h0, Disk.bytesLoop, Nat.sub_self, Nat.add_zero]
  | succ fuel ih =>
    rw [Disk.writeLoop]
    by_cases hlt : tot < n
    · rw [if_pos hlt]
      have hoff : off / BSIZE < MAXFILE := by
        have hend' : off + (n - tot) ≤ 268 * 1024 := hend
        show off / 1024 < 268
        omega
      obtain ⟨a, s₁, hmap, hmapped⟩ := h.bmap i hoff
      rw [hmap]
      dsimp only
      obtain ⟨r, hr⟩ : ∃ r, n - tot = r + 1 := ⟨n - tot - 1, by omega⟩
      by_cases ha : a = 0
      · subst ha
        rw [if_pos rfl, hr, bytesLoop_stop hmap]
        simp
      · have hmod : off % BSIZE < BSIZE := Nat.mod_lt off (by decide)
        rw [if_neg ha]
        generalize hm : min (n - tot) (BSIZE - off % BSIZE) = m
        have hm1 : 1 ≤ m := by omega
        have hle : off % BSIZE + m ≤ BSIZE := by omega
        have hmn : m ≤ n - tot := by omega
        obtain ⟨q, rfl⟩ : ∃ q, m = q + 1 := ⟨m - 1, by omega⟩
        have hsum : n - tot = n - (tot + (q + 1)) + (q + 1) := by omega
        rw [hsum, h.bytesLoop_block src tot hoff hmap ha q _ hle,
          ih (blit_sound hmapped.sound _ _ _ _) (by omega) (by omega)]
        obtain ⟨k, s₂, -, hloop, -, -⟩ := (blit_sound hmapped.sound a (off % BSIZE) (q + 1)
          fun k => src (tot + k)).bytesLoop src i (n - (tot + (q + 1))) (tot + (q + 1)) (off + (q + 1))
          (by omega)
        rw [hloop]
        simp only [Option.some.injEq, Prod.mk.injEq, and_true, true_and]
        omega
    · have h0 : n - tot = 0 := by omega
      rw [if_neg hlt, h0, Disk.bytesLoop, Nat.sub_self, Nat.add_zero]

/-! ### `writei` -/

/-- The requests that `writei` refuses. -/
def Refused (s : Disk) (i off n : Nat) : Prop :=
  s.size i < off ∨ 2 ^ 32 ≤ off + n ∨ MAXFILE * BSIZE < off + n

theorem writei_refused (h : s.Refused i off n) (hoff : off < 2 ^ 32) (hn : n < 2 ^ 32) :
    s.writei i src off n = some (-1, s) := by
  unfold writei
  by_cases h1 : s.size i < off ∨ (off + n) % 2 ^ 32 < off
  · rw [if_pos h1]
  · have hmod : (off + n) % 2 ^ 32 = off + n := by omega
    have h2 : MAXFILE * BSIZE < (off + n) % 2 ^ 32 := by
      rw [hmod]
      rcases h with h | h | h
      · exact absurd (.inl h) h1
      · omega
      · exact h
    rw [if_neg h1, if_pos h2]

theorem Sound.writei (h : s.Sound) (hreq : ¬ s.Refused i off n) :
    s.writei i src off n = some (((Disk.bytesLoop i src n s 0 off).1 : Int),
      (Disk.bytesLoop i src n s 0 off).2.stretch i (off + (Disk.bytesLoop i src n s 0 off).1)) := by
  unfold Refused at hreq
  have hmod : (off + n) % 2 ^ 32 = off + n := Nat.mod_eq_of_lt (by omega)
  unfold Disk.writei
  rw [hmod, if_neg (by omega), if_neg (by omega), h.writeLoop i n n (by omega) (by omega)]
  rfl

theorem stretch_size (s : Disk) (i n j : Nat) :
    (s.stretch i n).size j = if j = i then max (s.size i) n else s.size j := by
  unfold stretch
  by_cases hlt : s.size i < n
  · rw [if_pos hlt]
    show upd s.size i n j = _
    rw [upd_apply, Nat.max_eq_right (Nat.le_of_lt hlt)]
  · rw [if_neg hlt, Nat.max_eq_left (Nat.le_of_not_lt hlt)]
    split
    · rename_i hj
      rw [hj]
    · rfl

theorem stretch_of_le (h : n ≤ s.size i) : s.stretch i n = s := if_neg (Nat.not_lt.2 h)

theorem stretch_held (s : Disk) (i n j k : Nat) : (s.stretch i n).held j k = s.held j k := by
  unfold stretch
  split
  · rfl
  · rfl

theorem stretch_byteOf (s : Disk) (i n j x : Nat) : (s.stretch i n).byteOf j x = s.byteOf j x := by
  unfold stretch
  split
  · rfl
  · rfl

theorem stretch_used (s : Disk) (i n : Nat) : (s.stretch i n).used = s.used := by
  unfold stretch
  split
  · rfl
  · rfl

theorem stretch_nblocks (s : Disk) (i n : Nat) : (s.stretch i n).nblocks = s.nblocks := by
  unfold stretch
  split
  · rfl
  · rfl

theorem stretch_sound (h : s.Sound) (i n : Nat) : (s.stretch i n).Sound := by
  unfold stretch
  split
  · exact ⟨h.boot, h.used, h.inj⟩
  · exact h

theorem content_get (s : Disk) (i x : Nat) (hx : x < (s.content i).length) :
    (s.content i)[x] = s.byteOf i x := by
  simp only [content, List.getElem_map, List.getElem_range]

theorem content_length (s : Disk) (i : Nat) : (s.content i).length = s.size i := by
  unfold content
  rw [List.length_map, List.length_range]

theorem Wrote.content (h : Wrote s s' i off k src) (hsize : s.size i ≤ MAXFILE * BSIZE) (hoff : off ≤ s.size i)
    (hend : off + k ≤ MAXFILE * BSIZE) :
    (s'.stretch i (off + k)).content i =
      (s.content i).take off ++ (List.range k).map src ++ (s.content i).drop (off + k) := by
  have hlen := content_length s i
  refine List.ext_getElem ?_ fun x hx hx' => ?_
  · simp only [content_length, stretch_size, if_pos, h.size, List.length_append, List.length_take,
      List.length_drop, List.length_map, List.length_range]
    omega
  · rw [content_length, stretch_size, if_pos rfl, h.size] at hx
    have hxmax : x / BSIZE < MAXFILE := by
      have hsize' : s.size i ≤ 268 * 1024 := hsize
      have hend' : off + k ≤ 268 * 1024 := hend
      show x / 1024 < 268
      omega
    rw [content_get, stretch_byteOf, h.byteOf i x hxmax]
    by_cases h1 : x < off
    · rw [if_neg (by omega), List.getElem_append_left (by simp; omega), List.getElem_append_left (by simp; omega),
        List.getElem_take, content_get]
    · by_cases h2 : x < off + k
      · rw [if_pos ⟨rfl, by omega, h2⟩, List.getElem_append_left (by simp; omega),
          List.getElem_append_right (by simp; omega), List.getElem_map, List.getElem_range]
        congr 1
        simp only [List.length_take]
        omega
      · rw [if_neg (by omega), List.getElem_append_right (by simp; omega), List.getElem_drop, content_get]
        congr 1
        simp only [List.length_append, List.length_take, List.length_map, List.length_range]
        omega

theorem Wrote.content_other (h : Wrote s s' i off k src) (hj : j ≠ i) (hsize : s.size j ≤ MAXFILE * BSIZE) (n : Nat) :
    (s'.stretch i n).content j = s.content j := by
  unfold Disk.content
  rw [stretch_size, if_neg hj, h.size]
  refine List.map_congr_left fun x hx => ?_
  have hxmax : x / BSIZE < MAXFILE := by
    have hx' := List.mem_range.1 hx
    have hsize' : s.size j ≤ 268 * 1024 := hsize
    show x / 1024 < 268
    omega
  rw [stretch_byteOf, h.byteOf j x hxmax, if_neg fun hc => hj hc.1]

theorem Wrote.whole (h : Wrote s s' i off k src) (hw : s.Whole j) (hoff : off ≤ s.size i)
    (hend : off + k ≤ MAXFILE * BSIZE) : (s'.stretch i (off + k)).Whole j := by
  have hsize := hw.size
  refine ⟨?_, fun x hx => ?_⟩
  · rw [stretch_size, h.size]
    split
    · rename_i hj
      subst hj
      omega
    · exact hsize
  · rw [stretch_held]
    rw [stretch_size, h.size] at hx
    by_cases hold : x < s.size j
    · refine h.keep j _ ?_ (hw.held x hold)
      have hsize' : s.size j ≤ 268 * 1024 := hsize
      show x / 1024 ≤ 268
      omega
    · split at hx
      · rename_i hj
        subst hj
        exact h.room x (by omega) (by omega)
      · exact absurd hx hold

/-! ### `readi` -/

/-- **The loop of `readi`** over bytes that have a block. -/
theorem readLoop_held (fuel n off : Nat) (hfuel : n ≤ fuel)
    (hheld : ∀ x, x < off + n → x / BSIZE < MAXFILE ∧ s.held i (x / BSIZE) ≠ 0) :
    readLoop i fuel s off n = some ((List.range n).map (fun k => s.byteOf i (off + k)), s) := by
  induction fuel generalizing n off with
  | zero =>
    obtain rfl : n = 0 := by omega
    rfl
  | succ fuel ih =>
    rw [Disk.readLoop]
    by_cases hpos : 0 < n
    · obtain ⟨hoff, hne⟩ := hheld off (by omega)
      have hmod : off % BSIZE < BSIZE := Nat.mod_lt off (by decide)
      rw [if_pos hpos, bmap_held hoff hne]
      dsimp only
      rw [if_neg hne]
      generalize hm : min n (BSIZE - off % BSIZE) = m
      have hin : off % 1024 + m ≤ 1024 := by
        have hmod' : off % 1024 < 1024 := hmod
        have hm' : min n (1024 - off % 1024) = m := hm
        omega
      rw [ih (n - m) (off + m) (by omega) fun x hx => hheld x (by omega), Option.map_some]
      have hfirst : (List.range m).map (fun k => s.data (s.held i (off / BSIZE)) (off % BSIZE + k)) =
          (List.range m).map fun k => s.byteOf i (off + k) := by
        refine List.map_congr_left fun k hk => ?_
        have hk' := List.mem_range.1 hk
        have hdiv : (off + k) / BSIZE = off / BSIZE := by
          show (off + k) / 1024 = off / 1024
          omega
        have hmod' : (off + k) % BSIZE = off % BSIZE + k := by
          show (off + k) % 1024 = off % 1024 + k
          omega
        unfold byteOf
        rw [hdiv, hmod', if_neg hne]
      have hsplit : List.range n = List.range m ++ (List.range (n - m)).map fun k => m + k := by
        rw [← List.range_add, Nat.add_sub_cancel' (by omega)]
      rw [hfirst, hsplit, List.map_append, List.map_map]
      simp only [Function.comp_def, Nat.add_assoc]
    · obtain rfl : n = 0 := by omega
      rw [if_neg hpos]
      rfl

theorem content_slice (s : Disk) (i off n : Nat) (h : off + n ≤ s.size i) :
    (List.range n).map (fun k => s.byteOf i (off + k)) = ((s.content i).drop off).take n := by
  have hlen := content_length s i
  refine List.ext_getElem ?_ fun x hx hx' => ?_
  · simp only [List.length_map, List.length_range, List.length_take, List.length_drop]
    omega
  · rw [List.getElem_map, List.getElem_range, List.getElem_take, List.getElem_drop, content_get]

theorem Whole.held_lt (hw : s.Whole i) (x : Nat) (hx : x < s.size i) :
    x / BSIZE < MAXFILE ∧ s.held i (x / BSIZE) ≠ 0 := by
  have hsize : s.size i ≤ 268 * 1024 := hw.size
  refine ⟨?_, hw.held x hx⟩
  show x / 1024 < 268
  omega

/-- **`readi`**: the part of the range that the file has, and nothing changes. -/
theorem Whole.readi (hw : s.Whole i) (hn : n < 2 ^ 32) (hfit : off + n < 2 ^ 32) :
    s.readi i off n = some (((s.content i).drop off).take n, s) := by
  have hlen := content_length s i
  have hmod : (off + n) % 2 ^ 32 = off + n := Nat.mod_eq_of_lt hfit
  have hheld : ∀ m, m ≤ s.size i → ∀ x, x < m → x / BSIZE < MAXFILE ∧ s.held i (x / BSIZE) ≠ 0 :=
    fun m hm x hx => hw.held_lt x (by omega)
  unfold Disk.readi
  rw [hmod]
  by_cases h1 : s.size i < off
  · rw [if_pos (.inl h1), List.drop_eq_nil_of_le (by omega), List.take_nil]
  · rw [if_neg (by omega)]
    by_cases h2 : s.size i < off + n
    · rw [if_pos h2, readLoop_held _ _ _ (Nat.le_refl _) (hheld _ (by omega)), content_slice _ _ _ _ (by omega),
        List.take_of_length_le (by simp; omega), List.take_of_length_le (by simp; omega)]
    · rw [if_neg h2, readLoop_held _ _ _ (Nat.le_refl _) (hheld _ (by omega)), content_slice _ _ _ _ (by omega)]

end Disk

end Xv6.Content
