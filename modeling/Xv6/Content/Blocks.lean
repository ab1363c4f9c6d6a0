import Xv6.Content.Model

/-!
# What `bmap` does to the files

A block that `balloc` gives belongs to no file and is zero, so linking it into a file changes the
bytes of no file, not even of that one: `Linked`.
-/

namespace Xv6.Content

open Xv6.Lib

namespace Disk

variable {s s' s'' : Disk} {i j k l b bn a t x : Nat}

/-- There is no free block. -/
def Full (s : Disk) : Prop := ∀ b, b < s.nblocks → s.used b = true

theorem held_direct (h : k < NDIRECT) : s.held i k = s.addrs i k := if_pos h

theorem held_word (h : ¬ k < NDIRECT) (hk : k < MAXFILE) (ht : s.addrs i NDIRECT ≠ 0) :
    s.held i k = s.words (s.addrs i NDIRECT) (k - NDIRECT) := by
  unfold held
  rw [if_neg h, if_pos hk, if_neg ht]

theorem held_no_word (h : ¬ k < NDIRECT) (hk : k < MAXFILE) (ht : s.addrs i NDIRECT = 0) :
    s.held i k = 0 := by
  unfold held
  rw [if_neg h, if_pos hk, if_pos ht]

theorem held_indirect (s : Disk) (i : Nat) : s.held i MAXFILE = s.addrs i NDIRECT := rfl

theorem Sound.balloc_cases (h : s.Sound) :
    (s.balloc = (0, s) ∧ s.Full) ∨
      ∃ b, b ≠ 0 ∧ s.used b = false ∧ s.balloc = (b, { s with used := upd s.used b true }.bzero b) := by
  unfold balloc
  cases hf : (List.range s.nblocks).find? fun b => !s.used b with
  | none =>
    left
    refine ⟨rfl, fun b hb => ?_⟩
    have := List.find?_eq_none.1 hf b (List.mem_range.2 hb)
    simpa using this
  | some b =>
    right
    have hfree : s.used b = false := by simpa using List.find?_some hf
    refine ⟨b, ?_, hfree, rfl⟩
    rintro rfl
    rw [h.boot] at hfree
    cases hfree

/-- The block `b` has become block `k` of file `i`. -/
structure Linked (s s' : Disk) (i k b : Nat) : Prop where
  fresh : s.used b = false
  ne : b ≠ 0
  size : s'.size = s.size
  data : s'.data = upd s.data b fun _ => 0
  used : s'.used = upd s.used b true
  nblocks : s'.nblocks = s.nblocks
  empty : s.held i k = 0
  held : ∀ j l, l ≤ MAXFILE → s'.held j l = if j = i ∧ l = k then b else s.held j l

theorem Linked.held_ne (h : s.Sound) (hl : Linked s s' i k b) (hj : l ≤ MAXFILE) : s.held j l ≠ b := by
  intro heq
  have hused := h.used j l hj (by rw [heq]; exact hl.ne)
  rw [heq, hl.fresh] at hused
  cases hused

theorem Linked.sound (h : s.Sound) (hl : Linked s s' i k b) : s'.Sound := by
  refine ⟨?_, fun j l hl' hne => ?_, fun j l j' l' hle hle' hne heq => ?_⟩
  · rw [hl.used, upd_other _ _ hl.ne.symm]
    exact h.boot
  · rw [hl.used, upd_apply]
    split
    · rfl
    · rename_i hnew
      rw [hl.held j l hl'] at hne hnew ⊢
      split at hnew
      · exact absurd rfl hnew
      · rename_i hother
        rw [if_neg hother] at hne ⊢
        exact h.used j l hl' hne
  · rw [hl.held j l hle] at hne heq
    rw [hl.held j' l' hle'] at heq
    split at heq
    · rename_i h1
      split at heq
      · rename_i h2
        exact ⟨h1.1.trans h2.1.symm, h1.2.trans h2.2.symm⟩
      · exact absurd heq.symm (hl.held_ne h hle')
    · rename_i h1
      rw [if_neg h1] at hne
      split at heq
      · exact absurd heq (hl.held_ne h hle)
      · exact h.inj j l j' l' hle hle' hne heq

/-- **Linking a block changes no byte of any file.** -/
theorem Linked.byteOf (h : s.Sound) (hl : Linked s s' i k b) (hx : x / BSIZE < MAXFILE) :
    s'.byteOf j x = s.byteOf j x := by
  unfold Disk.byteOf
  rw [hl.held j _ (Nat.le_of_lt hx), hl.data]
  split
  · rename_i hnew
    rw [if_neg hl.ne, hnew.1, hnew.2, hl.empty, if_pos rfl, upd_same]
  · rw [upd_other _ _ (hl.held_ne h (Nat.le_of_lt hx))]

/-- Blocks may have been added to the files. -/
structure Grown (s s' : Disk) : Prop where
  sound : s'.Sound
  size : s'.size = s.size
  nblocks : s'.nblocks = s.nblocks
  byteOf : ∀ j x, x / BSIZE < MAXFILE → s'.byteOf j x = s.byteOf j x
  held : ∀ j l, l ≤ MAXFILE → s.held j l ≠ 0 → s'.held j l = s.held j l

theorem Grown.refl (h : s.Sound) : Grown s s := ⟨h, rfl, rfl, fun _ _ _ => rfl, fun _ _ _ _ => rfl⟩

theorem Grown.trans (h : Grown s s') (h' : Grown s' s'') : Grown s s'' := by
  refine ⟨h'.sound, h'.size.trans h.size, h'.nblocks.trans h.nblocks, fun j x hx => ?_, fun j l hl hne => ?_⟩
  · rw [h'.byteOf j x hx, h.byteOf j x hx]
  · have heq := h.held j l hl hne
    rw [h'.held j l hl (by rw [heq]; exact hne), heq]

theorem Linked.grown (h : s.Sound) (hl : Linked s s' i k b) : Grown s s' := by
  refine ⟨hl.sound h, hl.size, hl.nblocks, fun j x hx => hl.byteOf h hx, fun j l hle hne => ?_⟩
  rw [hl.held j l hle, if_neg]
  rintro ⟨rfl, rfl⟩
  exact hne hl.empty

/-! ### The two places of a block number -/

theorem Sound.addrs_ne (h : s.Sound) (hb : s.used b = false) (hne : s.addrs j NDIRECT ≠ 0) :
    s.addrs j NDIRECT ≠ b := by
  intro heq
  have hused := h.used j MAXFILE (Nat.le_refl _) hne
  rw [held_indirect, heq, hb] at hused
  cases hused

theorem Sound.linked_addr (h : s.Sound) (hb : s.used b = false) (hb0 : b ≠ 0) (hk : k < NDIRECT)
    (h0 : s.addrs i k = 0) :
    Linked s (({ s with used := upd s.used b true }.bzero b).setAddr i k b) i k b := by
  have hk12 : NDIRECT ≠ k := by omega
  have haddr : ∀ j, (({ s with used := upd s.used b true }.bzero b).setAddr i k b).addrs j NDIRECT =
      s.addrs j NDIRECT := by
    intro j
    show upd s.addrs i (upd (s.addrs i) k b) j NDIRECT = _
    rw [upd_apply]
    split
    · rename_i hj
      rw [upd_other _ _ hk12, hj]
    · rfl
  refine ⟨hb, hb0, rfl, rfl, rfl, rfl, (held_direct hk).trans h0, fun j l hl => ?_⟩
  by_cases hd : l < NDIRECT
  · rw [held_direct hd, held_direct hd]
    show upd s.addrs i (upd (s.addrs i) k b) j l = _
    rw [upd_apply]
    by_cases hj : j = i
    · rw [if_pos hj, upd_apply, hj]
      simp only [true_and]
    · rw [if_neg hj, if_neg fun hc => hj hc.1]
  · rw [if_neg (by omega)]
    unfold held
    rw [if_neg hd, if_neg hd, haddr]
    split
    · split
      · rfl
      · rename_i hne
        show upd s.words b (fun _ => 0) _ _ = _
        rw [upd_other _ _ (h.addrs_ne hb hne)]
    · rfl

theorem Sound.linked_indirect (h : s.Sound) (hb : s.used b = false) (hb0 : b ≠ 0)
    (h0 : s.addrs i NDIRECT = 0) :
    Linked s (({ s with used := upd s.used b true }.bzero b).setAddr i NDIRECT b) i MAXFILE b := by
  have haddr : ∀ j k, (({ s with used := upd s.used b true }.bzero b).setAddr i NDIRECT b).addrs j k =
      if j = i ∧ k = NDIRECT then b else s.addrs j k := by
    intro j k
    show upd s.addrs i (upd (s.addrs i) NDIRECT b) j k = _
    rw [upd_apply]
    by_cases hj : j = i
    · rw [if_pos hj, upd_apply, hj]
      simp only [true_and]
    · rw [if_neg hj, if_neg fun hc => hj hc.1]
  refine ⟨hb, hb0, rfl, rfl, rfl, rfl, h0, fun j l hl => ?_⟩
  by_cases hd : l < NDIRECT
  · have hl' : ¬ (j = i ∧ l = MAXFILE) := by
      rintro ⟨-, rfl⟩
      exact absurd hd (by decide)
    rw [held_direct hd, held_direct hd, haddr, if_neg (by omega), if_neg hl']
  · by_cases hm : l < MAXFILE
    · rw [if_neg (by omega)]
      unfold held
      rw [if_neg hd, if_neg hd, if_pos hm, if_pos hm, haddr]
      by_cases hj : j = i
      · -- no entry of the new block is set
        have hnew : (if j = i ∧ NDIRECT = NDIRECT then b else s.addrs j NDIRECT) = b := if_pos ⟨hj, rfl⟩
        rw [hnew, if_neg hb0, hj, if_pos h0]
        show upd s.words b (fun _ => 0) b _ = 0
        rw [upd_same]
      · have hold : (if j = i ∧ NDIRECT = NDIRECT then b else s.addrs j NDIRECT) = s.addrs j NDIRECT :=
          if_neg fun hc => hj hc.1
        rw [hold]
        split
        · rfl
        · rename_i hne
          show upd s.words b (fun _ => 0) _ _ = _
          rw [upd_other _ _ (h.addrs_ne hb hne)]
    · obtain rfl : l = MAXFILE := by omega
      rw [held_indirect, held_indirect, haddr]
      simp only [and_true]

theorem Sound.linked_word (h : s.Sound) (hb : s.used b = false) (hb0 : b ≠ 0) (hd : ¬ bn < NDIRECT)
    (hm : bn < MAXFILE) (ht : s.addrs i NDIRECT ≠ 0)
    (h0 : s.words (s.addrs i NDIRECT) (bn - NDIRECT) = 0) :
    Linked s (({ s with used := upd s.used b true }.bzero b).setWord (s.addrs i NDIRECT) (bn - NDIRECT) b)
      i bn b := by
  have htb := h.addrs_ne hb ht
  have hwords : ∀ t k, t ≠ b →
      (({ s with used := upd s.used b true }.bzero b).setWord (s.addrs i NDIRECT) (bn - NDIRECT) b).words t k =
        if t = s.addrs i NDIRECT ∧ k = bn - NDIRECT then b else s.words t k := by
    intro t k htne
    show upd (upd s.words b fun _ => 0) (s.addrs i NDIRECT)
      (upd ((upd s.words b fun _ => 0) (s.addrs i NDIRECT)) (bn - NDIRECT) b) t k = _
    rw [upd_apply, upd_other _ _ htb]
    by_cases hti : t = s.addrs i NDIRECT
    · rw [if_pos hti, upd_apply, hti]
      simp only [true_and]
    · rw [if_neg hti, if_neg fun hc => hti hc.1, upd_other _ _ htne]
  refine ⟨hb, hb0, rfl, rfl, rfl, rfl, (held_word hd hm ht).trans h0, fun j l hl => ?_⟩
  by_cases hld : l < NDIRECT
  · rw [if_neg (by omega), held_direct hld, held_direct hld]
    rfl
  · by_cases hlm : l < MAXFILE
    · unfold held
      rw [if_neg hld, if_neg hld, if_pos hlm, if_pos hlm]
      by_cases hz : s.addrs j NDIRECT = 0
      · have hji : ¬ (j = i ∧ l = bn) := by
          rintro ⟨rfl, -⟩
          exact ht hz
        rw [if_neg hji, if_pos hz]
        exact if_pos hz
      · have haddr : (({ s with used := upd s.used b true }.bzero b).setWord (s.addrs i NDIRECT)
            (bn - NDIRECT) b).addrs j NDIRECT = s.addrs j NDIRECT := rfl
        rw [haddr, if_neg hz, if_neg hz, hwords _ _ (h.addrs_ne hb hz)]
        by_cases hji : j = i
        · subst hji
          simp only [true_and]
          by_cases hlb : l = bn
          · rw [if_pos (by rw [hlb]), if_pos hlb]
          · rw [if_neg (by omega), if_neg hlb]
        · -- another file has another indirect block
          have hne : s.addrs j NDIRECT ≠ s.addrs i NDIRECT := by
            intro heq
            exact hji (h.inj j MAXFILE i MAXFILE (Nat.le_refl _) (Nat.le_refl _) hz heq).1
          rw [if_neg fun hc => hne hc.1, if_neg fun hc => hji hc.1]
    · obtain rfl : l = MAXFILE := by omega
      rw [if_neg (by omega)]
      rfl

/-! ### `bmap` -/

/-- What `bmap` leaves when it answers `a` for block `bn`. -/
structure Mapped (s s' : Disk) (i bn a : Nat) : Prop extends Grown s s' where
  block : s'.held i bn = a
  full : a = 0 → s'.Full
  used : ∀ b, s'.used b = true → s.used b = true ∨ ∃ k, k ≤ MAXFILE ∧ s'.held i k = b
  other : ∀ j l, j ≠ i → l ≤ MAXFILE → s'.held j l = s.held j l

theorem Linked.other (hl : Linked s s' i k b) (j l : Nat) (hj : j ≠ i) (hle : l ≤ MAXFILE) :
    s'.held j l = s.held j l := by
  rw [hl.held j l hle, if_neg fun hc => hj hc.1]

theorem Linked.used_new {b' : Nat} (hl : Linked s s' i k b) (hk : k ≤ MAXFILE) (h : s'.used b' = true) :
    s.used b' = true ∨ ∃ k, k ≤ MAXFILE ∧ s'.held i k = b' := by
  rw [hl.used, upd_apply] at h
  split at h
  · rename_i hb
    refine .inr ⟨k, hk, ?_⟩
    rw [hl.held i k hk, if_pos ⟨rfl, rfl⟩, hb]
  · exact .inl h

theorem Sound.addrOf_direct (h : s.Sound) (hk : k < NDIRECT) :
    Mapped s (s.addrOf i k).2 i k (s.addrOf i k).1 := by
  unfold addrOf
  by_cases h0 : s.addrs i k = 0
  · rw [if_pos h0]
    rcases h.balloc_cases with ⟨hb, hfull⟩ | ⟨b, hb0, hfree, hb⟩
    · rw [hb]
      exact ⟨.refl h, (held_direct hk).trans h0, fun _ => hfull, fun _ => .inl, fun _ _ _ _ => rfl⟩
    · rw [hb]
      dsimp only
      rw [if_neg hb0]
      have hl := h.linked_addr hfree hb0 hk h0
      have hk' : k ≤ MAXFILE := Nat.le_trans (Nat.le_of_lt hk) (by decide)
      refine ⟨hl.grown h, ?_, fun hc => absurd hc hb0, fun _ => hl.used_new hk', hl.other⟩
      rw [hl.held i k hk', if_pos ⟨rfl, rfl⟩]
  · rw [if_neg h0]
    exact ⟨.refl h, held_direct hk, fun hc => absurd hc h0, fun _ => .inl, fun _ _ _ _ => rfl⟩

theorem Sound.addrOf_indirect (h : s.Sound) :
    Mapped s (s.addrOf i NDIRECT).2 i MAXFILE (s.addrOf i NDIRECT).1 := by
  unfold addrOf
  by_cases h0 : s.addrs i NDIRECT = 0
  · rw [if_pos h0]
    rcases h.balloc_cases with ⟨hb, hfull⟩ | ⟨b, hb0, hfree, hb⟩
    · rw [hb]
      exact ⟨.refl h, h0, fun _ => hfull, fun _ => .inl, fun _ _ _ _ => rfl⟩
    · rw [hb]
      dsimp only
      rw [if_neg hb0]
      have hl := h.linked_indirect hfree hb0 h0
      refine ⟨hl.grown h, ?_, fun hc => absurd hc hb0, fun _ => hl.used_new (Nat.le_refl _), hl.other⟩
      rw [hl.held i MAXFILE (Nat.le_refl _), if_pos ⟨rfl, rfl⟩]
  · rw [if_neg h0]
    exact ⟨.refl h, rfl, fun hc => absurd hc h0, fun _ => .inl, fun _ _ _ _ => rfl⟩

theorem Sound.wordOf (h : s.Sound) (hd : ¬ bn < NDIRECT) (hm : bn < MAXFILE) (ht : s.addrs i NDIRECT = t)
    (ht0 : t ≠ 0) : Mapped s (s.wordOf t (bn - NDIRECT)).2 i bn (s.wordOf t (bn - NDIRECT)).1 := by
  subst ht
  unfold Disk.wordOf
  by_cases h0 : s.words (s.addrs i NDIRECT) (bn - NDIRECT) = 0
  · rw [if_pos h0]
    rcases h.balloc_cases with ⟨hb, hfull⟩ | ⟨b, hb0, hfree, hb⟩
    · rw [hb]
      exact ⟨.refl h, (held_word hd hm ht0).trans h0, fun _ => hfull, fun _ => .inl, fun _ _ _ _ => rfl⟩
    · rw [hb]
      dsimp only
      rw [if_neg hb0]
      have hl := h.linked_word hfree hb0 hd hm ht0 h0
      refine ⟨hl.grown h, ?_, fun hc => absurd hc hb0, fun _ => hl.used_new (Nat.le_of_lt hm), hl.other⟩
      rw [hl.held i bn (by omega), if_pos ⟨rfl, rfl⟩]
  · rw [if_neg h0]
    exact ⟨.refl h, held_word hd hm ht0, fun hc => absurd hc h0, fun _ => .inl, fun _ _ _ _ => rfl⟩

/-- **`bmap`** of a block that a file can have. -/
theorem Sound.bmap (h : s.Sound) (i : Nat) (hbn : bn < MAXFILE) :
    ∃ a s', s.bmap i bn = some (a, s') ∧ Mapped s s' i bn a := by
  unfold Disk.bmap
  by_cases hd : bn < NDIRECT
  · rw [if_pos hd]
    exact ⟨_, _, rfl, h.addrOf_direct hd⟩
  · have hn : bn - NDIRECT < NINDIRECT := by
      have : bn < NDIRECT + NINDIRECT := hbn
      omega
    have hi := h.addrOf_indirect (i := i)
    rw [if_neg hd, if_pos hn]
    generalize s.addrOf i NDIRECT = y at hi ⊢
    obtain ⟨t, s₁⟩ := y
    dsimp only at hi ⊢
    by_cases ht : t = 0
    · rw [if_pos ht]
      refine ⟨0, s₁, rfl, hi.toGrown, ?_, fun _ => hi.full ht, hi.used, hi.other⟩
      exact held_no_word hd hbn (hi.block.trans ht)
    · rw [if_neg ht]
      have hw := hi.sound.wordOf hd hbn hi.block ht
      refine ⟨_, _, rfl, hi.toGrown.trans hw.toGrown, hw.block, hw.full, fun b hb => ?_,
        fun j l hj hl => (hw.other j l hj hl).trans (hi.other j l hj hl)⟩
      rcases hw.used b hb with h₁ | hnew
      · rcases hi.used b h₁ with h₀ | ⟨k, hk, hkb⟩
        · exact .inl h₀
        · by_cases hb0 : b = 0
          · rw [hb0]
            exact .inl h.boot
          · have hkeep := hw.held i k hk (by rw [hkb]; exact hb0)
            exact .inr ⟨k, hk, hkeep.trans hkb⟩
      · exact .inr hnew

theorem bmap_held (hbn : bn < MAXFILE) (h : s.held i bn ≠ 0) : s.bmap i bn = some (s.held i bn, s) := by
  unfold Disk.bmap addrOf wordOf
  by_cases hd : bn < NDIRECT
  · rw [held_direct hd] at h ⊢
    rw [if_pos hd, if_neg h]
  · have hn : bn - NDIRECT < NINDIRECT := by
      have : bn < NDIRECT + NINDIRECT := hbn
      omega
    by_cases ht : s.addrs i NDIRECT = 0
    · exact absurd (held_no_word hd hbn ht) h
    · rw [held_word hd hbn ht] at h ⊢
      rw [if_neg hd, if_pos hn, if_neg ht]
      dsimp only
      rw [if_neg ht, if_neg h]

end Disk

end Xv6.Content
