import Xv6.Mem.Frames

/-!
# The allocator keeps the invariant

One specification for each operation of `kernel/kalloc.c`, and for writing a page that
the kernel owns or that leaves map.

* `wp_kalloc`: the page it returns belongs to the kernel, which it did not before, and it
  returns one as long as there is a free page;
* `wp_kfree`: it gives up a reference that an operation under way holds, and its two
  panics cannot happen for such a reference;

`KeepsKern K m m'` says that the pages of the kernel's own have kept their contents.
-/

namespace Xv6

open Xv6.Lib Finset

/-- The pages the kernel owns keep their contents. -/
def KeepsKern (K : Nat → Nat) (m m' : Kmem) : Prop := ∀ a, 0 < K a → m'.mem a = m.mem a

theorem KeepsKern.refl (K : Nat → Nat) (m : Kmem) : KeepsKern K m m := fun _ _ => rfl

theorem KeepsKern.trans {K : Nat → Nat} {m m' m'' : Kmem} (h : KeepsKern K m m')
    (h' : KeepsKern K m' m'') : KeepsKern K m m'' := by
  intro a ha
  rw [h' a ha, h a ha]

theorem KeepsKern.mono {K K' : Nat → Nat} {m m' : Kmem} (h : KeepsKern K' m m')
    (hle : ∀ a, K a ≤ K' a) : KeepsKern K m m' := by
  intro a ha
  have := hle a
  exact h a (by omega)

section

variable [Image] {P : Policy} {m : Kmem} {K T : Nat → Nat} {R : Finset Nat}

/-- The number of free page frames. -/
def Kmem.nfree (m : Kmem) : Nat :=
  ((range 32768).filter fun k => badPage (KERNBASE + k * PGSIZE) = false ∧ m.refcnt k = 0).card

variable {a : Nat} {E : MemPanic → Prop}

theorem refindex_managed (h : badPage a = false) :
    refindex a < 32768 ∧ KERNBASE + refindex a * PGSIZE = a := by
  have hbase := Image.base_le_kend
  unfold badPage at h
  simp only [Bool.or_eq_false_iff, bne_eq_false_iff_eq, decide_eq_false_iff_not] at h
  obtain ⟨⟨h1, h2⟩, h3⟩ := h
  have hbase' : 2147483648 ≤ Image.kend := hbase
  have h1' : a % 4096 = 0 := h1
  have h3' : ¬ 2281701376 ≤ a := h3
  unfold refindex
  show (a - 2147483648) / 4096 < 32768 ∧ 2147483648 + (a - 2147483648) / 4096 * 4096 = a
  omega

theorem Kmem.nfree_take {m' : Kmem} (ha : badPage a = false) (h0 : m.refcnt (refindex a) = 0)
    (h : m'.refcnt = upd m.refcnt (refindex a) 1) : m'.nfree + 1 = m.nfree := by
  obtain ⟨hlt, haddr⟩ := refindex_managed ha
  have hmem : refindex a ∈ (range 32768).filter fun k =>
      badPage (KERNBASE + k * PGSIZE) = false ∧ m.refcnt k = 0 := by
    rw [mem_filter, mem_range, haddr]
    exact ⟨hlt, ha, h0⟩
  have herase : (range 32768).filter (fun k =>
      badPage (KERNBASE + k * PGSIZE) = false ∧ m'.refcnt k = 0) =
      ((range 32768).filter fun k =>
        badPage (KERNBASE + k * PGSIZE) = false ∧ m.refcnt k = 0).erase (refindex a) := by
    ext k
    rw [mem_filter, mem_erase, mem_filter, h, upd_apply]
    by_cases hk : k = refindex a
    · simp [hk]
    · simp [hk]
  unfold Kmem.nfree
  rw [herase, card_erase_of_mem hmem]
  have := card_pos.2 ⟨_, hmem⟩
  omega

/-! ### The free list -/

/-- The free list runs through the pages without references. -/
def Kmem.FreeOk (m : Kmem) : Prop := ∃ L, FreeList m.mem m.freelist L ∧ L.Nodup ∧
  ∀ a, a ∈ L ↔ badPage a = false ∧ m.refcnt (refindex a) = 0

theorem Kmem.FreeOk.setPage (h : m.FreeOk) (ha : m.refcnt (refindex a) ≠ 0) (g : Page) :
    (m.setPage a g).FreeOk := by
  obtain ⟨L, hchain, hnodup, hL⟩ := h
  refine ⟨L, hchain.congr fun b hb => ?_, hnodup, hL⟩
  refine upd_other _ _ ?_
  rintro rfl
  exact ha ((hL b).1 hb).2

theorem Kmem.FreeOk.take (h : m.FreeOk) (hne : m.freelist ≠ 0) :
    badPage m.freelist = false ∧ m.refcnt (refindex m.freelist) = 0 ∧
      Kmem.FreeOk { mem := upd m.mem m.freelist (fillPage 5)
                    refcnt := upd m.refcnt (refindex m.freelist) 1
                    freelist := m.mem m.freelist 0 } := by
  obtain ⟨L, hchain, hnodup, hL⟩ := h
  cases L with
  | nil => exact absurd hchain hne
  | cons a L =>
    obtain ⟨hfl, -, hchain⟩ := hchain
    rw [hfl]
    obtain ⟨hb, hcnt⟩ := (hL a).1 (by simp)
    have hnotin : a ∉ L := (List.nodup_cons.1 hnodup).1
    refine ⟨hb, hcnt, L, hchain.congr fun b hbL => ?_, (List.nodup_cons.1 hnodup).2, fun b => ?_⟩
    · exact upd_other _ _ (by rintro rfl; exact hnotin hbL)
    · have hiff : b ∈ L ↔ b ≠ a ∧ b ∈ a :: L := by
        rw [List.mem_cons]
        constructor
        · intro hbL
          exact ⟨by rintro rfl; exact hnotin hbL, .inr hbL⟩
        · rintro ⟨hne, hbL⟩
          exact hbL.resolve_left hne
      rw [hiff, hL b]
      constructor
      · rintro ⟨hne, hbb, hb0⟩
        dsimp only
        rw [upd_refindex _ _ hb hbb, if_neg hne]
        exact ⟨hbb, hb0⟩
      · rintro ⟨hbb, hb0⟩
        dsimp only at hb0
        rw [upd_refindex _ _ hb hbb] at hb0
        split at hb0
        · omega
        · rename_i hne
          exact ⟨hne, hbb, hb0⟩

theorem Kmem.FreeOk.less (h : m.FreeOk) {a n : Nat} (hb : badPage a = false)
    (ha : m.refcnt (refindex a) ≠ 0) (hn : n ≠ 0) :
    Kmem.FreeOk { m with refcnt := upd m.refcnt (refindex a) n } := by
  obtain ⟨L, hchain, hnodup, hL⟩ := h
  refine ⟨L, hchain, hnodup, fun b => ?_⟩
  rw [hL b]
  refine and_congr_right fun hbb => ?_
  dsimp only
  rw [upd_refindex _ _ hb hbb]
  split
  · subst b
    exact ⟨fun h0 => absurd h0 ha, fun h0 => absurd h0 hn⟩
  · exact Iff.rfl

theorem Kmem.FreeOk.put (h : m.FreeOk) (hb : badPage a = false) (ha : m.refcnt (refindex a) ≠ 0) :
    Kmem.FreeOk { mem := upd m.mem a (upd (fillPage 1) 0 m.freelist)
                  refcnt := upd m.refcnt (refindex a) 0
                  freelist := a } := by
  obtain ⟨L, hchain, hnodup, hL⟩ := h
  have haL : a ∉ L := fun haL => ha ((hL a).1 haL).2
  refine ⟨a :: L, ⟨rfl, ne_zero_of_managed hb, ?_⟩, List.nodup_cons.2 ⟨haL, hnodup⟩, fun b => ?_⟩
  · show FreeList _ (upd m.mem a (upd (fillPage 1) 0 m.freelist) a 0) L
    rw [upd_same, upd_same]
    exact hchain.congr fun b hbL => upd_other _ _ (by rintro rfl; exact haL hbL)
  · rw [List.mem_cons, hL b]
    by_cases hba : b = a
    · subst hba
      dsimp only
      rw [upd_same]
      exact ⟨fun _ => ⟨hb, rfl⟩, fun _ => .inl rfl⟩
    · rw [or_iff_right hba]
      refine and_congr_right fun hbb => ?_
      dsimp only
      rw [upd_refindex _ _ hb hbb, if_neg hba]

theorem Kmem.FreeOk.nfree_zero (h : m.FreeOk) (h0 : m.freelist = 0) : m.nfree = 0 := by
  obtain ⟨L, hchain, -, hL⟩ := h
  rw [Kmem.nfree, card_eq_zero, filter_eq_empty_iff]
  rintro k - ⟨hb, hcnt⟩
  have hk : refindex (KERNBASE + k * PGSIZE) = k := by
    have haddr : 2147483648 + refindex (KERNBASE + k * PGSIZE) * 4096 = 2147483648 + k * 4096 :=
      (refindex_managed hb).2
    omega
  have hmem := (hL (KERNBASE + k * PGSIZE)).2 ⟨hb, by rw [hk]; exact hcnt⟩
  cases L with
  | nil => cases hmem
  | cons a L => exact hchain.2.1 (hchain.1.symm.trans h0)

/-- **The free list is as long as there are free pages.** -/
theorem Kmem.FreeOk.le_nfree (h : m.FreeOk) {n : Nat} (hs : Stocked m.mem m.freelist n) :
    n ≤ m.nfree := by
  obtain ⟨L, hchain, hnodup, hL⟩ := h
  have hinj : ∀ a ∈ L, ∀ b ∈ L, refindex a = refindex b → a = b := by
    intro a ha b hb hab
    rw [← (refindex_managed ((hL a).1 ha).1).2, ← (refindex_managed ((hL b).1 hb).1).2, hab]
  calc n ≤ L.length := hs.le_length hchain
    _ = (L.map refindex).toFinset.card := by
      rw [List.toFinset_card_of_nodup ((List.nodup_map_iff_inj_on hnodup).2 hinj), List.length_map]
    _ ≤ m.nfree := by
      refine card_le_card fun k hk => ?_
      obtain ⟨a, ha, rfl⟩ := List.mem_map.1 (List.mem_toFinset.1 hk)
      obtain ⟨hb, hcnt⟩ := (hL a).1 ha
      obtain ⟨hlt, haddr⟩ := refindex_managed hb
      rw [mem_filter, mem_range, haddr]
      exact ⟨hlt, hb, hcnt⟩

/-! ### Writing a page -/

omit [Image] in
@[simp] theorem Kmem.setPage_mem (a : Nat) (g : Page) : (m.setPage a g).mem = upd m.mem a g := rfl

theorem MemInv.setPage (h : MemInv P m K T R) (hb : badPage a = false)
    (ha : 0 < K a + T a + m.refs R a) (ht : ¬ m.IsTable R a) {g : Page}
    (hok : ∀ r ∈ R, ∀ v w, v ≠ tfPage → m.pte r v = some w → pte2pa w = a →
      P.ok r v w (m.mem a) → P.ok r v w g) : MemInv P (m.setPage a g) K T R := by
  have hcnt := h.refcnt a hb
  refine h.frame (fun b hbt => ?_) (Kmem.FreeOk.setPage h.free (by omega) g) h.refcnt h.excl
    h.managed fun r hr v w hv hw => ?_
  · exact upd_other _ _ (by rintro rfl; exact ht hbt)
  · have hold := h.leaf r hr v w hv hw
    rw [Kmem.setPage_mem]
    by_cases hwa : pte2pa w = a
    · rw [hwa] at hold ⊢
      rw [upd_same]
      exact hok r hr v w hv hw hwa hold
    · rw [upd_other _ _ hwa]
      exact hold

theorem MemInv.setKernPage (h : MemInv P m K T R) (ha : 0 < K a) (g : Page) :
    MemInv P (m.setPage a g) K T R := by
  obtain ⟨hb, -, -, hrefs⟩ := h.kern_refs ha
  refine h.setPage hb (by omega) (Kmem.not_isTable hrefs) ?_
  rintro r hr v w hv hw rfl -
  exact (Kmem.not_leaf hr hv hw hrefs).elim

theorem MemInv.setLeafPage (h : MemInv P m K T R) {r v w : Nat} (hr : r ∈ R) (hv : v ≠ tfPage)
    (hw : m.pte r v = some w) (hb : badPage (pte2pa w) = false) {g : Page}
    (hok : ∀ r ∈ R, ∀ v w', v ≠ tfPage → m.pte r v = some w' → pte2pa w' = pte2pa w →
      P.ok r v w' (m.mem (pte2pa w)) → P.ok r v w' g) :
    MemInv P (m.setPage (pte2pa w) g) K T R := by
  have hpos := Kmem.refs_pos_of_leaf hr hv hw
  refine h.setPage hb (by omega) ?_ hok
  rintro ⟨r', hr', d, n, hd, ha⟩
  exact h.table_not_leaf hr' hr hd hv ha (Kmem.node_three_some.2 ⟨w, hw, rfl⟩)

/-! ### `kalloc` -/

/-- **`kalloc`** takes a frame without references; it belongs to the kernel now. -/
theorem wp_kalloc (h : MemInv P m K T R) :
    wp kalloc m (fun o m' => match o with
      | none => m' = m ∧ m.nfree = 0
      | some a => MemInv P m' (K + one a) T R ∧ K a = 0 ∧ m.refs R a = 0 ∧ badPage a = false ∧
          KeepsKern K m m' ∧ (∀ b, m.IsTable R b → m'.mem b = m.mem b) ∧
          m'.nfree + 1 = m.nfree) E := by
  unfold kalloc
  rw [wp_bind, wp_get]
  dsimp only
  split
  · rename_i h0
    exact wp_pure.2 ⟨rfl, Kmem.FreeOk.nfree_zero h.free h0⟩
  · rename_i hne
    obtain ⟨hb, hcnt, hfree⟩ := Kmem.FreeOk.take h.free hne
    rw [wp_bind, wp_set, wp_pure]
    generalize m.freelist = a at hb hcnt hfree hne ⊢
    have htot := h.refcnt a hb
    rw [hcnt] at htot
    have hnt : ¬ m.IsTable R a := Kmem.not_isTable (by omega)
    have htab : ∀ b, m.IsTable R b → upd m.mem a (fillPage 5) b = m.mem b := fun b hbt =>
      upd_other _ _ (by rintro rfl; exact hnt hbt)
    refine ⟨?_, by omega, by omega, hb, ?_, htab, Kmem.nfree_take hb hcnt rfl⟩
    · refine h.frame htab hfree ?_ ?_ h.managed ?_
      · intro b hbb
        dsimp only
        rw [upd_refindex _ _ hb hbb]
        show _ = K b + one a b + T b + m.refs R b
        split
        · subst b
          rw [one_self]
          omega
        · rename_i hne
          rw [h.refcnt b hbb, one_of_ne (Ne.symm hne), Nat.add_zero]
      · intro b hbk
        show badPage b = false ∧ K b + one a b + T b + m.refs R b = 1
        by_cases hab : a = b
        · subst hab
          rw [one_self]
          exact ⟨hb, by omega⟩
        · have hbk' : 0 < K b ∨ m.IsTable R b := by
            rcases hbk with hbk | hbk
            · left
              have : 0 < K b + one a b := hbk
              rw [one_of_ne hab] at this
              omega
            · exact .inr hbk
          have := h.excl b hbk'
          rw [one_of_ne hab]
          exact ⟨this.1, by omega⟩
      · intro r hr v w hv hw
        have hwa : pte2pa w ≠ a := by
          rintro rfl
          exact Kmem.not_leaf hr hv hw (by omega)
        dsimp only
        rw [upd_other _ _ hwa]
        exact h.leaf r hr v w hv hw
    · intro b hbk
      exact upd_other _ _ (by rintro rfl; omega)

/-! ### References in transit -/

theorem MemInv.handOver (h : MemInv P m (K + one a) T R) : MemInv P m K (T + one a) R := by
  have hsame : ∀ b, K b + (T + one a) b + m.refs R b = (K + one a) b + T b + m.refs R b := by
    intro b
    show K b + (T b + one a b) + m.refs R b = K b + one a b + T b + m.refs R b
    omega
  refine h.frame (fun _ _ => rfl) h.free (fun b hb => ?_) (fun b hb => ?_) (fun b hb => ?_) h.leaf
  · rw [hsame]
    exact h.refcnt b hb
  · rw [hsame]
    refine h.excl b ?_
    rcases hb with hb | hb
    · exact .inl (Nat.lt_of_lt_of_le hb (Nat.le_add_right _ _))
    · exact .inr hb
  · by_cases hab : a = b
    · subst hab
      refine .inl (h.excl a (.inl ?_)).1
      show 0 < K a + one a a
      rw [one_self]
      omega
    · refine h.managed b ?_
      have : 0 < T b + one a b + m.refs R b := hb
      rw [one_of_ne hab] at this
      omega

/-! ### `kfree` -/

/-- **`kfree`** gives up a reference in transit; neither of its panics can happen. -/
theorem wp_kfree (h : MemInv P m K (T + one a) R) (hb : badPage a = false) :
    wp (kfree a) m (fun _ m' => MemInv P m' K T R ∧ KeepsKern K m m' ∧
      (∀ b, m.IsTable R b → m'.mem b = m.mem b)) E := by
  have hcnt := h.refcnt a hb
  have hTa : (T + one a) a = T a + 1 := by
    show T a + one a a = T a + 1
    rw [one_self]
  have hTb : ∀ b, a ≠ b → (T + one a) b = T b := by
    intro b hab
    show T b + one a b = T b
    rw [one_of_ne hab]
    omega
  rw [hTa] at hcnt
  -- the page is neither a table page nor a page of the kernel's own
  have hnk : ¬ (0 < K a ∨ m.IsTable R a) := by
    intro hk
    have htot := (h.excl a hk).2
    rw [hTa] at htot
    rcases hk with hk | hk
    · omega
    · have := Kmem.refs_pos_of_table hk
      omega
  have hexcl : ∀ b, 0 < K b ∨ m.IsTable R b → badPage b = false ∧ K b + T b + m.refs R b = 1 := by
    intro b hbk
    have hab : a ≠ b := by rintro rfl; exact hnk hbk
    have := h.excl b hbk
    rw [hTb b hab] at this
    exact this
  have hman : ∀ b, 0 < T b + m.refs R b → badPage b = false ∨ b = Image.trampoline := by
    intro b hbp
    refine h.managed b ?_
    show 0 < T b + one a b + m.refs R b
    omega
  have hrefcnt : ∀ b, badPage b = false →
      upd m.refcnt (refindex a) (m.refcnt (refindex a) - 1) (refindex b) =
        K b + T b + m.refs R b := by
    intro b hbb
    rw [upd_refindex _ _ hb hbb]
    split
    · subst b
      omega
    · rename_i hne
      rw [h.refcnt b hbb, hTb b (Ne.symm hne)]
  unfold kfree
  rw [hb]
  simp only [Bool.false_eq_true, if_false, wp_bind, wp_get]
  rw [if_neg (by omega)]
  split
  · -- other references remain
    rename_i hpos
    rw [wp_set]
    exact ⟨h.frame (fun _ _ => rfl) (Kmem.FreeOk.less h.free hb (by omega) (by omega)) hrefcnt hexcl hman h.leaf,
      KeepsKern.refl K m, fun _ _ => rfl⟩
  · -- the last one: the page goes to the free list
    rename_i hzero
    have hlast : m.refcnt (refindex a) - 1 = 0 := by omega
    rw [hlast] at hrefcnt ⊢
    rw [wp_set]
    have hrefs : m.refs R a = 0 := by omega
    have htab : ∀ b, m.IsTable R b →
        upd m.mem a (upd (fillPage 1) 0 m.freelist) b = m.mem b := fun b hbt =>
      upd_other _ _ (by rintro rfl; exact hnk (.inr hbt))
    refine ⟨?_, fun b hbk => upd_other _ _ (by rintro rfl; exact hnk (.inl hbk)), htab⟩
    refine h.frame htab (Kmem.FreeOk.put h.free hb (by omega)) hrefcnt hexcl hman fun r hr v w hv hw => ?_
    have hwa : pte2pa w ≠ a := by
      rintro rfl
      exact Kmem.not_leaf hr hv hw hrefs
    dsimp only
    rw [upd_other _ _ hwa]
    exact h.leaf r hr v w hv hw

theorem wp_kfree_kern (h : MemInv P m (K + one a) T R) :
    wp (kfree a) m (fun _ m' => MemInv P m' K T R ∧ KeepsKern K m m' ∧
      (∀ b, m.IsTable R b → m'.mem b = m.mem b)) E := by
  refine wp_kfree h.handOver (h.excl a (.inl ?_)).1
  show 0 < K a + one a a
  rw [one_self]
  omega

end

end Xv6
