import Xv6.Mem.Tables

/-!
# A page table by itself

`TreeInv m r` is what a single page table needs of memory: its table pages are managed, have one
reference each and occur once, and the free list is in order.  What the leaves map is left open, so
unlike `MemInv` the invariant covers any caller of `mappages`; it holds as long as no table page is freed
as a leaf.
-/

namespace Xv6

open Xv6.Lib Finset

/-! ### Table pages without entries -/

theorem pagetableEmpty_iff {g : Page} :
    pagetableEmpty g = true ↔ ∀ j, j < 512 → pteV (g j) = false := by
  unfold pagetableEmpty
  rw [List.all_eq_true]
  simp only [List.mem_range, Bool.not_eq_true']

theorem ptePointsToPagetable_iff {w : Nat} :
    ptePointsToPagetable w = true ↔ pteV w = true ∧ pteRWX w = false := by
  unfold ptePointsToPagetable
  rw [Bool.and_eq_true, Bool.not_eq_true']

theorem Kmem.node_one {m : Kmem} {r va : Nat} (hv : pteV (m.mem r (px 2 va)) = true) :
    m.node r 1 (0 * 512 + px 2 va) = some (pte2pa (m.mem r (px 2 va))) :=
  (node_link (node_zero m.links r) (px_lt 2 va)).trans (child_eq_some.2 ⟨hv, rfl⟩)

theorem wp_boundaryLoop {m : Kmem} {E : MemPanic → Prop} {level lim : Nat} {visit : Nat → KmemM Unit}
    {I : Kmem → Prop}
    (hvisit : ∀ m va, I m → wp (visit va) m (fun _ => I) E) (h : I m) (fuel va : Nat) :
    wp (boundaryLoop level lim visit fuel va) m (fun _ => I) E := by
  induction fuel generalizing m va with
  | zero => exact wp_pure.2 h
  | succ fuel ih =>
    rw [boundaryLoop]
    split
    · dsimp only
      exact wp_seq (hvisit m va h) fun _ m₁ h₁ => ih h₁ _
    · exact wp_pure.2 h

section

variable [Image] {m m' : Kmem} {r d n t i x a p va : Nat} {E : MemPanic → Prop}

/-! ### Freeing a page -/

/-- **`kfree`** of any page keeps the free list in order and changes that page only. -/
theorem Kmem.FreeOk.wp_kfree (h : m.FreeOk) (a : Nat) :
    wp (kfree a) m (fun _ m' => m'.FreeOk ∧ (∀ b, b ≠ a → m'.mem b = m.mem b) ∧
      ∀ b, badPage b = false → b ≠ a → m'.refcnt (refindex b) = m.refcnt (refindex b)) (fun _ => True) := by
  unfold kfree
  by_cases hb : badPage a = true
  · rw [if_pos hb]
    exact wp_throw.2 trivial
  · have hb' : badPage a = false := by simpa using hb
    rw [if_neg hb, wp_bind, wp_get]
    dsimp only
    have hcnt : ∀ x b, badPage b = false → b ≠ a →
        upd m.refcnt (refindex a) x (refindex b) = m.refcnt (refindex b) := by
      intro x b hbb hne
      rw [upd_refindex _ _ hb' hbb, if_neg hne]
    by_cases hlow : m.refcnt (refindex a) < 1
    · rw [if_pos hlow]
      exact wp_throw.2 trivial
    · rw [if_neg hlow]
      by_cases hpos : 0 < m.refcnt (refindex a) - 1
      · rw [if_pos hpos, wp_set]
        exact ⟨h.less hb' (by omega) (by omega), fun _ _ => rfl, fun b hbb hne => hcnt _ b hbb hne⟩
      · have hlast : m.refcnt (refindex a) - 1 = 0 := by omega
        rw [if_neg hpos, wp_set, hlast]
        exact ⟨h.put hb' (by omega), fun b hne => upd_other _ _ hne, fun b hbb hne => hcnt _ b hbb hne⟩

theorem wp_kfree_storeWord (hne : a ≠ t) {Q : PUnit → Kmem → Prop}
    (h : wp (kfree a) (m.setEntry t i x) Q E) :
    wp (kfree a) m (fun _ m' => Q ⟨⟩ (m'.setEntry t i x)) E := by
  unfold kfree at h ⊢
  by_cases hb : badPage a = true
  · rw [if_pos hb, wp_throw] at h ⊢
    exact h
  · rw [if_neg hb, wp_bind, wp_get] at h ⊢
    dsimp only at h ⊢
    have hcnt : (m.setEntry t i x).refcnt = m.refcnt := rfl
    rw [hcnt] at h
    by_cases hr : m.refcnt (refindex a) < 1
    · rw [if_pos hr, wp_throw] at h ⊢
      exact h
    · rw [if_neg hr] at h ⊢
      by_cases hn : 0 < m.refcnt (refindex a) - 1
      · rw [if_pos hn, wp_set] at h ⊢
        exact h
      · rw [if_neg hn, wp_set] at h ⊢
        have hmem : upd (m.setEntry t i x).mem a (upd (fillPage 1) 0 (m.setEntry t i x).freelist) =
            upd (upd m.mem a (upd (fillPage 1) 0 m.freelist)) t (upd (m.mem t) i x) :=
          (upd_comm m.mem hne _ _).symm
        rw [hmem] at h
        unfold Kmem.setEntry Kmem.setPage
        dsimp only
        rw [upd_other _ _ hne.symm]
        exact h

/-! ### The invariant -/

/-- **The invariant of one page table**, with the root `r`. -/
structure TreeInv (m : Kmem) (r : Nat) : Prop where
  free : m.FreeOk
  table : ∀ a, m.IsTable {r} a → badPage a = false ∧ m.refcnt (refindex a) = 1
  unique : m.Unique {r}
  ptr : ∀ d n t i, d < 2 → m.node r d n = some t → i < 512 → pteV (m.mem t i) = true →
    pteRWX (m.mem t i) = false

omit [Image] in
theorem Kmem.isTable_one (hd : d < 3) (h : m.node r d n = some t) : m.IsTable {r} t :=
  ⟨r, mem_singleton_self r, d, n, hd, h⟩

theorem TreeInv.frame (h : TreeInv m r) (hfree : m'.FreeOk)
    (hmem : ∀ a, m.IsTable {r} a → m'.mem a = m.mem a)
    (hcnt : ∀ a, m.IsTable {r} a → m'.refcnt (refindex a) = m.refcnt (refindex a)) : TreeInv m' r := by
  have hnode : ∀ {d n}, d ≤ 3 → m'.node r d n = m.node r d n := fun hd =>
    Kmem.node_congr hmem (mem_singleton_self r) hd _
  refine ⟨hfree, fun a ha => ?_, fun r₁ r₂ d d' n n' a hr₁ hr₂ hd hd' ha ha' => ?_, fun d n t i hd ht hi hv => ?_⟩
  · rw [Kmem.isTable_congr hmem] at ha
    rw [hcnt a ha]
    exact h.table a ha
  · rw [mem_singleton] at hr₁ hr₂
    subst hr₁ hr₂
    rw [hnode (by omega)] at ha ha'
    exact h.unique (mem_singleton_self _) (mem_singleton_self _) hd hd' ha ha'
  · rw [hnode (by omega)] at ht
    rw [hmem t (Kmem.isTable_one (by omega) ht)] at hv ⊢
    exact h.ptr d n t i hd ht hi hv

/-- **A store into a table page.**  A page that it links in is in use and not yet a table. -/
theorem TreeInv.setEntry (h : TreeInv m r) (hd : d < 3) (ht : m.node r d n = some t) (hi : i < 512)
    (hends : m.Ends d t i x)
    (hnew : d < 2 → ∀ p, child x = some p → badPage p = false ∧ m.refcnt (refindex p) = 1 ∧ ¬ m.IsTable {r} p)
    (hptr : d < 2 → pteV x = true → pteRWX x = false) : TreeInv (m.setEntry t i x) r := by
  have hr := mem_singleton_self r
  have htab := h.table t (Kmem.isTable_one hd ht)
  have hnode : ∀ {k n'}, k < 3 → (m.setEntry t i x).node r k n' =
      if k = d + 1 ∧ n' = n * 512 + i then child x else m.node r k n' := by
    intro k n' hk
    rw [h.unique.node_setEntry hr hd ht hi hends hr (by omega)]
    simp only [Prod.mk.injEq, true_and]
  refine ⟨h.free.setPage (by omega) _, fun a ha => ?_, fun r₁ r₂ d₁ d₂ n₁ n₂ a hr₁ hr₂ hd₁ hd₂ ha ha' => ?_,
    fun k n' s j hk hs hj hv => ?_⟩
  · obtain ⟨r', hr', k, n', hk, ha⟩ := ha
    rw [mem_singleton] at hr'
    subst hr'
    rw [hnode hk] at ha
    split at ha
    · obtain ⟨hb, hc, -⟩ := hnew (by omega) a ha
      exact ⟨hb, hc⟩
    · exact h.table a (Kmem.isTable_one hk ha)
  · rw [mem_singleton] at hr₁ hr₂
    subst hr₁ hr₂
    rw [hnode hd₁] at ha
    rw [hnode hd₂] at ha'
    split at ha
    · split at ha'
      · omega
      · exact absurd (Kmem.isTable_one hd₂ ha') (hnew (by omega) a ha).2.2
    · split at ha'
      · exact absurd (Kmem.isTable_one hd₁ ha) (hnew (by omega) a ha').2.2
      · exact h.unique hr hr hd₁ hd₂ ha ha'
  · rw [hnode (by omega)] at hs
    split at hs
    · -- the new table has no valid entry
      obtain ⟨hne, hemp⟩ := hends.new (by omega) s hs
      rw [Kmem.setEntry_mem_other m t i x hne, hemp j hj] at hv
      cases hv
    · by_cases hst : s = t
      · subst hst
        have hkd : k = d := (h.unique hr hr (by omega) hd hs ht).2.1
        rw [Kmem.setEntry_mem_same, upd_apply] at hv ⊢
        split
        · rename_i hji
          rw [if_pos hji] at hv
          exact hptr (by omega) hv
        · rename_i hji
          rw [if_neg hji] at hv
          exact h.ptr k n' s j hk hs hj hv
      · rw [Kmem.setEntry_mem_other m t i x hst] at hv ⊢
        exact h.ptr k n' s j hk hs hj hv

theorem TreeInv.setLeaf (h : TreeInv m r) (ht : m.node r 2 n = some t) (hi : i < 512) (x : Nat) :
    TreeInv (m.setEntry t i x) r ∧
      (∀ v, (m.setEntry t i x).pte r v =
        if v = n * 512 + i then (if pteV x then some x else none) else m.pte r v) ∧
      ∀ a, (m.setEntry t i x).IsTable {r} a ↔ m.IsTable {r} a := by
  have hr := mem_singleton_self r
  refine ⟨h.setEntry (by omega) ht hi (m.ends_leaf t i x) (fun h => by omega) (fun h => by omega), fun v => ?_,
    fun a => ?_⟩
  · rw [h.unique.pte_setEntry_leaf hr ht hi x hr]
    simp only [Prod.mk.injEq, true_and]
  · refine exists_congr fun r' => and_congr_right fun hr' => exists_congr fun k => exists_congr fun n' =>
      and_congr_right fun hk => ?_
    rw [h.unique.node_setEntry_leaf hr ht hi x hr' (by omega)]

theorem TreeInv.wp_kfree (h : TreeInv m r) (ha : ¬ m.IsTable {r} a) :
    wp (kfree a) m (fun _ m' => TreeInv m' r ∧ ∀ b, m.IsTable {r} b → m'.mem b = m.mem b) (fun _ => True) := by
  refine wp_conseq (h.free.wp_kfree a) fun _ m' hm => ?_
  have hne : ∀ b, m.IsTable {r} b → b ≠ a := by
    rintro b hb rfl
    exact ha hb
  have hmem : ∀ b, m.IsTable {r} b → m'.mem b = m.mem b := fun b hb => hm.2.1 b (hne b hb)
  exact ⟨h.frame hm.1 hmem fun b hb => hm.2.2 b (h.table b hb).1 (hne b hb), hmem⟩

/-! ### Walking -/

/-- The pages that an operation maps are the same. -/
def SamePtes (r : Nat) (m m' : Kmem) : Prop := TreeInv m' r ∧ ∀ v, m'.pte r v = m.pte r v

theorem SamePtes.trans {m'' : Kmem} (h : SamePtes r m m') (h' : SamePtes r m' m'') : SamePtes r m m'' :=
  ⟨h'.1, fun v => (h'.2 v).trans (h.2 v)⟩

theorem TreeInv.wp_install (h : TreeInv m r) (hd : d < 2) (ht : m.node r d n = some t) (hi : i < 512)
    (hnone : pteV (m.mem t i) = false) {Q : Option (Nat × Nat) → Kmem → Prop}
    {cont : Nat → KmemM (Option (Nat × Nat))} (hfail : Q none m)
    (hcont : ∀ page m', SamePtes r m m' → m'.node r (d + 1) (n * 512 + i) = some page → wp (cont page) m' Q E) :
    wp (do
      match ← kalloc with
      | none => pure none
      | some page => do
        memsetPage page 0
        storeWord t i (pa2pte page ||| PTE_V)
        cont page) m Q E := by
  have hr := mem_singleton_self r
  unfold kalloc
  rw [wp_bind, wp_bind, wp_get]
  dsimp only
  by_cases h0 : m.freelist = 0
  · rw [if_pos h0, wp_pure]
    exact wp_pure.2 hfail
  · obtain ⟨hb, hcnt, hfree⟩ := h.free.take h0
    generalize m.freelist = page at hb hcnt hfree h0 ⊢
    rw [if_neg h0, wp_bind, wp_set, wp_pure]
    dsimp only
    rw [wp_bind, wp_memsetPage, wp_bind, wp_storeWord, tablePte_eq]
    -- the page was free, so it was no table
    have hnt : ¬ m.IsTable {r} page := fun hc => by
      have := (h.table page hc).2
      omega
    have hne : ∀ a, m.IsTable {r} a → a ≠ page := by
      rintro a ha rfl
      exact hnt ha
    generalize hm₁ : Kmem.setPage _ page (fillPage 0) = m₁
    have hmem : ∀ a, m.IsTable {r} a → m₁.mem a = m.mem a := by
      intro a ha
      rw [← hm₁, Kmem.setPage_mem, upd_other _ _ (hne a ha)]
      exact upd_other _ _ (hne a ha)
    have hcnt₁ : m₁.refcnt = upd m.refcnt (refindex page) 1 := by rw [← hm₁]; rfl
    have hone : m₁.refcnt (refindex page) = 1 := by rw [hcnt₁, upd_same]
    have hemp : m₁.Empty page := by
      rw [← hm₁]
      exact Kmem.empty_setPage_zero _ page
    have hfree₁ : m₁.FreeOk := by
      rw [← hm₁]
      refine hfree.setPage ?_ _
      dsimp only
      rw [upd_same]
      omega
    have h₁ : TreeInv m₁ r := by
      refine h.frame hfree₁ hmem fun a ha => ?_
      rw [hcnt₁, upd_refindex _ _ hb (h.table a ha).1, if_neg (hne a ha)]
    have ht₁ : m₁.node r d n = some t := (Kmem.node_congr hmem hr (by omega) n).trans ht
    have hnone₁ : pteV (m₁.mem t i) = false := by
      rw [hmem t (Kmem.isTable_one (by omega) ht)]
      exact hnone
    have hchild : child (mkPte page 0) = some page :=
      child_eq_some.2 ⟨pteV_mkPte page 0, pte2pa_mkPte (aligned_of_managed hb) (by norm_num)⟩
    have htp : page ≠ t := (hne t (Kmem.isTable_one (by omega) ht)).symm
    have hends : m₁.Ends d t i (mkPte page 0) := by
      refine ⟨fun _ q hq => ?_, fun _ q hq => ?_⟩
      · rw [child_eq_none.2 hnone₁] at hq
        cases hq
      · rw [hchild] at hq
        cases hq
        exact ⟨htp, hemp⟩
    refine hcont page _ ⟨h₁.setEntry (by omega) ht₁ hi hends (fun _ q hq => ?_) (fun _ _ => ?_), fun v => ?_⟩ ?_
    · rw [hchild] at hq
      cases hq
      exact ⟨hb, hone, fun hc => hnt ((Kmem.isTable_congr hmem page).1 hc)⟩
    · rw [pteRWX_mkPte]
      rfl
    · rw [h₁.unique.pte_setEntry_table hr hd ht₁ hi hends hr, Kmem.pte_congr hmem hr]
    · rw [h₁.unique.node_setEntry hr (by omega) ht₁ hi hends hr (by omega), if_pos rfl, hchild]

theorem TreeInv.wp_walkLoop {level : Nat} (h : TreeInv m r) (hl : level ≤ 2) (hd : d + level = 2)
    (ht : m.node r d (pageOf va / 512 ^ (level + 1)) = some t) :
    wp (walkLoop va true level t) m (fun o m' => SamePtes r m m' ∧
      ∀ s j, o = some (s, j) → m'.node r 2 (pageOf va / 512) = some s ∧ j = pageOf va % 512) E := by
  induction level generalizing d t m with
  | zero =>
    have hd2 : d = 2 := by omega
    subst hd2
    rw [zero_add, pow_one] at ht
    rw [walkLoop, wp_pure, px_eq, pow_zero, Nat.div_one]
    refine ⟨⟨h, fun _ => rfl⟩, fun s j ho => ?_⟩
    cases ho
    exact ⟨ht, rfl⟩
  | succ level ih =>
    have hi : px (level + 1) va < 512 := px_lt _ _
    have hidx : pageOf va / 512 ^ (level + 1 + 1) * 512 + px (level + 1) va = pageOf va / 512 ^ (level + 1) := by
      rw [px_eq, pow_succ _ (level + 1), ← Nat.div_div_eq_div_mul, Nat.div_add_mod']
    rw [walkLoop, wp_bind, wp_loadWord]
    split
    · rename_i hv
      refine ih h (by omega) (d := d + 1) (by omega) ?_
      rw [← hidx]
      exact (node_link ht hi).trans (child_eq_some.2 ⟨hv, rfl⟩)
    · rename_i hv
      rw [if_neg (by simp : ¬ (!true) = true)]
      refine h.wp_install (by omega) ht hi (by simpa using hv) ?_ fun page m₁ hs hn => ?_
      · exact ⟨⟨h, fun _ => rfl⟩, fun s j ho => by cases ho⟩
      · rw [hidx] at hn
        exact wp_conseq (ih hs.1 (by omega) (d := d + 1) (by omega) hn) fun o m₂ ho => ⟨hs.trans ho.1, ho.2⟩

/-- **A walk that allocates** changes no leaf. -/
theorem TreeInv.wp_walk (h : TreeInv m r) (va : Nat) :
    wp (walk r va true) m (fun o m' => SamePtes r m m' ∧ va < MAXVA ∧
      ∀ s j, o = some (s, j) → m'.node r 2 (pageOf va / 512) = some s ∧ j = pageOf va % 512) (fun _ => True) := by
  by_cases hva : MAXVA ≤ va
  · exact wp_walk_high hva trivial
  · unfold walk
    rw [if_neg hva]
    have h0 : pageOf va / 512 ^ (2 + 1) = 0 := Nat.div_eq_of_lt (by
      have := pageOf_lt (by omega : va < MAXVA)
      omega)
    refine wp_conseq (h.wp_walkLoop (by omega) (d := 0) (by omega) (by rw [h0]; rfl)) fun o m' ho => ?_
    exact ⟨ho.1, by omega, ho.2⟩

/-! ### Mapping -/

/-- The first `k` pages from `v₀` on are mapped to the frames from `pa` on. -/
def Mapped (r v₀ k pa perm : Nat) (m m' : Kmem) : Prop := ∀ v, m'.pte r v =
  if v₀ ≤ v ∧ v < v₀ + k then some (mkPte (pa + (v - v₀) * PGSIZE) perm) else m.pte r v

omit [Image] in
theorem Mapped.cons {k v₀ pa perm : Nat} {m₁ : Kmem}
    (h : ∀ v, m₁.pte r v = if v = v₀ then some (mkPte pa perm) else m.pte r v)
    (h' : Mapped r (v₀ + 1) k (pa + PGSIZE) perm m₁ m') : Mapped r v₀ (k + 1) pa perm m m' := by
  intro v
  rw [h' v, h v]
  by_cases hin : v₀ + 1 ≤ v ∧ v < v₀ + 1 + k
  · have hpa : pa + PGSIZE + (v - (v₀ + 1)) * PGSIZE = pa + (v - v₀) * PGSIZE := by
      rw [show v - v₀ = v - (v₀ + 1) + 1 by omega, Nat.add_mul]
      omega
    rw [if_pos hin, if_pos (by omega), hpa]
  · rw [if_neg hin]
    by_cases hv : v = v₀
    · rw [if_pos hv, if_pos (by omega), hv, Nat.sub_self, Nat.zero_mul, Nat.add_zero]
    · rw [if_neg hv, if_neg (by omega)]

theorem TreeInv.wp_mappagesLoop (h : TreeInv m r) {N : Nat} (perm a pa : Nat) :
    wp (mappagesLoop r perm N a pa) m (fun ok m' => TreeInv m' r ∧
      ∃ k, k ≤ N ∧ (ok = true ↔ k = N) ∧ Mapped r (pageOf a) k pa perm m m') (fun _ => True) := by
  induction N generalizing a pa m with
  | zero =>
    refine wp_pure.2 ⟨h, 0, Nat.le_refl 0, by simp, fun v => ?_⟩
    rw [if_neg (by omega)]
  | succ N ih =>
    rw [mappagesLoop, wp_bind]
    refine wp_conseq (h.wp_walk a) fun o m₁ ho => ?_
    obtain ⟨hs, hva, ho⟩ := ho
    cases o with
    | none =>
      refine wp_pure.2 ⟨hs.1, 0, Nat.zero_le _, by simp, fun v => ?_⟩
      rw [if_neg (by omega), hs.2 v]
    | some ti =>
      obtain ⟨s, j⟩ := ti
      obtain ⟨hnode, rfl⟩ := ho s j rfl
      dsimp only
      rw [wp_bind, wp_loadWord]
      split
      · exact wp_throw.2 trivial
      · rw [wp_bind, wp_storeWord]
        obtain ⟨hinv, hpte, -⟩ := hs.1.setLeaf hnode (Nat.mod_lt (pageOf a) (by norm_num)) (mkPte pa perm)
        have hva' : a < 274877906944 := hva
        have hnext : (a + PGSIZE) % 2 ^ 64 = a + PGSIZE := by
          show (a + 4096) % 2 ^ 64 = a + 4096
          omega
        have hpage : pageOf (a + PGSIZE) = pageOf a + 1 := Nat.add_div_right a (by decide)
        rw [hnext]
        refine wp_conseq (ih hinv (a + PGSIZE) (pa + PGSIZE)) fun ok m₂ h₂ => ?_
        obtain ⟨hinv₂, k, hk, hok, hmap⟩ := h₂
        rw [hpage] at hmap
        refine ⟨hinv₂, k + 1, by omega, by rw [hok]; omega, Mapped.cons (fun v => ?_) hmap⟩
        have hv := hpte v
        rw [Nat.div_add_mod', pteV_mkPte, if_pos rfl, hs.2 v] at hv
        exact hv

/-! ### Unmapping -/

/-- The `N` pages from `v₀` on are unmapped. -/
def Unmapped (r v₀ N : Nat) (m m' : Kmem) : Prop := ∀ v, m'.pte r v =
  if v₀ ≤ v ∧ v < v₀ + N then none else m.pte r v

omit [Image] in
theorem Unmapped.cons {N v₀ : Nat} {m₁ : Kmem} (h : ∀ v, m₁.pte r v = if v = v₀ then none else m.pte r v)
    (h' : Unmapped r (v₀ + 1) N m₁ m') : Unmapped r v₀ (N + 1) m m' := by
  intro v
  rw [h' v, h v]
  by_cases hin : v₀ + 1 ≤ v ∧ v < v₀ + 1 + N
  · rw [if_pos hin, if_pos (by omega)]
  · rw [if_neg hin]
    by_cases hv : v = v₀
    · rw [if_pos hv, if_pos (by omega)]
    · rw [if_neg hv, if_neg (by omega)]

/-- No leaf of the range that is freed maps a table page. -/
def FreesNoTable (m : Kmem) (r v₀ N : Nat) (doFree : Bool) : Prop :=
  doFree = true → ∀ v w, v₀ ≤ v → v < v₀ + N → m.pte r v = some w → ¬ m.IsTable {r} (pte2pa w)

theorem TreeInv.wp_uvmunmapLoop (h : TreeInv m r) {N : Nat} (doFree : Bool) (a : Nat)
    (hsafe : FreesNoTable m r (pageOf a) N doFree) :
    wp (uvmunmapLoop r doFree N a) m (fun _ m' => TreeInv m' r ∧ Unmapped r (pageOf a) N m m') (fun _ => True) := by
  induction N generalizing a m with
  | zero =>
    refine wp_pure.2 ⟨h, fun v => ?_⟩
    rw [if_neg (by omega)]
  | succ N ih =>
    have hpage : pageOf (a + PGSIZE) = pageOf a + 1 := Nat.add_div_right a (by decide)
    -- the rest of the loop, from a memory without the first leaf
    have hrest : ∀ m₁, TreeInv m₁ r → (∀ v, m₁.pte r v = if v = pageOf a then none else m.pte r v) →
        (∀ b, m₁.IsTable {r} b ↔ m.IsTable {r} b) →
        wp (uvmunmapLoop r doFree N (a + PGSIZE)) m₁ (fun _ m' => TreeInv m' r ∧
          Unmapped r (pageOf a) (N + 1) m m') (fun _ => True) := by
      intro m₁ h₁ hpte htab
      refine wp_conseq (ih h₁ (a + PGSIZE) fun hf v w hv hlt hw => ?_) fun _ m₂ h₂ => ?_
      · rw [hpage] at hv hlt
        rw [hpte v, if_neg (by omega)] at hw
        rw [htab]
        exact hsafe hf v w (by omega) (by omega) hw
      · rw [hpage] at h₂
        exact ⟨h₂.1, Unmapped.cons hpte h₂.2⟩
    have hunmapped : m.pte r (pageOf a) = none → ∀ v, m.pte r v = if v = pageOf a then none else m.pte r v := by
      intro hnone v
      split
      · rename_i hv
        rw [hv, hnone]
      · rfl
    rw [uvmunmapLoop, wp_bind]
    by_cases hva : MAXVA ≤ a
    · exact wp_walk_high hva trivial
    · refine Xv6.wp_walk (by omega) ?_
      cases hs : m.node r 2 (pageOf a / 512) with
      | none =>
        refine hrest m h (hunmapped ?_) fun _ => Iff.rfl
        unfold Kmem.pte
        rw [hs]
        rfl
      | some s =>
        have hj : pageOf a % 512 < 512 := Nat.mod_lt _ (by norm_num)
        simp only [Option.map_some]
        rw [wp_bind, wp_loadWord]
        by_cases hv : pteV (m.mem s (pageOf a % 512)) = true
        · have hw : m.pte r (pageOf a) = some (m.mem s (pageOf a % 512)) :=
            Kmem.pte_eq_some.2 ⟨s, hs, rfl, hv⟩
          -- clearing the entry, in a memory with the same tables
          have hclear : ∀ m₁, TreeInv m₁ r → (∀ b, m.IsTable {r} b → m₁.mem b = m.mem b) →
              wp (uvmunmapLoop r doFree N (a + PGSIZE)) (m₁.setEntry s (pageOf a % 512) 0) (fun _ m' =>
                TreeInv m' r ∧ Unmapped r (pageOf a) (N + 1) m m') (fun _ => True) := by
            intro m₁ h₁ hmem
            have hs₁ : m₁.node r 2 (pageOf a / 512) = some s :=
              (Kmem.node_congr hmem (mem_singleton_self r) (by omega) _).trans hs
            obtain ⟨hinv, hpte, htab⟩ := h₁.setLeaf hs₁ hj 0
            refine hrest _ hinv (fun v => ?_) fun b => (htab b).trans (Kmem.isTable_congr hmem b)
            rw [hpte v, Nat.div_add_mod', Kmem.pte_congr hmem (mem_singleton_self r)]
            rfl
          rw [if_neg (by simp [hv])]
          cases doFree with
          | true =>
            rw [if_pos rfl, wp_bind]
            refine wp_conseq (h.wp_kfree (hsafe rfl _ _ (Nat.le_refl _) (by omega) hw)) fun _ m₁ h₁ => ?_
            rw [wp_bind, wp_storeWord]
            exact hclear m₁ h₁.1 h₁.2
          | false =>
            rw [if_neg (by simp), wp_bind, wp_storeWord]
            exact hclear m h fun _ _ => rfl
        · rw [if_pos (by simpa using hv)]
          refine hrest m h (hunmapped ?_) fun _ => Iff.rfl
          unfold Kmem.pte
          rw [hs]
          exact if_neg hv

/-! ### Emptied table pages -/

theorem TreeInv.wp_freeTable (h : TreeInv m r) (hd : d < 2) (ht : m.node r d n = some t) (hi : i < 512)
    (hp : child (m.mem t i) = some p) (hemp : m.Empty p) :
    wp (kfree p) m (fun _ m' => SamePtes r m (m'.setEntry t i 0)) (fun _ => True) := by
  have hr := mem_singleton_self r
  have hends : m.Ends d t i 0 := by
    refine ⟨fun _ q hq => ?_, fun _ q hq => ?_⟩
    · rw [hp] at hq
      cases hq
      exact hemp
    · rw [child_zero] at hq
      cases hq
  have hnode : m.node r (d + 1) (n * 512 + i) = some p := (node_link ht hi).trans hp
  have hpt : p ≠ t := by
    rintro rfl
    have := (h.unique hr hr (by omega) (by omega) hnode ht).2.1
    omega
  have h₁ : TreeInv (m.setEntry t i 0) r := by
    refine h.setEntry (by omega) ht hi hends (fun _ q hq => ?_) (fun _ hv => ?_)
    · rw [child_zero] at hq
      cases hq
    · cases hv
  -- the page is no longer in the tree
  have hgone : ¬ (m.setEntry t i 0).IsTable {r} p := by
    rintro ⟨r', hr', k, n', hk, hn'⟩
    rw [h.unique.node_setEntry hr (by omega) ht hi hends hr' (by omega), child_zero] at hn'
    split at hn'
    · cases hn'
    · rename_i hne
      obtain ⟨rfl, rfl, rfl⟩ := h.unique hr' hr hk (by omega) hn' hnode
      exact hne rfl
  refine wp_kfree_storeWord hpt (Q := fun _ m₂ => SamePtes r m m₂) (wp_conseq (h₁.wp_kfree hgone) fun _ m₂ h₂ => ?_)
  refine ⟨h₂.1, fun v => ?_⟩
  rw [Kmem.pte_congr h₂.2 hr, h.unique.pte_setEntry_table hr hd ht hi hends hr]

theorem TreeInv.wp_freeIfEmpty (h : TreeInv m r) (hd : d < 2) (ht : m.node r d n = some t) (hi : i < 512)
    (hp : child (m.mem t i) = some p) :
    wp (do
      let m ← get
      if pagetableEmpty (m.mem p) then do
        kfree p
        storeWord t i 0
      else pure () : KmemM Unit) m (fun _ m' => SamePtes r m m') (fun _ => True) := by
  rw [wp_bind, wp_get]
  by_cases hemp : pagetableEmpty (m.mem p) = true
  · rw [if_pos hemp, wp_bind]
    exact wp_conseq (h.wp_freeTable hd ht hi hp (pagetableEmpty_iff.1 hemp)) fun _ m₁ h₁ => wp_storeWord.2 h₁
  · rw [if_neg hemp]
    exact wp_pure.2 ⟨h, fun _ => rfl⟩

/-- **`free_empty_mmap_pagetables`** changes no leaf. -/
theorem TreeInv.wp_freeEmptyMmapPagetables (h : TreeInv m r) (start length : Nat) :
    wp (freeEmptyMmapPagetables r start length) m (fun _ m' => SamePtes r m m') (fun _ => True) := by
  unfold freeEmptyMmapPagetables
  dsimp only
  refine wp_seq (wp_boundaryLoop (I := SamePtes r m) (fun m₁ va h₁ => ?_) ⟨h, fun _ => rfl⟩ _ _) fun _ m₂ h₂ => ?_
  · unfold freeEmptyMmapL0
    rw [wp_bind, wp_loadWord]
    by_cases hv2 : ptePointsToPagetable (m₁.mem r (px 2 va)) = true
    · rw [if_neg (by simp [hv2])]
      dsimp only
      rw [wp_bind, wp_loadWord]
      have ht := Kmem.node_one (ptePointsToPagetable_iff.1 hv2).1
      by_cases hv1 : ptePointsToPagetable (m₁.mem (pte2pa (m₁.mem r (px 2 va))) (px 1 va)) = true
      · rw [if_neg (by simp [hv1])]
        exact wp_conseq (h₁.1.wp_freeIfEmpty (by omega) ht (px_lt 1 va)
          (child_eq_some.2 ⟨(ptePointsToPagetable_iff.1 hv1).1, rfl⟩)) fun _ m₂ h₂ => h₁.trans h₂
      · rw [if_pos (by simpa using hv1)]
        exact wp_pure.2 h₁
    · rw [if_pos (by simpa using hv2)]
      exact wp_pure.2 h₁
  · refine wp_boundaryLoop (I := SamePtes r m) (fun m₁ va h₁ => ?_) h₂ _ _
    unfold freeEmptyMmapL1
    rw [wp_bind, wp_loadWord]
    by_cases hv2 : ptePointsToPagetable (m₁.mem r (px 2 va)) = true
    · rw [if_neg (by simp [hv2])]
      exact wp_conseq (h₁.1.wp_freeIfEmpty (by omega) (node_zero m₁.links r) (px_lt 2 va)
        (child_eq_some.2 ⟨(ptePointsToPagetable_iff.1 hv2).1, rfl⟩)) fun _ m₂ h₂ => h₁.trans h₂
    · rw [if_pos (by simpa using hv2)]
      exact wp_pure.2 h₁

end

end Xv6
