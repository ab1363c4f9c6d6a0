import Xv6.Mem.Entries

/-!
# Page-table operations keep the invariant

Specifications of `walk` and `mappages`.  A panic that an operation can reach is a hypothesis of its
specification, with the situation in which it is reached.

* `wp_walk_alloc`: a walk that allocates tables changes no leaf;
* `wp_mappage`: one page is mapped, or memory ran out.
-/

namespace Xv6

open Xv6.Lib Finset

/-! ### Words and pages -/

section

variable {m : Kmem} {r d t va : Nat} {E : MemPanic → Prop}

theorem wp_loadWord {p i : Nat} {Q : Nat → Kmem → Prop} :
    wp (loadWord p i) m Q E ↔ Q (m.mem p i) m := by
  rw [loadWord, wp_bind, wp_get, wp_pure]

theorem wp_storeWord {p i x : Nat} {Q : PUnit → Kmem → Prop} :
    wp (storeWord p i x) m Q E ↔ Q ⟨⟩ (m.setEntry p i x) := wp_modify

theorem wp_memsetPage {p c : Nat} {Q : PUnit → Kmem → Prop} :
    wp (memsetPage p c) m Q E ↔ Q ⟨⟩ (m.setPage p (fillPage c)) := wp_modify

/-! ### Walking -/

variable {Q : Option (Nat × Nat) → Kmem → Prop}

theorem wp_walk_high {alloc : Bool} (h : MAXVA ≤ va) (hE : E .walk) :
    wp (walk r va alloc) m Q E := by
  unfold walk
  rw [if_pos h, wp_throw]
  exact hE

theorem wp_walkLoop_false {level : Nat} (hl : level ≤ 2) (hd : d + level = 2)
    (ht : m.node r d (pageOf va / 512 ^ (level + 1)) = some t)
    (hQ : Q ((m.node r 2 (pageOf va / 512)).map fun t => (t, pageOf va % 512)) m) :
    wp (walkLoop va false level t) m Q E := by
  induction level generalizing d t with
  | zero =>
    have hd2 : d = 2 := by omega
    subst hd2
    rw [zero_add, pow_one] at ht
    rw [walkLoop, wp_pure, px_eq, pow_zero, Nat.div_one]
    rw [ht] at hQ
    exact hQ
  | succ level ih =>
    have hnext : m.node r (d + 1) (pageOf va / 512 ^ (level + 1)) =
        child (m.mem t (px (level + 1) va)) := by
      show Lib.node 512 m.links r (d + 1) _ = _
      rw [node_succ, Nat.div_div_eq_div_mul, ← pow_succ]
      have ht' : Lib.node 512 m.links r d (pageOf va / 512 ^ (level + 1 + 1)) = some t := ht
      rw [ht', px_eq]
      rfl
    rw [walkLoop, wp_bind, wp_loadWord]
    split
    · rename_i hv
      rw [child_eq_some.2 ⟨hv, rfl⟩] at hnext
      exact ih (by omega) (by omega) hnext
    · rename_i hv
      rw [if_pos (by rfl : (!false) = true), wp_pure]
      rw [child_eq_none.2 (by simpa using hv)] at hnext
      -- the walk ends early: there is no table below
      have hnone : m.node r 2 (pageOf va / 512) = none := by
        cases level with
        | zero =>
          have hd2 : d + 1 = 2 := by omega
          rw [hd2, zero_add, pow_one] at hnext
          exact hnext
        | succ level =>
          have hl0 : level = 0 := by omega
          subst hl0
          have hd1 : d + 1 = 1 := by omega
          rw [hd1] at hnext
          show Lib.node 512 m.links r 2 _ = _
          rw [node_succ, Nat.div_div_eq_div_mul]
          have hnext' : Lib.node 512 m.links r 1 (pageOf va / (512 * 512)) = none := hnext
          rw [hnext']
          rfl
      rw [hnone] at hQ
      exact hQ

/-- A walk that does not allocate finds the last table, if it is there. -/
theorem wp_walk (hva : va < MAXVA)
    (hQ : Q ((m.node r 2 (pageOf va / 512)).map fun t => (t, pageOf va % 512)) m) :
    wp (walk r va false) m Q E := by
  unfold walk
  rw [if_neg (by omega)]
  have h0 : pageOf va / 512 ^ (2 + 1) = 0 := Nat.div_eq_of_lt (by
    have := pageOf_lt hva
    omega)
  exact wp_walkLoop_false (d := 0) (by omega) (by omega) (by rw [h0]; rfl) hQ

end

/-! ### Growing -/

section

variable [Image] {P : Policy} {m m' m'' : Kmem} {K K' T T' : Nat → Nat} {R : Finset Nat}
  {r d n t i x va : Nat} {E : MemPanic → Prop}

/-- What an operation that changes no leaf leaves behind. -/
structure Grown (P : Policy) (K T : Nat → Nat) (R : Finset Nat) (m m' : Kmem) : Prop where
  inv : MemInv P m' K T R
  kern : KeepsKern K m m'
  pte : ∀ r ∈ R, ∀ v, m'.pte r v = m.pte r v

theorem Grown.refl (h : MemInv P m K T R) : Grown P K T R m m :=
  ⟨h, KeepsKern.refl K m, fun _ _ _ => rfl⟩

theorem Grown.trans (h : Grown P K T R m m') (h' : Grown P K T R m' m'') : Grown P K T R m m'' := by
  refine ⟨h'.inv, h.kern.trans h'.kern, fun r hr v => ?_⟩
  rw [h'.pte r hr v, h.pte r hr v]

/-! ### New table pages -/

/-- The table pages of the page tables `R` are the same. -/
def SameTables (R : Finset Nat) (m m' : Kmem) : Prop :=
  ∀ r ∈ R, ∀ k n, k ≤ 2 → m'.node r k n = m.node r k n

/-- No table page of the page tables `R` goes, and the new ones are on the way to the pages `V` of
the page table `r`. -/
def Branched (R : Finset Nat) (r : Nat) (V : Nat → Prop) (m m' : Kmem) : Prop :=
  ∀ r' ∈ R, ∀ k n, k ≤ 2 → m'.node r' k n = m.node r' k n ∨
    (m.node r' k n = none ∧ r' = r ∧ ∃ v, V v ∧ n = v / 512 ^ (3 - k))

omit [Image] in
theorem SameTables.of_mem (h : ∀ a, m.IsTable R a → m'.mem a = m.mem a) : SameTables R m m' :=
  fun _ hr _ n hk => Kmem.node_congr h hr (by omega) n

omit [Image] in
theorem SameTables.trans (h : SameTables R m m') (h' : SameTables R m' m'') : SameTables R m m'' :=
  fun r hr k n hk => (h' r hr k n hk).trans (h r hr k n hk)

omit [Image] in
theorem SameTables.branched (h : SameTables R m m') (r : Nat) (V : Nat → Prop) : Branched R r V m m' :=
  fun r' hr' k n hk => .inl (h r' hr' k n hk)

omit [Image] in
theorem Branched.refl (R : Finset Nat) (r : Nat) (V : Nat → Prop) (m : Kmem) : Branched R r V m m :=
  fun _ _ _ _ _ => .inl rfl

omit [Image] in
theorem Branched.trans {V : Nat → Prop} (h : Branched R r V m m') (h' : Branched R r V m' m'') :
    Branched R r V m m'' := by
  intro r' hr' k n hk
  rcases h' r' hr' k n hk with he' | ⟨hnone, hnew⟩
  · rw [he']
    exact h r' hr' k n hk
  · rcases h r' hr' k n hk with he | hnew'
    · exact .inr ⟨he ▸ hnone, hnew⟩
    · exact .inr hnew'

omit [Image] in
theorem Kmem.empty_setPage_zero (m : Kmem) (a : Nat) : (m.setPage a (fillPage 0)).Empty a := by
  intro j _
  rw [Kmem.setPage_mem, upd_same]
  unfold fillPage
  rw [Nat.zero_mul]
  rfl

theorem wp_walk_install (h : MemInv P m K T R) (hr : r ∈ R) (hd : d < 2)
    (ht : m.node r d n = some t) (hi : i < 512) (hnone : pteV (m.mem t i) = false)
    {Q : Option (Nat × Nat) → Kmem → Prop} {cont : Nat → KmemM (Option (Nat × Nat))}
    (hfail : m.nfree = 0 → Q none m)
    (hcont : ∀ page m', Grown P K T R m m' → m'.nfree + 1 = m.nfree →
      (∀ r' ∈ R, ∀ k n', k ≤ 2 → m'.node r' k n' =
        if (r', k, n') = (r, d + 1, n * 512 + i) then some page else m.node r' k n') →
      wp (cont page) m' Q E) :
    wp (do
      match ← kalloc with
      | none => pure none
      | some page => do
        memsetPage page 0
        storeWord t i (pa2pte page ||| PTE_V)
        cont page) m Q E := by
  refine wp_seq (wp_kalloc h) fun o m₁ ho => ?_
  cases o with
  | none =>
    rw [wp_pure, ho.1]
    exact hfail ho.2
  | some page =>
    obtain ⟨h₁, hK, -, hb, hkern, htab, hnf⟩ := ho
    rw [wp_bind, wp_memsetPage, wp_bind, wp_storeWord, tablePte_eq]
    have hKp : 0 < (K + one page) page := by
      show 0 < K page + one page page
      rw [one_self]
      omega
    have h₂ := h₁.setKernPage hKp (fillPage 0)
    have ht₁ : m₁.node r d n = some t := by
      rw [Kmem.node_congr htab hr (by omega)]
      exact ht
    have htp : t ≠ page := by
      rintro rfl
      have := (h₁.table_refs ⟨r, hr, d, n, by omega, ht₁⟩).2.1
      omega
    have htab₂ : ∀ b, m₁.IsTable R b → (m₁.setPage page (fillPage 0)).mem b = m₁.mem b := by
      intro b hbt
      refine upd_other _ _ ?_
      rintro rfl
      have := (h₁.table_refs hbt).2.1
      omega
    have ht₂ : (m₁.setPage page (fillPage 0)).node r d n = some t := by
      rw [Kmem.node_congr htab₂ hr (by omega)]
      exact ht₁
    have hnone₂ : pteV ((m₁.setPage page (fillPage 0)).mem t i) = false := by
      rw [htab₂ t ⟨r, hr, d, n, by omega, ht₁⟩, htab t ⟨r, hr, d, n, by omega, ht⟩]
      exact hnone
    obtain ⟨hends, h₃⟩ := h₂.installTable hr hd ht₂ hi hnone₂ (m₁.empty_setPage_zero page)
    refine hcont page _ ⟨h₃, ?_, fun r' hr' v => ?_⟩ hnf fun r' hr' k n' hk => ?_
    · have hk₂ : KeepsKern K m₁ (m₁.setPage page (fillPage 0)) := by
        intro a ha
        refine upd_other _ _ ?_
        rintro rfl
        omega
      have hk₃ := (h₂.keepsKern_setEntry hr (by omega) ht₂ i (mkPte page 0)).mono
        fun a => Nat.le_add_right (K a) (one page a)
      exact (hkern.trans hk₂).trans hk₃
    · rw [h₂.unique.pte_setEntry_table hr hd ht₂ hi hends hr', Kmem.pte_congr htab₂ hr',
        Kmem.pte_congr htab hr']
    · have hchild : child (mkPte page 0) = some page :=
        child_eq_some.2 ⟨pteV_mkPte page 0, pte2pa_mkPte (aligned_of_managed hb) (by norm_num)⟩
      rw [h₂.unique.node_setEntry hr (by omega) ht₂ hi hends hr' (by omega), hchild,
        Kmem.node_congr htab₂ hr' (by omega), Kmem.node_congr htab hr' (by omega)]

theorem wp_walkLoop_true {level : Nat} (h : MemInv P m K T R) (hr : r ∈ R) (hl : level ≤ 2)
    (hd : d + level = 2) (ht : m.node r d (pageOf va / 512 ^ (level + 1)) = some t) :
    wp (walkLoop va true level t) m (fun o m' => Grown P K T R m m' ∧
      Branched R r (· = pageOf va) m m' ∧
      (∀ s j, o = some (s, j) → m'.node r 2 (pageOf va / 512) = some s ∧ j = pageOf va % 512) ∧
      m.nfree ≤ m'.nfree + level ∧ (o = none → m.nfree < level)) E := by
  induction level generalizing d t m with
  | zero =>
    have hd2 : d = 2 := by omega
    subst hd2
    rw [zero_add, pow_one] at ht
    rw [walkLoop, wp_pure, px_eq, pow_zero, Nat.div_one]
    refine ⟨Grown.refl h, Branched.refl _ _ _ _, fun s j ho => ?_, Nat.le_add_right _ _, fun ho => ?_⟩
    · cases ho
      exact ⟨ht, rfl⟩
    · cases ho
  | succ level ih =>
    have hi : px (level + 1) va < 512 := px_lt _ _
    have hidx : pageOf va / 512 ^ (level + 1 + 1) * 512 + px (level + 1) va =
        pageOf va / 512 ^ (level + 1) := by
      rw [px_eq, pow_succ _ (level + 1), ← Nat.div_div_eq_div_mul, Nat.div_add_mod']
    rw [walkLoop, wp_bind, wp_loadWord]
    split
    · rename_i hv
      have hnext : m.node r (d + 1) (pageOf va / 512 ^ (level + 1)) =
          some (pte2pa (m.mem t (px (level + 1) va))) := by
        rw [← hidx]
        exact (node_link ht hi).trans (child_eq_some.2 ⟨hv, rfl⟩)
      refine wp_conseq (ih h (by omega) (by omega) hnext) fun o m' ho => ?_
      obtain ⟨hg, hbranch, hsome, hle, hnone⟩ := ho
      refine ⟨hg, hbranch, hsome, by omega, fun ho => ?_⟩
      have := hnone ho
      omega
    · rename_i hv
      rw [if_neg (by simp : ¬ (!true) = true)]
      have hv' : pteV (m.mem t (px (level + 1) va)) = false := by simpa using hv
      refine wp_walk_install h hr (by omega) ht hi hv' (fun h0 => ?_) fun page m₁ hg hnf hn => ?_
      · exact ⟨Grown.refl h, Branched.refl _ _ _ _, fun s j ho => (by cases ho), by omega,
          fun _ => by omega⟩
      · rw [hidx] at hn
        have hself : m₁.node r (d + 1) (pageOf va / 512 ^ (level + 1)) = some page := by
          rw [hn r hr _ _ (by omega), if_pos rfl]
        -- the place of the new page was empty
        have hold : m.node r (d + 1) (pageOf va / 512 ^ (level + 1)) = none := by
          rw [← hidx]
          exact (node_link ht hi).trans (child_eq_none.2 hv')
        have hbranch : Branched R r (· = pageOf va) m m₁ := by
          intro r' hr' k n' hk
          rw [hn r' hr' k n' hk]
          split
          · rename_i heq
            obtain ⟨rfl, rfl, rfl⟩ : r' = r ∧ k = d + 1 ∧ n' = pageOf va / 512 ^ (level + 1) := by
              simpa using heq
            exact .inr ⟨hold, rfl, pageOf va, rfl, by rw [show 3 - (d + 1) = level + 1 by omega]⟩
          · exact .inl rfl
        refine wp_conseq (ih hg.inv (by omega) (d := d + 1) (by omega) hself) fun o m₂ ho => ?_
        obtain ⟨hg', hbranch', hsome, hle, hnone⟩ := ho
        refine ⟨hg.trans hg', hbranch.trans hbranch', hsome, by omega, fun ho => ?_⟩
        have := hnone ho
        omega

/-- **A walk that allocates** changes no leaf and adds tables on its way only; it returns the last
table, or memory ran out. -/
theorem wp_walk_alloc (h : MemInv P m K T R) (hr : r ∈ R) (hE : MAXVA ≤ va → E .walk) :
    wp (walk r va true) m (fun o m' => Grown P K T R m m' ∧ Branched R r (· = pageOf va) m m' ∧
      (∀ s j, o = some (s, j) → m'.node r 2 (pageOf va / 512) = some s ∧ j = pageOf va % 512) ∧
      m.nfree ≤ m'.nfree + 2 ∧ (o = none → m.nfree < 2)) E := by
  by_cases hva : MAXVA ≤ va
  · exact wp_walk_high hva (hE hva)
  · unfold walk
    rw [if_neg hva]
    have h0 : pageOf va / 512 ^ (2 + 1) = 0 := Nat.div_eq_of_lt (by
      have := pageOf_lt (by omega : va < MAXVA)
      omega)
    exact wp_walkLoop_true h hr (by omega) (d := 0) (by omega) (by rw [h0]; rfl)

/-! ### Mapping -/

/-- **One page is mapped.**  The caller says what the store of the entry does. -/
theorem wp_mappage {pa perm : Nat} (h : MemInv P m K T R) (hr : r ∈ R) (hva : va % PGSIZE = 0)
    (hE : MAXVA ≤ va → E .walk) (hremap : m.pte r (pageOf va) ≠ none → E .remap)
    (hmap : ∀ m₁ t n i, Grown P K T R m m₁ → m₁.node r 2 n = some t → i < 512 →
      n * 512 + i = pageOf va → m₁.pte r (pageOf va) = none →
      MemInv P (m₁.setEntry t i (mkPte pa perm)) K' T' R) :
    wp (mappages r va PGSIZE pa perm) m (fun ok m' => match ok with
      | false => Grown P K T R m m' ∧ Branched R r (· = pageOf va) m m' ∧ m.nfree < 2
      | true => MemInv P m' K' T' R ∧ KeepsKern K m m' ∧ m.nfree ≤ m'.nfree + 2 ∧
          (∀ r' ∈ R, ∀ v, m'.pte r' v =
            if (r', v) = (r, pageOf va) then some (mkPte pa perm) else m.pte r' v) ∧
          Branched R r (· = pageOf va) m m') E := by
  unfold mappages
  rw [if_neg (by omega), if_neg (by decide), if_neg (by decide), show PGSIZE / PGSIZE = 1 from rfl]
  unfold mappagesLoop
  refine wp_seq (wp_walk_alloc h hr hE) fun o m₁ ho => ?_
  obtain ⟨hg, hbranch, ho, hle, hnone⟩ := ho
  cases o with
  | none => exact wp_pure.2 ⟨hg, hbranch, hnone rfl⟩
  | some ti =>
    obtain ⟨s, j⟩ := ti
    obtain ⟨hs, rfl⟩ := ho s j rfl
    have hj : pageOf va % 512 < 512 := Nat.mod_lt _ (by norm_num)
    have hpage : pageOf va / 512 * 512 + pageOf va % 512 = pageOf va := Nat.div_add_mod' _ _
    dsimp only
    rw [wp_bind, wp_loadWord]
    split
    · -- a valid entry: the walk has not changed it
      rename_i hv
      rw [wp_throw]
      refine hremap ?_
      rw [← hg.pte r hr, Kmem.pte_eq_some.2 ⟨s, hs, rfl, hv⟩]
      simp
    · rename_i hv
      have hnone : m₁.pte r (pageOf va) = none := by
        unfold Kmem.pte
        rw [hs]
        exact if_neg hv
      have hinv := hmap m₁ s _ _ hg hs hj hpage hnone
      rw [wp_bind, wp_storeWord, mappagesLoop, wp_pure]
      refine ⟨hinv, hg.kern.trans (hg.inv.keepsKern_setEntry hr (by omega) hs _ _), hle,
        fun r' hr' v => ?_, hbranch.trans (SameTables.branched (fun r' hr' k n hk => ?_) _ _)⟩
      · rw [hg.inv.unique.pte_setEntry_leaf hr hs hj _ hr', hpage, pteV_mkPte, if_pos rfl, hg.pte r' hr']
      · exact hg.inv.unique.node_setEntry_leaf hr hs hj _ hr' hk n

end

end Xv6
