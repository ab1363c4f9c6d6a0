import Xv6.Mem.Alloc

/-!
# Writing page-table entries

What a store into a table page does to the page tables, and the invariant across it.
The page stored into occurs once, at depth `d` and position `n` of the page table `r`,
so the store changes what is at one position below it and nothing else.

* `Kmem.Unique.node_setEntry`, `Kmem.Unique.pte_setEntry_leaf`: what a store changes;
* `MemInv.setEntry`: the general rule, with the references balanced by the caller;
* `MemInv.installTable`: a table page without valid entries goes from the kernel to a page
  table;
* `MemInv.mapLeaf`, `MemInv.mapFresh`: a frame goes from an operation under way to a leaf;
* `MemInv.newRoot`: a page table is born.
-/

namespace Xv6

open Xv6.Lib Finset

/-- Store a word into a table page. -/
def Kmem.setEntry (m : Kmem) (t i x : Nat) : Kmem := m.setPage t (upd (m.mem t) i x)

theorem Kmem.setEntry_mem_same (m : Kmem) (t i x : Nat) :
    (m.setEntry t i x).mem t = upd (m.mem t) i x := upd_same _ _ _

theorem Kmem.setEntry_mem_other (m : Kmem) (t i x : Nat) {s : Nat} (h : s ≠ t) :
    (m.setEntry t i x).mem s = m.mem s := upd_other _ _ h

theorem Kmem.links_setEntry (m : Kmem) (t i x : Nat) :
    (m.setEntry t i x).links = relink m.links t i (child x) := by
  funext s j
  unfold Kmem.links relink
  by_cases hs : s = t
  · subst hs
    rw [Kmem.setEntry_mem_same, upd_apply]
    by_cases hj : j = i
    · rw [if_pos hj, if_pos ⟨rfl, hj⟩]
    · rw [if_neg hj, if_neg fun h => hj h.2]
  · rw [Kmem.setEntry_mem_other m t i x hs, if_neg fun h => hs h.1]

/-- No entry of the page is valid. -/
def Kmem.Empty (m : Kmem) (p : Nat) : Prop := ∀ j, j < 512 → pteV (m.mem p j) = false

/-- What the ends of the link are allowed to be: below the last tables anything, above
them nothing or a page without valid entries. -/
structure Kmem.Ends (m : Kmem) (d t i x : Nat) : Prop where
  old : d < 2 → ∀ p, child (m.mem t i) = some p → m.Empty p
  new : d < 2 → ∀ p, child x = some p → p ≠ t ∧ m.Empty p

/-- A table page is at one place only. -/
def Kmem.Unique (m : Kmem) (R : Finset Nat) : Prop :=
  ∀ ⦃r r' d d' n n' a : Nat⦄, r ∈ R → r' ∈ R → d < 3 → d' < 3 → m.node r d n = some a →
    m.node r' d' n' = some a → r = r' ∧ d = d' ∧ n = n'

section

variable {m : Kmem} {R : Finset Nat} {r d n t i x : Nat}

theorem Kmem.Unique.node_setEntry (h : m.Unique R) (hr : r ∈ R) (hd : d < 3)
    (ht : m.node r d n = some t) (hi : i < 512) (hends : m.Ends d t i x) {r' : Nat} (hr' : r' ∈ R)
    {k : Nat} (hk : k ≤ 3) (n' : Nat) :
    (m.setEntry t i x).node r' k n' =
      if (r', k, n') = (r, d + 1, n * 512 + i) then child x else m.node r' k n' := by
  unfold Kmem.node
  rw [Kmem.links_setEntry]
  by_cases hrr : r' = r
  · subst hrr
    rw [node_relink (D := 3) ht (fun k' m' hk' hn' => ?_) hi (fun hd' p hp j hj => ?_)
      (fun hd' p hp => ?_) hk]
    · simp only [Prod.mk.injEq, true_and]
    · obtain ⟨-, hdd, hnn⟩ := h hr' hr' hk' hd hn' ht
      exact ⟨hdd, hnn⟩
    · exact child_eq_none.2 (hends.old (by omega) p hp j hj)
    · obtain ⟨hne, hemp⟩ := hends.new (by omega) p hp
      exact ⟨hne, fun j hj => child_eq_none.2 (hemp j hj)⟩
  · rw [node_relink_other, if_neg]
    · intro heq
      exact hrr (congrArg Prod.fst heq)
    · intro k' m' hk' hn'
      exact hrr (h hr' hr (by omega) hd hn' ht).1

theorem Kmem.Unique.pte_setEntry_table (h : m.Unique R) (hr : r ∈ R) (hd : d < 2)
    (ht : m.node r d n = some t) (hi : i < 512) (hends : m.Ends d t i x) {r' : Nat} (hr' : r' ∈ R)
    (v : Nat) : (m.setEntry t i x).pte r' v = m.pte r' v := by
  have hmod : v % 512 < 512 := Nat.mod_lt v (by norm_num)
  unfold Kmem.pte
  rw [h.node_setEntry hr (by omega) ht hi hends hr' (by omega)]
  split
  · -- the end of the link is a last table, without entries before and after
    rename_i heq
    obtain ⟨rfl, hdd, hdiv⟩ : r' = r ∧ 2 = d + 1 ∧ v / 512 = n * 512 + i := by simpa using heq
    have hd1 : d = 1 := by omega
    subst hd1
    have hold : m.node r' 2 (v / 512) = child (m.mem t i) := by
      rw [hdiv]
      exact node_link ht hi
    rw [hold]
    have hnone : ∀ o : Option Nat, (∀ p, o = some p → m.Empty p ∧ p ≠ t) →
        (o.bind fun p => if pteV ((m.setEntry t i x).mem p (v % 512)) then
          some ((m.setEntry t i x).mem p (v % 512)) else none) = none := by
      intro o ho
      cases o with
      | none => rfl
      | some p =>
        obtain ⟨hemp, hne⟩ := ho p rfl
        show (if _ then _ else _) = none
        rw [Kmem.setEntry_mem_other m t i x hne, hemp _ hmod]
        rfl
    have hold' : ((child (m.mem t i)).bind fun p => if pteV (m.mem p (v % 512)) then
        some (m.mem p (v % 512)) else none) = none := by
      cases ho : child (m.mem t i) with
      | none => rfl
      | some p =>
        show (if _ then _ else _) = none
        rw [hends.old hd p ho _ hmod]
        rfl
    rw [hold', hnone _ fun p hp => ?_]
    obtain ⟨hne, hemp⟩ := hends.new hd p hp
    exact ⟨hemp, hne⟩
  · cases hs : m.node r' 2 (v / 512) with
    | none => rfl
    | some s =>
      have hst : s ≠ t := by
        rintro rfl
        have := (h hr' hr (by omega) (by omega) hs ht).2.1
        omega
      simp only [Option.bind_some]
      rw [Kmem.setEntry_mem_other m t i x hst]

theorem Kmem.Unique.pte_setEntry_leaf (h : m.Unique R) (hr : r ∈ R)
    (ht : m.node r 2 n = some t) (hi : i < 512) (x : Nat) {r' : Nat} (hr' : r' ∈ R) (v : Nat) :
    (m.setEntry t i x).pte r' v =
      if (r', v) = (r, n * 512 + i) then (if pteV x then some x else none) else m.pte r' v := by
  have hends : m.Ends 2 t i x := ⟨fun h => by omega, fun h => by omega⟩
  unfold Kmem.pte
  rw [h.node_setEntry hr (by omega) ht hi hends hr' (by omega), if_neg]
  · cases hs : m.node r' 2 (v / 512) with
    | none =>
      rw [if_neg]
      · rfl
      · intro heq
        simp only [Prod.mk.injEq] at heq
        obtain ⟨rfl, rfl⟩ := heq
        rw [show (n * 512 + i) / 512 = n by omega, ht] at hs
        cases hs
    | some s =>
      simp only [Option.bind_some]
      by_cases hst : s = t
      · subst hst
        obtain ⟨rfl, -, hn⟩ := h hr' hr (by omega) (by omega) hs ht
        rw [Kmem.setEntry_mem_same, upd_apply]
        by_cases hvi : v % 512 = i
        · have hpos : (r', v) = (r', n * 512 + i) := by rw [← hn, ← hvi, Nat.div_add_mod']
          rw [if_pos hvi, if_pos hpos]
        · have hneg : (r', v) ≠ (r', n * 512 + i) := by
            intro heq
            simp only [Prod.mk.injEq] at heq
            omega
          rw [if_neg hvi, if_neg hneg]
      · have hneg : (r', v) ≠ (r, n * 512 + i) := by
          intro heq
          simp only [Prod.mk.injEq] at heq
          obtain ⟨rfl, rfl⟩ := heq
          rw [show (n * 512 + i) / 512 = n by omega, ht] at hs
          exact hst (Option.some.inj hs).symm
        rw [Kmem.setEntry_mem_other m t i x hst, if_neg hneg]
  · intro heq
    simp only [Prod.mk.injEq] at heq
    omega

theorem Kmem.ends_leaf (m : Kmem) (t i x : Nat) : m.Ends 2 t i x :=
  ⟨fun h => by omega, fun h => by omega⟩

theorem Kmem.Unique.node_setEntry_leaf (h : m.Unique R) (hr : r ∈ R) (ht : m.node r 2 n = some t)
    (hi : i < 512) (x : Nat) {r' k : Nat} (hr' : r' ∈ R) (hk : k ≤ 2) (n' : Nat) :
    (m.setEntry t i x).node r' k n' = m.node r' k n' := by
  rw [h.node_setEntry hr (by omega) ht hi (m.ends_leaf t i x) hr' (by omega), if_neg]
  simp only [Prod.mk.injEq]
  omega

end

section

variable [Image] {P : Policy} {m : Kmem} {K K' T T' : Nat → Nat} {R : Finset Nat}
  {r d n t i x : Nat}

theorem MemInv.unique (h : MemInv P m K T R) : m.Unique R :=
  fun _ _ _ _ _ _ _ hr hr' hd hd' ha ha' => h.table_unique hr hr' hd hd' ha ha'

/-- What the slot written references after the store. -/
def newRef (d v x : Nat) : Option Nat := if d = 2 ∧ v = tfPage then none else child x

theorem MemInv.refs_setEntry (h : MemInv P m K T R) (hr : r ∈ R) (hd : d < 3)
    (ht : m.node r d n = some t) (hi : i < 512) (hends : m.Ends d t i x) (a : Nat) :
    (m.setEntry t i x).refs R a + holds (m.ref (r, d + 1, n * 512 + i)) a =
      m.refs R a + holds (newRef d (n * 512 + i) x) a := by
  have hslot : (r, d + 1, n * 512 + i) ∈ slots R := by
    have hlt : n < 512 ^ d := node_lt (by norm_num) ht
    have hle : 512 ^ (d + 1) ≤ 512 ^ 3 := Nat.pow_le_pow_right (by norm_num) (by omega)
    have hpow : 512 ^ (d + 1) = 512 ^ d * 512 := pow_succ 512 d
    unfold slots
    rw [mem_product, mem_product, mem_range, mem_range]
    refine ⟨hr, Nat.succ_lt_succ hd, ?_⟩
    show n * 512 + i < 2 ^ 27
    have : 512 ^ 3 = 2 ^ 27 := by norm_num
    omega
  have hupd := count_upd (f := m.ref) hslot (newRef d (n * 512 + i) x) a
  rw [Kmem.refs, Kmem.refs, ← hupd]
  congr 1
  refine count_congr (fun y hy => ?_) a
  obtain ⟨r', k, n'⟩ := y
  unfold slots at hy
  rw [mem_product, mem_product, mem_range] at hy
  have hk : k ≤ 3 := Nat.le_of_lt_succ hy.2.1
  have hr' : r' ∈ R := hy.1
  rw [upd_apply]
  unfold Kmem.ref
  dsimp only
  rw [h.unique.node_setEntry hr hd ht hi hends hr' hk]
  by_cases heq : (r', k, n') = (r, d + 1, n * 512 + i)
  · rw [if_pos heq, if_pos heq]
    simp only [Prod.mk.injEq] at heq
    unfold newRef
    obtain ⟨-, rfl, rfl⟩ := heq
    by_cases htf : d = 2 ∧ n * 512 + i = tfPage
    · rw [if_pos ⟨by omega, htf.2⟩, if_pos htf]
    · rw [if_neg fun h' => htf ⟨by omega, h'.2⟩, if_neg htf]
  · rw [if_neg heq, if_neg heq]

/-- **Storing an entry.**  The caller says how the references move: what the slot gives up
goes to the kernel or into transit, and what it takes comes from there. -/
theorem MemInv.setEntry (h : MemInv P m K T R) (hr : r ∈ R) (hd : d < 3)
    (ht : m.node r d n = some t) (hi : i < 512) (hends : m.Ends d t i x)
    (hbal : ∀ a, K' a + T' a + holds (newRef d (n * 512 + i) x) a =
      K a + T a + holds (m.ref (r, d + 1, n * 512 + i)) a)
    (hK : ∀ a, 0 < K' a → 0 < K a ∨ m.IsTable R a)
    (hT : ∀ a, 0 < T' a → badPage a = false ∨ a = Image.trampoline)
    (htable : d < 2 → ∀ p, child x = some p → 0 < K p)
    (hptr : d < 2 → pteV x = true → pteRWX x = false)
    (hleaf : d = 2 → n * 512 + i ≠ tfPage → pteV x = true →
      P.ok r (n * 512 + i) x (m.mem (pte2pa x)))
    (htf : d = 2 → n * 512 + i = tfPage → pteV x = true → pteU x = false)
    (hshare : d = 2 → n * 512 + i ≠ tfPage → pteV x = true → pte2pa x ≠ Image.trampoline →
      ∀ r' ∈ R, ∀ v w, v ≠ tfPage → m.pte r' v = some w → pte2pa w = pte2pa x →
        (r', v) ≠ (r, n * 512 + i) → v = n * 512 + i ∧ P.share r v ∧ P.share r' v) :
    MemInv P (m.setEntry t i x) K' T' R := by
  have hrefs := h.refs_setEntry hr hd ht hi hends
  have htot : ∀ a, K' a + T' a + (m.setEntry t i x).refs R a = K a + T a + m.refs R a := by
    intro a
    have := hbal a
    have := hrefs a
    omega
  have htt : m.IsTable R t := ⟨r, hr, d, n, hd, ht⟩
  obtain ⟨htb, htK, htT, htR⟩ := h.table_refs htt
  have hnode := fun {r' : Nat} (hr' : r' ∈ R) {k : Nat} (hk : k ≤ 3) (n' : Nat) =>
    h.unique.node_setEntry hr hd ht hi hends hr' hk n'
  -- a table page of the new memory was a table page or belonged to the kernel
  have htab : ∀ a, (m.setEntry t i x).IsTable R a → 0 < K a ∨ m.IsTable R a := by
    rintro a ⟨r', hr', k, n', hk, ha⟩
    rw [hnode hr' (by omega)] at ha
    split at ha
    · rename_i heq
      simp only [Prod.mk.injEq] at heq
      exact .inl (htable (by omega) a ha)
    · exact .inr ⟨r', hr', k, n', hk, ha⟩
  -- the frame of the new leaf is not the table page itself
  have hself : d = 2 → n * 512 + i ≠ tfPage → pteV x = true → pte2pa x ≠ t := by
    rintro rfl hv hx rfl
    have hb := hbal (pte2pa x)
    have hold : m.ref (r, 2 + 1, n * 512 + i) ≠ some (pte2pa x) := by
      rw [Kmem.ref_leaf hv]
      exact h.table_not_leaf hr hr (by omega) hv ht
    have hnew : newRef 2 (n * 512 + i) x = some (pte2pa x) := by
      unfold newRef
      rw [if_neg fun h' => hv h'.2]
      exact child_eq_some.2 ⟨hx, rfl⟩
    rw [hnew, holds_self] at hb
    have hz : holds (m.ref (r, 2 + 1, n * 512 + i)) (pte2pa x) = 0 := by
      unfold holds
      rw [if_neg hold]
    omega
  have hpte : ∀ r' ∈ R, ∀ v w, (m.setEntry t i x).pte r' v = some w →
      m.pte r' v = some w ∨ (d = 2 ∧ (r', v) = (r, n * 512 + i) ∧ w = x ∧ pteV x = true) := by
    intro r' hr' v w hw
    by_cases hd2 : d = 2
    · subst hd2
      rw [h.unique.pte_setEntry_leaf hr ht hi x hr'] at hw
      split at hw
      · rename_i heq
        split at hw
        · exact .inr ⟨rfl, heq, (Option.some.inj hw).symm, ‹_›⟩
        · cases hw
      · exact .inl hw
    · rw [h.unique.pte_setEntry_table hr (by omega) ht hi hends hr'] at hw
      exact .inl hw
  have hmem : ∀ r' ∈ R, ∀ v w, v ≠ tfPage → m.pte r' v = some w →
      (m.setEntry t i x).mem (pte2pa w) = m.mem (pte2pa w) := by
    intro r' hr' v w hv hw
    refine Kmem.setEntry_mem_other m t i x fun heq => ?_
    exact h.table_not_leaf hr hr' hd hv ht (Kmem.node_three_some.2 ⟨w, hw, heq⟩)
  refine ⟨?_, fun a ha => ?_, fun a ha => ?_, fun a ha => ?_, ?_, ?_, ?_, ?_⟩
  · have hcnt := h.refcnt t htb
    exact Kmem.FreeOk.setPage h.free (by omega) _
  · rw [htot]
    exact h.refcnt a ha
  · rw [htot]
    refine h.excl a ?_
    rcases ha with ha | ha
    · exact hK a ha
    · exact htab a ha
  · by_cases hTa : 0 < T' a
    · exact hT a hTa
    · by_cases hKa : 0 < K a
      · exact .inl (h.excl a (.inl hKa)).1
      · refine h.managed a ?_
        have := htot a
        omega
  · intro r' hr' d' n' t' j hd' ht' hj hv
    rw [hnode hr' (by omega)] at ht'
    split at ht'
    · rename_i heq
      simp only [Prod.mk.injEq] at heq
      obtain ⟨hne, hemp⟩ := hends.new (by omega) t' ht'
      rw [Kmem.setEntry_mem_other m t i x hne, hemp j hj] at hv
      cases hv
    · by_cases htt' : t' = t
      · subst htt'
        have hdd := (h.table_unique hr' hr (by omega) hd ht' ht).2.1
        rw [Kmem.setEntry_mem_same, upd_apply] at hv ⊢
        split at hv
        · rw [if_pos ‹_›]
          exact hptr (by omega) hv
        · rw [if_neg ‹_›]
          exact h.ptr r' hr' d' n' t' j hd' ht' hj hv
      · rw [Kmem.setEntry_mem_other m t i x htt'] at hv ⊢
        exact h.ptr r' hr' d' n' t' j hd' ht' hj hv
  · intro r' hr' v w hv hw
    rcases hpte r' hr' v w hw with hw | ⟨hd2, heq, rfl, hx⟩
    · rw [hmem r' hr' v w hv hw]
      exact h.leaf r' hr' v w hv hw
    · simp only [Prod.mk.injEq] at heq
      obtain ⟨rfl, rfl⟩ := heq
      rw [Kmem.setEntry_mem_other m t i _ (hself hd2 hv hx)]
      exact hleaf hd2 hv hx
  · intro r' hr' w hw
    rcases hpte r' hr' tfPage w hw with hw | ⟨hd2, heq, rfl, hx⟩
    · exact h.tf r' hr' w hw
    · simp only [Prod.mk.injEq] at heq
      exact htf hd2 heq.2.symm hx
  · intro r₁ hr₁ r₂ hr₂ v₁ v₂ w₁ w₂ hv₁ hv₂ hw₁ hw₂ heq htr hne
    rcases hpte r₁ hr₁ v₁ w₁ hw₁ with ho₁ | ⟨hd2, he₁, hx₁, hx⟩
    · rcases hpte r₂ hr₂ v₂ w₂ hw₂ with ho₂ | ⟨hd2, he₂, hx₂, hx⟩
      · exact h.share r₁ hr₁ r₂ hr₂ v₁ v₂ w₁ w₂ hv₁ hv₂ ho₁ ho₂ heq htr hne
      · simp only [Prod.mk.injEq] at he₂
        obtain ⟨rfl, rfl⟩ := he₂
        rw [hx₂] at heq
        rw [heq] at htr
        obtain ⟨h1, h2, h3⟩ := hshare hd2 hv₂ hx htr r₁ hr₁ v₁ w₁ hv₁ ho₁ heq hne
        rw [h1] at h2 h3
        exact ⟨h1, by rw [h1]; exact h3, h2⟩
    · rcases hpte r₂ hr₂ v₂ w₂ hw₂ with ho₂ | ⟨-, he₂, -, -⟩
      · simp only [Prod.mk.injEq] at he₁
        obtain ⟨rfl, rfl⟩ := he₁
        rw [hx₁] at heq htr
        obtain ⟨h1, h2, h3⟩ := hshare hd2 hv₁ hx htr r₂ hr₂ v₂ w₂ hv₂ ho₂ heq.symm
          (fun he => hne he.symm)
        rw [h1] at h2 h3
        exact ⟨h1.symm, h2, by rw [h1]; exact h3⟩
      · exact absurd (he₁.trans he₂.symm) hne

theorem MemInv.keepsKern_setEntry (h : MemInv P m K T R) (hr : r ∈ R) (hd : d < 3)
    (ht : m.node r d n = some t) (i x : Nat) : KeepsKern K m (m.setEntry t i x) := by
  intro a ha
  refine Kmem.setEntry_mem_other m t i x ?_
  rintro rfl
  have := (h.table_refs ⟨r, hr, d, n, hd, ht⟩).2.1
  omega

/-! ### Tables -/

omit [Image] in
theorem child_zero : child 0 = none := rfl

/-- **A table page is linked in**: it belonged to the kernel and has no valid entry. -/
theorem MemInv.installTable {p : Nat} (h : MemInv P m (K + one p) T R) (hr : r ∈ R) (hd : d < 2)
    (ht : m.node r d n = some t) (hi : i < 512) (hnone : pteV (m.mem t i) = false)
    (hemp : m.Empty p) :
    m.Ends d t i (mkPte p 0) ∧ MemInv P (m.setEntry t i (mkPte p 0)) K T R := by
  have hKp : 0 < (K + one p) p := by
    show 0 < K p + one p p
    rw [one_self]
    omega
  have hchild : child (mkPte p 0) = some p :=
    child_eq_some.2 ⟨pteV_mkPte p 0,
      pte2pa_mkPte (aligned_of_managed (h.kern_refs hKp).1) (by norm_num)⟩
  have hends : m.Ends d t i (mkPte p 0) := by
    refine ⟨fun _ q hq => ?_, fun _ q hq => ?_⟩
    · rw [child_eq_none.2 hnone] at hq
      cases hq
    · rw [hchild] at hq
      cases hq
      refine ⟨?_, hemp⟩
      rintro rfl
      have := (h.table_refs ⟨r, hr, d, n, by omega, ht⟩).2.1
      omega
  refine ⟨hends, h.setEntry hr (by omega) ht hi hends (fun a => ?_) (fun a ha => ?_) (fun a ha => ?_)
    (fun _ q hq => ?_) (fun _ _ => ?_) (fun h2 => by omega) (fun h2 => by omega)
    (fun h2 => by omega)⟩
  · have hnew : newRef d (n * 512 + i) (mkPte p 0) = some p := by
      unfold newRef
      rw [if_neg (by omega), hchild]
    have hold : m.ref (r, d + 1, n * 512 + i) = none := by
      rw [Kmem.ref_table (by omega)]
      exact (node_link ht hi).trans (child_eq_none.2 hnone)
    rw [hnew, hold, holds_none]
    show K a + T a + one p a = K a + one p a + T a + 0
    omega
  · exact .inl (Nat.lt_of_lt_of_le ha (Nat.le_add_right _ _))
  · exact h.managed a (by omega)
  · rw [hchild] at hq
    cases hq
    exact hKp
  · rw [pteRWX_mkPte]
    rfl

/-! ### Leaves -/

omit [Image] in
theorem Kmem.ref_of_pte {v : Nat} (hv : v ≠ tfPage) : m.ref (r, 2 + 1, v) = (m.pte r v).map pte2pa := by
  rw [Kmem.ref_leaf hv, Kmem.node_three]

omit [Image] in
theorem newRef_leaf {v x : Nat} (hv : v ≠ tfPage) : newRef 2 v x = child x :=
  if_neg fun h => hv h.2

/-- **A leaf is written** where there was none: the frame comes from an operation under
way. -/
theorem MemInv.mapLeaf {a : Nat} (h : MemInv P m K (T + one a) R) (hr : r ∈ R)
    (ht : m.node r 2 n = some t) (hi : i < 512) (hv : n * 512 + i ≠ tfPage)
    (hnone : m.pte r (n * 512 + i) = none) (hx : pteV x = true) (ha : pte2pa x = a)
    (hok : P.ok r (n * 512 + i) x (m.mem a))
    (hshare : a ≠ Image.trampoline → ∀ r' ∈ R, ∀ v w, v ≠ tfPage → m.pte r' v = some w →
      pte2pa w = a → v = n * 512 + i ∧ P.share r v ∧ P.share r' v) :
    MemInv P (m.setEntry t i x) K T R := by
  refine h.setEntry hr (by omega) ht hi (m.ends_leaf t i x) (fun b => ?_) (fun b hb => .inl hb)
    (fun b hb => ?_) (fun h2 => by omega) (fun h2 => by omega) (fun _ _ _ => ?_)
    (fun _ h2 => absurd h2 hv) (fun _ _ _ htr r' hr' v w hv' hw heq _ => ?_)
  · rw [newRef_leaf hv, Kmem.ref_of_pte hv, hnone, child_eq_some.2 ⟨hx, ha⟩]
    show K b + T b + one a b = K b + (T b + one a b) + 0
    omega
  · refine h.managed b ?_
    show 0 < T b + one a b + m.refs R b
    omega
  · rw [ha]
    exact hok
  · rw [ha] at htr heq
    exact hshare htr r' hr' v w hv' hw heq

theorem MemInv.mapFresh {a : Nat} (h : MemInv P m (K + one a) T R) (hr : r ∈ R)
    (ht : m.node r 2 n = some t) (hi : i < 512) (hv : n * 512 + i ≠ tfPage)
    (hnone : m.pte r (n * 512 + i) = none) (hx : pteV x = true) (ha : pte2pa x = a)
    (hok : P.ok r (n * 512 + i) x (m.mem a)) : MemInv P (m.setEntry t i x) K T R := by
  refine h.handOver.mapLeaf hr ht hi hv hnone hx ha hok ?_
  rintro - r' hr' v w hv' hw rfl
  have hrefs := (h.kern_refs (a := pte2pa w) (by
    show 0 < K (pte2pa w) + one (pte2pa w) (pte2pa w)
    rw [one_self]
    omega)).2.2.2
  exact (Kmem.not_leaf hr' hv' hw hrefs).elim

/-! ### Roots -/

/-- The references from one page table. -/
def Kmem.rootRefs (m : Kmem) (r a : Nat) : Nat :=
  ∑ y ∈ range 4 ×ˢ range POSITIONS, holds (m.ref (r, y)) a

omit [Image] in
theorem Kmem.refs_eq_sum (m : Kmem) (R : Finset Nat) (a : Nat) :
    m.refs R a = ∑ r ∈ R, m.rootRefs r a := by
  unfold Kmem.refs count slots Kmem.rootRefs
  rw [sum_product]

omit [Image] in
theorem Kmem.rootRefs_eq (m : Kmem) (r a : Nat) :
    m.rootRefs r a = treeCount 512 m.links 2 r a +
      ∑ v ∈ range POSITIONS, holds (m.ref (r, 3, v)) a := by
  have htables : ∑ k ∈ range 3, ∑ n ∈ range POSITIONS, holds (m.ref (r, k, n)) a =
      treeCount 512 m.links 2 r a := by
    rw [← sum_node_eq_treeCount]
    refine sum_congr rfl fun k hk => ?_
    rw [mem_range] at hk
    have hle : 512 ^ k ≤ POSITIONS := by
      have h2 : 512 ^ k ≤ 512 ^ 2 := Nat.pow_le_pow_right (by norm_num) (by omega)
      have h3 : (512 : ℕ) ^ 2 ≤ POSITIONS := by
        show (512 : ℕ) ^ 2 ≤ 2 ^ 27
        norm_num
      omega
    rw [← sum_node_range m.links r a (by norm_num) hle]
    refine sum_congr rfl fun n _ => ?_
    rw [Kmem.ref_table (by omega)]
    rfl
  unfold Kmem.rootRefs
  rw [sum_product, sum_range_succ, htables]

omit [Image] in
theorem Kmem.rootRefs_noLeaf {a : Nat} (h : ∀ v, m.pte r v = none) :
    m.rootRefs r a = treeCount 512 m.links 2 r a := by
  rw [Kmem.rootRefs_eq]
  have hzero : ∑ v ∈ range POSITIONS, holds (m.ref (r, 3, v)) a = 0 := by
    refine sum_eq_zero fun v _ => ?_
    by_cases hv : v = tfPage
    · rw [hv]
      rfl
    · rw [Kmem.ref_leaf hv, Kmem.node_three, h v]
      rfl
  rw [hzero, Nat.add_zero]

omit [Image] in
theorem Kmem.Empty.node_succ {d' : Nat} (h : m.Empty r) (n' : Nat) : m.node r (d' + 1) n' = none := by
  induction d' generalizing n' with
  | zero =>
    show Lib.node 512 m.links r 1 n' = none
    rw [Lib.node_succ]
    cases hr : Lib.node 512 m.links r 0 (n' / 512) with
    | none => rfl
    | some q =>
      unfold Lib.node at hr
      split at hr
      · cases hr
        exact child_eq_none.2 (h _ (Nat.mod_lt _ (by norm_num)))
      · cases hr
  | succ d' ih =>
    show Lib.node 512 m.links r (d' + 1 + 1) n' = none
    rw [Lib.node_succ]
    have := ih (n' / 512)
    unfold Kmem.node at this
    rw [this]
    rfl

omit [Image] in
theorem Kmem.Empty.pte (h : m.Empty r) (v : Nat) : m.pte r v = none := by
  unfold Kmem.pte
  rw [h.node_succ]
  rfl

omit [Image] in
theorem Kmem.Empty.rootRefs (h : m.Empty r) (a : Nat) : m.rootRefs r a = one r a := by
  rw [Kmem.rootRefs_noLeaf h.pte, treeCount]
  have hzero : ∑ j ∈ range 512, (m.links r j).elim 0 (fun q => treeCount 512 m.links 1 q a) = 0 := by
    refine sum_eq_zero fun j hj => ?_
    have : m.links r j = none := child_eq_none.2 (h j (mem_range.1 hj))
    rw [this]
    rfl
  rw [hzero]
  rfl

/-- **A page table is born** from a page of the kernel's own without valid entries. -/
theorem MemInv.newRoot (h : MemInv P m (K + one r) T R) (hemp : m.Empty r) :
    r ∉ R ∧ MemInv P m K T (insert r R) := by
  have hKr : 0 < (K + one r) r := by
    show 0 < K r + one r r
    rw [one_self]
    omega
  obtain ⟨hb, -, -, hrefs0⟩ := h.kern_refs hKr
  have hrR : r ∉ R := fun hr => Kmem.not_isTable hrefs0 (Kmem.isTable_root hr)
  have hrefs : ∀ a, m.refs (insert r R) a = one r a + m.refs R a := by
    intro a
    rw [Kmem.refs_eq_sum, sum_insert hrR, hemp.rootRefs, Kmem.refs_eq_sum]
  have htot : ∀ a, K a + T a + m.refs (insert r R) a = (K + one r) a + T a + m.refs R a := by
    intro a
    rw [hrefs]
    show K a + T a + (one r a + m.refs R a) = K a + one r a + T a + m.refs R a
    omega
  have hleafless : ∀ r' ∈ insert r R, ∀ v w, m.pte r' v = some w → r' ∈ R := by
    intro r' hr' v w hw
    rcases mem_insert.1 hr' with rfl | hr'
    · rw [hemp.pte] at hw
      cases hw
    · exact hr'
  have htab : ∀ a, m.IsTable (insert r R) a → a = r ∨ m.IsTable R a := by
    rintro a ⟨r', hr', k, n', hk, ha⟩
    rcases mem_insert.1 hr' with rfl | hr'
    · cases k with
      | zero =>
        unfold Kmem.node Lib.node at ha
        split at ha
        · exact .inl (Option.some.inj ha).symm
        · cases ha
      | succ k =>
        rw [hemp.node_succ] at ha
        cases ha
    · exact .inr ⟨r', hr', k, n', hk, ha⟩
  refine ⟨hrR, h.free, fun a ha => ?_, fun a ha => ?_, fun a ha => ?_, ?_, ?_, ?_, ?_⟩
  · rw [htot]
    exact h.refcnt a ha
  · rw [htot]
    refine h.excl a ?_
    rcases ha with ha | ha
    · exact .inl (Nat.lt_of_lt_of_le ha (Nat.le_add_right _ _))
    · rcases htab a ha with rfl | ha
      · exact .inl hKr
      · exact .inr ha
  · by_cases har : r = a
    · subst har
      exact .inl hb
    · refine h.managed a ?_
      rw [hrefs, one_of_ne har] at ha
      omega
  · intro r' hr' d' n' t' j hd' ht' hj hv
    rcases mem_insert.1 hr' with rfl | hr'
    · cases d' with
      | zero =>
        unfold Kmem.node Lib.node at ht'
        split at ht'
        · cases ht'
          rw [hemp j hj] at hv
          cases hv
        · cases ht'
      | succ d' =>
        rw [hemp.node_succ] at ht'
        cases ht'
    · exact h.ptr r' hr' d' n' t' j hd' ht' hj hv
  · intro r' hr' v w hv hw
    exact h.leaf r' (hleafless r' hr' v w hw) v w hv hw
  · intro r' hr' w hw
    exact h.tf r' (hleafless r' hr' _ w hw) w hw
  · intro r₁ hr₁ r₂ hr₂ v₁ v₂ w₁ w₂ hv₁ hv₂ hw₁ hw₂
    exact h.share r₁ (hleafless r₁ hr₁ v₁ w₁ hw₁) r₂ (hleafless r₂ hr₂ v₂ w₂ hw₂) v₁ v₂ w₁ w₂ hv₁ hv₂
      hw₁ hw₂

end

end Xv6
