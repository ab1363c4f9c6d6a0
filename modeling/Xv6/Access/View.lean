import Xv6.Access.Fault

/-!
# What a process sees

`Space` is a state of a process: memory is consistent, the user pages of the page tables are readable
and lie in memory that `kalloc` manages, nothing is mapped at or above `MAXVA`, and the areas of the
process lie in `[MMAPBASE, TRAPFRAME)`.

The memory that the process sees, `Vm.viewByte`, has the pages that are not loaded yet in it, with the
contents that a fault would load.  So a fault changes nothing in the view, whether it is resolved or
not: `Space.vmfault`.
-/

namespace Xv6

open Xv6.Lib

section

variable [Image]

/-! ### Contents across a fault -/

/-- `P`, and every frame has the contents it has in `m`; the frame of a new leaf contains `g`. -/
def Policy.keeping (P : Policy) (m : Kmem) (g : Page) : Policy where
  ok r n w h := P.ok r n w h ∧ h = if m.pte r n = none then g else m.mem (pte2pa w)
  share := P.share

variable {P : Policy} {m m' : Kmem} {K T : Nat → Nat} {R : Finset Nat} {r n w : Nat} {g : Page}
  {E : Panic → Prop}

omit [Image] in
theorem Policy.keeping_ok (h : P.ok r n w g) (hn : m.pte r n = none) : (P.keeping m g).ok r n w g :=
  ⟨h, by rw [if_pos hn]⟩

theorem MemInv.keeping (h : MemInv P m K T R) (g : Page) : MemInv (P.keeping m g) m K T R := by
  refine h.policy (fun r hr n w hn hw hok => ⟨hok, ?_⟩) fun _ _ _ _ _ _ hs => hs
  rw [if_neg (by rw [hw]; exact Option.some_ne_none w)]

theorem MemInv.of_keeping {m₀ : Kmem} (h : MemInv (P.keeping m₀ g) m K T R) : MemInv P m K T R :=
  h.policy (fun _ _ _ _ _ _ hok => hok.1) fun _ _ _ _ _ _ hs => hs

/-- No page is mapped or unmapped, and the mapped pages have the contents they had. -/
structure Kept (P : Policy) (K T : Nat → Nat) (R : Finset Nat) (m m' : Kmem) : Prop
    extends Same P K T R m m' where
  mem : ∀ r ∈ R, ∀ n w, n ≠ tfPage → m.pte r n = some w → m'.mem (pte2pa w) = m.mem (pte2pa w)

/-- A page is mapped that was not, its frame contains `g`, and the other pages are as they were. -/
structure Loaded (P : Policy) (K T : Nat → Nat) (R : Finset Nat) (m m' : Kmem) (r n w : Nat) (g : Page) :
    Prop extends Added P K T R m m' r n w where
  fresh : m.pte r n = none
  mem : ∀ r ∈ R, ∀ n w, n ≠ tfPage → m.pte r n = some w → m'.mem (pte2pa w) = m.mem (pte2pa w)
  page : m'.mem (pte2pa w) = g

theorem Same.kept (h : Same (P.keeping m g) K T R m m') : Kept P K T R m m' := by
  refine ⟨⟨h.inv.of_keeping, h.pte⟩, fun r hr n w hn hw => ?_⟩
  have hw' : m'.pte r n = some w := by rw [h.pte r hr, hw]
  rw [(h.inv.leaf r hr n w hn hw').2, if_neg (by rw [hw]; exact Option.some_ne_none w)]

theorem Added.loaded (h : Added (P.keeping m g) K T R m m' r n w) (hr : r ∈ R) (hn : n ≠ tfPage)
    (hfresh : m.pte r n = none) : Loaded P K T R m m' r n w g := by
  refine ⟨⟨h.inv.of_keeping, h.pte⟩, hfresh, fun r' hr' n' w' hn' hw' => ?_, ?_⟩
  · have hne : (r', n') ≠ (r, n) := by
      intro he
      cases he
      rw [hfresh] at hw'
      cases hw'
    have hw'' : m'.pte r' n' = some w' := by rw [h.pte r' hr', if_neg hne, hw']
    rw [(h.inv.leaf r' hr' n' w' hn' hw'').2, if_neg (by rw [hw']; exact Option.some_ne_none w')]
  · have hw : m'.pte r n = some w := by rw [h.pte r hr, if_pos rfl]
    rw [(h.inv.leaf r hr n w hn hw).2, if_pos hfresh]

/-! ### The state of a process -/

/-- The user pages are readable and in managed memory, and all pages lie below `MAXVA`. -/
def userPolicy : Policy where
  ok _ n w _ := n < 2 ^ 26 ∧ (pteU w = true → pteR w = true ∧ badPage (pte2pa w) = false)
  share _ _ := True

/-- **A state of the process `p`** with the page table `r`. -/
structure Space (K T : Nat → Nat) (R : Finset Nat) (v : Vm) (p : Fin NPROC) (r : Nat) : Prop where
  inv : MemInv userPolicy v.kmem K T R
  root : r ∈ R
  areas : v.AreasIn p

variable {v : Vm} {p : Fin NPROC} {sz va : Nat}

theorem Space.user (h : Space K T R v p r) (hw : v.kmem.pte r n = some w) (hu : pteU w = true) :
    n ≠ tfPage ∧ n < 2 ^ 26 ∧ pteR w = true ∧ badPage (pte2pa w) = false := by
  have hn : n ≠ tfPage := by
    intro he
    subst he
    rw [h.inv.tf r h.root w hw] at hu
    cases hu
  obtain ⟨hlt, hok⟩ := h.inv.leaf r h.root n w hn hw
  exact ⟨hn, hlt, hok hu⟩

theorem Space.high (h : Space K T R v p r) (hn : 2 ^ 26 ≤ n) : v.kmem.pte r n = none := by
  cases hw : v.kmem.pte r n with
  | none => rfl
  | some w =>
    have hne : n ≠ tfPage := by
      have : tfPage < 2 ^ 26 := by decide
      omega
    have := (h.inv.leaf r h.root n w hne hw).1
    omega

/-- What `vmfault` leaves of memory. -/
def Faulted (K T : Nat → Nat) (R : Finset Nat) (v : Vm) (p : Fin NPROC) (sz r va : Nat) (read b : Bool)
    (v' : Vm) : Prop :=
  ∃ m', v' = v.setKmem m' ∧
    (b = false → Kept userPolicy K T R v.kmem m') ∧
    (b = true → ∃ a g perm, badPage a = false ∧ v.faultPage p sz (pgrounddown va) read = some (g, perm) ∧
      Loaded userPolicy K T R v.kmem m' r (pageOf va) (mkPte a perm) g)

omit [Image] in
theorem pageOf_ne_tf (hlt : pgrounddown va < TRAPFRAME) : pageOf va ≠ tfPage := by
  have hlt' : va / 4096 * 4096 < 274877898752 := hlt
  show va / 4096 ≠ 67108862
  omega

omit [Image] in
theorem pageOf_lt_tf (hlt : pgrounddown va < TRAPFRAME) : pageOf va < 2 ^ 26 := by
  have hlt' : va / 4096 * 4096 < 274877898752 := hlt
  show va / 4096 < 67108864
  omega

/-- The policy with which a fault is looked at: the new frame contains the page that is loaded. -/
def faultPolicy (m : Kmem) (x : Option (Page × Nat)) : Policy :=
  userPolicy.keeping m ((x.map Prod.fst).getD (fillPage 0))

theorem Space.faultPolicy_ok (h : Space K T R v p r) {read : Bool} {a perm : Nat} {x : Option (Page × Nat)}
    (hx : v.faultPage p sz (pgrounddown va) read = x) (hb : badPage a = false)
    (hnone : v.kmem.pte r (pageOf va) = none) (hg : x = some (g, perm)) :
    (faultPolicy v.kmem x).ok r (pageOf va) (mkPte a perm) g := by
  subst hg
  obtain ⟨hperm, hu, hread, -⟩ := Vm.faultPage_perm hx
  refine Policy.keeping_ok ⟨pageOf_lt_tf (h.areas.fault_lt hx), fun _ => ⟨?_, ?_⟩⟩ hnone
  · rw [pteR_mkPte, hread]
  · rw [pte2pa_mkPte (aligned_of_managed hb) hperm]
    exact hb

theorem Space.faulted (h : Space K T R v p r) {read b : Bool} {x : Option (Page × Nat)}
    (hx : v.faultPage p sz (pgrounddown va) read = x) {v' : Vm}
    (hpost : FaultPost (faultPolicy v.kmem x) K T R v r (pageOf va) x b v') :
    Faulted K T R v p sz r va read b v' := by
  obtain ⟨m', rfl, -, hfalse, htrue, -⟩ := hpost
  refine ⟨m', rfl, fun hb => (hfalse hb).kept, fun hb => ?_⟩
  obtain ⟨a, g, perm, hbad, rfl, hfresh, hadd⟩ := htrue hb
  exact ⟨a, g, perm, hbad, hx, hadd.loaded h.root (pageOf_ne_tf (h.areas.fault_lt hx)) hfresh⟩

theorem FaultPost.branched {b : Bool} {x : Option (Page × Nat)} {v' : Vm}
    (h : FaultPost P K T R v r n x b v') : Branched R r (· = n) v.kmem v'.kmem := by
  obtain ⟨m', rfl, hbranch, -⟩ := h
  exact hbranch

theorem FaultPost.spent {b : Bool} {x : Option (Page × Nat)} {v' : Vm}
    (h : FaultPost P K T R v r n x b v') : Spent v r n x b v' := by
  obtain ⟨m', rfl, -, -, -, hspent⟩ := h
  exact hspent

/-- **`vmfault`** in a state of a process, the tables that it adds and the memory that it takes. -/
theorem Space.wp_vmfault_tables (h : Space K T R v p r) (sz va : Nat) (read : Bool) :
    wp (vmfault p sz r va read) v (fun b v' => Faulted K T R v p sz r va read b v' ∧
      Branched R r (· = pageOf va) v.kmem v'.kmem ∧
      Spent v r (pageOf va) (v.faultPage p sz (pgrounddown va) read) b v') E := by
  refine wp_conseq (wp_vmfault_policy (h.inv.keeping _) h.root h.areas fun a g perm hb hnone hg =>
    h.faultPolicy_ok rfl hb hnone hg) fun b v' hpost =>
      ⟨h.faulted rfl hpost, hpost.branched, hpost.spent⟩

/-- **`vmfault`** in a state of a process. -/
theorem Space.wp_vmfault (h : Space K T R v p r) (sz va : Nat) (read : Bool) :
    wp (vmfault p sz r va read) v (Faulted K T R v p sz r va read) E :=
  wp_conseq (h.wp_vmfault_tables sz va read) fun _ _ hpost => hpost.1

/-- **`mmap_map_page`** of the area that `mmap_lookup` finds. -/
theorem Space.wp_mmapMapPage (h : Space K T R v p r) (sz : Nat) {b : MmapArea} (hva : va % PGSIZE = 0)
    (hb : v.areaAt p va = some b) :
    wp (mmapMapPage b r va) v (fun ok v' => ok = false ∨ Faulted K T R v p sz r va true true v' ∧
      Branched R r (· = pageOf va) v.kmem v'.kmem) E := by
  obtain ⟨-, -, -, hc⟩ := Vm.areaAt_some hb
  have hlt := (h.areas.lt hb).2
  cases hw : v.kmem.pte r (pageOf va) with
  | some w =>
    -- a page that is there is refused
    unfold mmapMapPage
    simp only [pgrounddown_of_mod hva, hc, Bool.not_true, Bool.false_eq_true, if_false]
    rw [wp_bind, wp_onKmem]
    refine wp_ismapped (Nat.lt_trans hlt (by decide)) ?_
    rw [hw, Option.isSome_some, if_pos rfl]
    exact wp_pure.2 (.inl rfl)
  | none =>
    have hx : v.faultPage p sz (pgrounddown va) true =
        (v.fillOf b va).map fun g => (g, mmapPtePerm b.prot) := by
      unfold Vm.faultPage
      rw [pgrounddown_of_mod hva, hb]
      rfl
    refine wp_conseq (Xv6.wp_mmapMapPage (h.inv.keeping _) h.root hva hc hlt hw fun a g hbad hg =>
      h.faultPolicy_ok hx hbad hw (by rw [hg]; rfl)) fun ok v' hpost => ?_
    cases ok with
    | false => exact .inl rfl
    | true => exact .inr ⟨h.faulted hx hpost, hpost.branched⟩

theorem Faulted.space {read b : Bool} {v' : Vm} (hf : Faulted K T R v p sz r va read b v')
    (h : Space K T R v p r) : Space K T R v' p r := by
  obtain ⟨m', rfl, hfalse, htrue⟩ := hf
  cases b with
  | false => exact ⟨(hfalse rfl).inv, h.root, h.areas⟩
  | true =>
    obtain ⟨_, _, _, _, _, hload⟩ := htrue rfl
    exact ⟨hload.inv, h.root, h.areas⟩

end

/-! ### The view -/

/-- Page `n` as the process sees it. -/
def Vm.viewPage (v : Vm) (p : Fin NPROC) (sz r n : Nat) : Option Page :=
  match v.kmem.pte r n with
  | some w => if pteU w then some (v.kmem.mem (pte2pa w)) else none
  | none => (v.faultPage p sz (n * PGSIZE) true).map Prod.fst

/-- The byte at `va` as the process sees it. -/
def Vm.viewByte (v : Vm) (p : Fin NPROC) (sz r va : Nat) : Option UInt8 :=
  (v.viewPage p sz r (pageOf va)).map fun g => byteAt g (va % PGSIZE)

theorem Vm.viewPage_some {v : Vm} {p : Fin NPROC} {sz r n w : Nat} (h : v.kmem.pte r n = some w) :
    v.viewPage p sz r n = if pteU w then some (v.kmem.mem (pte2pa w)) else none := by
  unfold Vm.viewPage
  rw [h]

theorem Vm.viewPage_none {v : Vm} {p : Fin NPROC} {sz r n : Nat} (h : v.kmem.pte r n = none) :
    v.viewPage p sz r n = (v.faultPage p sz (n * PGSIZE) true).map Prod.fst := by
  unfold Vm.viewPage
  rw [h]

/-- A page that the process sees and that is not there is one that `vmfault` loads. -/
theorem Vm.faultPage_of_view {v : Vm} {p : Fin NPROC} {sz r va : Nat}
    (hw : v.kmem.pte r (pageOf va) = none) (hv : (v.viewPage p sz r (pageOf va)).isSome = true) :
    v.faultPage p sz (pgrounddown va) true ≠ none := by
  rw [Vm.viewPage_none hw, Option.isSome_map] at hv
  exact Option.isSome_iff_ne_none.1 hv

theorem Vm.faultPage_read {v : Vm} {p : Fin NPROC} {sz va : Nat} {read : Bool} {x : Page × Nat}
    (h : v.faultPage p sz va read = some x) : v.faultPage p sz va true = some x := by
  unfold Vm.faultPage at h ⊢
  cases ha : v.areaAt p va with
  | none =>
    rw [ha] at h
    exact h
  | some a =>
    rw [ha] at h
    dsimp only at h ⊢
    split at h
    · cases h
    · exact h

section

variable [Image] {K T : Nat → Nat} {R : Finset Nat} {v v' : Vm} {m' : Kmem} {p : Fin NPROC}
  {sz r va : Nat}

omit [Image] in
theorem pageOf_mul_pgsize (va : Nat) : pageOf va * PGSIZE = pgrounddown va := rfl

omit [Image] in
theorem viewPage_congr {n : Nat} (hpte : (v.setKmem m').kmem.pte r n = v.kmem.pte r n)
    (hmem : ∀ w, v.kmem.pte r n = some w → pteU w = true →
      m'.mem (pte2pa w) = v.kmem.mem (pte2pa w)) :
    (v.setKmem m').viewPage p sz r n = v.viewPage p sz r n := by
  cases hw : v.kmem.pte r n with
  | none =>
    rw [Vm.viewPage_none hw, Vm.viewPage_none (hpte.trans hw)]
    rfl
  | some w =>
    rw [Vm.viewPage_some hw, Vm.viewPage_some (hpte.trans hw)]
    cases hu : pteU w with
    | false => rfl
    | true =>
      rw [if_pos rfl, if_pos rfl]
      exact congrArg some (hmem w hw hu)

theorem Kept.view (hk : Kept userPolicy K T R v.kmem m') (h : Space K T R v p r) (n : Nat) :
    (v.setKmem m').viewPage p sz r n = v.viewPage p sz r n :=
  viewPage_congr (hk.pte r h.root n) fun w hw hu => hk.mem r h.root n w (h.user hw hu).1 hw

/-- **A fault changes nothing in the view.** -/
theorem Faulted.view {read b : Bool} (hf : Faulted K T R v p sz r va read b v')
    (h : Space K T R v p r) (n : Nat) : v'.viewPage p sz r n = v.viewPage p sz r n := by
  obtain ⟨m', rfl, hfalse, htrue⟩ := hf
  cases b with
  | false => exact (hfalse rfl).view h n
  | true =>
    obtain ⟨a, g, perm, hb, hg, hload⟩ := htrue rfl
    have hpte : (v.setKmem m').kmem.pte r n =
        if (r, n) = (r, pageOf va) then some (mkPte a perm) else v.kmem.pte r n := hload.pte r h.root n
    by_cases hn : n = pageOf va
    · subst hn
      rw [if_pos rfl] at hpte
      obtain ⟨hperm, hu, -, -⟩ := Vm.faultPage_perm hg
      have hgr := Vm.faultPage_read hg
      rw [Vm.viewPage_some hpte, Vm.viewPage_none hload.fresh, pageOf_mul_pgsize, hgr, pteU_mkPte, hu,
        if_pos rfl]
      exact congrArg some hload.page
    · rw [if_neg (by simpa using hn)] at hpte
      exact viewPage_congr hpte fun w hw hu => hload.mem r h.root n w (h.user hw hu).1 hw

end

/-! ### A small state -/

/-- An image that leaves five page frames to the allocator. -/
@[reducible] def fivePages : Image where
  kend := PHYSTOP - 5 * PGSIZE
  trampoline := KERNBASE + PGSIZE
  base_le := by decide
  aligned := by decide
  trampoline_lt := by decide
  kend_le := by decide

/-- The first of the five frames is a page table without entries, and the others are free. -/
def fiveKmem : Kmem where
  mem := fun a _ => if a ≤ PHYSTOP - 5 * PGSIZE ∨ PHYSTOP - PGSIZE ≤ a then 0 else a + PGSIZE
  refcnt := fun i => if i = refindex (PHYSTOP - 5 * PGSIZE) then 1 else 0
  freelist := PHYSTOP - 4 * PGSIZE

/-- The page table of `fiveKmem`. -/
def fiveRoot : Nat := PHYSTOP - 5 * PGSIZE

theorem badPage_five {a : Nat} (h : @badPage fivePages a = false) :
    a ∈ [2281680896, 2281684992, 2281689088, 2281693184, 2281697280] := by
  unfold badPage at h
  simp only [Bool.or_eq_false_iff, bne_eq_false_iff_eq, decide_eq_false_iff_not] at h
  obtain ⟨⟨h1, h2⟩, h3⟩ := h
  have h1' : a % 4096 = 0 := h1
  have h2' : ¬ a < 2281680896 := h2
  have h3' : ¬ 2281701376 ≤ a := h3
  simp only [List.mem_cons, List.not_mem_nil, or_false]
  omega

theorem freeList_five :
    FreeList fiveKmem.mem fiveKmem.freelist [2281684992, 2281689088, 2281693184, 2281697280] :=
  ⟨by decide, by decide, by decide, by decide, by decide, by decide, by decide, by decide, rfl⟩

theorem memInv_five : @MemInv fivePages (@userPolicy fivePages) fiveKmem (0 + one fiveRoot) 0 ∅ := by
  have hrefs : ∀ a, fiveKmem.refs ∅ a = 0 := fun a => rfl
  have htab : ∀ a, ¬ fiveKmem.IsTable ∅ a := fun a ⟨r, hr, _⟩ => by simp at hr
  have hK : ∀ a, (0 + one fiveRoot) a + 0 + 0 = if a = fiveRoot then 1 else 0 := by
    intro a
    show 0 + one fiveRoot a + 0 + 0 = _
    split
    · rename_i ha
      rw [ha, one_self]
    · rename_i ha
      rw [one_of_ne (Ne.symm ha)]
  refine @MemInv.mk fivePages _ _ _ _ _ ⟨[2281684992, 2281689088, 2281693184, 2281697280], freeList_five,
    by decide, fun a => ⟨fun ha => ?_, fun ha => ?_⟩⟩ (fun a ha => ?_) (fun a ha => ?_) (fun a ha => ?_)
    (fun r hr => ?_) (fun r hr => ?_) (fun r hr => ?_) fun r hr => ?_
  · simp only [List.mem_cons, List.not_mem_nil, or_false] at ha
    rcases ha with rfl | rfl | rfl | rfl <;> decide
  · have hmem := badPage_five ha.1
    simp only [List.mem_cons, List.not_mem_nil, or_false] at hmem
    rcases hmem with rfl | rfl | rfl | rfl | rfl
    · exact absurd ha.2 (by decide)
    all_goals decide
  · have hmem := badPage_five ha
    rw [hrefs]
    show _ = (0 + one fiveRoot) a + 0 + 0
    rw [hK]
    simp only [List.mem_cons, List.not_mem_nil, or_false] at hmem
    rcases hmem with rfl | rfl | rfl | rfl | rfl <;> decide
  · rcases ha with ha | ha
    · have hroot : a = fiveRoot := by
        by_contra hne
        have := hK a
        rw [if_neg hne] at this
        omega
      rw [hrefs]
      show _ ∧ (0 + one fiveRoot) a + 0 + 0 = 1
      rw [hK, if_pos hroot, hroot]
      exact ⟨by decide, rfl⟩
    · exact absurd ha (htab a)
  · rw [hrefs] at ha
    exact absurd ha (Nat.lt_irrefl 0)
  all_goals simp at hr

/-- A process with the page table of `fiveKmem` and no areas. -/
def fiveVm : Vm where
  kmem := fiveKmem
  area := fun _ => {}
  file := fun _ => {}
  pipe := fun _ => {}
  inode := fun _ => ⟨0, fun _ => 0⟩

theorem empty_five : fiveKmem.Empty fiveRoot := by
  intro j _
  have hzero : fiveKmem.mem fiveRoot j = fiveKmem.mem fiveRoot 0 := rfl
  rw [hzero]
  decide

theorem space_five (p : Fin NPROC) : @Space fivePages 0 0 {fiveRoot} fiveVm p fiveRoot := by
  obtain ⟨-, hinv⟩ := @MemInv.newRoot fivePages _ _ _ _ _ _ memInv_five empty_five
  refine @Space.mk fivePages _ _ _ _ _ _ hinv (by simp) fun i hi => ?_
  cases hi

end Xv6
