import Xv6.Access.View
import Xv6.Lib.Run
import Xv6.Mem.Tree

/-!
# Page tables are finite maps

A page table from `uvmcreate` on, under any calls of `mappages`, `uvmunmap` and
`free_empty_mmap_pagetables`, while the rest of the kernel allocates and frees other pages.  It stays a
tree (`TreeInv`), and read as a map from pages to frames and flags it changes as the calls say.
-/

namespace Xv6

open Xv6.Lib Finset

/-! ### The map -/

theorem pteFlags_mkPte (pa : Nat) {perm : Nat} (h : perm < 1024) : pteFlags (mkPte pa perm) = perm ||| PTE_V := by
  have hlt : perm ||| PTE_V < 2 ^ 10 := Nat.or_lt_two_pow h (by decide)
  unfold pteFlags
  refine Nat.eq_of_testBit_eq fun b => ?_
  rw [show 1024 = 2 ^ 10 from rfl, Nat.testBit_mod_two_pow]
  by_cases hb : b < 10
  · have hv : (PTE_V).testBit b = decide (b = 0) := by interval_cases b <;> rfl
    rw [mkPte_testBit_low pa perm hb, Nat.testBit_or, hv, decide_eq_true hb, Bool.true_and]
  · have hle : 2 ^ 10 ≤ 2 ^ b := Nat.pow_le_pow_right (by norm_num) (by omega)
    rw [Nat.testBit_lt_two_pow (Nat.lt_of_lt_of_le hlt hle), decide_eq_false hb, Bool.false_and]

/-- The frame and the flags at an address. -/
def Kmem.translate (m : Kmem) (r va : Nat) : Option (Nat × Nat) :=
  (m.pte r (pageOf va)).map fun w => (pte2pa w, pteFlags w)

theorem aligned_range {a va N : Nat} (ha : a % PGSIZE = 0) (hva : va % PGSIZE = 0) :
    pageOf va ≤ pageOf a ∧ pageOf a < pageOf va + N ↔ va ≤ a ∧ a < va + N * PGSIZE := by
  have ha' : a % 4096 = 0 := ha
  have hva' : va % 4096 = 0 := hva
  show va / 4096 ≤ a / 4096 ∧ a / 4096 < va / 4096 + N ↔ va ≤ a ∧ a < va + N * 4096
  omega

theorem Mapped.translate {m m' : Kmem} {r va k pa perm a : Nat} (h : Mapped r (pageOf va) k pa perm m m')
    (hva : va % PGSIZE = 0) (hpa : pa % PGSIZE = 0) (hperm : perm < 1024) (ha : a % PGSIZE = 0) :
    m'.translate r a =
      if va ≤ a ∧ a < va + k * PGSIZE then some (pa + (a - va), perm ||| PTE_V) else m.translate r a := by
  unfold Kmem.translate
  rw [h (pageOf a)]
  by_cases hin : va ≤ a ∧ a < va + k * PGSIZE
  · have hoff : (pageOf a - pageOf va) * PGSIZE = a - va := by
      have ha' : a % 4096 = 0 := ha
      have hva' : va % 4096 = 0 := hva
      show (a / 4096 - va / 4096) * 4096 = a - va
      omega
    have hframe : (pa + (a - va)) % PGSIZE = 0 := by
      rw [← hoff, Nat.add_mul_mod_self_right]
      exact hpa
    rw [if_pos ((aligned_range ha hva).2 hin), if_pos hin, hoff, Option.map_some, pte2pa_mkPte hframe hperm,
      pteFlags_mkPte _ hperm]
  · rw [if_neg fun hc => hin ((aligned_range ha hva).1 hc), if_neg hin]

theorem Unmapped.translate {m m' : Kmem} {r va N a : Nat} (h : Unmapped r (pageOf va) N m m') (hva : va % PGSIZE = 0)
    (ha : a % PGSIZE = 0) :
    m'.translate r a = if va ≤ a ∧ a < va + N * PGSIZE then none else m.translate r a := by
  unfold Kmem.translate
  rw [h (pageOf a)]
  by_cases hin : va ≤ a ∧ a < va + N * PGSIZE
  · rw [if_pos ((aligned_range ha hva).2 hin), if_pos hin]
    rfl
  · rw [if_neg fun hc => hin ((aligned_range ha hva).1 hc), if_neg hin]

theorem SamePtes.translate [Image] {m m' : Kmem} {r : Nat} (h : SamePtes r m m') (a : Nat) :
    m'.translate r a = m.translate r a := by
  unfold Kmem.translate
  rw [h.2]

theorem walk_eq {m : Kmem} {r va : Nat} (hva : va < MAXVA) :
    walk r va false m = .ok ((m.node r 2 (pageOf va / 512)).map fun t => (t, pageOf va % 512), m) :=
  run_of_wp (Xv6.wp_walk hva ⟨rfl, rfl⟩)

/-! ### The operations -/

/-- What happens around a page table. -/
inductive PtOp
  | map (va size pa perm : Nat)
  | unmap (va npages : Nat) (doFree : Bool)
  | cleanup (start length : Nat)
  /-- The rest of the kernel leaves the memory `m`. -/
  | other (m : Kmem)

section

variable [Image] {m m' : Kmem} {r : Nat}

def PtOp.run (r : Nat) : PtOp → KmemM Unit
  | map va size pa perm => do
    let _ ← mappages r va size pa perm
    pure ()
  | unmap va npages doFree => uvmunmap r va npages doFree
  | cleanup start length => freeEmptyMmapPagetables r start length
  | other m => set m

/-- `uvmunmap` frees no table page as a leaf, and the rest of the kernel leaves the page table alone. -/
def PtOp.Ok (r : Nat) (m : Kmem) : PtOp → Prop
  | unmap va npages doFree =>
    FreesNoTable m r (pageOf va) (pagesTo va ((va + npages * PGSIZE) % 2 ^ 64)) doFree
  | other m' => m'.FreeOk ∧ ∀ a, m.IsTable {r} a →
      m'.mem a = m.mem a ∧ m'.refcnt (refindex a) = m.refcnt (refindex a)
  | map _ _ _ _ | cleanup _ _ => True

def ptStep (r : Nat) (m : Kmem) (op : PtOp) : Except MemPanic Kmem := (op.run r m).map Prod.snd

/-! ### The calls -/

theorem TreeInv.wp_mappages (h : TreeInv m r) (va size pa perm : Nat) :
    wp (mappages r va size pa perm) m (fun ok m' => TreeInv m' r ∧ size % PGSIZE = 0 ∧
      ∃ k, k ≤ size / PGSIZE ∧ (ok = true ↔ k = size / PGSIZE) ∧ Mapped r (pageOf va) k pa perm m m')
      (fun _ => True) := by
  unfold mappages
  split
  · exact wp_throw.2 trivial
  · split
    · exact wp_throw.2 trivial
    · rename_i hsize
      split
      · exact wp_throw.2 trivial
      · exact wp_conseq (h.wp_mappagesLoop perm va pa) fun ok m' hm => ⟨hm.1, by omega, hm.2⟩

theorem TreeInv.wp_uvmunmap (h : TreeInv m r) (va npages : Nat) (doFree : Bool)
    (hsafe : FreesNoTable m r (pageOf va) (pagesTo va ((va + npages * PGSIZE) % 2 ^ 64)) doFree) :
    wp (uvmunmap r va npages doFree) m (fun _ m' => TreeInv m' r ∧
      Unmapped r (pageOf va) (pagesTo va ((va + npages * PGSIZE) % 2 ^ 64)) m m') (fun _ => True) := by
  unfold uvmunmap
  split
  · exact wp_throw.2 trivial
  · exact h.wp_uvmunmapLoop doFree va hsafe

/-- **Every operation keeps the tree.** -/
theorem TreeInv.step (h : TreeInv m r) {op : PtOp} (hop : op.Ok r m) (hstep : ptStep r m op = .ok m') :
    TreeInv m' r := by
  have hwp : wp (op.run r) m (fun _ m' => TreeInv m' r) (fun _ => True) := by
    cases op with
    | map va size pa perm =>
      unfold PtOp.run
      exact wp_seq (h.wp_mappages va size pa perm) fun _ m₁ h₁ => wp_pure.2 h₁.1
    | unmap va npages doFree => exact wp_conseq (h.wp_uvmunmap va npages doFree hop) fun _ m₁ h₁ => h₁.1
    | cleanup start length => exact wp_conseq (h.wp_freeEmptyMmapPagetables start length) fun _ m₁ h₁ => h₁.1
    | other m₁ => exact wp_set.2 (h.frame hop.1 (fun a ha => (hop.2 a ha).1) fun a ha => (hop.2 a ha).2)
  unfold ptStep at hstep
  cases hx : op.run r m with
  | error e =>
    rw [hx] at hstep
    cases hstep
  | ok y =>
    obtain ⟨u, m₁⟩ := y
    rw [hx] at hstep
    cases hstep
    have hm₁ := wp_ok hwp hx
    exact hm₁

theorem treeInv_uvmcreate (h : m.FreeOk) (hcreate : uvmcreate m = .ok (some r, m')) : TreeInv m' r := by
  have hwp : wp uvmcreate m (fun o m' => ∀ r, o = some r → TreeInv m' r) (fun _ => True) := by
    unfold uvmcreate kalloc
    rw [wp_bind, wp_bind, wp_get]
    dsimp only
    by_cases h0 : m.freelist = 0
    · rw [if_pos h0, wp_pure]
      exact wp_pure.2 fun r hr => by cases hr
    · obtain ⟨hb, -, hfree⟩ := h.take h0
      generalize m.freelist = page at hb hfree h0 ⊢
      rw [if_neg h0, wp_bind, wp_set, wp_pure]
      dsimp only
      rw [wp_bind, wp_memsetPage, wp_pure]
      rintro r ⟨⟩
      generalize hm₁ : Kmem.setPage _ page (fillPage 0) = m₁
      have hone : m₁.refcnt (refindex page) = 1 := by
        rw [← hm₁]
        exact upd_same _ _ _
      have hemp : m₁.Empty page := by
        rw [← hm₁]
        exact Kmem.empty_setPage_zero _ page
      -- the root is the only table
      have hroot : ∀ {d n a}, m₁.node page d n = some a → d = 0 ∧ n = 0 ∧ a = page := by
        intro d n a ha
        cases d with
        | zero =>
          have ha' : (if n = 0 then some page else none) = some a := ha
          split at ha'
          · cases ha'
            exact ⟨rfl, ‹_›, rfl⟩
          · cases ha'
        | succ d =>
          rw [hemp.node_succ] at ha
          cases ha
      refine ⟨?_, fun a ha => ?_, fun r₁ r₂ d d' n n' a hr₁ hr₂ _ _ ha ha' => ?_, fun d n t i _ ht hi hv => ?_⟩
      · rw [← hm₁]
        refine hfree.setPage ?_ _
        dsimp only
        rw [upd_same]
        omega
      · obtain ⟨r', hr', d, n, -, ha⟩ := ha
        rw [mem_singleton] at hr'
        subst hr'
        rw [(hroot ha).2.2]
        exact ⟨hb, hone⟩
      · rw [mem_singleton] at hr₁ hr₂
        subst hr₁ hr₂
        obtain ⟨rfl, rfl, -⟩ := hroot ha
        obtain ⟨rfl, rfl, -⟩ := hroot ha'
        exact ⟨rfl, rfl, rfl⟩
      · rw [(hroot ht).2.2, hemp i hi] at hv
        cases hv
  exact wp_ok hwp hcreate r rfl

theorem TreeInv.walk_inj (h : TreeInv m r) {va va' : Nat} (hva : va < MAXVA) (hva' : va' < MAXVA) {x : Nat × Nat}
    (hx : walk r va false m = .ok (some x, m)) (hx' : walk r va' false m = .ok (some x, m)) :
    pageOf va = pageOf va' := by
  rw [walk_eq hva] at hx
  rw [walk_eq hva'] at hx'
  have hx₁ := (Prod.mk.inj (Except.ok.inj hx)).1
  have hx₂ := (Prod.mk.inj (Except.ok.inj hx')).1
  obtain ⟨t, ht, rfl⟩ := Option.map_eq_some_iff.1 hx₁
  obtain ⟨t', ht', heq⟩ := Option.map_eq_some_iff.1 hx₂
  obtain ⟨rfl, hmod⟩ := Prod.mk.inj heq
  have hdiv := (h.unique (mem_singleton_self r) (mem_singleton_self r) (by omega) (by omega) ht ht').2.2
  omega

/-- **Page tables are finite maps.**  For every page table from `uvmcreate` on, with operations that free
none of its table pages as a leaf: no table page is shared, `walk` finds two slots for two pages, and the
map changes under `mappages` on the range, under `uvmunmap` by deleting it, and under the cleanup or a
`mappages` of one page that fails not at all. -/
theorem page_table_map (m₀ m₁ : Kmem) (r : Nat) (hfree : m₀.FreeOk) (hcreate : uvmcreate m₀ = .ok (some r, m₁))
    (ops : List PtOp) (m : Kmem) (hrun : Run (ptStep r) (PtOp.Ok r) m₁ ops m) :
    (∀ d d' n n' a, d < 3 → d' < 3 → m.node r d n = some a → m.node r d' n' = some a → d = d' ∧ n = n') ∧
    (∀ va va' x, va < MAXVA → va' < MAXVA → walk r va false m = .ok (some x, m) →
      walk r va' false m = .ok (some x, m) → pageOf va = pageOf va') ∧
    (∀ va size pa perm m', va % PGSIZE = 0 → pa % PGSIZE = 0 → pa + size ≤ 2 ^ 64 → perm < 1024 →
      mappages r va size pa perm m = .ok (true, m') → ∀ a, a % PGSIZE = 0 → m'.translate r a =
        if va ≤ a ∧ a < va + size then some (pa + (a - va), perm ||| PTE_V) else m.translate r a) ∧
    (∀ va pa perm m', mappages r va PGSIZE pa perm m = .ok (false, m') → ∀ a, m'.translate r a = m.translate r a) ∧
    (∀ va npages doFree m', va % PGSIZE = 0 → va + npages * PGSIZE ≤ MAXVA →
      (PtOp.unmap va npages doFree).Ok r m → uvmunmap r va npages doFree m = .ok ((), m') →
      ∀ a, a % PGSIZE = 0 → m'.translate r a =
        if va ≤ a ∧ a < va + npages * PGSIZE then none else m.translate r a) ∧
    (∀ start length m', freeEmptyMmapPagetables r start length m = .ok ((), m') →
      ∀ a, m'.translate r a = m.translate r a) := by
  have h : TreeInv m r := hrun.invariant (I := fun m => TreeInv m r) (treeInv_uvmcreate hfree hcreate)
    fun _ _ _ hs hop hstep => hs.step hop hstep
  refine ⟨fun d d' n n' a hd hd' ha ha' => ?_, fun va va' x hva hva' => h.walk_inj hva hva',
    fun va size pa perm m' hva hpa _ hperm hmap a ha => ?_, fun va pa perm m' hmap a => ?_,
    fun va npages doFree m' hva hend hok hunmap a ha => ?_, fun start length m' hclean a => ?_⟩
  · exact (h.unique (mem_singleton_self r) (mem_singleton_self r) hd hd' ha ha').2
  · obtain ⟨-, hsize, k, -, hk, hmapped⟩ := wp_ok (h.wp_mappages va size pa perm) hmap
    have hk' := hk.1 rfl
    have hsize' : k * PGSIZE = size := by
      rw [hk']
      exact Nat.div_mul_cancel (Nat.dvd_of_mod_eq_zero hsize)
    rw [hmapped.translate hva hpa hperm ha, hsize']
  · obtain ⟨-, -, k, hle, hk, hmapped⟩ := wp_ok (h.wp_mappages va PGSIZE pa perm) hmap
    have hle' : k ≤ 1 := hle
    have hne : ¬ k = 1 := fun hc => by simpa using hk.2 hc
    obtain rfl : k = 0 := by omega
    unfold Kmem.translate
    rw [hmapped (pageOf a), if_neg (by omega)]
  · obtain ⟨-, hun⟩ := wp_ok (h.wp_uvmunmap va npages doFree hok) hunmap
    have hN : pagesTo va ((va + npages * PGSIZE) % 2 ^ 64) = npages := by
      have hend' : va + npages * 4096 ≤ 274877906944 := hend
      show ((va + npages * 4096) % 2 ^ 64 - va + 4096 - 1) / 4096 = npages
      omega
    rw [hN] at hun
    exact hun.translate hva ha
  · exact (wp_ok (h.wp_freeEmptyMmapPagetables start length) hclean).translate a

end

theorem fiveKmem_freeOk : @Kmem.FreeOk fivePages fiveKmem := (@MemInv.free fivePages _ _ _ _ _ memInv_five)

/-- A new page table. -/
def fiveTable : Nat := PHYSTOP - 4 * PGSIZE

/-- The memory with it. -/
def fiveCreated : Kmem :=
  match uvmcreate fiveKmem with
  | .ok (_, m) => m
  | .error _ => fiveKmem

/-- A device page is mapped; for the second mapping there are not enough pages; the first is taken back, and its
table pages with it. -/
def fiveOps : List PtOp :=
  [.map 0 PGSIZE 0x10000000 6, .map 0x40000000 PGSIZE 0x10000000 6, .unmap 0 1 false, .cleanup 0 PGSIZE]

/-- Then the mapping that failed is possible. -/
theorem page_table_map_five : ∃ m m', uvmcreate fiveKmem = .ok (some fiveTable, fiveCreated) ∧
    Run (@ptStep fivePages fiveTable) (@PtOp.Ok fivePages fiveTable) fiveCreated fiveOps m ∧
    mappages fiveTable 0x40000000 PGSIZE 0x10000000 6 m = .ok (true, m') ∧
    m'.translate fiveTable 0x40000000 = some (0x10000000, 7) ∧ m'.translate fiveTable 0 = none := by
  have hcreate : uvmcreate fiveKmem = .ok (some fiveTable, fiveCreated) := rfl
  obtain ⟨m, hr, hm⟩ := exists_run (@ptStep fivePages fiveTable)
    (fun _ op => match op with
      | .unmap _ _ doFree => !doFree
      | .other _ => false
      | _ => true)
    (fun m => decide (m.translate fiveTable 0 = none) &&
      (mappages fiveTable 0x40000000 PGSIZE 0x10000000 6 m).toOption.any Prod.fst)
    fiveCreated fiveOps (by decide +kernel)
  have hrun : Run (@ptStep fivePages fiveTable) (@PtOp.Ok fivePages fiveTable) fiveCreated fiveOps m := by
    refine hr.mono fun _ op hop => ?_
    cases op with
    | map | cleanup => trivial
    | unmap va npages doFree =>
      intro hfree
      rw [hfree] at hop
      cases hop
    | other => cases hop
  obtain ⟨hzero, hmap⟩ := Bool.and_eq_true_iff.1 hm
  cases hmap' : mappages fiveTable 0x40000000 PGSIZE 0x10000000 6 m with
  | error e => rw [hmap'] at hmap; cases hmap
  | ok x =>
    rw [hmap'] at hmap
    obtain ⟨_, m'⟩ := x
    obtain rfl : _ = true := hmap
    have h := (@page_table_map fivePages fiveKmem _ _ fiveKmem_freeOk hcreate _ _ hrun).2.2.1
      0x40000000 PGSIZE 0x10000000 6 m' (by decide) (by decide) (by decide) (by decide) hmap'
    exact ⟨m, m', hcreate, hrun, hmap', h _ (by decide), (h 0 (by decide)).trans (of_decide_eq_true hzero)⟩

/-- **A table page that is freed as a leaf.**  A new page table maps its own root, and `uvmunmap` frees the
frame: the root is filled with junk, and two of its entries lead to the same page. -/
theorem unmap_frees_root : ∃ m₁ m₂ m₃ r a, uvmcreate fiveKmem = .ok (some r, m₁) ∧
    mappages r 0 PGSIZE r PTE_R m₁ = .ok (true, m₂) ∧
    @uvmunmap fivePages r 0 1 true m₂ = .ok ((), m₃) ∧
    m₃.node r 1 1 = some a ∧ m₃.node r 1 2 = some a := by
  exact ⟨_, _, _, _, _, rfl, rfl, rfl, rfl, rfl⟩

end Xv6
