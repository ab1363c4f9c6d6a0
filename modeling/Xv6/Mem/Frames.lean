import Xv6.Lib.Radix
import Xv6.Mem.Words

/-!
# References to page frames

The invariant of physical memory, `MemInv`.  A frame is referenced by the kernel, by an
operation under way, or by a slot of a page table: a root, a table below it, or a frame
that a leaf maps.  The page tables are read off the words of memory itself.

* `refcnt` of a frame is the number of references to it, and the frames without one
  are the free list;
* a frame of the kernel's own and a page-table page have one reference only;
* what leaves may map is left open: a `Policy` says which entry and which contents a
  leaf may have and where frames may be shared.

The entry for `TRAPFRAME` is not counted; the frame belongs to the kernel.  The
trampoline lies in the kernel's text, which `kalloc` does not manage.
-/

namespace Xv6

open Xv6.Lib Finset

/-! ### Page tables in memory -/

/-- The table or frame behind an entry. -/
def child (w : Nat) : Option Nat := if pteV w then some (pte2pa w) else none

theorem child_eq_some {w a : Nat} : child w = some a ↔ pteV w = true ∧ pte2pa w = a := by
  unfold child
  split
  · simp [*]
  · simp [*]

theorem child_eq_none {w : Nat} : child w = none ↔ pteV w = false := by
  unfold child
  split
  · simp [*]
  · simp [*]

def Kmem.links (m : Kmem) (t i : Nat) : Option Nat := child (m.mem t i)

/-- The page at depth `d` and position `n` of the page table `r`: a table for `d < 3`,
the frame of a leaf for `d = 3`. -/
def Kmem.node (m : Kmem) (r d n : Nat) : Option Nat := Lib.node 512 m.links r d n

/-- The leaf entry of the page table `r` for page `v`, if it is valid. -/
def Kmem.pte (m : Kmem) (r v : Nat) : Option Nat :=
  (m.node r 2 (v / 512)).bind fun t =>
    if pteV (m.mem t (v % 512)) then some (m.mem t (v % 512)) else none

theorem Kmem.pte_eq_some {m : Kmem} {r v w : Nat} :
    m.pte r v = some w ↔
      ∃ t, m.node r 2 (v / 512) = some t ∧ m.mem t (v % 512) = w ∧ pteV w = true := by
  unfold Kmem.pte
  rw [Option.bind_eq_some_iff]
  constructor
  · rintro ⟨t, ht, h⟩
    split at h
    · cases h
      exact ⟨t, ht, rfl, ‹_›⟩
    · cases h
  · rintro ⟨t, ht, rfl, hv⟩
    exact ⟨t, ht, if_pos hv⟩

theorem Kmem.node_three (m : Kmem) (r v : Nat) : m.node r 3 v = (m.pte r v).map pte2pa := by
  unfold Kmem.pte
  show Lib.node 512 m.links r 3 v = _
  rw [node_succ]
  show (m.node r 2 (v / 512)).bind _ = _
  cases m.node r 2 (v / 512) with
  | none => rfl
  | some t =>
    show child (m.mem t (v % 512)) = _
    unfold child
    simp only [Option.bind_some]
    split
    · rfl
    · rfl

theorem Kmem.node_three_some {m : Kmem} {r v a : Nat} :
    m.node r 3 v = some a ↔ ∃ w, m.pte r v = some w ∧ pte2pa w = a := by
  rw [Kmem.node_three, Option.map_eq_some_iff]

/-- The page `a` is a table page of one of the page tables `R`. -/
def Kmem.IsTable (m : Kmem) (R : Finset Nat) (a : Nat) : Prop :=
  ∃ r ∈ R, ∃ d n, d < 3 ∧ m.node r d n = some a

theorem Kmem.isTable_root {m : Kmem} {R : Finset Nat} {r : Nat} (h : r ∈ R) : m.IsTable R r :=
  ⟨r, h, 0, 0, by omega, rfl⟩

theorem Kmem.node_congr {m m' : Kmem} {R : Finset Nat}
    (h : ∀ a, m.IsTable R a → m'.mem a = m.mem a) {r : Nat} (hr : r ∈ R) {d : Nat} (hd : d ≤ 3)
    (n : Nat) : m'.node r d n = m.node r d n := by
  refine Lib.node_congr (fun k i t hk ht => ?_) n
  funext j
  show child (m'.mem t j) = child (m.mem t j)
  rw [h t ⟨r, hr, k, i, by omega, ht⟩]

theorem Kmem.pte_congr {m m' : Kmem} {R : Finset Nat}
    (h : ∀ a, m.IsTable R a → m'.mem a = m.mem a) {r : Nat} (hr : r ∈ R) (v : Nat) :
    m'.pte r v = m.pte r v := by
  unfold Kmem.pte
  rw [Kmem.node_congr h hr (by omega)]
  cases ht : m.node r 2 (v / 512) with
  | none => rfl
  | some t =>
    simp only [Option.bind_some]
    rw [h t ⟨r, hr, 2, _, by omega, ht⟩]

theorem Kmem.isTable_congr {m m' : Kmem} {R : Finset Nat}
    (h : ∀ a, m.IsTable R a → m'.mem a = m.mem a) (a : Nat) : m'.IsTable R a ↔ m.IsTable R a := by
  unfold Kmem.IsTable
  constructor
  · rintro ⟨r, hr, d, n, hd, ha⟩
    rw [Kmem.node_congr h hr (by omega)] at ha
    exact ⟨r, hr, d, n, hd, ha⟩
  · rintro ⟨r, hr, d, n, hd, ha⟩
    rw [← Kmem.node_congr h hr (by omega)] at ha
    exact ⟨r, hr, d, n, hd, ha⟩

/-! ### References -/

/-- The page number of `TRAPFRAME`. -/
def tfPage : Nat := pageOf TRAPFRAME

/-- More than any position in a page table. -/
def POSITIONS : Nat := 2 ^ 27

/-- The slots of the page tables `R`: page table, depth and position. -/
def slots (R : Finset Nat) : Finset (Nat × Nat × Nat) := R ×ˢ range 4 ×ˢ range POSITIONS

/-- What a slot references. -/
def Kmem.ref (m : Kmem) (x : Nat × Nat × Nat) : Option Nat :=
  if x.2.1 = 3 ∧ x.2.2 = tfPage then none else m.node x.1 x.2.1 x.2.2

/-- The number of references from the page tables `R` to `a`. -/
def Kmem.refs (m : Kmem) (R : Finset Nat) (a : Nat) : Nat := count (slots R) m.ref a

theorem Kmem.mem_slots {m : Kmem} {R : Finset Nat} {r d n a : Nat} (hr : r ∈ R) (hd : d ≤ 3)
    (h : m.node r d n = some a) : (r, d, n) ∈ slots R := by
  unfold slots
  rw [mem_product, mem_product, mem_range, mem_range]
  refine ⟨hr, Nat.lt_succ_of_le hd, ?_⟩
  have hlt : n < 512 ^ d := node_lt (by norm_num) h
  have hle : 512 ^ d ≤ 512 ^ 3 := Nat.pow_le_pow_right (by norm_num) hd
  show n < 2 ^ 27
  have : 512 ^ 3 = 2 ^ 27 := by norm_num
  omega

theorem Kmem.ref_table {m : Kmem} {r d n : Nat} (hd : d < 3) : m.ref (r, d, n) = m.node r d n := by
  unfold Kmem.ref
  rw [if_neg]
  rintro ⟨h, -⟩
  dsimp only at h
  omega

theorem Kmem.ref_leaf {m : Kmem} {r v : Nat} (hv : v ≠ tfPage) :
    m.ref (r, 3, v) = m.node r 3 v := by
  unfold Kmem.ref
  rw [if_neg]
  rintro ⟨-, h⟩
  exact hv h

theorem Kmem.refs_pos_of_table {m : Kmem} {R : Finset Nat} {a : Nat} (h : m.IsTable R a) :
    0 < m.refs R a := by
  obtain ⟨r, hr, d, n, hd, ha⟩ := h
  refine count_pos.2 ⟨(r, d, n), Kmem.mem_slots hr (by omega) ha, ?_⟩
  rw [Kmem.ref_table hd]
  exact ha

theorem Kmem.refs_pos_of_leaf {m : Kmem} {R : Finset Nat} {r v w : Nat} (hr : r ∈ R)
    (hv : v ≠ tfPage) (h : m.pte r v = some w) : 0 < m.refs R (pte2pa w) := by
  have hnode : m.node r 3 v = some (pte2pa w) := Kmem.node_three_some.2 ⟨w, h, rfl⟩
  refine count_pos.2 ⟨(r, 3, v), Kmem.mem_slots hr (by omega) hnode, ?_⟩
  rw [Kmem.ref_leaf hv]
  exact hnode

theorem Kmem.not_isTable {m : Kmem} {R : Finset Nat} {a : Nat} (ha : m.refs R a = 0) :
    ¬ m.IsTable R a := by
  intro ht
  have := Kmem.refs_pos_of_table ht
  omega

theorem Kmem.not_leaf {m : Kmem} {R : Finset Nat} {r v w : Nat} (hr : r ∈ R) (hv : v ≠ tfPage)
    (h : m.pte r v = some w) (ha : m.refs R (pte2pa w) = 0) : False := by
  have := Kmem.refs_pos_of_leaf hr hv h
  omega

theorem Kmem.refs_congr {m m' : Kmem} {R : Finset Nat}
    (h : ∀ a, m.IsTable R a → m'.mem a = m.mem a) (a : Nat) : m'.refs R a = m.refs R a := by
  refine count_congr (fun x hx => ?_) a
  unfold slots at hx
  rw [mem_product, mem_product, mem_range] at hx
  unfold Kmem.ref
  rw [Kmem.node_congr h hx.1 (by omega)]

/-- One reference to `a`. -/
def one (a b : Nat) : Nat := holds (some a) b

@[simp] theorem one_self (a : Nat) : one a a = 1 := holds_self a

@[simp] theorem one_of_ne {a b : Nat} (h : a ≠ b) : one a b = 0 := by
  unfold one
  rw [holds_some, if_neg h]

/-! ### The free list -/

/-- The free list that starts with `h` runs through the pages `L`. -/
def FreeList (mem : Nat → Page) : Nat → List Nat → Prop
  | h, [] => h = 0
  | h, a :: L => h = a ∧ a ≠ 0 ∧ FreeList mem (mem a 0) L

theorem FreeList.congr {mem mem' : Nat → Page} {h : Nat} {L : List Nat} (hl : FreeList mem h L)
    (hmem : ∀ a ∈ L, mem' a = mem a) : FreeList mem' h L := by
  induction L generalizing h with
  | nil => exact hl
  | cons a L ih =>
    obtain ⟨rfl, ha, hl⟩ := hl
    refine ⟨rfl, ha, ?_⟩
    rw [hmem h (by simp)]
    exact ih hl fun b hb => hmem b (by simp [hb])

/-- A list of free pages has `n` pages or more. -/
def Stocked (mem : Nat → Page) : Nat → Nat → Prop
  | _, 0 => True
  | h, n + 1 => h ≠ 0 ∧ Stocked mem (mem h 0) n

instance Stocked.decidable (mem : Nat → Page) : ∀ h n, Decidable (Stocked mem h n)
  | _, 0 => .isTrue trivial
  | h, n + 1 => @instDecidableAnd (h ≠ 0) _ _ (Stocked.decidable mem (mem h 0) n)

theorem Stocked.le_length {mem : Nat → Page} {h n : Nat} {L : List Nat} (hs : Stocked mem h n)
    (hl : FreeList mem h L) : n ≤ L.length := by
  induction n generalizing h L with
  | zero => exact Nat.zero_le _
  | succ n ih =>
    cases L with
    | nil => exact absurd hl hs.1
    | cons a L =>
      obtain ⟨rfl, -, hl⟩ := hl
      exact Nat.succ_le_succ (ih hs.2 hl)

/-! ### The invariant -/

/-- What the leaves of the page tables may be: `ok r v w g` says that the page table `r`
may map page `v` with the entry `w` to a frame that contains `g`, and `share r v` that
the frame may be mapped by another page table, too. -/
structure Policy where
  ok : Nat → Nat → Nat → Page → Prop
  share : Nat → Nat → Prop

section

variable [Image]

/-- **The invariant of physical memory.**  The kernel holds `K a` references to the frame
`a`, operations under way hold `T a`, and the page tables are those with the roots `R`. -/
structure MemInv (P : Policy) (m : Kmem) (K T : Nat → Nat) (R : Finset Nat) : Prop where
  free : ∃ L, FreeList m.mem m.freelist L ∧ L.Nodup ∧
    ∀ a, a ∈ L ↔ badPage a = false ∧ m.refcnt (refindex a) = 0
  refcnt : ∀ a, badPage a = false → m.refcnt (refindex a) = K a + T a + m.refs R a
  excl : ∀ a, 0 < K a ∨ m.IsTable R a → badPage a = false ∧ K a + T a + m.refs R a = 1
  managed : ∀ a, 0 < T a + m.refs R a → badPage a = false ∨ a = Image.trampoline
  ptr : ∀ r ∈ R, ∀ d n t i, d < 2 → m.node r d n = some t → i < 512 →
    pteV (m.mem t i) = true → pteRWX (m.mem t i) = false
  leaf : ∀ r ∈ R, ∀ v w, v ≠ tfPage → m.pte r v = some w → P.ok r v w (m.mem (pte2pa w))
  tf : ∀ r ∈ R, ∀ w, m.pte r tfPage = some w → pteU w = false
  share : ∀ r ∈ R, ∀ r' ∈ R, ∀ v v' w w', v ≠ tfPage → v' ≠ tfPage →
    m.pte r v = some w → m.pte r' v' = some w' → pte2pa w = pte2pa w' →
    pte2pa w ≠ Image.trampoline → (r, v) ≠ (r', v') → v = v' ∧ P.share r v ∧ P.share r' v'

theorem refindex_inj {a b : Nat} (ha : badPage a = false) (hb : badPage b = false)
    (h : refindex a = refindex b) : a = b := by
  have hbase := Image.base_le_kend
  unfold badPage at ha hb
  simp only [Bool.or_eq_false_iff, bne_eq_false_iff_eq, decide_eq_false_iff_not] at ha hb
  unfold refindex at h
  have hbase' : 2147483648 ≤ Image.kend := hbase
  obtain ⟨⟨ha1, ha2⟩, -⟩ := ha
  obtain ⟨⟨hb1, hb2⟩, -⟩ := hb
  have ha1' : a % 4096 = 0 := ha1
  have hb1' : b % 4096 = 0 := hb1
  have h' : (a - 2147483648) / 4096 = (b - 2147483648) / 4096 := h
  omega

theorem upd_refindex (f : Nat → Nat) (n : Nat) {a b : Nat} (ha : badPage a = false)
    (hb : badPage b = false) :
    upd f (refindex a) n (refindex b) = if b = a then n else f (refindex b) := by
  rw [upd_apply]
  by_cases hab : b = a
  · rw [hab, if_pos rfl, if_pos rfl]
  · rw [if_neg hab, if_neg fun h => hab (refindex_inj hb ha h)]

theorem badPage_trampoline : badPage Image.trampoline = true := by
  unfold badPage
  simp [Image.trampoline_lt]

theorem ne_zero_of_managed {a : Nat} (h : badPage a = false) : a ≠ 0 := by
  rintro rfl
  have hbase := Image.base_le_kend
  unfold badPage at h
  simp only [Bool.or_eq_false_iff, decide_eq_false_iff_not] at h
  have hbase' : 2147483648 ≤ Image.kend := hbase
  omega

theorem aligned_of_managed {a : Nat} (h : badPage a = false) : a % PGSIZE = 0 := by
  unfold badPage at h
  simp only [Bool.or_eq_false_iff, bne_eq_false_iff_eq] at h
  exact h.1.1

variable {P : Policy} {m m' : Kmem} {K K' T T' : Nat → Nat} {R : Finset Nat}

theorem MemInv.kern_refs (h : MemInv P m K T R) {a : Nat} (ha : 0 < K a) :
    badPage a = false ∧ K a = 1 ∧ T a = 0 ∧ m.refs R a = 0 := by
  obtain ⟨hb, htot⟩ := h.excl a (.inl ha)
  exact ⟨hb, by omega, by omega, by omega⟩

theorem MemInv.table_refs (h : MemInv P m K T R) {a : Nat} (ha : m.IsTable R a) :
    badPage a = false ∧ K a = 0 ∧ T a = 0 ∧ m.refs R a = 1 := by
  obtain ⟨hb, htot⟩ := h.excl a (.inr ha)
  have := Kmem.refs_pos_of_table ha
  exact ⟨hb, by omega, by omega, by omega⟩

theorem MemInv.table_unique (h : MemInv P m K T R) {r r' d d' n n' a : Nat} (hr : r ∈ R)
    (hr' : r' ∈ R) (hd : d < 3) (hd' : d' < 3) (ha : m.node r d n = some a)
    (ha' : m.node r' d' n' = some a) : r = r' ∧ d = d' ∧ n = n' := by
  have hone := (h.table_refs ⟨r, hr, d, n, hd, ha⟩).2.2.2
  have heq : (r, d, n) = (r', d', n') :=
    eq_of_count_le_one (Nat.le_of_eq hone) (Kmem.mem_slots hr (by omega) ha)
      (Kmem.mem_slots hr' (by omega) ha') (by rw [Kmem.ref_table hd]; exact ha)
      (by rw [Kmem.ref_table hd']; exact ha')
  simpa using heq

theorem MemInv.table_not_leaf (h : MemInv P m K T R) {r r' d n v a : Nat} (hr : r ∈ R)
    (hr' : r' ∈ R) (hd : d < 3) (hv : v ≠ tfPage) (ha : m.node r d n = some a) :
    m.node r' 3 v ≠ some a := by
  intro ha'
  have hone := (h.table_refs ⟨r, hr, d, n, hd, ha⟩).2.2.2
  have heq : (r, d, n) = (r', 3, v) :=
    eq_of_count_le_one (Nat.le_of_eq hone) (Kmem.mem_slots hr (by omega) ha)
      (Kmem.mem_slots hr' (by omega) ha') (by rw [Kmem.ref_table hd]; exact ha)
      (by rw [Kmem.ref_leaf hv]; exact ha')
  simp only [Prod.mk.injEq] at heq
  omega

/-- **Another policy** for the leaves that are there. -/
theorem MemInv.policy {P' : Policy} (h : MemInv P m K T R)
    (hok : ∀ r ∈ R, ∀ v w, v ≠ tfPage → m.pte r v = some w →
      P.ok r v w (m.mem (pte2pa w)) → P'.ok r v w (m.mem (pte2pa w)))
    (hshare : ∀ r ∈ R, ∀ v w, v ≠ tfPage → m.pte r v = some w → P.share r v → P'.share r v) :
    MemInv P' m K T R where
  free := h.free
  refcnt := h.refcnt
  excl := h.excl
  managed := h.managed
  ptr := h.ptr
  leaf := fun r hr v w hv hw => hok r hr v w hv hw (h.leaf r hr v w hv hw)
  tf := h.tf
  share := by
    intro r hr r' hr' v v' w w' hv hv' hw hw' heq htr hne
    obtain ⟨h1, h2, h3⟩ := h.share r hr r' hr' v v' w w' hv hv' hw hw' heq htr hne
    exact ⟨h1, hshare r hr v w hv hw h2, hshare r' hr' v' w' hv' hw' h3⟩

/-- **The frame rule**: when the table pages stay, only the counts, the free list and the
contents of the mapped frames have to be looked at. -/
theorem MemInv.frame (h : MemInv P m K T R) (htab : ∀ a, m.IsTable R a → m'.mem a = m.mem a)
    (hfree : ∃ L, FreeList m'.mem m'.freelist L ∧ L.Nodup ∧
      ∀ a, a ∈ L ↔ badPage a = false ∧ m'.refcnt (refindex a) = 0)
    (hcnt : ∀ a, badPage a = false → m'.refcnt (refindex a) = K' a + T' a + m.refs R a)
    (hexcl : ∀ a, 0 < K' a ∨ m.IsTable R a → badPage a = false ∧ K' a + T' a + m.refs R a = 1)
    (hman : ∀ a, 0 < T' a + m.refs R a → badPage a = false ∨ a = Image.trampoline)
    (hleaf : ∀ r ∈ R, ∀ v w, v ≠ tfPage → m.pte r v = some w →
      P.ok r v w (m'.mem (pte2pa w))) : MemInv P m' K' T' R where
  free := hfree
  refcnt := by
    intro a ha
    rw [Kmem.refs_congr htab]
    exact hcnt a ha
  excl := by
    intro a ha
    rw [Kmem.isTable_congr htab] at ha
    rw [Kmem.refs_congr htab]
    exact hexcl a ha
  managed := by
    intro a ha
    rw [Kmem.refs_congr htab] at ha
    exact hman a ha
  ptr := by
    intro r hr d n t i hd ht hi hv
    rw [Kmem.node_congr htab hr (by omega)] at ht
    have hmem := htab t ⟨r, hr, d, n, by omega, ht⟩
    rw [hmem] at hv ⊢
    exact h.ptr r hr d n t i hd ht hi hv
  leaf := by
    intro r hr v w hv hw
    rw [Kmem.pte_congr htab hr] at hw
    exact hleaf r hr v w hv hw
  tf := by
    intro r hr w hw
    rw [Kmem.pte_congr htab hr] at hw
    exact h.tf r hr w hw
  share := by
    intro r hr r' hr' v v' w w' hv hv' hw hw'
    rw [Kmem.pte_congr htab hr] at hw
    rw [Kmem.pte_congr htab hr'] at hw'
    exact h.share r hr r' hr' v v' w w' hv hv' hw hw'

end

end Xv6
