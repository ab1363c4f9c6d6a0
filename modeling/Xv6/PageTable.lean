import Xv6.Kalloc

/-!
# Page tables

The page-table half of `kernel/vm.c`.  A page table is a tree of three levels kept
in physical pages; a `pagetable_t` is the address of its root page, and a page-table
entry is a 64-bit word of a table page.  Where the source holds a `pte_t *`, the
model holds the page and the index of the entry in it.

A loop of the source over pages is a recursion on the number of pages it visits.
-/

namespace Xv6

open Xv6.Lib

/-! ### Page-table entries -/

abbrev PTE_V : Nat := 1
abbrev PTE_R : Nat := 2
abbrev PTE_W : Nat := 4
abbrev PTE_X : Nat := 8
abbrev PTE_U : Nat := 16

/-- `*pte & PTE_V`. -/
def pteV (pte : Nat) : Bool := pte.testBit 0

/-- `*pte & PTE_W`. -/
def pteW (pte : Nat) : Bool := pte.testBit 2

/-- `*pte & PTE_U`. -/
def pteU (pte : Nat) : Bool := pte.testBit 4

/-- `*pte & (PTE_R | PTE_W | PTE_X)`. -/
def pteRWX (pte : Nat) : Bool := pte.testBit 1 || pte.testBit 2 || pte.testBit 3

/-- `PA2PTE`. -/
def pa2pte (pa : Nat) : Nat := (pa >>> 12) <<< 10

/-- `PTE2PA`. -/
def pte2pa (pte : Nat) : Nat := (pte >>> 10) <<< 12

/-- `PTE_FLAGS`. -/
def pteFlags (pte : Nat) : Nat := pte % 1024

/-- `PA2PTE(pa) | perm | PTE_V`. -/
def mkPte (pa perm : Nat) : Nat := pa2pte pa ||| perm ||| PTE_V

/-- `PX(level, va)`. -/
def px (level va : Nat) : Nat := va / 2 ^ (12 + 9 * level) % 512

/-! ### Walking -/

section

variable [Image]

/-- The loop of `walk` from `level` down, at the table page `pagetable`. -/
def walkLoop (va : Nat) (alloc : Bool) : Nat → Nat → KmemM (Option (Nat × Nat))
  | 0, pagetable => pure (some (pagetable, px 0 va))
  | level + 1, pagetable => do
    let pte ← loadWord pagetable (px (level + 1) va)
    if pteV pte then walkLoop va alloc level (pte2pa pte)
    else if !alloc then pure none
    else
      match ← kalloc with
      | none => pure none
      | some page => do
        memsetPage page 0
        storeWord pagetable (px (level + 1) va) (pa2pte page ||| PTE_V)
        walkLoop va alloc level page

/-- `walk`: the entry for `va`, as a table page and an index in it. -/
def walk (pagetable va : Nat) (alloc : Bool) : KmemM (Option (Nat × Nat)) :=
  if MAXVA ≤ va then throw .walk else walkLoop va alloc 2 pagetable

/-- `walkaddr`: the physical page of a user address, `0` if there is none. -/
def walkaddr (pagetable va : Nat) : KmemM Nat :=
  if MAXVA ≤ va then pure 0
  else do
    match ← walk pagetable va false with
    | none => pure 0
    | some (t, i) => do
      let pte ← loadWord t i
      if !pteV pte then pure 0
      else if !pteU pte then pure 0
      else pure (pte2pa pte)

/-- `ismapped`. -/
def ismapped (pagetable va : Nat) : KmemM Bool := do
  match ← walk pagetable va false with
  | none => pure false
  | some (t, i) => do
    let pte ← loadWord t i
    pure (pteV pte)

/-! ### Mapping -/

/-- The loop of `mappages` over `n` pages from `a` on. -/
def mappagesLoop (pagetable perm : Nat) : Nat → Nat → Nat → KmemM Bool
  | 0, _, _ => pure true
  | n + 1, a, pa => do
    match ← walk pagetable a true with
    | none => pure false
    | some (t, i) => do
      let pte ← loadWord t i
      if pteV pte then throw .remap
      else
        storeWord t i (mkPte pa perm)
        mappagesLoop pagetable perm n ((a + PGSIZE) % 2 ^ 64) (pa + PGSIZE)

/-- `mappages`; `false` stands for `-1`, a page-table page could not be allocated. -/
def mappages (pagetable va size pa perm : Nat) : KmemM Bool :=
  if va % PGSIZE ≠ 0 then throw .mapVa
  else if size % PGSIZE ≠ 0 then throw .mapSize
  else if size = 0 then throw .mapZero
  else mappagesLoop pagetable perm (size / PGSIZE) va pa

/-- `uvmcreate`: an empty page table, `none` if out of memory. -/
def uvmcreate : KmemM (Option Nat) := do
  match ← kalloc with
  | none => pure none
  | some pagetable => do
    memsetPage pagetable 0
    pure (some pagetable)

/-! ### Unmapping -/

/-- The loop of `uvmunmap` over `n` pages from `a` on. -/
def uvmunmapLoop (pagetable : Nat) (doFree : Bool) : Nat → Nat → KmemM Unit
  | 0, _ => pure ()
  | n + 1, a => do
    match ← walk pagetable a false with
    | none => uvmunmapLoop pagetable doFree n (a + PGSIZE)
    | some (t, i) => do
      let pte ← loadWord t i
      if !pteV pte then uvmunmapLoop pagetable doFree n (a + PGSIZE)
      else if doFree then do
        kfree (pte2pa pte)
        storeWord t i 0
        uvmunmapLoop pagetable doFree n (a + PGSIZE)
      else do
        storeWord t i 0
        uvmunmapLoop pagetable doFree n (a + PGSIZE)

/-- The number of pages that `for(a = va; a < lim; a += PGSIZE)` visits. -/
def pagesTo (va lim : Nat) : Nat := (lim - va + PGSIZE - 1) / PGSIZE

/-- `uvmunmap`. -/
def uvmunmap (pagetable va npages : Nat) (doFree : Bool) : KmemM Unit :=
  if va % PGSIZE ≠ 0 then throw .unmapVa
  else uvmunmapLoop pagetable doFree (pagesTo va ((va + npages * PGSIZE) % 2 ^ 64)) va

/-! ### Emptied table pages -/

/-- `pagetable_empty`. -/
def pagetableEmpty (g : Page) : Bool := (List.range 512).all fun i => !pteV (g i)

/-- `pte_points_to_pagetable`. -/
def ptePointsToPagetable (pte : Nat) : Bool := pteV pte && !pteRWX pte

/-- `next_pt_boundary`. -/
def nextPtBoundary (va level : Nat) : Nat :=
  (va + 2 ^ (12 + 9 * level)) % 2 ^ 64 / 2 ^ (12 + 9 * level) * 2 ^ (12 + 9 * level)

/-- `free_empty_mmap_l0`. -/
def freeEmptyMmapL0 (pagetable va : Nat) : KmemM Unit := do
  let pte2 ← loadWord pagetable (px 2 va)
  if !ptePointsToPagetable pte2 then pure ()
  else
    let l1 := pte2pa pte2
    let pte1 ← loadWord l1 (px 1 va)
    if !ptePointsToPagetable pte1 then pure ()
    else
      let l0 := pte2pa pte1
      let m ← get
      if pagetableEmpty (m.mem l0) then do
        kfree l0
        storeWord l1 (px 1 va) 0
      else pure ()

/-- `free_empty_mmap_l1`. -/
def freeEmptyMmapL1 (pagetable va : Nat) : KmemM Unit := do
  let pte2 ← loadWord pagetable (px 2 va)
  if !ptePointsToPagetable pte2 then pure ()
  else
    let l1 := pte2pa pte2
    let m ← get
    if pagetableEmpty (m.mem l1) then do
      kfree l1
      storeWord pagetable (px 2 va) 0
    else pure ()

/-- A loop of `free_empty_mmap_pagetables`: visit `va` and then the boundaries of
`level` up to `lim`; `fuel` bounds the number of visits. -/
def boundaryLoop (level lim : Nat) (visit : Nat → KmemM Unit) : Nat → Nat → KmemM Unit
  | 0, _ => pure ()
  | fuel + 1, va =>
    if va < lim then do
      let next := nextPtBoundary va level
      visit va
      boundaryLoop level lim visit fuel (if va < next ∧ next < lim then next else lim)
    else pure ()

/-- `free_empty_mmap_pagetables`. -/
def freeEmptyMmapPagetables (pagetable start length : Nat) : KmemM Unit := do
  let lim := (start + length) % 2 ^ 64
  boundaryLoop 1 lim (freeEmptyMmapL0 pagetable) (length / 2 ^ 21 + 2) start
  boundaryLoop 2 lim (freeEmptyMmapL1 pagetable) (length / 2 ^ 30 + 2) start

/-! ### Tearing down -/

/-- The loop of `freewalk` over the entries from `512 - n` on; `sub` frees a
lower-level table. -/
def freewalkLoop (sub : Nat → KmemM Unit) (pagetable : Nat) : Nat → KmemM Unit
  | 0 => pure ()
  | n + 1 => do
    let i := 512 - (n + 1)
    let pte ← loadWord pagetable i
    if pteV pte && !pteRWX pte then do
      sub (pte2pa pte)
      storeWord pagetable i 0
      freewalkLoop sub pagetable n
    else if pteV pte then throw .freewalkLeaf
    else freewalkLoop sub pagetable n

/-- `freewalk`; the recursion takes at most `depth` frames of the kernel stack.  The bound and the stop
are not in the source: there a table that contains itself runs over the end of the stack. -/
def freewalk : Nat → Nat → KmemM Unit
  | 0, _ => throw .stackOverflow
  | depth + 1, pagetable => do
    freewalkLoop (freewalk depth) pagetable 512
    kfree pagetable

end

end Xv6
