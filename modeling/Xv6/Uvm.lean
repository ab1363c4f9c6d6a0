import Xv6.PageTable

/-!
# User address spaces

Growing, shrinking, copying and freeing the user part of a page table
(`kernel/vm.c`), and the page table every process starts from
(`proc_pagetable` and `proc_freepagetable` of `kernel/proc.c`).
-/

namespace Xv6

open Xv6.Lib

section

variable [Image]

/-! ### Growing and shrinking -/

/-- `uvmdealloc`; `npages` is an `int`, which `uvmunmap` takes as a `uint64`. -/
def uvmdealloc (pagetable oldsz newsz : Nat) : KmemM Nat :=
  if oldsz ≤ newsz then pure oldsz
  else if pgroundup newsz < pgroundup oldsz then do
    let npages := i32 ((pgroundup oldsz - pgroundup newsz) / PGSIZE : Nat)
    uvmunmap pagetable (pgroundup newsz) (u64 npages) true
    pure newsz
  else pure newsz

/-- The loop of `uvmalloc` over `n` pages from `a` on; `false` when it gave up. -/
def uvmallocLoop (pagetable oldsz xperm : Nat) : Nat → Nat → KmemM Bool
  | 0, _ => pure true
  | n + 1, a => do
    match ← kalloc with
    | none => do
      let _ ← uvmdealloc pagetable a oldsz
      pure false
    | some mem => do
      memsetPage mem 0
      if ← mappages pagetable a PGSIZE mem (PTE_R ||| PTE_U ||| xperm) then
        uvmallocLoop pagetable oldsz xperm n (a + PGSIZE)
      else do
        kfree mem
        let _ ← uvmdealloc pagetable a oldsz
        pure false

/-- `uvmalloc`: the new size, `0` on error. -/
def uvmalloc (pagetable oldsz newsz xperm : Nat) : KmemM Nat :=
  if newsz < oldsz then pure oldsz
  else do
    let oldsz := pgroundup oldsz
    if ← uvmallocLoop pagetable oldsz xperm (pagesTo oldsz newsz) oldsz then pure newsz
    else pure 0

/-- `uvmfree`. -/
def uvmfree (pagetable sz : Nat) : KmemM Unit := do
  when (0 < sz) (uvmunmap pagetable 0 (pgroundup sz / PGSIZE) true)
  freewalk KSTACKDEPTH pagetable

/-- `uvmclear`: take a page away from the user. -/
def uvmclear (pagetable va : Nat) : KmemM Unit := do
  match ← walk pagetable va false with
  | none => throw .uvmclear
  | some (t, i) => do
    let pte ← loadWord t i
    storeWord t i (if pteU pte then pte - PTE_U else pte)

/-! ### Copying -/

/-- The loop of `uvmcopy` over `n` pages from `i` on. -/
def uvmcopyLoop (old new : Nat) : Nat → Nat → KmemM Bool
  | 0, _ => pure true
  | n + 1, i => do
    match ← walk old i false with
    | none => uvmcopyLoop old new n (i + PGSIZE)
    | some (t, k) => do
      let pte ← loadWord t k
      if !pteV pte then uvmcopyLoop old new n (i + PGSIZE)
      else
        match ← kalloc with
        | none => do
          uvmunmap new 0 (i / PGSIZE) true
          pure false
        | some mem => do
          memmovePage mem (pte2pa pte)
          if ← mappages new i PGSIZE mem (pteFlags pte) then
            uvmcopyLoop old new n (i + PGSIZE)
          else do
            kfree mem
            uvmunmap new 0 (i / PGSIZE) true
            pure false

/-- `uvmcopy`: `false` stands for `-1`. -/
def uvmcopy (old new sz : Nat) : KmemM Bool := uvmcopyLoop old new (pagesTo 0 sz) 0

/-! ### The page table of a process -/

/-- `proc_pagetable`: the trampoline and the trapframe, and no user memory. -/
def procPagetable (trapframe : Nat) : KmemM (Option Nat) := do
  match ← uvmcreate with
  | none => pure none
  | some pagetable => do
    if ← mappages pagetable TRAMPOLINE PGSIZE Image.trampoline (PTE_R ||| PTE_X) then
      if ← mappages pagetable TRAPFRAME PGSIZE trapframe (PTE_R ||| PTE_W) then
        pure (some pagetable)
      else do
        uvmunmap pagetable TRAMPOLINE 1 false
        uvmfree pagetable 0
        pure none
    else do
      uvmfree pagetable 0
      pure none

/-- `proc_freepagetable`. -/
def procFreepagetable (pagetable sz : Nat) : KmemM Unit := do
  uvmunmap pagetable TRAMPOLINE 1 false
  uvmunmap pagetable TRAPFRAME 1 false
  uvmfree pagetable sz

end

end Xv6
