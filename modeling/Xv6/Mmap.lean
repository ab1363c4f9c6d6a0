import Xv6.File

/-!
# Memory-mapped areas and page faults

The mmap half of `kernel/vm.c`: the table of areas shared by all processes, the
loading of one page of an area, `mmap`, `munmap`, the fault handler, and what fork
and exit do with the areas.  The functions take the fields of `struct proc` that
they read (the page table, `sz`) as arguments.

`copyout`, `copyin` and `copyinstr` are here as well, because they resolve faults.
-/

namespace Xv6

open Xv6.Lib

/-! ### The table of areas -/

/-- `area->addr + (uint64)area->length`. -/
def MmapArea.stop (a : MmapArea) : Nat := (a.addr + u64 a.length) % 2 ^ 64

/-- The test of `mmap_lookup`. -/
def MmapArea.covers (a : MmapArea) (va : Nat) : Bool := a.addr ≤ va && va < a.stop

/-- `mmap_valid_prot`. -/
def mmapValidProt (prot : Int) : Bool := prot == PROT_READ || prot == PROT_READ + PROT_WRITE

/-- `mmap_pte_perm`. -/
def mmapPtePerm (prot : Int) : Nat :=
  if hasBit prot 1 then PTE_R ||| PTE_U ||| PTE_W else PTE_R ||| PTE_U

/-- `flags & MAP_ANONYMOUS`. -/
def mapAnonymous (flags : Int) : Bool := hasBit flags 0

/-- `flags & MAP_POPULATE`. -/
def mapPopulate (flags : Int) : Bool := hasBit flags 1

/-- The first slot that passes a test, in table order. -/
def Vm.findArea (v : Vm) (q : MmapArea → Bool) : Option (Fin NMMAPAREA) :=
  (List.finRange NMMAPAREA).find? fun i => q (v.area i)

/-- `mmap_lookup`. -/
def mmapLookup (p : Fin NPROC) (va : Nat) : VmM (Option MmapArea) := do
  let v ← get
  pure ((v.findArea fun a => a.p == some p && a.covers va).map v.area)

/-- Take the first area that passes a test out of the table. -/
def mmapTake (q : MmapArea → Bool) : VmM (Option MmapArea) := do
  let v ← get
  match v.findArea q with
  | none => pure none
  | some i => do
    set (v.setArea i {})
    pure (some (v.area i))

/-- `mmap_take_start`. -/
def mmapTakeStart (p : Fin NPROC) (addr : Nat) : VmM (Option MmapArea) :=
  mmapTake fun a => a.p == some p && a.addr == addr

/-- `mmap_take_any`. -/
def mmapTakeAny (p : Fin NPROC) : VmM (Option MmapArea) := mmapTake fun a => a.p == some p

/-- `mmap_copy_index`. -/
def mmapCopyIndex (p : Fin NPROC) (i : Fin NMMAPAREA) : VmM (Option MmapArea) := do
  let v ← get
  pure (if (v.area i).p = some p then some (v.area i) else none)

/-- `mmap_insert`: `false` when the table is full. -/
def mmapInsert (a : MmapArea) : VmM Bool := do
  let v ← get
  match v.findArea fun b => b.p == none with
  | none => pure false
  | some i => do
    set (v.setArea i a)
    pure true

/-- `mmap_file_ok`. -/
def mmapFileOk (f : File) (prot : Int) : Bool :=
  f.type == .inode && !(hasBit prot 0 && !f.readable) && !(hasBit prot 1 && !f.writable)

section

variable [Image]

/-! ### Loading a page -/

/-- The part of `mmap_map_page` between `kalloc` and `mappages`: fill the new page,
`false` when the file cannot be read. -/
def mmapFillPage (a : MmapArea) (mem va : Nat) : VmM Bool := do
  onKmem (memsetPage mem 0)
  if mapAnonymous a.flags then pure true
  else
    let v ← get
    match a.f with
    | none => pure false
    | some f =>
      if (v.file f).type ≠ .inode then pure false
      else do
        let off := u32 (a.offset + (va - a.addr : Nat))
        let _ ← readi (v.file f).ip mem off PGSIZE
        pure true

/-- `mmap_map_page`: `false` stands for `-1`. -/
def mmapMapPage (a : MmapArea) (pagetable va : Nat) : VmM Bool :=
  let va := pgrounddown va
  if !a.covers va then pure false
  else do
    if ← onKmem (ismapped pagetable va) then pure false
    else
      match ← onKmem kalloc with
      | none => pure false
      | some mem => do
        if ← mmapFillPage a mem va then
          if ← onKmem (mappages pagetable va PGSIZE mem (mmapPtePerm a.prot)) then pure true
          else do
            onKmem (kfree mem)
            pure false
        else do
          onKmem (kfree mem)
          pure false

/-- `vmfault`: `true` stands for `1`, `false` for `-1`. -/
def vmfault (p : Fin NPROC) (sz pagetable va : Nat) (read : Bool) : VmM Bool := do
  let va := pgrounddown va
  match ← mmapLookup p va with
  | some a =>
    if !read && !hasBit a.prot 1 then pure false
    else do
      if ← onKmem (ismapped pagetable va) then pure false
      else mmapMapPage a pagetable va
  | none =>
    if MMAPBASE ≤ va then pure false
    else if sz ≤ va then pure false
    else do
      if ← onKmem (ismapped pagetable va) then pure false
      else
        match ← onKmem kalloc with
        | none => pure false
        | some mem => do
          onKmem (memsetPage mem 0)
          if ← onKmem (mappages pagetable va PGSIZE mem (PTE_W ||| PTE_U ||| PTE_R)) then pure true
          else do
            onKmem (kfree mem)
            pure false

/-! ### Mapping and unmapping -/

/-- The `MAP_POPULATE` loop of `kmmap`. -/
def populate (a : MmapArea) (pagetable : Nat) : Nat → Nat → VmM Bool
  | 0, _ => pure true
  | n + 1, va => do
    if ← mmapMapPage a pagetable va then populate a pagetable n (va + PGSIZE) else pure false

/-- `kmmap` from `mmap_insert` on. -/
def kmmapInsert (pagetable : Nat) (a : MmapArea) : VmM Nat := do
  if ← mmapInsert a then
    if mapPopulate a.flags then
      if ← populate a pagetable (pagesTo a.addr a.stop) a.addr then pure a.addr else pure 0
    else pure a.addr
  else do
    filecloseOpt a.f
    pure 0

/-- `kmmap`: the start of the new area, `0` on error. -/
def kmmap (p : Fin NPROC) (pagetable : Nat) (ofile : Fin NOFILE → Option (Fin NFILE)) (addr : Nat)
    (length prot flags fd offset : Int) : VmM Nat :=
  if addr % PGSIZE ≠ 0 ∨ length ≤ 0 ∨ length % PGSIZE ≠ 0 then pure 0
  else if !mmapValidProt prot then pure 0
  else if offset < 0 then pure 0
  else
    let a : MmapArea :=
      { addr := (MMAPBASE + addr) % 2 ^ 64, length, offset, prot, flags, p := some p }
    if mapAnonymous flags then
      if fd ≠ -1 ∨ offset ≠ 0 then pure 0 else kmmapInsert pagetable a
    else if h : 0 ≤ fd ∧ fd < NOFILE then do
      match ofile ⟨fd.toNat, by omega⟩ with
      | none => pure 0
      | some f => do
        let v ← get
        if !mmapFileOk (v.file f) prot then pure 0
        else do
          filedup f
          kmmapInsert pagetable { a with f := some f }
    else pure 0

/-- What `kmunmap` and `mmapfreeproc` do with an area taken out of the table. -/
def unmapArea (pagetable : Nat) (a : MmapArea) : VmM Unit := do
  onKmem (uvmunmap pagetable a.addr (u64 (a.length / PGSIZE)) true)
  onKmem (freeEmptyMmapPagetables pagetable a.addr (u64 a.length))

/-- `kmunmap`. -/
def kmunmap (p : Fin NPROC) (pagetable addr : Nat) : VmM Int :=
  if addr % PGSIZE ≠ 0 then pure 0
  else do
    match ← mmapTakeStart p addr with
    | none => pure (-1)
    | some a => do
      unmapArea pagetable a
      filecloseOpt a.f
      pure 1

/-- The loop of `mmapfreeproc`; `fuel` bounds the number of areas it takes. -/
def mmapfreeprocLoop (p : Fin NPROC) (pagetable : Nat) : Nat → VmM Unit
  | 0 => pure ()
  | fuel + 1 => do
    match ← mmapTakeAny p with
    | none => pure ()
    | some a => do
      when (pagetable ≠ 0) (unmapArea pagetable a)
      filecloseOpt a.f
      mmapfreeprocLoop p pagetable fuel

/-- `mmapfreeproc`. -/
def mmapfreeproc (p : Fin NPROC) (pagetable : Nat) : VmM Unit :=
  mmapfreeprocLoop p pagetable NMMAPAREA

/-! ### Fork -/

/-- The loop of `mmap_copy_pages` over `n` pages from `va` on. -/
def mmapCopyPagesLoop (old new : Nat) : Nat → Nat → KmemM Bool
  | 0, _ => pure true
  | n + 1, va => do
    match ← walk old va false with
    | none => mmapCopyPagesLoop old new n (va + PGSIZE)
    | some (t, i) => do
      let pte ← loadWord t i
      if !pteV pte || !pteRWX pte then mmapCopyPagesLoop old new n (va + PGSIZE)
      else do
        kaddref (pte2pa pte)
        if ← mappages new va PGSIZE (pte2pa pte) (pteFlags pte) then
          mmapCopyPagesLoop old new n (va + PGSIZE)
        else do
          kfree (pte2pa pte)
          pure false

/-- `mmap_copy_pages`. -/
def mmapCopyPages (a : MmapArea) (old new : Nat) : KmemM Bool :=
  mmapCopyPagesLoop old new (pagesTo a.addr a.stop) a.addr

/-- The loop of `mmapfork` over the given slots. -/
def mmapforkLoop (oldp newp : Fin NPROC) (old new : Nat) : List (Fin NMMAPAREA) → VmM Bool
  | [] => pure true
  | i :: is => do
    match ← mmapCopyIndex oldp i with
    | none => mmapforkLoop oldp newp old new is
    | some a => do
      filedupOpt a.f
      if ← mmapInsert { a with p := some newp } then
        if ← onKmem (mmapCopyPages a old new) then mmapforkLoop oldp newp old new is
        else do
          mmapfreeproc newp new
          pure false
      else do
        filecloseOpt a.f
        mmapfreeproc newp new
        pure false

/-- `mmapfork`. -/
def mmapfork (oldp newp : Fin NPROC) (old new : Nat) : VmM Bool :=
  mmapforkLoop oldp newp old new (List.finRange NMMAPAREA)

/-! ### Copies between the kernel and the user -/

/-- One page of `copyout` and `copyin`: the page behind `va0`, faulted in if needed;
`0` on error. -/
def userPage (p : Fin NPROC) (sz pagetable va0 : Nat) (read : Bool) : VmM Nat := do
  let pa0 ← onKmem (walkaddr pagetable va0)
  if pa0 ≠ 0 then pure pa0
  else do
    if ← vmfault p sz pagetable va0 read then onKmem (walkaddr pagetable va0) else pure 0

/-- The loop of `copyout`; `src k` is the `k`-th byte still to be copied and `fuel`
bounds the number of pages. -/
def copyoutLoop (p : Fin NPROC) (sz pagetable : Nat) :
    Nat → Nat → (Nat → UInt8) → Nat → VmM Bool
  | 0, _, _, _ => pure false
  | fuel + 1, dstva, src, len =>
    if len = 0 then pure true
    else
      let va0 := pgrounddown dstva
      if MAXVA ≤ va0 then pure false
      else do
        let pa0 ← userPage p sz pagetable va0 false
        if pa0 = 0 then pure false
        else
          match ← onKmem (walk pagetable va0 false) with
          | none => pure false
          | some (t, i) => do
            let pte ← onKmem (loadWord t i)
            -- forbid copyout over read-only user text pages
            if !pteW pte then pure false
            else do
              let n := min (PGSIZE - (dstva - va0)) len
              onKmem (modify fun m => m.setPage pa0 (blit (m.mem pa0) (dstva - va0) n src))
              copyoutLoop p sz pagetable fuel (va0 + PGSIZE) (fun k => src (n + k)) (len - n)

/-- `copyout`. -/
def copyout (p : Fin NPROC) (sz pagetable dstva : Nat) (src : Nat → UInt8) (len : Nat) : VmM Bool :=
  copyoutLoop p sz pagetable (len / PGSIZE + 3) dstva src len

/-- The loop of `copyin`, with the bytes copied so far. -/
def copyinLoop (p : Fin NPROC) (sz pagetable : Nat) :
    Nat → Nat → Nat → List UInt8 → VmM (Option (List UInt8))
  | 0, _, _, _ => pure none
  | fuel + 1, srcva, len, dst =>
    if len = 0 then pure (some dst)
    else do
      let va0 := pgrounddown srcva
      let pa0 ← userPage p sz pagetable va0 true
      if pa0 = 0 then pure none
      else do
        let n := min (PGSIZE - (srcva - va0)) len
        let v ← get
        let bytes := (List.range n).map fun k => byteAt (v.kmem.mem pa0) (srcva - va0 + k)
        copyinLoop p sz pagetable fuel ((va0 + PGSIZE) % 2 ^ 64) (len - n) (dst ++ bytes)

/-- `copyin`: the bytes copied, `none` on error. -/
def copyin (p : Fin NPROC) (sz pagetable srcva len : Nat) : VmM (Option (List UInt8)) :=
  copyinLoop p sz pagetable (len / PGSIZE + 3) srcva len []

/-- The inner loop of `copyinstr`, over `n` bytes of the page `g` from `o` on: whether it met a
terminator, and what has been written to `dst`. -/
def strLoop (g : Page) : Nat → Nat → List UInt8 → Bool × List UInt8
  | 0, _, dst => (false, dst)
  | n + 1, o, dst =>
    if byteAt g o = 0 then (true, dst ++ [0]) else strLoop g n (o + 1) (dst ++ [byteAt g o])

/-- The outer loop of `copyinstr`, with all that it writes. -/
def copyinstrDstLoop (p : Fin NPROC) (sz pagetable : Nat) :
    Nat → Nat → Nat → List UInt8 → VmM (Bool × List UInt8)
  | 0, _, _, dst => pure (false, dst)
  | fuel + 1, srcva, max, dst =>
    if max = 0 then pure (false, dst)
    else do
      let va0 := pgrounddown srcva
      let pa0 ← userPage p sz pagetable va0 true
      if pa0 = 0 then pure (false, dst)
      else do
        let n := min (PGSIZE - (srcva - va0)) max
        let v ← get
        match strLoop (v.kmem.mem pa0) n (srcva - va0) dst with
        | (true, dst) => pure (true, dst)
        | (false, dst) => copyinstrDstLoop p sz pagetable fuel ((va0 + PGSIZE) % 2 ^ 64) (max - n) dst

/-- `copyinstr`: whether it returns `0`, and the bytes written to `dst`. -/
def copyinstrDst (p : Fin NPROC) (sz pagetable srcva max : Nat) : VmM (Bool × List UInt8) :=
  copyinstrDstLoop p sz pagetable (max / PGSIZE + 3) srcva max []

/-- The string that `copyinstr` copies, without its terminator, `none` on error. -/
def copyinstr (p : Fin NPROC) (sz pagetable srcva max : Nat) : VmM (Option (List UInt8)) := do
  let (ok, dst) ← copyinstrDst p sz pagetable srcva max
  pure (if ok then some dst.dropLast else none)

end

end Xv6
