import Xv6.Lib.Upd
import Xv6.Lib.Wp
import Xv6.Param

/-!
# The physical page allocator

`kernel/kalloc.c`.  Physical memory is kept page by page, and a page as its 512
64-bit words: `mem pa` is the page at the page-aligned address `pa`.  Page-table
entries and the links of the free list are such words; `byteAt` and `blit` read and
overwrite the bytes of a page, little-endian.  The free list is threaded through the
free pages themselves: the first word of a free page is the address of the next one.
-/

namespace Xv6

open Xv6.Lib

/-! ### Pages -/

/-- The 64-bit words of one page. -/
abbrev Page : Type := Nat → Nat

/-- A page filled with one byte, `memset(pa, c, PGSIZE)`. -/
def fillPage (c : Nat) : Page := fun _ => c * 0x0101010101010101

/-- The byte at offset `b` of a page. -/
def byteAt (g : Page) (b : Nat) : UInt8 := UInt8.ofNat (g (b / 8) / 256 ^ (b % 8))

/-- The word whose eight bytes are `f 0, …, f 7`. -/
def packWord (f : Nat → UInt8) : Nat :=
  (f 0).toNat + 256 * ((f 1).toNat + 256 * ((f 2).toNat + 256 * ((f 3).toNat +
    256 * ((f 4).toNat + 256 * ((f 5).toNat + 256 * ((f 6).toNat + 256 * (f 7).toNat))))))

/-- Overwrite `n` bytes of a page from offset `o` on. -/
def blit (g : Page) (o n : Nat) (src : Nat → UInt8) : Page := fun w =>
  if 8 * w + 8 ≤ o ∨ o + n ≤ 8 * w then g w
  else packWord fun k =>
    if o ≤ 8 * w + k ∧ 8 * w + k < o + n then src (8 * w + k - o) else byteAt g (8 * w + k)

/-! ### The allocator -/

/-- The physical memory and the allocator: `refcnt` and `kmem.freelist`. -/
structure Kmem where
  mem : Nat → Page
  refcnt : Nat → Nat
  freelist : Nat

abbrev KmemM (α : Type) : Type := Prog Kmem MemPanic α

/-- Replace the page at `pa`. -/
def Kmem.setPage (m : Kmem) (pa : Nat) (g : Page) : Kmem :=
  { m with mem := upd m.mem pa g }

/-- `refindex`: the index of a page in `refcnt`. -/
def refindex (pa : Nat) : Nat := (pa - KERNBASE) / PGSIZE

section

variable [Image]

/-- The test that opens `kfree` and `kaddref`. -/
def badPage (pa : Nat) : Bool := pa % PGSIZE != 0 || pa < Image.kend || PHYSTOP ≤ pa

/-- `kfree`: drop a reference; the last one puts the page on the free list. -/
def kfree (pa : Nat) : KmemM Unit := do
  if badPage pa then throw .kfree
  else
    let m ← get
    let idx := refindex pa
    if m.refcnt idx < 1 then throw .kfreeRef
    else
      let n := m.refcnt idx - 1
      if 0 < n then set { m with refcnt := upd m.refcnt idx n }
      else
        -- filled with junk, then linked in front of the list
        set ({ mem := upd m.mem pa (upd (fillPage 1) 0 m.freelist)
               refcnt := upd m.refcnt idx n
               freelist := pa } : Kmem)

/-- `kaddref`: one more reference to a page in use. -/
def kaddref (pa : Nat) : KmemM Unit := do
  if badPage pa then throw .kaddref
  else
    let m ← get
    let idx := refindex pa
    if m.refcnt idx < 1 then throw .kaddrefRef
    else set { m with refcnt := upd m.refcnt idx (m.refcnt idx + 1) }

/-- `kalloc`: take the first free page, filled with junk; `none` if there is none. -/
def kalloc : KmemM (Option Nat) := do
  let m ← get
  let r := m.freelist
  if r = 0 then pure none
  else
    set ({ mem := upd m.mem r (fillPage 5)
           refcnt := upd m.refcnt (refindex r) 1
           freelist := m.mem r 0 } : Kmem)
    pure (some r)

/-- The loop of `freerange`, over `n` pages from `p` on. -/
def freerange : Nat → Nat → KmemM Unit
  | 0, _ => pure ()
  | n + 1, p => do
    modify fun m => { m with refcnt := upd m.refcnt (refindex p) 1 }
    kfree p
    freerange n (p + PGSIZE)

/-- `kinit`: every page between `end` and `PHYSTOP` goes to the free list. -/
def kinit : KmemM Unit :=
  freerange ((PHYSTOP - pgroundup Image.kend) / PGSIZE) (pgroundup Image.kend)

end

/-- `memset(pa, c, PGSIZE)`. -/
def memsetPage (pa c : Nat) : KmemM Unit :=
  modify fun m => m.setPage pa (fillPage c)

/-- `memmove(dst, src, PGSIZE)` between two pages. -/
def memmovePage (dst src : Nat) : KmemM Unit :=
  modify fun m => m.setPage dst (m.mem src)

/-- `*(uint64*)(pa + 8 * i)`. -/
def loadWord (pa i : Nat) : KmemM Nat := do
  let m ← get
  pure (m.mem pa i)

/-- `*(uint64*)(pa + 8 * i) = x`. -/
def storeWord (pa i x : Nat) : KmemM Unit :=
  modify fun m => m.setPage pa (upd (m.mem pa) i x)

end Xv6
