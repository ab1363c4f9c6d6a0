import Mathlib.Algebra.Group.Nat.Defs
import Xv6.Lib.Upd
import Xv6.Param

/-!
# The contents of files

`balloc`, `bmap`, `readi` and `writei` of `kernel/fs.c` and the loop of `filewrite` of
`kernel/file.c`, for any number of inodes over one disk.  A call is one step: the inode is locked, and
its fields in memory are the ones that `iupdate` writes back.  The memory that is copied from or to is
readable and writable.

The free map is a function, and the content of a block is kept twice, as bytes and as the words of an
indirect block; which view is meant depends on the use of the block.
-/

namespace Xv6.Content

open Xv6.Lib

abbrev MAXOPBLOCKS : Nat := 10

/-- `max` of `filewrite`. -/
abbrev chunkMax : Nat := (MAXOPBLOCKS - 1 - 1 - 2) / 2 * BSIZE

structure Disk where
  /-- `size` of the inodes. -/
  size : Nat → Nat
  /-- `addrs` of the inodes. -/
  addrs : Nat → Nat → Nat
  data : Nat → Nat → UInt8
  words : Nat → Nat → Nat
  /-- The free map. -/
  used : Nat → Bool
  /-- `sb.size` -/
  nblocks : Nat

namespace Disk

def bzero (s : Disk) (b : Nat) : Disk :=
  { s with data := upd s.data b fun _ => 0, words := upd s.words b fun _ => 0 }

/-- The first block that is free in the map, marked and zeroed, or `0`. -/
def balloc (s : Disk) : Nat × Disk :=
  match (List.range s.nblocks).find? fun b => !s.used b with
  | none => (0, s)
  | some b => (b, { s with used := upd s.used b true }.bzero b)

def setAddr (s : Disk) (i k b : Nat) : Disk := { s with addrs := upd s.addrs i (upd (s.addrs i) k b) }

def setWord (s : Disk) (t k b : Nat) : Disk := { s with words := upd s.words t (upd (s.words t) k b) }

def setSize (s : Disk) (i n : Nat) : Disk := { s with size := upd s.size i n }

/-- The end of a write at `n`: the size, if the file has become longer. -/
def stretch (s : Disk) (i n : Nat) : Disk := if s.size i < n then s.setSize i n else s

/-- Overwrite `n` bytes of a block from `o` on. -/
def blit (s : Disk) (b o n : Nat) (src : Nat → UInt8) : Disk :=
  { s with data := upd s.data b fun k => if o ≤ k ∧ k < o + n then src (k - o) else s.data b k }

/-- `if((addr = ip->addrs[k]) == 0) ..` -/
def addrOf (s : Disk) (i k : Nat) : Nat × Disk :=
  if s.addrs i k = 0 then
    let (b, s') := s.balloc
    if b = 0 then (0, s') else (b, s'.setAddr i k b)
  else (s.addrs i k, s)

/-- `if((addr = a[k]) == 0) ..`, in the indirect block `t`. -/
def wordOf (s : Disk) (t k : Nat) : Nat × Disk :=
  if s.words t k = 0 then
    let (b, s') := s.balloc
    if b = 0 then (0, s') else (b, s'.setWord t k b)
  else (s.words t k, s)

/-- `bmap`; it panics when `bn` is out of range. -/
def bmap (s : Disk) (i bn : Nat) : Option (Nat × Disk) :=
  if bn < NDIRECT then some (s.addrOf i bn)
  else if bn - NDIRECT < NINDIRECT then
    let (t, s') := s.addrOf i NDIRECT
    if t = 0 then some (0, s') else some (s'.wordOf t (bn - NDIRECT))
  else none

/-- The loop of `readi`, with `n` bytes left to read at `off`. -/
def readLoop (i : Nat) : Nat → Disk → Nat → Nat → Option (List UInt8 × Disk)
  | 0, s, _, _ => some ([], s)
  | fuel + 1, s, off, n =>
    if 0 < n then
      match s.bmap i (off / BSIZE) with
      | none => none
      | some (addr, s) =>
        if addr = 0 then some ([], s)
        else
          let m := min n (BSIZE - off % BSIZE)
          (readLoop i fuel s (off + m) (n - m)).map fun (rest, s') =>
            ((List.range m).map (fun k => s.data addr (off % BSIZE + k)) ++ rest, s')
    else some ([], s)

/-- `readi`: the bytes that it copies. -/
def readi (s : Disk) (i off n : Nat) : Option (List UInt8 × Disk) :=
  if s.size i < off ∨ (off + n) % 2 ^ 32 < off then some ([], s)
  else if s.size i < (off + n) % 2 ^ 32 then readLoop i (s.size i - off) s off (s.size i - off)
  else readLoop i n s off n

/-- The loop of `writei`, with `tot` bytes written: `tot` and `off` at its end. -/
def writeLoop (i : Nat) (src : Nat → UInt8) (n : Nat) : Nat → Disk → Nat → Nat → Option (Nat × Nat × Disk)
  | 0, s, tot, off => some (tot, off, s)
  | fuel + 1, s, tot, off =>
    if tot < n then
      match s.bmap i (off / BSIZE) with
      | none => none
      | some (addr, s) =>
        if addr = 0 then some (tot, off, s)
        else
          let m := min (n - tot) (BSIZE - off % BSIZE)
          writeLoop i src n fuel (s.blit addr (off % BSIZE) m fun k => src (tot + k)) (tot + m) (off + m)
    else some (tot, off, s)

/-- `writei`. -/
def writei (s : Disk) (i : Nat) (src : Nat → UInt8) (off n : Nat) : Option (Int × Disk) :=
  if s.size i < off ∨ (off + n) % 2 ^ 32 < off then some (-1, s)
  else if MAXFILE * BSIZE < (off + n) % 2 ^ 32 then some (-1, s)
  else (writeLoop i src n n s 0 off).map fun (tot, off, s) =>
    (tot, s.stretch i off)

/-- The loop of `filewrite`, with `k` bytes written: `k` and the offset of the file at its end. -/
def filewriteLoop (i : Nat) (src : Nat → UInt8) (n : Int) : Nat → Disk → Nat → Nat → Option (Nat × Nat × Disk)
  | 0, s, k, off => some (k, off, s)
  | fuel + 1, s, k, off =>
    if (k : Int) < n then
      let n1 := min (n - k).toNat chunkMax
      match s.writei i (fun j => src (k + j)) off n1 with
      | none => none
      | some (r, s) =>
        let off := if 0 < r then (off + r.toNat) % 2 ^ 32 else off
        if r ≠ n1 then some (k, off, s) else filewriteLoop i src n fuel s (k + r.toNat) off
    else some (k, off, s)

/-- `filewrite` to an inode: the result and the offset of the file. -/
def filewrite (s : Disk) (i : Nat) (src : Nat → UInt8) (off : Nat) (n : Int) : Option (Int × Nat × Disk) :=
  (filewriteLoop i src n n.toNat s 0 off).map fun (k, off, s) => (if (k : Int) = n then n else -1, off, s)

/-! ### Files as bytes -/

/-- The blocks of a file: block `k` of its contents, and the indirect block for `k = MAXFILE`. -/
def held (s : Disk) (i k : Nat) : Nat :=
  if k < NDIRECT then s.addrs i k
  else if k < MAXFILE then if s.addrs i NDIRECT = 0 then 0 else s.words (s.addrs i NDIRECT) (k - NDIRECT)
  else s.addrs i NDIRECT

/-- The byte of the file at `x`. -/
def byteOf (s : Disk) (i x : Nat) : UInt8 :=
  if s.held i (x / BSIZE) = 0 then 0 else s.data (s.held i (x / BSIZE)) (x % BSIZE)

/-- The contents of a file. -/
def content (s : Disk) (i : Nat) : List UInt8 := (List.range (s.size i)).map (s.byteOf i)

/-- The blocks of the files are marked in the free map, and no block has two uses. -/
structure Sound (s : Disk) : Prop where
  boot : s.used 0 = true
  used : ∀ i k, k ≤ MAXFILE → s.held i k ≠ 0 → s.used (s.held i k) = true
  inj : ∀ i k j l, k ≤ MAXFILE → l ≤ MAXFILE → s.held i k ≠ 0 → s.held i k = s.held j l → i = j ∧ k = l

/-- **No holes**: the file has a block for each of its bytes. -/
structure Whole (s : Disk) (i : Nat) : Prop where
  size : s.size i ≤ MAXFILE * BSIZE
  held : ∀ x, x < s.size i → s.held i (x / BSIZE) ≠ 0

end Disk

end Xv6.Content
