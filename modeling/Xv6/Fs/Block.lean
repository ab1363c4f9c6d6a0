import Xv6.Lib.Effect
import Xv6.Log.Model

/-!
# Blocks and inodes

The part of `kernel/fs.c` that works on buffers: `bzero`, `balloc` and `bfree` on the free
map, `ialloc`, `iupdate` and the reading half of `ilock` on the inode blocks, and `bmap`,
`itrunc`, `readi` and `writei` on the contents of an inode.

The code is kept as the tree of the requests that it makes of the buffer cache (`Code`), so
that threads that run it can be interleaved at every request.  A buffer is named by the
block that it holds.  A thread works on an inode with its sleep lock held, and so the
in-memory inode is an argument and a result.  What a whole call reads and writes, with nobody in between, is
in `Xv6/Content`.

A block is its 32-bit words, little-endian: the bit `bi` of the free map is bit `bi % 32`
of word `bi / 32`, and an inode is 16 words of its block.
-/

namespace Xv6.Fs

open Xv6.Lib
open Xv6.Log (Block)

/-- `struct superblock`. -/
structure Superblock where
  size : Nat
  ninodes : Nat
  logstart : Nat
  inodestart : Nat
  bmapstart : Nat

def Superblock.iblock (sb : Superblock) (i : Nat) : Nat := i / IPB + sb.inodestart

def Superblock.bblock (sb : Superblock) (b : Nat) : Nat := b / BPB + sb.bmapstart

/-! ### Requests -/

/-- What code asks of the buffer cache; a buffer is named by its block. -/
inductive BufReq
  | bread (b : Nat)
  /-- Look at `bp->data`. -/
  | data (b : Nat)
  /-- Change `bp->data`. -/
  | setData (b : Nat) (g : Block)
  | logWrite (b : Nat)
  | brelse (b : Nat)

def BufReq.Ans : BufReq → Type
  | .data _ => Block
  | _ => Unit

/-- Code over the buffer cache; it stops with the text of a panic. -/
abbrev Code : Type → Type := Eff BufReq BufReq.Ans String

def bread (b : Nat) : Code Unit := Eff.perform (BufReq.bread b)
def data (b : Nat) : Code Block := Eff.perform (BufReq.data b)
def setData (b : Nat) (g : Block) : Code Unit := Eff.perform (BufReq.setData b g)
def logWrite (b : Nat) : Code Unit := Eff.perform (BufReq.logWrite b)
def brelse (b : Nat) : Code Unit := Eff.perform (BufReq.brelse b)
def panic {α : Type} (msg : String) : Code α := .stop msg

/-! ### Words -/

def bit (g : Block) (bi : Nat) : Bool := (g (bi / 32)).testBit (bi % 32)

def setBit (g : Block) (bi : Nat) : Block := upd g (bi / 32) (g (bi / 32) ||| 2 ^ (bi % 32))

def clearBit (g : Block) (bi : Nat) : Block :=
  upd g (bi / 32) (g (bi / 32) ^^^ (g (bi / 32) &&& 2 ^ (bi % 32)))

def byte (g : Block) (k : Nat) : Nat := g (k / 4) / 256 ^ (k % 4) % 256

def setByte (g : Block) (k v : Nat) : Block :=
  upd g (k / 4) (g (k / 4) - byte g k * 256 ^ (k % 4) + v % 256 * 256 ^ (k % 4))

/-- Bytes copied into a block from the offset `off` on. -/
def setBytes (g : Block) (off : Nat) : List Nat → Block
  | [] => g
  | v :: vs => setBytes (setByte g off v) (off + 1) vs

/-- The bytes from `off` on. -/
def bytes (g : Block) (off m : Nat) : List Nat := (List.range m).map fun k => byte g (off + k)

/-! ### The free map -/

/-- `bzero`. -/
def bzero (bno : Nat) : Code Unit := do
  bread bno
  setData bno fun _ => 0
  logWrite bno
  brelse bno

/-- `balloc` in the block of the free map that starts with block `b`. -/
def ballocIn (sb : Superblock) (b : Nat) : Code (Option Nat) := do
  bread (sb.bblock b)
  let g ← data (sb.bblock b)
  match (List.range (min BPB (sb.size - b))).find? fun bi => bit g bi = false with
  | some bi => do
    setData (sb.bblock b) (setBit g bi)
    logWrite (sb.bblock b)
    brelse (sb.bblock b)
    bzero (b + bi)
    pure (some (b + bi))
  | none => do
    brelse (sb.bblock b)
    pure none

def ballocLoop (sb : Superblock) : List Nat → Code Nat
  | [] => pure 0
  | b :: bs => do
    match ← ballocIn sb b with
    | some a => pure a
    | none => ballocLoop sb bs

/-- `balloc`: a zeroed block, 0 if there is none. -/
def balloc (sb : Superblock) : Code Nat :=
  ballocLoop sb ((List.range ((sb.size + BPB - 1) / BPB)).map (· * BPB))

/-- `bfree`. -/
def bfree (sb : Superblock) (b : Nat) : Code Unit := do
  bread (sb.bblock b)
  let g ← data (sb.bblock b)
  if bit g (b % BPB) = false then panic "freeing free block"
  else do
    setData (sb.bblock b) (clearBit g (b % BPB))
    logWrite (sb.bblock b)
    brelse (sb.bblock b)

/-! ### Inodes -/

/-- `struct inode` without `ref`, `lock` and `valid`. -/
structure Inode where
  inum : Nat
  type : Nat
  major : Nat
  minor : Nat
  nlink : Nat
  size : Nat
  addrs : Nat → Nat

/-- The `struct dinode` of the inode `inum` in its block. -/
def getDinode (g : Block) (inum : Nat) : Inode where
  inum
  type := g (inum % IPB * 16) % 2 ^ 16
  major := g (inum % IPB * 16) / 2 ^ 16 % 2 ^ 16
  minor := g (inum % IPB * 16 + 1) % 2 ^ 16
  nlink := g (inum % IPB * 16 + 1) / 2 ^ 16 % 2 ^ 16
  size := g (inum % IPB * 16 + 2)
  addrs := fun j => g (inum % IPB * 16 + 3 + j)

/-- The words of a `struct dinode`. -/
def dinodeWord (ip : Inode) (w : Nat) : Nat :=
  if w = 0 then ip.type % 2 ^ 16 + ip.major % 2 ^ 16 * 2 ^ 16
  else if w = 1 then ip.minor % 2 ^ 16 + ip.nlink % 2 ^ 16 * 2 ^ 16
  else if w = 2 then ip.size
  else ip.addrs (w - 3)

def setDinode (g : Block) (ip : Inode) : Block := fun w =>
  if w / 16 = ip.inum % IPB then dinodeWord ip (w % 16) else g w

/-- The half of `ilock` that reads the inode. -/
def readInode (sb : Superblock) (inum : Nat) : Code Inode := do
  bread (sb.iblock inum)
  let g ← data (sb.iblock inum)
  brelse (sb.iblock inum)
  if (getDinode g inum).type = 0 then panic "ilock: no type"
  else pure (getDinode g inum)

/-- `iupdate`. -/
def iupdate (sb : Superblock) (ip : Inode) : Code Unit := do
  bread (sb.iblock ip.inum)
  let g ← data (sb.iblock ip.inum)
  setData (sb.iblock ip.inum) (setDinode g ip)
  logWrite (sb.iblock ip.inum)
  brelse (sb.iblock ip.inum)

/-- A zeroed inode of the given type. -/
def newInode (inum type : Nat) : Inode :=
  { inum, type, major := 0, minor := 0, nlink := 0, size := 0, addrs := fun _ => 0 }

def iallocLoop (sb : Superblock) (type : Nat) : List Nat → Code (Option Nat)
  | [] => pure none
  | inum :: is => do
    bread (sb.iblock inum)
    let g ← data (sb.iblock inum)
    if (getDinode g inum).type = 0 then do
      setData (sb.iblock inum) (setDinode g (newInode inum type))
      logWrite (sb.iblock inum)
      brelse (sb.iblock inum)
      pure (some inum)
    else do
      brelse (sb.iblock inum)
      iallocLoop sb type is

/-- `ialloc` without the `iget` at its end. -/
def ialloc (sb : Superblock) (type : Nat) : Code (Option Nat) :=
  iallocLoop sb type (List.range' 1 (sb.ninodes - 1))

/-! ### Contents -/

/-- The block in the slot `j` of `addrs`, allocated if there is none. -/
def bmapSlot (sb : Superblock) (ip : Inode) (j : Nat) : Code (Inode × Nat) :=
  if ip.addrs j = 0 then do
    let addr ← balloc sb
    if addr = 0 then pure (ip, 0)
    else pure ({ ip with addrs := upd ip.addrs j addr }, addr)
  else pure (ip, ip.addrs j)

/-- The second half of `bmap`: the entry `bn` of the indirect block `ind`. -/
def bmapIndirect (sb : Superblock) (ind bn : Nat) : Code Nat := do
  bread ind
  let a ← data ind
  if a bn = 0 then do
    let addr ← balloc sb
    if addr = 0 then pure ()
    else do
      setData ind (upd a bn addr)
      logWrite ind
    brelse ind
    pure addr
  else do
    brelse ind
    pure (a bn)

/-- `bmap`: the block `bn` of an inode, 0 if there is no space. -/
def bmap (sb : Superblock) (ip : Inode) (bn : Nat) : Code (Inode × Nat) :=
  if bn < NDIRECT then bmapSlot sb ip bn
  else if bn - NDIRECT < NINDIRECT then do
    let (ip, ind) ← bmapSlot sb ip NDIRECT
    if ind = 0 then pure (ip, 0)
    else do
      let addr ← bmapIndirect sb ind (bn - NDIRECT)
      pure (ip, addr)
  else panic "bmap: out of range"

/-- The first loop of `itrunc`. -/
def itruncDirect (sb : Superblock) : List Nat → Inode → Code Inode
  | [], ip => pure ip
  | j :: js, ip =>
    if ip.addrs j = 0 then itruncDirect sb js ip
    else do
      bfree sb (ip.addrs j)
      itruncDirect sb js { ip with addrs := upd ip.addrs j 0 }

/-- The second loop of `itrunc`. -/
def itruncIndirect (sb : Superblock) (a : Block) : List Nat → Code Unit
  | [] => pure ()
  | j :: js => do
    if a j = 0 then pure () else bfree sb (a j)
    itruncIndirect sb a js

/-- The second half of `itrunc`: the indirect block and the blocks that it names. -/
def itruncSecond (sb : Superblock) (ip : Inode) : Code Inode :=
  if ip.addrs NDIRECT = 0 then pure ip
  else do
    bread (ip.addrs NDIRECT)
    let a ← data (ip.addrs NDIRECT)
    itruncIndirect sb a (List.range NINDIRECT)
    brelse (ip.addrs NDIRECT)
    bfree sb (ip.addrs NDIRECT)
    pure { ip with addrs := upd ip.addrs NDIRECT 0 }

/-- `itrunc`. -/
def itrunc (sb : Superblock) (ip : Inode) : Code Inode := do
  let ip ← itruncDirect sb (List.range NDIRECT) ip
  let ip ← itruncSecond sb ip
  iupdate sb { ip with size := 0 }
  pure { ip with size := 0 }

/-- Where `readi` copies to: `either_copyout` of the bytes from `tot` to `tot + m` succeeds
or not. -/
abbrev Sink : Type := Nat → Nat → Bool

/-- The loop of `readi`; each round copies a byte at least, so that `n` rounds do. -/
def readiLoop (sb : Superblock) (dst : Sink) (n : Nat) :
    Nat → Inode → Nat → Nat → List Nat → Code (Inode × Int × List Nat)
  | 0, ip, _, tot, out => pure (ip, tot, out)
  | fuel + 1, ip, off, tot, out =>
    if tot < n then do
      let (ip, addr) ← bmap sb ip (off / BSIZE)
      if addr = 0 then pure (ip, (tot : Int), out)
      else do
        bread addr
        let g ← data addr
        if dst tot (min (n - tot) (BSIZE - off % BSIZE)) then do
          brelse addr
          readiLoop sb dst n fuel ip (off + min (n - tot) (BSIZE - off % BSIZE))
            (tot + min (n - tot) (BSIZE - off % BSIZE))
            (out ++ bytes g (off % BSIZE) (min (n - tot) (BSIZE - off % BSIZE)))
        else do
          brelse addr
          pure (ip, -1, out)
    else pure (ip, (tot : Int), out)

/-- `readi`: how many bytes were read, or -1, and what was copied out. -/
def readi (sb : Superblock) (ip : Inode) (dst : Sink) (off n : Nat) :
    Code (Inode × Int × List Nat) :=
  if ip.size < off ∨ (off + n) % 2 ^ 32 < off then pure (ip, 0, [])
  else readiLoop sb dst (if ip.size < off + n then ip.size - off else n) n ip off 0 []

/-- Where `writei` copies from: kernel memory, or the pages of a process. -/
inductive Source
  | kernel (bytes : Nat → Nat)
  | user (page : Nat → Option (Nat → Nat)) (va : Nat)

/-- `copyin`: the bytes that were copied, and whether that is all of them.  A page that is
not there and that `vmfault` cannot supply is `none`. -/
def copyin (page : Nat → Option (Nat → Nat)) : Nat → Nat → Nat → List Nat × Bool
  | 0, _, len => ([], len = 0)
  | fuel + 1, va, len =>
    if len = 0 then ([], true)
    else match page (va / 4096) with
      | none => ([], false)
      | some p =>
        let n := min (4096 - va % 4096) len
        let r := copyin page fuel ((va / 4096 + 1) * 4096) (len - n)
        ((List.range n).map (fun k => p (va % 4096 + k)) ++ r.1, r.2)

/-- `either_copyin` of `m` bytes from the offset `tot` of the source. -/
def Source.copy (src : Source) (tot m : Nat) : List Nat × Bool :=
  match src with
  | .kernel bs => ((List.range m).map fun k => bs (tot + k), true)
  | .user page va => copyin page m (va + tot) m

/-- Bytes that have arrived in the buffer of the block `b`. -/
def arrive (b : Nat) (g : Block) (off : Nat) (bs : List Nat) : Code Unit :=
  if bs = [] then pure () else setData b (setBytes g off bs)

/-- The loop of `writei`: the inode, the offset and the count at its end. -/
def writeiLoop (sb : Superblock) (src : Source) (n : Nat) :
    Nat → Inode → Nat → Nat → Code (Inode × Nat × Nat)
  | 0, ip, off, tot => pure (ip, off, tot)
  | fuel + 1, ip, off, tot =>
    if tot < n then do
      let (ip, addr) ← bmap sb ip (off / BSIZE)
      if addr = 0 then pure (ip, off, tot)
      else do
        bread addr
        let g ← data addr
        let r := src.copy tot (min (n - tot) (BSIZE - off % BSIZE))
        -- what `either_copyin` has copied is in the buffer, also when it fails
        arrive addr g (off % BSIZE) r.1
        if r.2 then do
          logWrite addr
          brelse addr
          writeiLoop sb src n fuel ip (off + min (n - tot) (BSIZE - off % BSIZE))
            (tot + min (n - tot) (BSIZE - off % BSIZE))
        else do
          brelse addr
          pure (ip, off, tot)
    else pure (ip, off, tot)

/-- `writei`: the inode after it and how many bytes were written, or -1. -/
def writei (sb : Superblock) (ip : Inode) (src : Source) (off n : Nat) : Code (Inode × Int) :=
  if ip.size < off ∨ (off + n) % 2 ^ 32 < off then pure (ip, -1)
  else if MAXFILE * BSIZE < off + n then pure (ip, -1)
  else do
    let (ip, off, tot) ← writeiLoop sb src n n ip off 0
    let ip := if ip.size < off then { ip with size := off } else ip
    iupdate sb ip
    pure (ip, (tot : Int))

end Xv6.Fs
