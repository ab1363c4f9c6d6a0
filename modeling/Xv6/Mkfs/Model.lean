import Xv6.Lib.Bytes
import Xv6.Lib.Upd
import Xv6.Param

/-!
# `mkfs`

`mkfs/mkfs.c`, on the bytes of the image.  The program opens its output with `O_TRUNC` and writes
`FSSIZE` blocks of zeros first, so a read of a block at or beyond `FSSIZE` comes back short and
`rsect` dies.  An argument is a file that can be opened: its name, and what the calls of `read` return
until the end of the file.
-/

namespace Xv6.Mkfs

open Xv6.Lib

abbrev FSSIZE : Nat := 2000
abbrev NINODES : Nat := 200
abbrev LOGBLOCKS : Nat := 30
abbrev FSMAGIC : Nat := 0x10203040
abbrev T_DIR : Nat := 1
abbrev T_FILE : Nat := 2

abbrev nbitmap : Nat := FSSIZE / BPB + 1
abbrev ninodeblocks : Nat := NINODES / IPB + 1
abbrev nlog : Nat := LOGBLOCKS + 1
abbrev nmeta : Nat := 2 + nlog + ninodeblocks + nbitmap
abbrev nblocks : Nat := FSSIZE - nmeta
abbrev inodestart : Nat := 2 + nlog
abbrev bmapstart : Nat := 2 + nlog + ninodeblocks

/-- Why `mkfs` does not finish. -/
inductive Stop
  | die
  | assert
  deriving DecidableEq

/-! ### Inodes -/

/-- `struct dinode` -/
@[ext] structure Dinode where
  type : Nat
  major : Nat
  minor : Nat
  nlink : Nat
  size : Nat
  addrs : Fin (NDIRECT + 1) → Nat

/-- The inode at offset `o` of a block. -/
def getDinode (b : Bytes) (o : Nat) : Dinode where
  type := le16 b o
  major := le16 b (o + 2)
  minor := le16 b (o + 4)
  nlink := le16 b (o + 6)
  size := le32 b (o + 8)
  addrs := fun k => le32 b (o + 12 + 4 * k)

/-- The bytes of an inode. -/
def Dinode.bytes (d : Dinode) : List UInt8 :=
  bytes16 d.type ++ bytes16 d.major ++ bytes16 d.minor ++ bytes16 d.nlink ++ bytes32 d.size ++
    (List.finRange (NDIRECT + 1)).flatMap fun k => bytes32 (d.addrs k)

/-- `IBLOCK` -/
def iblock (inum : Nat) : Nat := inum / IPB + inodestart

/-- Where in its block the inode is. -/
def ioffset (inum : Nat) : Nat := inum % IPB * 64

/-! ### The image -/

structure Image where
  data : Nat → Bytes
  freeinode : Nat
  freeblock : Nat

/-- The block at which `lseek` ends up: the offset is 32 bits wide. -/
def sector (sec : Nat) : Nat := sec * BSIZE % 2 ^ 32 / BSIZE

/-- `rsect` -/
def rsect (s : Image) (sec : Nat) : Except Stop Bytes :=
  if sector sec < FSSIZE then .ok (s.data (sector sec)) else .error .die

/-- `wsect` -/
def wsect (s : Image) (sec : Nat) (b : Bytes) : Image :=
  { s with data := upd s.data (sector sec) b }

/-- `winode` -/
def winode (s : Image) (inum : Nat) (d : Dinode) : Except Stop Image := do
  let buf ← rsect s (iblock inum)
  pure (wsect s (iblock inum) (put buf (ioffset inum) d.bytes))

/-- `rinode` -/
def rinode (s : Image) (inum : Nat) : Except Stop Dinode := do
  let buf ← rsect s (iblock inum)
  pure (getDinode buf (ioffset inum))

/-- `ialloc` -/
def ialloc (s : Image) (type : Nat) : Except Stop (Nat × Image) := do
  let inum := s.freeinode
  let s ← winode { s with freeinode := s.freeinode + 1 } inum ⟨type, 0, 0, 1, 0, fun _ => 0⟩
  pure (inum, s)

/-- The loop of `balloc`, over the bits below `used`. -/
def setBits : Nat → Bytes
  | 0 => fun _ => 0
  | i + 1 => upd (setBits i) (i / 8) (setBits i (i / 8) ||| UInt8.ofNat (2 ^ (i % 8)))

/-- `balloc` -/
def balloc (s : Image) (used : Nat) : Except Stop Image :=
  if used < BPB then .ok (wsect s bmapstart (setBits used)) else .error .assert

/-! ### Appending to a file -/

/-- Set an entry of `addrs`. -/
def Dinode.setAddr (d : Dinode) (k : Fin (NDIRECT + 1)) (b : Nat) : Dinode :=
  { d with addrs := upd d.addrs k b }

/-- `if(din.addrs[k] == 0) din.addrs[k] = freeblock++` -/
def addBlock (s : Image) (d : Dinode) (k : Fin (NDIRECT + 1)) : Image × Dinode :=
  if d.addrs k = 0 then ({ s with freeblock := s.freeblock + 1 }, d.setAddr k s.freeblock) else (s, d)

/-- The part of `iappend` that finds the block `fbn` of the file. -/
def mapBlock (s : Image) (d : Dinode) (fbn : Nat) : Except Stop (Nat × Image × Dinode) :=
  if h : fbn < NDIRECT then
    let (s, d) := addBlock s d ⟨fbn, Nat.lt_succ_of_lt h⟩
    .ok (d.addrs ⟨fbn, Nat.lt_succ_of_lt h⟩, s, d)
  else do
    let (s, d) := addBlock s d (Fin.last NDIRECT)
    let indirect ← rsect s (d.addrs (Fin.last NDIRECT))
    if le32 indirect (4 * (fbn - NDIRECT)) = 0 then
      pure (s.freeblock,
        wsect { s with freeblock := s.freeblock + 1 } (d.addrs (Fin.last NDIRECT))
          (put indirect (4 * (fbn - NDIRECT)) (bytes32 s.freeblock)), d)
    else pure (le32 indirect (4 * (fbn - NDIRECT)), s, d)

/-- The loop of `iappend`: every round takes at least one of the `fuel` bytes of `p`. -/
def appendLoop : Nat → Image → Dinode → Nat → List UInt8 → Except Stop (Image × Dinode × Nat)
  | 0, s, d, off, _ => .ok (s, d, off)
  | fuel + 1, s, d, off, p =>
    if p.length = 0 then .ok (s, d, off)
    else if off / BSIZE < MAXFILE then do
      let fbn := off / BSIZE
      let (x, s, d) ← mapBlock s d fbn
      let n1 := min p.length ((fbn + 1) * BSIZE - off)
      let buf ← rsect s x
      appendLoop fuel (wsect s x (put buf (off - fbn * BSIZE) (p.take n1))) d (off + n1) (p.drop n1)
    else .error .assert

/-- `iappend` -/
def iappend (s : Image) (inum : Nat) (p : List UInt8) : Except Stop Image := do
  let d ← rinode s inum
  let (s, d, off) ← appendLoop p.length s d d.size p
  winode s inum { d with size := off }

/-! ### The program -/

/-- What one `read` returns. -/
abbrev Chunk : Type := { r : List UInt8 // r ≠ [] ∧ r.length ≤ BSIZE }

/-- An argument of `mkfs`: a C string, and the file of that name. -/
structure File where
  name : List UInt8
  noNul : 0 ∉ name
  reads : List Chunk

/-- The content of the file. -/
def File.content (f : File) : List UInt8 := f.reads.flatMap Subtype.val

/-- `user/` -/
def userDir : List UInt8 := [117, 115, 101, 114, 47]

/-- The name without `user/`. -/
def File.base (f : File) : List UInt8 :=
  if userDir.isPrefixOf f.name then f.name.drop 5 else f.name

/-- The name in the file system: a leading `_` is skipped. -/
def File.shortname (f : File) : List UInt8 :=
  if f.base.head? = some 95 then f.base.drop 1 else f.base

/-- A `struct dirent`. -/
def dirent (inum : Nat) (name : List UInt8) : List UInt8 :=
  bytes16 inum ++ name ++ List.replicate (DIRSIZ - name.length) 0

/-- The loop over `read`. -/
def copyLoop (s : Image) (inum : Nat) : List Chunk → Except Stop Image
  | [] => .ok s
  | r :: rs => do
    let s ← iappend s inum r.1
    copyLoop s inum rs

/-- One round of the loop of `main`. -/
def addFile (s : Image) (f : File) : Except Stop Image :=
  if 47 ∈ f.base then .error .assert
  else if DIRSIZ < f.shortname.length then .error .assert
  else do
    let (inum, s) ← ialloc s T_FILE
    let s ← iappend s ROOTINO (dirent inum f.shortname)
    copyLoop s inum f.reads

def addFiles (s : Image) : List File → Except Stop Image
  | [] => .ok s
  | f :: fs => do
    let s ← addFile s f
    addFiles s fs

/-- The superblock in its block. -/
def superblock : Bytes :=
  put (fun _ => 0) 0 (bytes32 FSMAGIC ++ bytes32 FSSIZE ++ bytes32 nblocks ++ bytes32 NINODES ++
    bytes32 nlog ++ bytes32 2 ++ bytes32 inodestart ++ bytes32 bmapstart)

/-- The image with the superblock and nothing else. -/
def blank : Image := wsect ⟨fun _ _ => 0, 1, nmeta⟩ 1 superblock

/-- `main` up to the loop over the files. -/
def makeRoot : Except Stop Image := do
  let (rootino, s) ← ialloc blank T_DIR
  if rootino = ROOTINO then do
    let s ← iappend s rootino (dirent rootino [46])
    iappend s rootino (dirent rootino [46, 46])
  else .error .assert

/-- `main` after the loop. -/
def finish (s : Image) : Except Stop Image := do
  let d ← rinode s ROOTINO
  let s ← winode s ROOTINO { d with size := (d.size / BSIZE + 1) * BSIZE }
  balloc s s.freeblock

/-- `mkfs` -/
def mkfs (files : List File) : Except Stop Image := do
  let s ← makeRoot
  let s ← addFiles s files
  finish s

end Xv6.Mkfs
