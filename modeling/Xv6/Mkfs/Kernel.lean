import Xv6.Content.Dir
import Xv6.Mkfs.Model

/-!
# Reading the image in the kernel

The part of `kernel/fs.c` that looks up a path and reads a file, on the bytes of a disk.  `mkfs` and
the kernel share the header `fs.h` only.  `Fs.files` takes the bytes apart as the kernel does, an inode
as `ilock` reads it; from there on the functions are those of `Content`.

A path is a C string without its end.  The array `name` of `namex` is the bytes that `skipelem` puts
there: what stands behind the end of a short name is not compared.
-/

namespace Xv6.Mkfs.Kernel

open Xv6.Lib
open Xv6.Content (Disk)

/-- Why the kernel stops. -/
inductive Panic
  /-- `invalid file system` -/
  | fsinit
  /-- `ilock: no type` -/
  | ilock
  /-- `dirlookup read` or `bmap: out of range` -/
  | dirlookup
  deriving DecidableEq

/-- `struct superblock` -/
structure Superblock where
  magic : Nat
  size : Nat
  nblocks : Nat
  ninodes : Nat
  nlog : Nat
  logstart : Nat
  inodestart : Nat
  bmapstart : Nat

/-- A disk, and the superblock `sb` in memory. -/
structure Fs where
  disk : Nat → Bytes
  sb : Superblock

/-- `readsb` -/
def readsb (disk : Nat → Bytes) : Superblock where
  magic := le32 (disk 1) 0
  size := le32 (disk 1) 4
  nblocks := le32 (disk 1) 8
  ninodes := le32 (disk 1) 12
  nlog := le32 (disk 1) 16
  logstart := le32 (disk 1) 20
  inodestart := le32 (disk 1) 24
  bmapstart := le32 (disk 1) 28

namespace Fs

/-- The inode on the disk. -/
def dinode (fs : Fs) (inum : Nat) : Dinode :=
  getDinode (fs.disk (inum / IPB + fs.sb.inodestart)) (inum % IPB * 64)

/-- The byte of the free map with the bit of block `b`. -/
def mapByte (fs : Fs) (b : Nat) : UInt8 := fs.disk (b / BPB + fs.sb.bmapstart) (b % BPB / 8)

/-- The files on the disk. -/
def files (fs : Fs) : Disk where
  size i := (fs.dinode i).size
  addrs i k := if h : k < NDIRECT + 1 then (fs.dinode i).addrs ⟨k, h⟩ else 0
  data := fs.disk
  words b k := le32 (fs.disk b) (4 * k)
  used b := (fs.mapByte b).toNat.testBit (b % BPB % 8)
  nblocks := fs.sb.size

end Fs

/-- `fsinit`, before the log is recovered. -/
def fsinit (disk : Nat → Bytes) : Except Panic Fs :=
  if (readsb disk).magic = FSMAGIC then .ok ⟨disk, readsb disk⟩ else .error .fsinit

/-- `ilock`, of an inode that is not in memory yet. -/
def ilock (fs : Fs) (inum : Nat) : Except Panic Dinode :=
  if (fs.dinode inum).type = 0 then .error .ilock else .ok (fs.dinode inum)

/-! ### Paths -/

/-- `skipelem`: the next element of a path, and the path behind it. -/
def skipelem (path : List UInt8) : Option (List UInt8 × List UInt8) :=
  let s := path.dropWhile (· == 47)
  if s = [] then none
  else some ((s.takeWhile (· != 47)).take DIRSIZ, (s.dropWhile (· != 47)).dropWhile (· == 47))

/-- The loop of `namex`, with `nameiparent` not set.  Every round takes a byte of the path. -/
def namex (fs : Fs) : Nat → Disk → Nat → List UInt8 → Except Panic (Option Nat × Disk)
  | 0, s, inum, _ => .ok (some inum, s)
  | fuel + 1, s, inum, path =>
    match skipelem path with
    | none => .ok (some inum, s)
    | some (name, path) => do
      let d ← ilock fs inum
      if d.type ≠ T_DIR then pure (none, s)
      else
        match s.dirlookup inum name with
        | none => .error .dirlookup
        | some (none, s) => pure (none, s)
        | some (some (next, _), s) => namex fs fuel s next path

/-- `namei`, from the root. -/
def namei (fs : Fs) (path : List UInt8) : Except Panic (Option Nat × Disk) :=
  namex fs path.length fs.files ROOTINO path

end Xv6.Mkfs.Kernel
