import Xv6.Uvm

/-!
# Open files

The part of `kernel/file.c`, `kernel/pipe.c` and `kernel/fs.c` that memory depends
on: the table of `struct file` with its reference counts, the two ends of a pipe,
whose buffer is a page of `kalloc`, and reading a file into memory.

A `Vm` is the memory of the machine with the tables through which it is used: the
allocator, the mmap areas, the open files, the pipes (by the page that holds them)
and the files on disk.
-/

namespace Xv6

open Xv6.Lib

/-! ### The state -/

inductive FileType
  | none | pipe | inode | device
  deriving DecidableEq, Repr

/-- `struct file`. -/
structure File where
  type : FileType := .none
  ref : Nat := 0
  readable : Bool := false
  writable : Bool := false
  pipe : Nat := 0
  ip : Nat := 0

/-- What an open file stands for: an inode or an end of a pipe. -/
inductive Resource
  | inode (ip : Nat)
  | pipe (pi : Nat) (writable : Bool)
  deriving DecidableEq

/-- What `fileclose` gives back with the last reference. -/
def File.resource (f : File) : Option Resource :=
  match f.type with
  | .none => none
  | .pipe => some (.pipe f.pipe f.writable)
  | .inode | .device => some (.inode f.ip)

/-- `struct pipe`: which ends are open. -/
structure Pipe where
  readopen : Bool := false
  writeopen : Bool := false

/-- A file on disk: its length and its bytes. -/
structure Inode where
  size : Nat
  data : Nat → UInt8

/-- `struct mmap_area`; a slot is free when `p` is `none`. -/
structure MmapArea where
  f : Option (Fin NFILE) := none
  addr : Nat := 0
  length : Int := 0
  offset : Int := 0
  prot : Int := 0
  flags : Int := 0
  p : Option (Fin NPROC) := none

/-- The memory of the machine and the tables through which it is used. -/
structure Vm where
  kmem : Kmem
  area : Fin NMMAPAREA → MmapArea
  file : Fin NFILE → File
  pipe : Nat → Pipe
  inode : Nat → Inode
  /-- The calls of `iput` and `pipeclose` in `fileclose` so far, with the file; latest first. -/
  released : List (Fin NFILE × Resource) := []

abbrev VmM (α : Type) : Type := Prog Vm Panic α

/-- Run an operation of the allocator or of a page table. -/
def onKmem {α : Type} (x : KmemM α) : VmM α := zoom Vm.kmem (fun k v => { v with kmem := k }) .mem x

def Vm.setFile (v : Vm) (f : Fin NFILE) (x : File) : Vm :=
  { v with file := upd v.file f x }

def Vm.setArea (v : Vm) (i : Fin NMMAPAREA) (a : MmapArea) : Vm :=
  { v with area := upd v.area i a }

/-! ### Reading a file -/

/-- `readi` into kernel memory: how many bytes it copies; they are the bytes of the
file from `off` on.  `off` and `n` are `uint`s. -/
def readiCount (ip : Inode) (off n : Nat) : Nat :=
  if ip.size < off ∨ (off + n) % 2 ^ 32 < off then 0
  else if ip.size < (off + n) % 2 ^ 32 then ip.size - off
  else n

/-- `readi(ip, 0, pa, off, n)`. -/
def readi (ip pa off n : Nat) : VmM Nat := do
  let v ← get
  let f := v.inode ip
  let tot := readiCount f off n
  onKmem (modify fun m => m.setPage pa (blit (m.mem pa) 0 tot fun b => f.data (off + b)))
  pure tot

/-! ### The file table -/

/-- `filealloc`. -/
def filealloc : VmM (Option (Fin NFILE)) := do
  let v ← get
  match (List.finRange NFILE).find? fun f => (v.file f).ref == 0 with
  | none => pure none
  | some f => do
    set (v.setFile f { v.file f with ref := 1 })
    pure (some f)

/-- `filedup`. -/
def filedup (f : Fin NFILE) : VmM Unit := do
  let v ← get
  if (v.file f).ref < 1 then throw .filedup
  else set (v.setFile f { v.file f with ref := (v.file f).ref + 1 })

section

variable [Image]

/-- `pipeclose`: the page goes when both ends are closed. -/
def pipeclose (pi : Nat) (writable : Bool) : VmM Unit := do
  let v ← get
  let e : Pipe := if writable then { v.pipe pi with writeopen := false }
    else { v.pipe pi with readopen := false }
  set { v with pipe := upd v.pipe pi e }
  if !e.readopen && !e.writeopen then onKmem (kfree pi) else pure ()

/-- Give back what a file stands for; `iput` touches no memory. -/
def release (f : Fin NFILE) (r : Resource) : VmM Unit := do
  modify fun v => { v with released := (f, r) :: v.released }
  match r with
  | .pipe pi writable => pipeclose pi writable
  | .inode _ => pure ()

/-- `fileclose`. -/
def fileclose (f : Fin NFILE) : VmM Unit := do
  let v ← get
  let ff := v.file f
  if ff.ref < 1 then throw .fileclose
  else if 0 < ff.ref - 1 then set (v.setFile f { ff with ref := ff.ref - 1 })
  else do
    set (v.setFile f { ff with ref := 0, type := .none })
    match ff.resource with
    | none => pure ()
    | some r => release f r

/-- `if(f) fileclose(f)`. -/
def filecloseOpt (f : Option (Fin NFILE)) : VmM Unit :=
  match f with
  | none => pure ()
  | some f => fileclose f

/-- `if(f) filedup(f)`. -/
def filedupOpt (f : Option (Fin NFILE)) : VmM Unit :=
  match f with
  | none => pure ()
  | some f => filedup f

/-- `pipealloc`: a read end and a write end on a fresh page. -/
def pipealloc : VmM (Option (Fin NFILE × Fin NFILE)) := do
  match ← filealloc with
  | none => pure none
  | some f0 =>
    match ← filealloc with
    | none => do
      fileclose f0
      pure none
    | some f1 =>
      match ← onKmem kalloc with
      | none => do
        fileclose f0
        fileclose f1
        pure none
      | some pi => do
        modify fun v =>
          { v with pipe := upd v.pipe pi { readopen := true, writeopen := true } }
        modify fun v =>
          v.setFile f0 { v.file f0 with type := .pipe, readable := true, writable := false, pipe := pi }
        modify fun v =>
          v.setFile f1 { v.file f1 with type := .pipe, readable := false, writable := true, pipe := pi }
        pure (some (f0, f1))

end

end Xv6
