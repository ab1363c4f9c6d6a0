import Xv6.Proc

/-!
# Running a program

`kernel/exec.c`: build a fresh page table from an ELF file, lay out the arguments
on its stack, and only then give up the old memory.  The header fields are read
from the bytes of the file, with the truncations of the source: `off` is an `int`,
and `loadseg` takes the file offset and the size of a segment as `uint`s.
-/

namespace Xv6

open Xv6.Lib

/-! ### ELF headers -/

abbrev ELF_MAGIC : Nat := 0x464C457F

/-- A little-endian field of `n` bytes at `off`. -/
def leField (data : Nat → UInt8) (off : Nat) : Nat → Nat
  | 0 => 0
  | n + 1 => (data off).toNat + 256 * leField data (off + 1) n

/-- The fields of `struct elfhdr` that `kexec` reads. -/
structure ElfHdr where
  magic : Nat
  entry : Nat
  phoff : Nat
  phnum : Nat

/-- The fields of `struct proghdr` that `kexec` reads. -/
structure ProgHdr where
  type : Nat
  flags : Nat
  off : Nat
  vaddr : Nat
  filesz : Nat
  memsz : Nat

def readElfHdr (data : Nat → UInt8) : ElfHdr where
  magic := leField data 0 4
  entry := leField data 24 8
  phoff := leField data 32 8
  phnum := leField data 56 2

def readProgHdr (data : Nat → UInt8) (o : Nat) : ProgHdr where
  type := leField data o 4
  flags := leField data (o + 4) 4
  off := leField data (o + 8) 8
  vaddr := leField data (o + 16) 8
  filesz := leField data (o + 32) 8
  memsz := leField data (o + 40) 8

/-- `flags2perm`. -/
def flags2perm (flags : Nat) : Nat :=
  (if flags.testBit 0 then PTE_X else 0) ||| (if flags.testBit 1 then PTE_W else 0)

/-- `a - b` on `uint64`s. -/
def sub64 (a b : Nat) : Nat := (a + 2 ^ 64 - b) % 2 ^ 64

/-- The bytes of a list, `0` past its end. -/
def listBytes (l : List UInt8) : Nat → UInt8 := fun k => l.getD k 0

/-- The bytes of an array of `uint64`s. -/
def wordBytes (l : List Nat) : Nat → UInt8 := fun k =>
  UInt8.ofNat (l.getD (k / 8) 0 / 256 ^ (k % 8))

section

variable [Image]

/-! ### Segments -/

/-- The loop of `loadseg` over `n` pages from `i` on; `false` on a short read. -/
def loadsegLoop (pagetable va ip offset sz : Nat) : Nat → Nat → VmM Bool
  | 0, _ => pure true
  | n + 1, i => do
    let pa ← onKmem (walkaddr pagetable ((va + i) % 2 ^ 64))
    if pa = 0 then throw .loadseg
    else do
      let cnt := min PGSIZE (sz - i)
      let tot ← readi ip pa ((offset + i) % 2 ^ 32) cnt
      if tot ≠ cnt then pure false else loadsegLoop pagetable va ip offset sz n (i + PGSIZE)

/-- `loadseg`; `offset` and `sz` are truncated to `uint`s. -/
def loadseg (pagetable va ip offset sz : Nat) : VmM Bool :=
  let sz := sz % 2 ^ 32
  loadsegLoop pagetable va ip (offset % 2 ^ 32) sz (pagesTo 0 sz) 0

/-- The loop of `kexec` over `n` program headers, from the one at `off` on: whether
it went through, and the size reached. -/
def loadSegments (pagetable ip : Nat) : Nat → Int → Nat → VmM (Bool × Nat)
  | 0, _, sz => pure (true, sz)
  | n + 1, off, sz => do
    let v ← get
    let f := v.inode ip
    if readiCount f (u32 off) 56 ≠ 56 then pure (false, sz)
    else
      let ph := readProgHdr f.data (u32 off)
      if ph.type ≠ 1 then loadSegments pagetable ip n (i32 (off + 56)) sz
      else if ph.memsz < ph.filesz then pure (false, sz)
      else if (ph.vaddr + ph.memsz) % 2 ^ 64 < ph.vaddr then pure (false, sz)
      else if ph.vaddr % PGSIZE ≠ 0 then pure (false, sz)
      else do
        let sz1 ← onKmem (uvmalloc pagetable sz (ph.vaddr + ph.memsz) (flags2perm ph.flags))
        if sz1 = 0 then pure (false, sz)
        else do
          if ← loadseg pagetable ph.vaddr ip ph.off ph.filesz then
            loadSegments pagetable ip n (i32 (off + 56)) sz1
          else pure (false, sz1)

/-! ### Arguments -/

/-- The loop of `kexec` over the argument strings: `sp` and the addresses pushed so
far, `none` when they do not fit or cannot be copied. -/
def pushArgs (p : Fin NPROC) (oldsz pagetable stackbase : Nat) :
    List (List UInt8) → Nat → List Nat → VmM (Option (Nat × List Nat))
  | [], sp, ustack => pure (some (sp, ustack))
  | str :: args, sp, ustack =>
    if MAXARG ≤ ustack.length then pure none
    else
      let sp := sub64 sp (str.length + 1)
      let sp := sp - sp % 16
      if sp < stackbase then pure none
      else do
        if ← copyout p oldsz pagetable sp (listBytes str) (str.length + 1) then
          pushArgs p oldsz pagetable stackbase args sp (ustack ++ [sp])
        else pure none

/-- The part of `kexec` that sets up the stack: `sz` and `sp`, or the size to free. -/
def setupStack (p : Fin NPROC) (oldsz pagetable sz : Nat) (argv : List (List UInt8)) :
    VmM (Except Nat (Nat × Nat)) := do
  let sz := pgroundup sz
  let sz1 ← onKmem (uvmalloc pagetable sz (sz + (USERSTACK + 1) * PGSIZE) PTE_W)
  if sz1 = 0 then pure (.error sz)
  else do
    let sz := sz1
    onKmem (uvmclear pagetable (sz - (USERSTACK + 1) * PGSIZE))
    let stackbase := sz - USERSTACK * PGSIZE
    match ← pushArgs p oldsz pagetable stackbase argv sz [] with
    | none => pure (.error sz)
    | some (sp, ustack) =>
      let argc := ustack.length
      let sp := sub64 sp ((argc + 1) * 8)
      let sp := sp - sp % 16
      if sp < stackbase then pure (.error sz)
      else do
        if ← copyout p oldsz pagetable sp (wordBytes (ustack ++ [0])) ((argc + 1) * 8) then
          pure (.ok (sz, sp))
        else pure (.error sz)

/-! ### `kexec` -/

/-- What `kexec` leaves in `struct proc`. -/
structure ExecImage where
  pagetable : Nat
  sz : Nat
  argc : Nat

/-! The words of the trapframe page that `kexec` and `kfork` write. -/

abbrev TF_EPC : Nat := 3
abbrev TF_SP : Nat := 6
abbrev TF_A0 : Nat := 14
abbrev TF_A1 : Nat := 15

/-- `kexec` from the new page table on. -/
def kexecLoad (p : Fin NPROC) (oldsz oldpagetable trapframe ip : Nat) (elf : ElfHdr)
    (argv : List (List UInt8)) (pagetable : Nat) : VmM (Option ExecImage) := do
  match ← loadSegments pagetable ip elf.phnum (i32 elf.phoff) 0 with
  | (false, sz) => do
    onKmem (procFreepagetable pagetable sz)
    pure none
  | (true, sz) =>
    match ← setupStack p oldsz pagetable sz argv with
    | .error sz => do
      onKmem (procFreepagetable pagetable sz)
      pure none
    | .ok (sz, sp) => do
      onKmem (storeWord trapframe TF_A1 sp)
      -- commit to the user image
      mmapfreeproc p oldpagetable
      onKmem (storeWord trapframe TF_EPC elf.entry)
      onKmem (storeWord trapframe TF_SP sp)
      onKmem (procFreepagetable oldpagetable oldsz)
      pure (some { pagetable, sz, argc := argv.length })

/-- `kexec`; `ip` is the file that `namei(path)` finds.  `none` stands for `-1`. -/
def kexec (p : Fin NPROC) (oldsz oldpagetable trapframe : Nat) (ip : Option Nat)
    (argv : List (List UInt8)) : VmM (Option ExecImage) := do
  match ip with
  | none => pure none
  | some ip => do
    let v ← get
    let f := v.inode ip
    if readiCount f 0 64 ≠ 64 then pure none
    else
      let elf := readElfHdr f.data
      if elf.magic ≠ ELF_MAGIC then pure none
      else do
        match ← onKmem (procPagetable trapframe) with
        | none => pure none
        | some pagetable => kexecLoad p oldsz oldpagetable trapframe ip elf argv pagetable

end

end Xv6
