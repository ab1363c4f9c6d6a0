import Mathlib.Data.Nat.Bitwise
import Mathlib.Tactic.Common

/-!
# Limits, layout and machine words

The constants of `kernel/param.h`, `kernel/memlayout.h`, `kernel/riscv.h` and `kernel/fs.h`, the
rounding macros, and the conversions C makes between its integer types.  A
`uint64` is a `Nat` below `2 ^ 64`, an `int` is an `Int`; `u64` and `u32` are the
conversions to an unsigned type, `i32` is the wrap of a signed 32-bit result.

`Image` is what the linker decides: where the kernel image ends (`end`, from which
`kalloc` manages memory) and where its trampoline page lies.
-/

namespace Xv6

/-! ### `param.h` -/

abbrev NPROC : Nat := 64
abbrev NCPU : Nat := 8
abbrev NOFILE : Nat := 16
abbrev NFILE : Nat := 100
abbrev MAXARG : Nat := 32
abbrev MAXPATH : Nat := 128
abbrev USERSTACK : Nat := 1
abbrev MMAPBASE : Nat := 0x40000000
abbrev NMMAPAREA : Nat := 64
abbrev PROT_READ : Int := 1
abbrev PROT_WRITE : Int := 2

instance : NeZero NPROC := ⟨by decide⟩

/-! ### `riscv.h` and `memlayout.h` -/

abbrev PGSIZE : Nat := 4096
abbrev MAXVA : Nat := 2 ^ 38
abbrev KERNBASE : Nat := 0x80000000
abbrev PHYSTOP : Nat := KERNBASE + 128 * 1024 * 1024
abbrev TRAMPOLINE : Nat := MAXVA - PGSIZE
abbrev TRAPFRAME : Nat := TRAMPOLINE - PGSIZE

/-- How many frames of `freewalk` fit on the one-page kernel stack. -/
abbrev KSTACKDEPTH : Nat := 64

/-! ### `fs.h` -/

abbrev BSIZE : Nat := 1024
abbrev NDIRECT : Nat := 12
/-- `BSIZE / sizeof(uint)` -/
abbrev NINDIRECT : Nat := BSIZE / 4
abbrev MAXFILE : Nat := NDIRECT + NINDIRECT
/-- `BSIZE / sizeof(struct dinode)` -/
abbrev IPB : Nat := BSIZE / 64
abbrev BPB : Nat := BSIZE * 8
abbrev DIRSIZ : Nat := 14
abbrev ROOTINO : Nat := 1

/-! ### Pages -/

/-- `PGROUNDUP`, on 64-bit words. -/
def pgroundup (sz : Nat) : Nat := (sz + PGSIZE - 1) % 2 ^ 64 / PGSIZE * PGSIZE

/-- `PGROUNDDOWN`. -/
def pgrounddown (a : Nat) : Nat := a / PGSIZE * PGSIZE

/-! ### C integers -/

/-- `(uint64)x`. -/
def u64 (x : Int) : Nat := (x % 2 ^ 64).toNat

/-- `(uint)x`. -/
def u32 (x : Int) : Nat := (x % 2 ^ 32).toNat

/-- The `int` that the low 32 bits of `x` are. -/
def i32 (x : Int) : Int := (x + 2 ^ 31) % 2 ^ 32 - 2 ^ 31

/-- `x & (1 << b)` is not zero. -/
def hasBit (x : Int) (b : Nat) : Bool := x / 2 ^ b % 2 == 1

/-! ### The kernel image -/

/-- What the linker script fixes: the first address after the kernel (`end`) and
the page of `trampoline.S`, inside the kernel's text. -/
class Image where
  kend : Nat
  trampoline : Nat
  base_le : KERNBASE ≤ trampoline
  aligned : trampoline % PGSIZE = 0
  trampoline_lt : trampoline < kend
  kend_le : kend ≤ PHYSTOP

theorem Image.base_le_kend [Image] : KERNBASE ≤ Image.kend :=
  Nat.le_of_lt (Nat.lt_of_le_of_lt base_le trampoline_lt)

/-- The reasons for which the allocator and the page tables stop the kernel: each `panic(s)`, and running
off the one-page kernel stack. -/
inductive MemPanic
  | kfree | kfreeRef | kaddref | kaddrefRef
  | walk | mapVa | mapSize | mapZero | remap | unmapVa
  | freewalkLeaf | uvmclear | boot | stackOverflow
  deriving DecidableEq, Repr

/-- The reasons for which the kernel stops. -/
inductive Panic
  | mem (e : MemPanic)
  | loadseg | filedup | fileclose | initExiting | initExec
  deriving DecidableEq, Repr

end Xv6
