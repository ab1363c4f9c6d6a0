import Xv6.Kernel
import Xv6.Lib.Run

/-!
# Machines

A run of the kernel starts in a `Booted` state: `main` has set up the allocator, the
kernel's own pages and the first process, for some image and some disk.

`smallKernel` is the booted state of one concrete machine: the kernel image leaves
`224` page frames, and every file on its disk is the smallest program `exec` accepts.
The model runs on it, so that a property can be looked at on a concrete run.
-/

namespace Xv6

open Xv6.Lib

/-- A state in which `main` enters the scheduler. -/
def Booted [Image] (s : Kernel) : Prop := ∃ disk, boot (reset disk) = .ok ((), s)

/-! ### A small machine -/

/-- An image that leaves `224` page frames to the allocator. -/
@[reducible] def smallImage : Image where
  kend := PHYSTOP - 224 * PGSIZE
  trampoline := KERNBASE
  base_le := by decide
  aligned := by decide
  trampoline_lt := by decide
  kend_le := by decide

/-- A program without segments: an ELF header and nothing else. -/
def smallProgram : Inode where
  size := 64
  data := fun b => [0x7f, 0x45, 0x4c, 0x46].getD b 0

/-- The small machine when it enters the scheduler. -/
def smallKernel : Kernel :=
  match @boot smallImage (reset fun _ => smallProgram) with
  | .ok (_, s) => s
  | .error _ => reset fun _ => smallProgram

theorem booted_small : @Booted smallImage smallKernel := by
  refine ⟨fun _ => smallProgram, ?_⟩
  have h : (@boot smallImage (reset fun _ => smallProgram)).isOk = true := by decide +kernel
  unfold smallKernel
  cases hb : @boot smallImage (reset fun _ => smallProgram) with
  | ok r => rfl
  | error e => rw [hb] at h; cases h

/-- The small machine after some acts. -/
def smallAfter (as : List Act) : Kernel :=
  (runCheck (@step smallImage) (fun _ _ => true) smallKernel as).getD smallKernel

theorem run_smallAfter {as : List Act}
    (h : (runCheck (@step smallImage) (fun _ _ => true) smallKernel as).isSome = true) :
    Run (@step smallImage) (fun _ _ => True) smallKernel as (smallAfter as) := by
  unfold smallAfter
  cases hr : runCheck (@step smallImage) (fun _ _ => true) smallKernel as with
  | none => rw [hr] at h; cases h
  | some t => exact (run_of_runCheck hr).mono fun _ _ _ => trivial

end Xv6
