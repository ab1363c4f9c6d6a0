import Xv6.Kernel

/-!
# What leaves the open files alone

Memory is allocated, mapped and copied all over the kernel.  None of that touches the table of
open files, the mmap areas or the descriptors, and none of it ends in a panic of `filedup` or
`fileclose`: an operation on memory is `Aside`.
-/

namespace Xv6

open Xv6.Lib

/-- A panic that is not one of `kernel/file.c`. -/
def Panic.Other (e : Panic) : Prop := e ≠ .filedup ∧ e ≠ .fileclose

instance (e : Panic) : Decidable e.Other := inferInstanceAs (Decidable (_ ∧ _))

/-! ### Operations on memory -/

/-- The open files, the areas and what was released are the same. -/
structure Vm.Beside (v w : Vm) : Prop where
  file : w.file = v.file
  area : w.area = v.area
  released : w.released = v.released

theorem Vm.Beside.refl (v : Vm) : v.Beside v := ⟨rfl, rfl, rfl⟩

theorem Vm.Beside.trans {u v w : Vm} (h : u.Beside v) (h' : v.Beside w) : u.Beside w :=
  ⟨h'.file.trans h.file, h'.area.trans h.area, h'.released.trans h.released⟩

/-- Memory changes, the open files do not. -/
structure Aside {α : Type} (x : VmM α) : Prop where
  spec : ∀ v, wp x v (fun _ w => v.Beside w) Panic.Other

section Rules

variable {α β : Type}

theorem aside_pure {a : α} : Aside (pure a : VmM α) := ⟨fun v => wp_pure.2 (.refl v)⟩

theorem aside_throw {e : Panic} (h : e.Other) : Aside (throw e : VmM α) := ⟨fun _ => wp_throw.2 h⟩

theorem aside_get : Aside (get : VmM Vm) := ⟨fun v => wp_get.2 (.refl v)⟩

theorem aside_bind {x : VmM α} {f : α → VmM β} (hx : Aside x) (hf : ∀ a, Aside (f a)) :
    Aside (x >>= f) := by
  refine ⟨fun v => ?_⟩
  refine wp_seq (hx.spec v) fun a w hw => ?_
  exact wp_conseq ((hf a).spec w) fun _ u hu => hw.trans hu

theorem aside_ite {c : Prop} [Decidable c] {x y : VmM α} (hx : Aside x) (hy : Aside y) :
    Aside (if c then x else y) := by
  split
  · exact hx
  · exact hy

theorem aside_when {c : Prop} [Decidable c] {x : VmM PUnit} (hx : Aside x) : Aside (when c x) :=
  aside_ite hx aside_pure

theorem aside_onKmem {x : KmemM α} : Aside (onKmem x) := by
  refine ⟨fun v => ?_⟩
  rw [onKmem, wp_zoom]
  exact wp_mono (wp_any fun _ _ => trivial) (fun _ _ _ => ⟨rfl, rfl, rfl⟩) fun _ _ => ⟨nofun, nofun⟩

end Rules

section Memory

variable [Image]

theorem aside_pipeclose (pi : Nat) (writable : Bool) : Aside (pipeclose pi writable) := by
  refine ⟨fun v => ?_⟩
  rw [pipeclose, wp_bind, wp_get, wp_bind, wp_set]
  have hfree : Aside (onKmem (kfree pi)) := aside_onKmem
  exact wp_conseq ((aside_ite hfree aside_pure).spec _) fun _ w hw => ⟨hw.file, hw.area, hw.released⟩

omit [Image] in
theorem aside_mmapLookup (p : Fin NPROC) (va : Nat) : Aside (mmapLookup p va) :=
  aside_bind aside_get fun _ => aside_pure

omit [Image] in
theorem aside_readi (ip pa off n : Nat) : Aside (readi ip pa off n) :=
  aside_bind aside_get fun _ => aside_bind aside_onKmem fun _ => aside_pure

omit [Image] in
theorem aside_mmapFillPage (a : MmapArea) (mem va : Nat) : Aside (mmapFillPage a mem va) := by
  refine aside_bind aside_onKmem fun _ => aside_ite aside_pure ?_
  refine aside_bind aside_get fun v => ?_
  cases a.f with
  | none => exact aside_pure
  | some f => exact aside_ite aside_pure (aside_bind (aside_readi ..) fun _ => aside_pure)

theorem aside_mmapMapPage (a : MmapArea) (pagetable va : Nat) :
    Aside (mmapMapPage a pagetable va) := by
  refine aside_ite aside_pure (aside_bind aside_onKmem fun _ => ?_)
  refine aside_ite aside_pure (aside_bind aside_onKmem fun r => ?_)
  cases r with
  | none => exact aside_pure
  | some mem =>
    have hfree : Aside (onKmem (kfree mem) >>= fun _ => pure false) :=
      aside_bind aside_onKmem fun _ => aside_pure
    refine aside_bind (aside_mmapFillPage ..) fun _ => aside_ite ?_ hfree
    exact aside_bind aside_onKmem fun _ => aside_ite aside_pure hfree

theorem aside_vmfault (p : Fin NPROC) (sz pagetable va : Nat) (read : Bool) :
    Aside (vmfault p sz pagetable va read) := by
  refine aside_bind (aside_mmapLookup ..) fun r => ?_
  cases r with
  | some a =>
    refine aside_ite aside_pure (aside_bind aside_onKmem fun _ => ?_)
    exact aside_ite aside_pure (aside_mmapMapPage ..)
  | none =>
    refine aside_ite aside_pure (aside_ite aside_pure ?_)
    refine aside_bind aside_onKmem fun _ => aside_ite aside_pure ?_
    refine aside_bind aside_onKmem fun r => ?_
    cases r with
    | none => exact aside_pure
    | some mem =>
      refine aside_bind aside_onKmem fun _ => ?_
      refine aside_bind aside_onKmem fun _ => aside_ite aside_pure ?_
      exact aside_bind aside_onKmem fun _ => aside_pure

theorem aside_populate (a : MmapArea) (pagetable n : Nat) : ∀ va, Aside (populate a pagetable n va) := by
  induction n with
  | zero => exact fun _ => aside_pure
  | succ n ih =>
    exact fun va => aside_bind (aside_mmapMapPage ..) fun _ => aside_ite (ih _) aside_pure

theorem aside_unmapArea (pagetable : Nat) (a : MmapArea) : Aside (unmapArea pagetable a) :=
  aside_bind aside_onKmem fun _ => aside_onKmem

theorem aside_userPage (p : Fin NPROC) (sz pagetable va0 : Nat) (read : Bool) :
    Aside (userPage p sz pagetable va0 read) := by
  refine aside_bind aside_onKmem fun _ => aside_ite aside_pure ?_
  exact aside_bind (aside_vmfault ..) fun _ => aside_ite aside_onKmem aside_pure

theorem aside_copyoutLoop (p : Fin NPROC) (sz pagetable fuel : Nat) :
    ∀ dstva src len, Aside (copyoutLoop p sz pagetable fuel dstva src len) := by
  induction fuel with
  | zero => exact fun _ _ _ => aside_pure
  | succ fuel ih =>
    intro dstva src len
    refine aside_ite aside_pure (aside_ite aside_pure ?_)
    refine aside_bind (aside_userPage ..) fun _ => aside_ite aside_pure ?_
    refine aside_bind aside_onKmem fun r => ?_
    cases r with
    | none => exact aside_pure
    | some e =>
      refine aside_bind aside_onKmem fun _ => aside_ite aside_pure ?_
      exact aside_bind aside_onKmem fun _ => ih _ _ _

theorem aside_copyout (p : Fin NPROC) (sz pagetable dstva : Nat) (src : Nat → UInt8) (len : Nat) :
    Aside (copyout p sz pagetable dstva src len) := aside_copyoutLoop ..

theorem aside_copyinLoop (p : Fin NPROC) (sz pagetable fuel : Nat) :
    ∀ srcva len dst, Aside (copyinLoop p sz pagetable fuel srcva len dst) := by
  induction fuel with
  | zero => exact fun _ _ _ => aside_pure
  | succ fuel ih =>
    intro srcva len dst
    refine aside_ite aside_pure (aside_bind (aside_userPage ..) fun _ => aside_ite aside_pure ?_)
    exact aside_bind aside_get fun _ => ih _ _ _

theorem aside_copyin (p : Fin NPROC) (sz pagetable srcva len : Nat) :
    Aside (copyin p sz pagetable srcva len) := aside_copyinLoop ..

theorem aside_copyinstrDstLoop (p : Fin NPROC) (sz pagetable fuel : Nat) :
    ∀ srcva max dst, Aside (copyinstrDstLoop p sz pagetable fuel srcva max dst) := by
  induction fuel with
  | zero => exact fun _ _ _ => aside_pure
  | succ fuel ih =>
    intro srcva max dst
    refine aside_ite aside_pure (aside_bind (aside_userPage ..) fun _ => aside_ite aside_pure ?_)
    refine aside_bind aside_get fun _ => ?_
    split
    · exact aside_pure
    · exact ih _ _ _

theorem aside_copyinstr (p : Fin NPROC) (sz pagetable srcva max : Nat) :
    Aside (copyinstr p sz pagetable srcva max) :=
  aside_bind (aside_copyinstrDstLoop ..) fun _ => aside_pure

omit [Image] in
theorem aside_loadsegLoop (pagetable va ip offset sz n : Nat) :
    ∀ i, Aside (loadsegLoop pagetable va ip offset sz n i) := by
  induction n with
  | zero => exact fun _ => aside_pure
  | succ n ih =>
    intro i
    refine aside_bind aside_onKmem fun _ => ?_
    refine aside_ite (aside_throw (by decide)) (aside_bind (aside_readi ..) fun _ => ?_)
    exact aside_ite aside_pure (ih _)

theorem aside_loadSegments (pagetable ip n : Nat) :
    ∀ off sz, Aside (loadSegments pagetable ip n off sz) := by
  induction n with
  | zero => exact fun _ _ => aside_pure
  | succ n ih =>
    intro off sz
    refine aside_bind aside_get fun v => aside_ite aside_pure (aside_ite (ih _ _) ?_)
    refine aside_ite aside_pure (aside_ite aside_pure (aside_ite aside_pure ?_))
    refine aside_bind aside_onKmem fun _ => aside_ite aside_pure ?_
    exact aside_bind (aside_loadsegLoop ..) fun _ => aside_ite (ih _ _) aside_pure

theorem aside_pushArgs (p : Fin NPROC) (oldsz pagetable stackbase : Nat)
    (args : List (List UInt8)) : ∀ sp ustack, Aside (pushArgs p oldsz pagetable stackbase args sp ustack) := by
  induction args with
  | nil => exact fun _ _ => aside_pure
  | cons str args ih =>
    intro sp ustack
    refine aside_ite aside_pure (aside_ite aside_pure (aside_bind (aside_copyout ..) fun _ => ?_))
    exact aside_ite (ih _ _) aside_pure

theorem aside_setupStack (p : Fin NPROC) (oldsz pagetable sz : Nat) (argv : List (List UInt8)) :
    Aside (setupStack p oldsz pagetable sz argv) := by
  refine aside_bind aside_onKmem fun _ => aside_ite aside_pure ?_
  refine aside_bind aside_onKmem fun _ => ?_
  refine aside_bind (aside_pushArgs ..) fun r => ?_
  cases r with
  | none => exact aside_pure
  | some e =>
    refine aside_ite aside_pure (aside_bind (aside_copyout ..) fun _ => ?_)
    exact aside_ite aside_pure aside_pure

theorem aside_copyFds (i : Fin NPROC) (sz pagetable fdarray : Nat) (fd0 fd1 : Fin NOFILE) :
    Aside (copyFds i sz pagetable fdarray fd0 fd1) :=
  aside_bind (aside_copyout ..) fun _ => aside_ite (aside_copyout ..) aside_pure

theorem aside_copyXstate (i : Fin NPROC) (sz pagetable addr : Nat) (xstate : Int) :
    Aside (copyXstate i sz pagetable addr xstate) := aside_ite (aside_copyout ..) aside_pure

theorem aside_fetchaddr (i : Fin NPROC) (sz pagetable addr : Nat) :
    Aside (fetchaddr i sz pagetable addr) := by
  refine aside_ite aside_pure (aside_bind (aside_copyin ..) fun r => ?_)
  cases r with
  | none | some bytes => exact aside_pure

end Memory

end Xv6
