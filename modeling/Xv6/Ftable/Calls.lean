import Xv6.Ftable.Refs
import Xv6.Sched.Step
import Mathlib.Algebra.BigOperators.Fin

/-!
# Open files across system calls

`Held v₀ s` is the invariant of the open files between calls: every count is the number of
descriptors and areas, and a slot without a process has no descriptors.  Most of the kernel is
`IsCalm`: it leaves the open files and the descriptors alone.  The other calls are taken one
by one: `dup`, `close`, `pipe` and `open`, `fork`, `exit` and `wait`, and `exec`.
-/

namespace Xv6

open Xv6.Lib

/-- The descriptors of all processes that name a file. -/
def Kernel.fds (s : Kernel) (f : Fin NFILE) : ℕ := ∑ i, count Finset.univ (s.proc i).ofile f

/-- The descriptors and the areas of a file. -/
def Kernel.holders (s : Kernel) (f : Fin NFILE) : ℕ := s.fds f + s.vm.areas f

/-- There is no process, or one that has exited. -/
def Proc.Idle (p : Proc) : Prop := p.state = .unused ∨ p.state = .zombie

def Kernel.Tidy (s : Kernel) : Prop := ∀ j, (s.proc j).Idle → ∀ fd, (s.proc j).ofile fd = none

structure Held (v₀ : Vm) (s : Kernel) : Prop where
  files : Files v₀ s.fds ∅ s.vm
  tidy : s.Tidy

variable {v₀ : Vm} {s t : Kernel} {i j : Fin NPROC} {fd : Fin NOFILE} {f : Fin NFILE}

theorem Kernel.fds_pos (h : (s.proc i).ofile fd = some f) : 0 < s.fds f := by
  have hrow : 0 < count Finset.univ (s.proc i).ofile f := by
    rw [count_pos]
    exact ⟨fd, Finset.mem_univ fd, h⟩
  have hle : count Finset.univ (s.proc i).ofile f ≤ s.fds f :=
    Finset.single_le_sum (f := fun k => count Finset.univ (s.proc k).ofile f)
      (fun _ _ => Nat.zero_le _) (Finset.mem_univ i)
  exact Nat.lt_of_lt_of_le hrow hle

theorem Kernel.fds_setProc {p : Proc} (g : Fin NFILE) : (s.setProc i p).fds g +
    count Finset.univ (s.proc i).ofile g = s.fds g + count Finset.univ p.ofile g := by
  have h := sum_change (S := Finset.univ) (x := i)
    (f := fun k => count Finset.univ ((s.setProc i p).proc k).ofile g)
    (g := fun k => count Finset.univ (s.proc k).ofile g) (Finset.mem_univ i) fun k _ hk => by
      rw [Kernel.setProc_proc_other _ _ _ hk]
  rw [Kernel.setProc_proc_same] at h
  exact h

theorem Kernel.fds_upd {d : Fin NOFILE} {p : Proc} {o : Option (Fin NFILE)}
    (h : p.ofile = upd (s.proc i).ofile d o) (g : Fin NFILE) :
    (s.setProc i p).fds g + holds ((s.proc i).ofile d) g = s.fds g + holds o g := by
  have h1 := Kernel.fds_setProc (s := s) (i := i) (p := p) g
  have h2 := count_upd (f := (s.proc i).ofile) (Finset.mem_univ d) o g
  rw [h] at h1
  omega

/-! ### What is calm -/

/-- The open files and the descriptors are the same, and no process is gone. -/
structure Calm (s t : Kernel) : Prop where
  vm : s.vm.Beside t.vm
  ofile : ∀ j, (t.proc j).ofile = (s.proc j).ofile
  idle : ∀ j, (t.proc j).Idle → (s.proc j).Idle

theorem Calm.refl (s : Kernel) : Calm s s := ⟨.refl _, fun _ => rfl, fun _ h => h⟩

theorem Calm.trans {u : Kernel} (h : Calm s t) (h' : Calm t u) : Calm s u :=
  ⟨h.vm.trans h'.vm, fun j => (h'.ofile j).trans (h.ofile j), fun j hj => h.idle j (h'.idle j hj)⟩

theorem Kernel.fds_congr (h : ∀ j, (t.proc j).ofile = (s.proc j).ofile) : t.fds = s.fds := by
  funext f
  exact Finset.sum_congr rfl fun j _ => by rw [h j]

theorem Held.calm (h : Held v₀ s) (hc : Calm s t) : Held v₀ t := by
  refine ⟨?_, fun j hj fd => ?_⟩
  · rw [Kernel.fds_congr hc.ofile]
    exact h.files.beside hc.vm
  · rw [hc.ofile j]
    exact h.tidy j (hc.idle j hj) fd

structure IsCalm {α : Type} (x : KernelM α) : Prop where
  spec : ∀ s, wp x s (fun _ t => Calm s t) Panic.Other

section Rules

variable {α β : Type}

theorem IsCalm.held {x : KernelM α} (hx : IsCalm x) (h : Held v₀ s) :
    wp x s (fun _ t => Held v₀ t) Panic.Other := wp_conseq (hx.spec s) fun _ _ hc => h.calm hc

theorem calm_pure {a : α} : IsCalm (pure a : KernelM α) := ⟨fun s => wp_pure.2 (.refl s)⟩

theorem calm_get : IsCalm (get : KernelM Kernel) := ⟨fun s => wp_get.2 (.refl s)⟩

theorem calm_bind {x : KernelM α} {f : α → KernelM β} (hx : IsCalm x) (hf : ∀ a, IsCalm (f a)) :
    IsCalm (x >>= f) := by
  refine ⟨fun s => ?_⟩
  refine wp_seq (hx.spec s) fun a t ht => ?_
  exact wp_conseq ((hf a).spec t) fun _ u hu => ht.trans hu

theorem calm_ite {c : Prop} [Decidable c] {x y : KernelM α} (hx : IsCalm x) (hy : IsCalm y) :
    IsCalm (if c then x else y) := by
  split
  · exact hx
  · exact hy

theorem calm_when {c : Prop} [Decidable c] {x : KernelM PUnit} (hx : IsCalm x) : IsCalm (when c x) :=
  calm_ite hx calm_pure

theorem calm_getProc (i : Fin NPROC) : IsCalm (getProc i) := calm_bind calm_get fun _ => calm_pure

theorem calm_onVm {x : VmM α} (hx : Aside x) : IsCalm (onVm x) := by
  refine ⟨fun s => ?_⟩
  rw [wp_onVm]
  exact wp_conseq (hx.spec s.vm) fun _ w hw => ⟨hw, fun _ => rfl, fun _ h => h⟩

theorem calm_slot {p : Proc} (ho : p.ofile = (s.proc i).ofile) (hi : p.Idle → (s.proc i).Idle) :
    Calm s (s.setProc i p) := by
  refine ⟨.refl _, fun j => ?_, fun j hj => ?_⟩
  · by_cases he : j = i
    · rw [he, Kernel.setProc_proc_same, ho]
    · rw [Kernel.setProc_proc_other _ _ _ he]
  · by_cases he : j = i
    · rw [he, Kernel.setProc_proc_same] at hj
      rw [he]
      exact hi hj
    · rw [Kernel.setProc_proc_other _ _ _ he] at hj
      exact hj

theorem calm_setProc {i : Fin NPROC} {f : Proc → Proc}
    (hf : ∀ p, (f p).ofile = p.ofile ∧ ((f p).Idle → p.Idle)) : IsCalm (setProc i f) :=
  ⟨fun s => wp_setProc.2 (calm_slot (hf (s.proc i)).1 (hf (s.proc i)).2)⟩

/-- A table in which no process is gone and none has other descriptors. -/
def TableCalm (t t' : ProcTable) : Prop :=
  ∀ j, (t' j).ofile = (t j).ofile ∧ ((t' j).Idle → (t j).Idle)

theorem TableCalm.refl (t : ProcTable) : TableCalm t t := fun _ => ⟨rfl, fun h => h⟩

theorem TableCalm.trans {t t' t'' : ProcTable} (h : TableCalm t t') (h' : TableCalm t' t'') :
    TableCalm t t'' := fun j => ⟨(h' j).1.trans (h j).1, fun hj => (h j).2 ((h' j).2 hj)⟩

theorem tableCalm_upd {t : ProcTable} {p : Proc} (ho : p.ofile = (t i).ofile)
    (hi : p.Idle → (t i).Idle) : TableCalm t (upd t i p) := by
  intro j
  by_cases he : j = i
  · rw [he, upd_same]
    exact ⟨ho, hi⟩
  · rw [upd_other _ _ he]
    exact ⟨rfl, fun h => h⟩

theorem TableCalm.calm {t' : ProcTable} (h : TableCalm s.proc t') : Calm s (s.setTable t') :=
  ⟨.refl _, fun j => (h j).1, fun j => (h j).2⟩

theorem calm_setTable {f : ProcTable → ProcTable} (hf : ∀ t, TableCalm t (f t)) :
    IsCalm (setTable f) := ⟨fun s => wp_setTable.2 (hf s.proc).calm⟩

theorem calm_leaveCpu (c : Fin NCPU) : IsCalm (leaveCpu c) :=
  ⟨fun _ => wp_leaveCpu.2 ⟨.refl _, fun _ => rfl, fun _ h => h⟩⟩

end Rules

theorem not_idle {p : Proc} {x : ProcState} (hp : p.state = x) (hx : x ≠ .unused ∧ x ≠ .zombie) :
    ¬p.Idle := by
  intro h
  rcases h with h | h
  · exact hx.1 (hp.symm.trans h)
  · exact hx.2 (hp.symm.trans h)

/-! ### The process table -/

theorem tableCalm_wakeup (me : Option (Fin NPROC)) (chan : Nat) (t : ProcTable) :
    TableCalm t (wakeup me chan t) := by
  intro j
  unfold wakeup wakeSlot
  split
  · exact ⟨rfl, fun h => h⟩
  split
  · exact ⟨rfl, fun h => absurd h (not_idle (x := .runnable) rfl (by decide))⟩
  · exact ⟨rfl, fun h => h⟩

theorem tableCalm_kkill (pid : Int) (t : ProcTable) : TableCalm t (kkill pid t).2 := by
  unfold kkill
  split
  · exact .refl t
  · unfold killSlot
    split
    · exact tableCalm_upd rfl fun h => absurd h (not_idle (x := .runnable) rfl (by decide))
    · exact tableCalm_upd rfl fun h => h

theorem tableCalm_ksetnice (pid value : Int) (t : ProcTable) :
    TableCalm t (ksetnice pid value t).2 := by
  unfold ksetnice
  split
  · exact .refl t
  split
  · exact .refl t
  · exact tableCalm_upd rfl fun h => h

theorem tableCalm_reparent (i : Fin NPROC) (init : Option (Fin NPROC)) (t : ProcTable) :
    TableCalm t (reparent i init t) := by
  intro j
  unfold reparent
  split
  · exact ⟨rfl, fun h => h⟩
  · exact ⟨rfl, fun h => h⟩

theorem tableCalm_reparentWakeups (i : Fin NPROC) (init : Option (Fin NPROC)) (t : ProcTable) :
    TableCalm t (reparentWakeups i init t) := by
  unfold reparentWakeups
  split
  · exact .refl t
  split
  · exact tableCalm_wakeup _ _ t
  · exact .refl t

theorem tableCalm_wakeupParent (i : Fin NPROC) (t : ProcTable) : TableCalm t (wakeupParent i t) := by
  unfold wakeupParent
  split
  · exact .refl t
  · exact tableCalm_wakeup _ _ t

theorem tableCalm_selectSlot {st : RqStats} {bt : Option (Fin NPROC) × ProcTable} {t : ProcTable}
    (h : TableCalm t bt.2) (i : Fin NPROC) : TableCalm t (selectSlot st bt i).2 := by
  obtain ⟨⟨e, he⟩, -⟩ := selectSlot_cases st bt i
  rw [he]
  exact h.trans (tableCalm_upd rfl fun h => h)

theorem tableCalm_select {st : RqStats} {t : ProcTable} (is : List (Fin NPROC)) :
    ∀ {bt : Option (Fin NPROC) × ProcTable}, TableCalm t bt.2 →
      TableCalm t (is.foldl (selectSlot st) bt).2 := by
  induction is with
  | nil => exact fun h => h
  | cons i is ih => exact fun h => ih (tableCalm_selectSlot h i)

theorem tableCalm_schedulerPass (t : ProcTable) : TableCalm t (schedulerPass t).2 := by
  have hsel : TableCalm t ((List.finRange NPROC).foldl (selectSlot (eevdfCollectRqStats t))
      (none, t)).2 := tableCalm_select _ (TableCalm.refl t)
  unfold schedulerPass
  dsimp only
  generalize (List.finRange NPROC).foldl (selectSlot (eevdfCollectRqStats t)) (none, t) = bt at hsel ⊢
  split
  · exact hsel
  · exact hsel.trans (tableCalm_upd rfl fun h => absurd h (not_idle (x := .running) rfl (by decide)))

theorem calm_schedule (c : Fin NCPU) : IsCalm (schedule c) := by
  refine ⟨fun s => ?_⟩
  rw [schedule, wp_bind, wp_get]
  split
  · exact wp_pure.2 (.refl s)
  · have hpass := tableCalm_schedulerPass s.proc
    split
    case h_1 t ht =>
      rw [ht] at hpass
      exact wp_set.2 hpass.calm
    case h_2 i t ht =>
      rw [ht] at hpass
      have hclear : TableCalm t (upd t i { t i with chan := 0 }) := tableCalm_upd rfl fun h => h
      obtain ⟨h1, h2, h3⟩ := (hpass.trans hclear).calm
      exact wp_set.2 ⟨h1, h2, h3⟩

theorem calm_sleepOn (c : Fin NCPU) (i : Fin NPROC) (chan : Nat) : IsCalm (sleepOn c i chan) := by
  refine calm_bind (calm_setProc fun p => ⟨rfl, fun h => ?_⟩) fun _ => calm_leaveCpu c
  exact absurd h (not_idle (x := .sleeping) rfl (by decide))

theorem calm_clockintr (c : Fin NCPU) : IsCalm (clockintr c) :=
  calm_bind calm_get fun _ => calm_when (calm_setTable (tableCalm_wakeup _ _))

theorem timerTick_calm (p : Proc) :
    (timerTick p).1.ofile = p.ofile ∧ (timerTick p).1.state = p.state := by
  have ho : (eevdfTick p).ofile = p.ofile := by simp only [eevdfTick]
  have hs : (eevdfTick p).state = p.state := by simp only [eevdfTick]
  unfold timerTick
  generalize eevdfTick p = q at ho hs
  dsimp only
  split
  · exact ⟨ho, hs⟩
  · exact ⟨ho, hs⟩

theorem calm_accountTick (c : Fin NCPU) (i : Fin NPROC) : IsCalm (accountTick c i) := by
  refine ⟨fun s => ?_⟩
  rw [accountTick, wp_bind, wp_getProc]
  obtain ⟨ho, hs⟩ := timerTick_calm (s.proc i)
  split
  case h_1 q yields hq =>
    rw [hq] at ho hs
    split
    · rw [wp_bind, wp_setProc, wp_leaveCpu]
      obtain ⟨h1, h2, h3⟩ := calm_slot (s := s) (i := i) (p := { q with state := .runnable }) ho fun h =>
        absurd h (not_idle (x := .runnable) rfl (by decide))
      exact ⟨h1, h2, h3⟩
    · refine wp_setProc.2 (calm_slot ho fun h => ?_)
      unfold Proc.Idle at h ⊢
      rw [← hs]
      exact h

theorem calm_kerneltrapTimer (c : Fin NCPU) : IsCalm (kerneltrapTimer c) := by
  refine calm_bind (calm_clockintr c) fun _ => calm_bind calm_get fun s => ?_
  cases s.cpu c with
  | none => exact calm_pure
  | some i => exact calm_ite (calm_accountTick c i) calm_pure

section Calls

variable [Image]

theorem calm_growproc (i : Fin NPROC) (n : Int) : IsCalm (growproc i n) := by
  have hsz : ∀ r, IsCalm (setProc i fun p => { p with sz := r }) := fun r =>
    calm_setProc fun p => ⟨rfl, fun h => h⟩
  refine calm_bind (calm_getProc i) fun p => calm_ite (calm_ite calm_pure ?_) (calm_ite ?_ calm_pure)
  · refine calm_bind (calm_onVm aside_onKmem) fun r => calm_ite calm_pure ?_
    exact calm_bind (hsz r) fun _ => calm_pure
  · refine calm_bind (calm_onVm aside_onKmem) fun r => ?_
    exact calm_bind (hsz r) fun _ => calm_pure

theorem calm_sysSbrk (i : Fin NPROC) (n t : Int) : IsCalm (sysSbrk i n t) := by
  refine calm_bind (calm_getProc i) fun p => calm_ite (calm_growproc i n) ?_
  refine calm_ite calm_pure (calm_ite calm_pure ?_)
  exact calm_bind (calm_setProc fun p => ⟨rfl, fun h => h⟩) fun _ => calm_pure

theorem calm_sysExecStart (i : Fin NPROC) (path uargv : Nat) (ip : Option Nat) :
    IsCalm (sysExecStart i path uargv ip) := by
  refine calm_bind (calm_getProc i) fun p => calm_bind (calm_onVm (aside_copyinstr ..)) fun r => ?_
  cases r with
  | none => exact calm_pure
  | some name => exact calm_setProc fun p => ⟨rfl, fun h => h⟩

theorem calm_sysExecEnd (i : Fin NPROC) : IsCalm (sysExecEnd i) := by
  refine calm_bind (calm_getProc i) fun p => ?_
  cases p.exec with
  | none => exact calm_pure
  | some e =>
    refine calm_bind (calm_onVm aside_onKmem) fun _ => ?_
    exact calm_setProc fun p => ⟨rfl, fun h => h⟩

/-! ### Descriptors -/

omit [Image] in
theorem Kernel.Tidy.setProc {p : Proc} (h : s.Tidy) (hp : ¬p.Idle) : (s.setProc i p).Tidy := by
  intro j hj
  by_cases he : j = i
  · rw [he, Kernel.setProc_proc_same] at hj
    exact absurd hj hp
  · rw [Kernel.setProc_proc_other _ _ _ he] at hj ⊢
    exact h j hj

omit [Image] in
theorem wp_fdalloc (ht : s.Tidy) (hi : ¬(s.proc i).Idle) {Q : Option (Fin NOFILE) → Kernel → Prop}
    {E : Panic → Prop} (hnone : Q none s)
    (hsome : ∀ fd, (s.proc i).ofile fd = none → ∀ t, t = s.setProc i { s.proc i with
      ofile := upd (s.proc i).ofile fd (some f) } → t.Tidy →
      (∀ g, t.fds g = s.fds g + holds (some f) g) → Q (some fd) t) :
    wp (fdalloc i f) s Q E := by
  rw [fdalloc, wp_bind, wp_getProc]
  split
  case h_1 => exact wp_pure.2 hnone
  case h_2 fd hfd =>
    have hn : (s.proc i).ofile fd = none := by
      have h := List.find?_some hfd
      exact Option.isNone_iff_eq_none.1 h
    rw [wp_bind, wp_setProc, wp_pure]
    refine hsome fd hn _ rfl (ht.setProc hi) fun g => ?_
    have h := Kernel.fds_upd (s := s) (i := i) (d := fd) (o := some f)
      (p := { s.proc i with ofile := upd (s.proc i).ofile fd (some f) }) rfl g
    rw [hn, holds_none, Nat.add_zero] at h
    exact h

omit [Image] in
theorem wp_clearFd (ht : s.Tidy) {Q : PUnit → Kernel → Prop} {E : Panic → Prop}
    (h : ∀ t, t = s.setProc i { s.proc i with ofile := upd (s.proc i).ofile fd none } → t.Tidy →
      (∀ g, s.fds g = t.fds g + holds ((s.proc i).ofile fd) g) → Q ⟨⟩ t) :
    wp (clearFd i fd) s Q E := by
  refine wp_setProc.2 (h _ rfl ?_ fun g => ?_)
  · intro j hj d
    by_cases he : j = i
    · rw [he, Kernel.setProc_proc_same] at hj ⊢
      by_cases hd : d = fd
      · rw [hd]
        exact upd_same ..
      · exact (upd_other _ _ hd).trans (ht i hj d)
    · rw [Kernel.setProc_proc_other _ _ _ he] at hj ⊢
      exact ht j hj d
  · have h := Kernel.fds_upd (s := s) (i := i) (d := fd) (o := none)
      (p := { s.proc i with ofile := upd (s.proc i).ofile fd none }) rfl g
    rw [holds_none, Nat.add_zero] at h
    exact h.symm

theorem wp_sysClose (h : Held v₀ s) : wp (sysClose i fd) s (fun _ t => Held v₀ t) Panic.Other := by
  rw [sysClose, wp_bind, wp_getProc]
  split
  case h_1 => exact wp_pure.2 h
  case h_2 f hf =>
    rw [wp_bind]
    refine wp_clearFd h.tidy fun t ht htidy hfds => ?_
    rw [hf] at hfds
    have hvm : t.vm = s.vm := by rw [ht]; rfl
    rw [wp_bind, wp_onVm, hvm]
    refine wp_conseq (wp_fileclose h.files hfds) fun _ w hw => wp_pure.2 ⟨?_, htidy⟩
    exact hw.1

omit [Image] in
theorem wp_sysDup (h : Held v₀ s) (hi : ¬(s.proc i).Idle) :
    wp (sysDup i fd) s (fun _ t => Held v₀ t) Panic.Other := by
  rw [sysDup, wp_bind, wp_getProc]
  split
  case h_1 => exact wp_pure.2 h
  case h_2 f hf =>
    rw [wp_bind]
    refine wp_fdalloc h.tidy hi (wp_pure.2 h) fun fd' _ t ht htidy hfds => ?_
    have hvm : t.vm = s.vm := by rw [ht]; rfl
    dsimp only
    rw [wp_bind, wp_onVm, hvm]
    refine wp_conseq (wp_filedup h.files (h.files.ref_pos (Kernel.fds_pos hf)) (Files.not_empty f) hfds)
      fun _ w hw => wp_pure.2 ⟨?_, htidy⟩
    exact hw.1

omit [Image] in
theorem Files.kept {D : Fin NFILE → ℕ} {v : Vm} (h : Files v D ∅ v) : v.Kept v := by
  intro f hf
  have ht := h.typed f (Files.not_empty f)
  by_contra h0
  exact hf (ht.2 (by omega))

theorem wp_sysOpen {ip : Nat} {device readable writable : Bool} (h : Held s.vm s)
    (hi : ¬(s.proc i).Idle) :
    wp (sysOpen i ip device readable writable) s (fun _ t => Held s.vm t) Panic.Other := by
  rw [sysOpen, wp_bind, wp_onVm]
  refine wp_conseq (wp_filealloc h.files h.files.kept) fun r v hv => ?_
  cases r with
  | none =>
    have hv' : v = s.vm := hv
    rw [hv']
    exact wp_pure.2 h
  | some f =>
    obtain ⟨hfiles, -, -⟩ := hv
    dsimp only
    rw [wp_bind]
    refine wp_fdalloc (s := s.setVm v) h.tidy hi ?_ fun fd _ t ht htidy hfds => ?_
    · dsimp only
      rw [wp_bind, wp_onVm]
      refine wp_conseq (wp_fileclose hfiles fun g => rfl) fun _ w hw => wp_pure.2 ⟨?_, h.tidy⟩
      rw [Finset.erase_insert (Files.not_empty f)] at hw
      exact hw.1
    · have hvm : t.vm = v := by rw [ht]; rfl
      have he : t.fds = fun g => s.fds g + holds (some f) g := funext hfds
      dsimp only
      rw [wp_bind, wp_onVm, wp_modify, wp_pure, hvm]
      refine ⟨?_, htidy⟩
      have hup := hfiles.setUp (f := f) (Finset.mem_insert_self f ∅)
        (x := { v.file f with type := if device then .device else .inode, ip, readable, writable })
        rfl (by cases device <;> exact Option.some_ne_none _)
      rw [Finset.erase_insert (Files.not_empty f), ← he] at hup
      exact hup

theorem wp_closePair {v : Vm} {rf wf : Fin NFILE} {D D' : Fin NFILE → ℕ} (h : Files v₀ D ∅ v)
    (hD : ∀ g, D g = D' g + holds (some wf) g + holds (some rf) g) :
    wp (closePair rf wf) v (fun _ w => Files v₀ D' ∅ w) Panic.Other := by
  rw [closePair, wp_bind]
  refine wp_conseq (wp_fileclose h hD) fun _ w hw => ?_
  refine wp_conseq (wp_fileclose hw.1 fun g => rfl) fun _ u hu => ?_
  rw [Finset.erase_eq_of_notMem (Files.not_empty rf), Finset.erase_eq_of_notMem (Files.not_empty wf)] at hu
  exact hu.1

theorem wp_pipealloc {v : Vm} {D : Fin NFILE → ℕ} (h : Files v₀ D ∅ v) (hk : v₀.Kept v) :
    wp pipealloc v (fun r w => match r with
      | none => Files v₀ D ∅ w
      | some (f0, f1) => Files v₀ (fun g => D g + holds (some f1) g + holds (some f0) g) ∅ w)
      Panic.Other := by
  rw [pipealloc, wp_bind]
  refine wp_conseq (wp_filealloc h hk) fun r v1 h1 => ?_
  cases r with
  | none =>
    have hv : v1 = v := h1
    rw [hv]
    exact wp_pure.2 h
  | some f0 =>
    obtain ⟨hf0, hk1, -⟩ := h1
    dsimp only
    refine wp_seq (wp_filealloc hf0 hk1) fun r v2 h2 => ?_
    cases r with
    | none =>
      have hv : v2 = v1 := h2
      dsimp only
      rw [hv, wp_bind]
      refine wp_conseq (wp_fileclose hf0 fun g => rfl) fun _ w hw => wp_pure.2 ?_
      rw [Finset.erase_insert (Files.not_empty f0)] at hw
      exact hw.1
    | some f1 =>
      obtain ⟨hf1, -, hne⟩ := h2
      have h10 : f1 ≠ f0 := fun he => hne (he ▸ Finset.mem_insert_self f0 ∅)
      have he0 : (insert f1 (insert f0 (∅ : Finset (Fin NFILE)))).erase f0 = {f1} := by
        rw [Finset.erase_insert_of_ne h10, Finset.erase_insert (Files.not_empty f0)]
        rfl
      have hcomm : ∀ g, D g + holds (some f0) g + holds (some f1) g =
          D g + holds (some f1) g + holds (some f0) g := fun g => by omega
      dsimp only
      refine wp_seq (aside_onKmem.files hf1) fun r v3 h3 => ?_
      cases r with
      | none =>
        dsimp only
        refine wp_seq (wp_fileclose h3 hcomm) fun _ w hw => ?_
        rw [he0] at hw
        refine wp_seq (wp_fileclose hw.1 fun g => rfl) fun _ u hu => wp_pure.2 ?_
        rw [Finset.erase_singleton] at hu
        exact hu.1
      | some pi =>
        dsimp only
        rw [wp_bind, wp_modify, wp_bind, wp_modify, wp_bind, wp_modify, wp_pure]
        have hb : Files v₀ (fun g => D g + holds (some f0) g + holds (some f1) g)
            (insert f1 (insert f0 ∅)) { v3 with pipe := upd v3.pipe pi ⟨true, true⟩ } :=
          h3.beside ⟨rfl, rfl, rfl⟩
        have h0 := hb.setUp (f := f0) (by simp) (x := { v3.file f0 with
          type := .pipe, readable := true, writable := false, pipe := pi }) rfl
          (Option.some_ne_none _)
        rw [he0] at h0
        have h4 := h0.setUp (f := f1) (Finset.mem_singleton_self f1) (x := { v3.file f1 with
          type := .pipe, readable := false, writable := true, pipe := pi })
          (by rw [Vm.setFile_other h10]) (Option.some_ne_none _)
        rw [Finset.erase_singleton, funext hcomm] at h4
        show Files v₀ _ ∅ (Vm.setFile _ f1 { (Vm.setFile _ f0 _).file f1 with
          type := .pipe, readable := false, writable := true, pipe := pi })
        rw [Vm.setFile_other h10]
        exact h4

theorem wp_sysPipe {fdarray : Nat} (h : Held s.vm s) (hi : ¬(s.proc i).Idle) :
    wp (sysPipe i fdarray) s (fun _ t => Held s.vm t) Panic.Other := by
  rw [sysPipe, wp_bind, wp_onVm]
  refine wp_conseq (wp_pipealloc h.files h.files.kept) fun r v hv => ?_
  cases r with
  | none => exact wp_pure.2 ⟨hv, h.tidy⟩
  | some fs =>
    obtain ⟨rf, wf⟩ := fs
    have hv' : Files s.vm (fun g => s.fds g + holds (some wf) g + holds (some rf) g) ∅ v := hv
    -- both files are closed again when the descriptors are those of before
    have hclose : ∀ u : Kernel, u.Tidy →
        Files s.vm (fun g => u.fds g + holds (some wf) g + holds (some rf) g) ∅ u.vm →
        wp (onVm (closePair rf wf) >>= fun _ => pure false) u (fun _ t => Held s.vm t) Panic.Other := by
      intro u htidy hu
      rw [wp_bind, wp_onVm]
      exact wp_conseq (wp_closePair hu fun g => rfl) fun _ w hw => wp_pure.2 ⟨hw, htidy⟩
    dsimp only
    rw [wp_bind]
    refine wp_fdalloc (s := s.setVm v) h.tidy hi (hclose _ h.tidy hv') fun fd0 hn0 t ht htidy hfds => ?_
    have hvm : t.vm = v := by rw [ht]; rfl
    have hprc : t.proc i = { s.proc i with ofile := upd (s.proc i).ofile fd0 (some rf) } := by
      rw [ht]
      exact Kernel.setProc_proc_same ..
    have h0 : (t.proc i).ofile fd0 = some rf := by
      rw [hprc]
      exact upd_same ..
    have hidle : ¬(t.proc i).Idle := by
      rw [hprc]
      exact hi
    have hs0 : ∀ g, t.fds g = s.fds g + holds (some rf) g := hfds
    dsimp only
    rw [wp_bind]
    refine wp_fdalloc htidy hidle ?_ fun fd1 hn1 u hu hutidy hufds => ?_
    · dsimp only
      rw [wp_bind]
      refine wp_clearFd htidy fun x hx hxtidy hxfds => hclose x hxtidy ?_
      have hxvm : x.vm = v := by rw [hx]; exact hvm
      rw [h0] at hxfds
      have he : x.fds = s.fds := by
        funext g
        have e1 := hxfds g
        have e2 := hs0 g
        omega
      rw [hxvm, he]
      exact hv'
    · have huvm : u.vm = v := by rw [hu]; exact hvm
      have huprc : u.proc i = { t.proc i with ofile := upd (t.proc i).ofile fd1 (some wf) } := by
        rw [hu]
        exact Kernel.setProc_proc_same ..
      have hne : fd0 ≠ fd1 := by
        intro he
        rw [he, hn1] at h0
        cases h0
      have hu0 : (u.proc i).ofile fd0 = some rf := by
        rw [huprc]
        exact (upd_other _ _ hne).trans h0
      have hu1 : (u.proc i).ofile fd1 = some wf := by
        rw [huprc]
        exact upd_same ..
      have hsu : u.fds = fun g => s.fds g + holds (some wf) g + holds (some rf) g := by
        funext g
        have e1 := hufds g
        have e2 := hs0 g
        omega
      have hheld : Held s.vm u := by
        refine ⟨?_, hutidy⟩
        rw [hsu, huvm]
        exact hv'
      dsimp only
      rw [wp_bind, wp_getProc, wp_bind]
      refine wp_conseq ((calm_onVm (aside_copyFds ..)).spec u) fun r x hx => ?_
      have hxheld := hheld.calm hx
      cases r with
      | true => exact wp_pure.2 hxheld
      | false =>
        show wp (clearFd i fd0 >>= fun _ => clearFd i fd1 >>= fun _ => onVm (closePair rf wf) >>= fun _ =>
          pure false) x _ _
        rw [wp_bind]
        refine wp_clearFd hxheld.tidy fun y hy hytidy hyfds => ?_
        rw [hx.ofile i, hu0] at hyfds
        have hy1 : (y.proc i).ofile fd1 = some wf := by
          rw [hy, Kernel.setProc_proc_same]
          show upd (x.proc i).ofile fd0 none fd1 = _
          rw [upd_other _ _ fun he => hne he.symm, hx.ofile i, hu1]
        rw [wp_bind]
        refine wp_clearFd hytidy fun z hz hztidy hzfds => hclose z hztidy ?_
        rw [hy1] at hzfds
        have hzvm : z.vm = x.vm := by
          rw [hz, hy]
          rfl
        have he : (fun g => z.fds g + holds (some wf) g + holds (some rf) g) = x.fds := by
          funext g
          have e1 := hyfds g
          have e2 := hzfds g
          omega
        rw [hzvm, he]
        exact hxheld.files

/-! ### Processes -/

omit [Image] in
theorem Held.onVm_files {α : Type} {x : VmM α} (h : Held v₀ s)
    (hx : wp x s.vm (fun _ w => Files v₀ s.fds ∅ w) Panic.Other) :
    wp (onVm x) s (fun _ t => Held v₀ t ∧ t.proc = s.proc) Panic.Other := by
  rw [wp_onVm]
  exact wp_conseq hx fun _ w hw => ⟨⟨hw, h.tidy⟩, rfl⟩

theorem wp_freeproc (h : Held v₀ s) (hi : ∀ fd, (s.proc i).ofile fd = none) :
    wp (freeproc i) s (fun _ t => Held v₀ t) Panic.Other := by
  rw [freeproc, wp_bind, wp_getProc, wp_bind]
  have htf : IsCalm (when ((s.proc i).trapframe ≠ 0) (onVm (onKmem (kfree (s.proc i).trapframe)))) :=
    calm_when (calm_onVm aside_onKmem)
  refine wp_conseq (htf.spec s) fun _ t ht => ?_
  rw [wp_bind, wp_setProc]
  have hc1 : Calm t (t.setProc i { t.proc i with trapframe := 0 }) := calm_slot rfl fun h => h
  have hcs := ht.trans hc1
  refine wp_seq ((h.calm hcs).onVm_files (wp_mmapfreeproc (h.calm hcs).files)) fun _ u hu => ?_
  obtain ⟨hu, hup⟩ := hu
  rw [wp_bind]
  have hpt : IsCalm (when ((s.proc i).pagetable ≠ 0)
      (onVm (onKmem (procFreepagetable (s.proc i).pagetable (s.proc i).sz)))) :=
    calm_when (calm_onVm aside_onKmem)
  refine wp_conseq (hpt.spec u) fun _ x hx => wp_setProc.2 ?_
  have hxh := hu.calm hx
  have hoi : ∀ fd, (x.proc i).ofile fd = none := by
    intro fd
    rw [hx.ofile i, hup, hcs.ofile i]
    exact hi fd
  refine ⟨?_, fun j hj fd => ?_⟩
  · have hof : ∀ j, ((x.setProc i (clearSlot (x.proc i))).proc j).ofile = (x.proc j).ofile := by
      intro j
      by_cases he : j = i
      · rw [he, Kernel.setProc_proc_same]
        rfl
      · rw [Kernel.setProc_proc_other _ _ _ he]
    rw [Kernel.fds_congr hof]
    exact hxh.files
  · by_cases he : j = i
    · rw [he, Kernel.setProc_proc_same]
      exact hoi fd
    · rw [Kernel.setProc_proc_other _ _ _ he] at hj ⊢
      exact hxh.tidy j hj fd

theorem wp_allocproc (h : Held v₀ s) : wp allocproc s (fun r t => Held v₀ t ∧
    ∀ j, r = some j → ∀ fd, (t.proc j).ofile fd = none) Panic.Other := by
  rw [allocproc, wp_bind, wp_get]
  split
  case h_1 => exact wp_pure.2 ⟨h, fun j hj => absurd hj.symm (Option.some_ne_none j)⟩
  case h_2 i hi =>
    have hfree : ∀ fd, (s.proc i).ofile fd = none := by
      have hu := List.find?_some hi
      exact h.tidy i (Or.inl (by simpa using hu))
    -- up to the first allocation
    have hpid : IsCalm (allocpid >>= fun pid => setProc i fun p => initSlot p pid) := by
      refine calm_bind ⟨fun s => ?_⟩ fun pid => calm_setProc fun p => ⟨rfl, fun h => ?_⟩
      · rw [allocpid, wp_bind, wp_get, wp_bind, wp_set, wp_pure]
        exact ⟨.refl _, fun _ => rfl, fun _ h => h⟩
      · exact absurd h (not_idle (x := .used) rfl (by decide))
    have hfail : ∀ (u : Kernel) (g : Proc → Proc), (∀ p, (g p).ofile = p.ofile ∧ ((g p).Idle → p.Idle)) →
        Calm s u → wp (setProc i g >>= fun _ => freeproc i >>= fun _ => pure none) u
          (fun r t => Held v₀ t ∧ ∀ j, r = some j → ∀ fd, (t.proc j).ofile fd = none)
          Panic.Other := by
      intro u g hg hu
      have hc := hu.trans (calm_slot (i := i) (hg (u.proc i)).1 (hg (u.proc i)).2)
      rw [wp_bind, wp_setProc, wp_bind]
      refine wp_conseq (wp_freeproc (h.calm hc) fun fd => by rw [hc.ofile i]; exact hfree fd)
        fun _ x hx => wp_pure.2 ⟨hx, fun j hj => absurd hj.symm (Option.some_ne_none j)⟩
    have hcalm := hpid.spec s
    rw [wp_bind] at hcalm
    refine wp_seq hcalm fun pid t ht => ?_
    refine wp_seq ht fun _ t ht => ?_
    refine wp_seq ((calm_onVm aside_onKmem).spec t) fun r u hu => ?_
    have hsu := ht.trans hu
    cases r with
    | none => exact hfail u _ (fun p => ⟨rfl, fun h => h⟩) hsu
    | some tf =>
      dsimp only
      rw [wp_bind, wp_setProc]
      have hsx := hsu.trans (calm_slot (s := u) (i := i) (p := { u.proc i with trapframe := tf }) rfl
        fun h => h)
      refine wp_seq ((calm_onVm aside_onKmem).spec _) fun r y hy => ?_
      have hsy := hsx.trans hy
      cases r with
      | none => exact hfail y _ (fun p => ⟨rfl, fun h => h⟩) hsy
      | some pt =>
        dsimp only
        rw [wp_bind, wp_setProc, wp_pure]
        have hsz := hsy.trans (calm_slot (s := y) (i := i) (p := { y.proc i with pagetable := pt }) rfl
          fun h => h)
        refine ⟨h.calm hsz, fun j hj fd => ?_⟩
        cases hj
        rw [hsz.ofile i]
        exact hfree fd

omit [Image] in
theorem wp_dupFiles {D : Fin NFILE → ℕ} {ofile : Fin NOFILE → Option (Fin NFILE)}
    (hD : ∀ fd f, ofile fd = some f → 0 < D f) (fds : List (Fin NOFILE)) :
    ∀ {D' : Fin NFILE → ℕ} {v : Vm}, (∀ g, D g ≤ D' g) → Files v₀ D' ∅ v →
      wp (dupFiles ofile fds) v
        (fun _ w => Files v₀ (fun g => D' g + (fds.map fun fd => holds (ofile fd) g).sum) ∅ w)
        Panic.Other := by
  induction fds with
  | nil => exact fun _ h => wp_pure.2 h
  | cons fd fds ih =>
    intro D' v hle h
    rw [dupFiles, wp_bind]
    have href : ∀ f, ofile fd = some f → 0 < (v.file f).ref ∧ f ∉ (∅ : Finset (Fin NFILE)) := by
      intro f hf
      exact ⟨h.ref_pos (lt_of_lt_of_le (hD fd f hf) (hle f)), Files.not_empty f⟩
    refine wp_conseq (wp_filedupOpt h href fun g => rfl) fun _ w hw => ?_
    refine wp_conseq (ih (fun g => le_trans (hle g) (Nat.le_add_right _ _)) hw.1) fun _ u hu => ?_
    simp only [List.map_cons, List.sum_cons, ← Nat.add_assoc]
    exact hu

omit [Image] in
theorem Kernel.fds_fill {p : Proc} (hj : ∀ fd, (s.proc j).ofile fd = none) (g : Fin NFILE) :
    (s.setProc j p).fds g = s.fds g + ((List.finRange NOFILE).map fun fd => holds (p.ofile fd) g).sum := by
  have h := Kernel.fds_setProc (s := s) (i := j) (p := p) g
  have hzero : count Finset.univ (s.proc j).ofile g = 0 :=
    count_eq_zero.2 fun fd _ => by rw [hj fd]; exact (Option.some_ne_none g).symm
  have hlist : count Finset.univ p.ofile g =
      ((List.finRange NOFILE).map fun fd => holds (p.ofile fd) g).sum := Fin.sum_univ_def _
  rw [hzero, Nat.add_zero, hlist] at h
  exact h

theorem wp_kfork_held (h : Held v₀ s) : wp (kfork i) s (fun _ t => Held v₀ t) Panic.Other := by
  rw [kfork, wp_bind]
  refine wp_conseq (wp_allocproc h) fun r t ht => ?_
  obtain ⟨ht, hempty⟩ := ht
  cases r with
  | none => exact wp_pure.2 ht
  | some j =>
    have hj := hempty j rfl
    have hfail : ∀ u : Kernel, Held v₀ u → (∀ fd, (u.proc j).ofile fd = none) →
        wp (freeproc j >>= fun _ => pure (none : Option (Fin NPROC))) u (fun _ t => Held v₀ t)
          Panic.Other := by
      intro u hu hju
      exact wp_seq (wp_freeproc hu hju) fun _ _ hx => wp_pure.2 hx
    dsimp only
    rw [wp_bind, wp_getProc, wp_bind, wp_getProc, wp_bind]
    refine wp_conseq ((calm_onVm aside_onKmem).spec t) fun r u hu => ?_
    cases r with
    | false => exact hfail u (ht.calm hu) fun fd => by rw [hu.ofile j]; exact hj fd
    | true =>
      rw [if_pos rfl, wp_bind, wp_setProc]
      have hc1 := hu.trans (calm_slot (s := u) (i := j) (p := { u.proc j with sz := (t.proc i).sz }) rfl
        fun h => h)
      have hh1 := ht.calm hc1
      refine wp_seq (hh1.onVm_files (wp_mmapfork hh1.files)) fun r x hx => ?_
      obtain ⟨hx, hxp⟩ := hx
      have hxo : ∀ k, (x.proc k).ofile = (t.proc k).ofile := fun k => by rw [hxp, hc1.ofile k]
      cases r with
      | false => exact hfail x hx fun fd => by rw [hxo j]; exact hj fd
      | true =>
        rw [if_pos rfl, wp_bind, wp_setProc]
        have hc2 := calm_slot (s := x) (i := j) (p := eevdfRefreshDeadline { x.proc j with
          nice := (t.proc i).nice, weight := niceToWeight (t.proc i).nice
          runtime := 0, vruntime := (t.proc i).vruntime, remainSlice := BASE_SLICE }) rfl fun h => h
        refine wp_seq ((calm_onVm aside_onKmem).spec _) fun _ y hy => ?_
        have hcy := hc2.trans hy
        have hyh := hx.calm hcy
        have hyo : ∀ k, (y.proc k).ofile = (t.proc k).ofile := fun k => (hcy.ofile k).trans (hxo k)
        rw [wp_bind, wp_onVm]
        have hpos : ∀ fd f, (t.proc i).ofile fd = some f → 0 < y.fds f := by
          intro fd f hf
          rw [← hyo i] at hf
          exact Kernel.fds_pos hf
        refine wp_conseq (wp_dupFiles hpos (List.finRange NOFILE) (fun _ => le_refl _) hyh.files)
          fun _ w hw => ?_
        rw [wp_bind, wp_setProc, wp_pure]
        refine ⟨?_, ?_⟩
        · have hfill : ∀ p : Proc, p.ofile = (t.proc i).ofile → ((y.setVm w).setProc j p).fds =
              fun g => y.fds g + ((List.finRange NOFILE).map fun fd => holds ((t.proc i).ofile fd) g).sum := by
            intro p hp
            funext g
            rw [← hp]
            exact Kernel.fds_fill (s := y.setVm w) (fun fd => by
              show (y.proc j).ofile fd = none
              rw [hyo j]
              exact hj fd) g
          exact hw.of_eq (hfill _ rfl)
        · exact Kernel.Tidy.setProc (s := y.setVm w) hyh.tidy (not_idle (x := .runnable) rfl (by decide))

theorem wp_closeFiles (fds : List (Fin NOFILE)) : ∀ {s : Kernel}, Held v₀ s →
    wp (closeFiles i fds) s (fun _ t => Held v₀ t ∧
      ∀ fd, fd ∈ fds ∨ (s.proc i).ofile fd = none → (t.proc i).ofile fd = none) Panic.Other := by
  induction fds with
  | nil => exact fun h => wp_pure.2 ⟨h, fun fd hfd => hfd.resolve_left List.not_mem_nil⟩
  | cons fd fds ih =>
    intro s h
    rw [closeFiles, wp_bind, wp_getProc, wp_bind, wp_onVm]
    -- the counts that are right once the descriptor is cleared
    have hcount : ∀ v g, s.fds g = ((s.setVm v).setProc i { (s.setVm v).proc i with
        ofile := upd ((s.setVm v).proc i).ofile fd none }).fds g + holds ((s.proc i).ofile fd) g := by
      intro v g
      have hf := Kernel.fds_upd (s := s.setVm v) (i := i) (d := fd) (o := none)
        (p := { (s.setVm v).proc i with ofile := upd ((s.setVm v).proc i).ofile fd none }) rfl g
      rw [holds_none, Nat.add_zero] at hf
      exact hf.symm
    refine wp_conseq (wp_filecloseOpt h.files (hcount s.vm) fun f _ => Files.not_empty f)
      fun _ w hw => ?_
    rw [wp_bind]
    refine wp_clearFd (s := s.setVm w) h.tidy fun t ht htidy _ => ?_
    have hheld : Held v₀ t := by
      refine ⟨?_, htidy⟩
      rw [ht]
      exact hw.1
    refine wp_conseq (ih hheld) fun _ u hu => ⟨hu.1, fun d hd => hu.2 d ?_⟩
    have htd : (t.proc i).ofile = upd (s.proc i).ofile fd none := by
      rw [ht, Kernel.setProc_proc_same]
      rfl
    rw [htd]
    by_cases he : d = fd
    · rw [he, upd_same]
      exact Or.inr rfl
    · rw [upd_other _ _ he]
      rcases hd with hd | hd
      · exact Or.inl ((List.mem_cons.1 hd).resolve_left he)
      · exact Or.inr hd

theorem wp_kexit_held {c : Fin NCPU} {status : Int} (h : Held v₀ s) :
    wp (kexit c i status) s (fun _ t => Held v₀ t) Panic.Other := by
  rw [kexit, wp_bind, wp_get]
  split
  · exact wp_throw.2 (by decide)
  refine wp_seq (h.onVm_files (wp_mmapfreeproc h.files)) fun _ t ht => ?_
  refine wp_seq (wp_closeFiles (i := i) (List.finRange NOFILE) ht.1) fun _ u hu => ?_
  obtain ⟨hu, hnone⟩ := hu
  have htab : IsCalm (setTable (fun t => reparent i s.initproc (reparentWakeups i s.initproc t)) >>=
      fun _ => setTable (wakeupParent i)) :=
    calm_bind (calm_setTable fun t => (tableCalm_reparentWakeups i _ t).trans (tableCalm_reparent i _ _))
      fun _ => calm_setTable (tableCalm_wakeupParent i)
  have hcalm := htab.spec u
  rw [wp_bind] at hcalm
  refine wp_seq hcalm fun _ x hx => ?_
  refine wp_seq hx fun _ y hy => ?_
  have hyh := hu.calm hy
  rw [wp_bind, wp_setProc, wp_leaveCpu]
  have hof : ∀ j, ((y.setProc i { y.proc i with xstate := status, state := .zombie }).proc j).ofile =
      (y.proc j).ofile := by
    intro j
    by_cases he : j = i
    · rw [he, Kernel.setProc_proc_same]
    · rw [Kernel.setProc_proc_other _ _ _ he]
  refine ⟨?_, fun j hj fd => ?_⟩
  · have hfds : ((y.setProc i { y.proc i with xstate := status, state := .zombie }).setCpu c none).fds =
        y.fds := Kernel.fds_congr hof
    rw [hfds]
    exact hyh.files
  · show ((y.setProc i { y.proc i with xstate := status, state := .zombie }).proc j).ofile fd = none
    rw [hof j]
    by_cases he : j = i
    · rw [he, hy.ofile i]
      exact hnone fd (Or.inl (List.mem_finRange fd))
    · have hj' : (y.proc j).Idle := by
        have hjs : ((y.setProc i { y.proc i with xstate := status, state := .zombie }).proc j).Idle := hj
        rw [Kernel.setProc_proc_other _ _ _ he] at hjs
        exact hjs
      exact hyh.tidy j hj' fd

theorem wp_kwait_held {c : Fin NCPU} {addr : Nat} (h : Held v₀ s) :
    wp (kwait c i addr) s (fun _ t => Held v₀ t) Panic.Other := by
  rw [kwait, wp_bind, wp_get]
  dsimp only
  split
  case h_1 j hj =>
    have hz : (s.proc j).state = .zombie := by
      have hf := List.find?_some hj
      simp only [Bool.and_eq_true, beq_iff_eq] at hf
      exact hf.2
    refine wp_seq ((calm_onVm (aside_copyXstate ..)).spec s) fun r t ht => ?_
    cases r with
    | true =>
      rw [if_pos rfl, wp_bind]
      refine wp_conseq (wp_freeproc (h.calm ht) fun fd => ?_) fun _ _ hu => wp_pure.2 hu
      rw [ht.ofile j]
      exact h.tidy j (Or.inr hz) fd
    | false => exact wp_pure.2 (h.calm ht)
  case h_2 =>
    split
    · exact wp_pure.2 h
    · exact wp_seq ((calm_sleepOn ..).held h) fun _ _ ht => wp_pure.2 ht

theorem wp_kwaitpid_held {c : Fin NCPU} {pid : Int} (h : Held v₀ s) :
    wp (kwaitpid c i pid) s (fun _ t => Held v₀ t) Panic.Other := by
  rw [kwaitpid, wp_bind, wp_get]
  split
  case h_1 => exact wp_pure.2 h
  case h_2 j _ =>
    split
    · exact wp_pure.2 h
    split
    case isTrue hz =>
      exact wp_seq (wp_freeproc h (h.tidy j (Or.inr hz))) fun _ _ hu => wp_pure.2 hu
    case isFalse =>
      split
      · exact wp_pure.2 h
      · exact wp_seq ((calm_sleepOn ..).held h) fun _ _ ht => wp_pure.2 ht

theorem wp_usertrapTimer_held {c : Fin NCPU} (h : Held v₀ s) :
    wp (usertrapTimer c i) s (fun _ t => Held v₀ t) Panic.Other := by
  rw [usertrapTimer, wp_bind]
  refine wp_conseq ((calm_clockintr c).held h) fun _ t ht => ?_
  rw [wp_bind, wp_getProc]
  split
  · exact wp_kexit_held ht
  · exact (calm_accountTick c i).held ht

theorem wp_die_held {c : Fin NCPU} (h : Held v₀ s) :
    wp (setProc i (fun p => { p with killed := true }) >>= fun _ => kexit c i (-1)) s
      (fun _ t => Held v₀ t) Panic.Other := by
  rw [wp_bind]
  have hk : IsCalm (setProc i fun p => { p with killed := true }) :=
    calm_setProc fun p => ⟨rfl, fun h => h⟩
  exact wp_conseq (hk.held h) fun _ t ht => wp_kexit_held ht

theorem wp_usertrapFault_held {c : Fin NCPU} {va : Nat} {read : Bool} (h : Held v₀ s) :
    wp (usertrapFault c i va read) s (fun _ t => Held v₀ t) Panic.Other := by
  rw [usertrapFault, wp_bind, wp_getProc, wp_bind]
  refine wp_conseq ((calm_onVm (aside_vmfault ..)).held h) fun r t ht => ?_
  cases r with
  | true => exact wp_pure.2 ht
  | false => exact wp_die_held ht

/-! ### Exec -/

theorem wp_sysExecRun_held {e : ExecArgs} (h : Held v₀ s) :
    wp (sysExecRun i e) s (fun _ t => Held v₀ t) Panic.Other := by
  rw [sysExecRun, wp_bind, wp_get]
  dsimp only
  refine wp_seq (h.onVm_files (wp_kexec h.files)) fun r t ht => ?_
  cases r with
  | none => exact (calm_sysExecEnd i).held ht.1
  | some img =>
    refine IsCalm.held (calm_bind (calm_setProc fun p => ?_) fun _ => calm_sysExecEnd i) ht.1
    exact ⟨rfl, fun h => h⟩

theorem wp_sysExecStep_held (h : Held v₀ s) :
    wp (sysExecStep i) s (fun _ t => Held v₀ t) Panic.Other := by
  rw [sysExecStep, wp_bind, wp_getProc]
  split
  case h_1 => exact wp_pure.2 h
  case h_2 e _ =>
    split
    · exact (calm_sysExecEnd i).held h
    refine wp_seq ((calm_onVm (aside_fetchaddr ..)).held h) fun r t ht => ?_
    cases r with
    | none => exact (calm_sysExecEnd i).held ht
    | some uarg =>
      dsimp only
      split
      · exact wp_sysExecRun_held ht
      refine IsCalm.held (calm_bind (calm_onVm aside_onKmem) fun r => ?_) ht
      cases r with
      | none => exact calm_sysExecEnd i
      | some pa =>
        refine calm_bind (calm_setProc fun p => ⟨rfl, fun h => h⟩) fun _ => ?_
        refine calm_bind (calm_onVm (aside_copyinstr ..)) fun r => ?_
        cases r with
        | none => exact calm_sysExecEnd i
        | some str => exact calm_onVm aside_onKmem

theorem wp_forkret_held {ip : Option Nat} (h : Held v₀ s) :
    wp (forkret i ip) s (fun _ t => Held v₀ t) Panic.Other := by
  rw [forkret, wp_bind, wp_getProc, wp_bind, wp_modify, wp_bind]
  have h' : Held v₀ { s with first := false } := ⟨h.files, h.tidy⟩
  refine wp_conseq (h'.onVm_files (wp_kexec h'.files)) fun r t ht => ?_
  cases r with
  | none => exact wp_throw.2 (by decide)
  | some img =>
    refine IsCalm.held (calm_setProc fun p => ?_) ht.1
    exact ⟨rfl, fun h => h⟩

end Calls

end Xv6
