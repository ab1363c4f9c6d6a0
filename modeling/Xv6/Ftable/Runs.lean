import Xv6.Ftable.Calls

/-!
# Open files in every run

`wp_code_held` is the step: each act keeps the counts, and ends in no panic of `kernel/file.c`.
From it come the counts in every state a run reaches, and what a step releases.
-/

namespace Xv6

open Xv6.Lib

variable {v₀ v : Vm} {s t : Kernel} {a : Act} {D : Fin NFILE → ℕ}

theorem Files.rebase (h : Files v₀ D ∅ v) : Files v D ∅ v := by
  refine ⟨h.refs, h.typed, h.fresh, h.free, [], rfl, ?_⟩
  intro f r hr
  have ht := h.typed f (Files.not_empty f)
  refine Or.inl ⟨Nat.pos_of_ne_zero fun h0 => ?_, hr, rfl⟩
  rw [ht.2 h0] at hr
  cases hr

theorem Held.rebase (h : Held v₀ s) : Held s.vm s := ⟨h.files.rebase, h.tidy⟩

section Step

variable [Image]

theorem wp_code_held (hi : CpuInv s) (h : Held s.vm s) :
    wp a.code s (fun _ t => Held s.vm t) Panic.Other := by
  have hrun : ∀ {c i}, s.cpu c = some i → ¬(s.proc i).Idle := fun hc =>
    not_idle (hi.running _ _ hc) (by decide)
  -- the result of a call is of no interest
  have hdrop : ∀ {α : Type} {x : KernelM α}, wp x s (fun _ t => Held s.vm t) Panic.Other →
      wp (x >>= fun _ => pure ()) s (fun _ t => Held s.vm t) Panic.Other := by
    intro α x hx
    exact wp_seq hx fun _ _ ht => wp_pure.2 ht
  unfold Act.code
  cases a with
  | schedule c => exact (calm_schedule c).held h
  | forkret c ip =>
    refine wp_withProc h fun i _ => ?_
    rw [wp_bind, wp_get]
    split
    · exact wp_forkret_held h
    · exact wp_pure.2 h
  | userTimer c => exact wp_withUser h fun i _ _ _ => wp_usertrapTimer_held h
  | kernelTimer c => exact (calm_kerneltrapTimer c).held h
  | wakeup c chan =>
    exact (calm_bind calm_get fun u => calm_setTable (tableCalm_wakeup (u.cpu c) chan)).held h
  | sleep c chan => exact wp_withProc h fun i _ => (calm_sleepOn c i chan).held h
  | kill c pid => exact wp_withUser h fun i _ _ _ => (calm_setTable (tableCalm_kkill pid)).held h
  | setnice c pid value =>
    exact wp_withUser h fun i _ _ _ => (calm_setTable (tableCalm_ksetnice pid value)).held h
  | fork c => exact wp_withUser h fun i _ _ _ => hdrop (wp_kfork_held h)
  | exit c status => exact wp_withUser h fun i _ _ _ => wp_kexit_held h
  | wait c addr => exact wp_withUser h fun i _ _ _ => hdrop (wp_kwait_held h)
  | waitpid c pid => exact wp_withUser h fun i _ _ _ => hdrop (wp_kwaitpid_held h)
  | sbrk c n t => exact wp_withUser h fun i _ _ _ => hdrop ((calm_sysSbrk i n t).held h)
  | fault c va read => exact wp_withUser h fun i _ _ _ => wp_usertrapFault_held h
  | trap c => exact wp_withUser h fun i _ _ _ => wp_die_held h
  | mmap c addr length prot flags fd offset =>
    refine wp_withUser h fun i _ _ _ => hdrop ?_
    refine wp_conseq (h.onVm_files (wp_kmmap h.files fun fd f hf => ?_)) fun _ _ ht => ht.1
    exact Kernel.fds_pos hf
  | munmap c addr =>
    refine wp_withUser h fun i _ _ _ => hdrop ?_
    exact wp_conseq (h.onVm_files (wp_kmunmap h.files)) fun _ _ ht => ht.1
  | store c va x =>
    exact wp_withUser h fun i _ _ _ => (calm_onVm aside_onKmem).held h
  | copyout c va bytes =>
    exact wp_withUser h fun i _ _ _ => hdrop ((calm_onVm (aside_copyout ..)).held h)
  | copyin c va len =>
    exact wp_withUser h fun i _ _ _ => hdrop ((calm_onVm (aside_copyin ..)).held h)
  | pipe c fdarray => exact wp_withUser h fun i hc _ _ => hdrop (wp_sysPipe h (hrun hc))
  | close c fd => exact wp_withUser h fun i _ _ _ => hdrop (wp_sysClose h)
  | dup c fd => exact wp_withUser h fun i hc _ _ => hdrop (wp_sysDup h (hrun hc))
  | «open» c ip device readable writable =>
    exact wp_withUser h fun i hc _ _ => hdrop (wp_sysOpen h (hrun hc))
  | execStart c path uargv ip =>
    exact wp_withUser h fun i _ _ _ => (calm_sysExecStart i path uargv ip).held h
  | execStep c => exact wp_withProc h fun i _ => wp_sysExecStep_held h
  | disk ip f =>
    show wp (onVm _) s _ _
    rw [wp_onVm, wp_modify]
    exact ⟨h.files.beside ⟨rfl, rfl, rfl⟩, h.tidy⟩

omit [Image] in
theorem held_reset (disk : Nat → Inode) : Held (reset disk).vm (reset disk) := by
  have hfds : ∀ f, (reset disk).fds f = 0 := fun f =>
    Finset.sum_eq_zero fun i _ => count_eq_zero.2 fun _ _ => (Option.some_ne_none f).symm
  have hareas : ∀ f, (reset disk).vm.areas f = 0 := fun f =>
    count_eq_zero.2 fun _ _ => (Option.some_ne_none f).symm
  refine ⟨⟨fun f => by rw [hfds, hareas]; rfl, fun _ _ => ⟨fun _ => rfl, fun _ => rfl⟩,
    fun f hf => absurd hf (Files.not_empty f), fun _ _ => rfl, [], rfl, ?_⟩, fun _ _ _ => rfl⟩
  intro f r hr
  cases hr

theorem held_boot (h : Booted s) : Held s.vm s := by
  obtain ⟨disk, hb⟩ := h
  suffices hw : wp boot (reset disk) (fun _ t => Held (reset disk).vm t) Panic.Other by
    have ht := wp_ok hw hb
    exact ht.rebase
  rw [boot, wp_bind]
  refine wp_conseq ((calm_onVm aside_onKmem).held (held_reset disk))
    fun _ t ht => ?_
  refine wp_seq ((calm_onVm aside_onKmem).held ht) fun pas u hu => ?_
  rw [wp_bind, wp_modify]
  have hu' : Held (reset disk).vm { u with kpages := pas } := ⟨hu.files, hu.tidy⟩
  rw [userinit, wp_bind]
  refine wp_conseq (wp_allocproc hu') fun r x hx => ?_
  cases r with
  | none => exact wp_throw.2 (by decide)
  | some i =>
    dsimp only
    rw [wp_bind, wp_modify]
    have hx' : Held (reset disk).vm { x with initproc := some i } := ⟨hx.1.files, hx.1.tidy⟩
    refine IsCalm.held (calm_setProc fun p => ?_) hx'
    exact ⟨rfl, fun h => absurd h (not_idle (x := .runnable) rfl (by decide))⟩

theorem held_step (hi : CpuInv s) (h : Held s.vm s) (hs : step s a = .ok t) : Held s.vm t := by
  obtain ⟨u, hu⟩ := step_eq_ok.1 hs
  have hm := wp_ok (wp_code_held hi h) hu
  exact hm

theorem held_of_run {ok : Kernel → Act → Prop} {as : List Act} (h : Booted s)
    (hrun : Run step ok s as t) : CpuInv t ∧ Held t.vm t :=
  hrun.invariant (I := fun s => CpuInv s ∧ Held s.vm s) ⟨booted_cpuInv h, held_boot h⟩
    fun _ _ _ hi _ hs => ⟨cpuInv_step hi.1 hs, (held_step hi.1 hi.2 hs).rebase⟩

/-- **The reference counts of open files**, in every run. -/
theorem file_references {as : List Act} (h : Booted s) (hrun : Run step (fun _ _ => True) s as t) :
    (∀ f, (t.vm.file f).ref = t.holders f) ∧
    (∀ f, (t.vm.file f).ref = 0 → (t.vm.file f).type = .none) ∧
    (∀ a, step t a ≠ .error .filedup ∧ step t a ≠ .error .fileclose) ∧
    (∀ i f, (t.vm.area i).f = some f → (t.vm.file f).type ≠ .none) ∧
    ∀ a u, step t a = .ok u → ∃ l, u.vm.released = l ++ t.vm.released ∧
      ∀ f r, (t.vm.file f).resource = some r →
        (u.holders f = 0 → l.count (f, r) = 1) ∧
        (0 < u.holders f → (u.vm.file f).resource = some r ∧ (f, r) ∉ l) := by
  obtain ⟨hi, ht⟩ := held_of_run h hrun
  have hopen : ∀ f, (t.vm.file f).resource = none ↔ (t.vm.file f).ref = 0 := fun f =>
    ht.files.typed f (Files.not_empty f)
  refine ⟨ht.files.refs, fun f h0 => File.resource_none.1 ((hopen f).2 h0), ?_, ?_, ?_⟩
  · intro a
    have hother : ∀ e, step t a = .error e → e.Other := by
      intro e he
      unfold step at he
      split at he
      case h_1 => cases he
      case h_2 e' hc =>
        cases he
        exact wp_error (wp_code_held hi ht) hc
    exact ⟨fun he => (hother _ he).1 rfl, fun he => (hother _ he).2 rfl⟩
  · intro i f hf hn
    have h0 := (hopen f).1 (File.resource_none.2 hn)
    have hpos := ht.files.ref_area hf
    omega
  · intro a u hs
    have hu := held_step hi ht hs
    obtain ⟨l, hl, hsince⟩ := hu.files.since
    refine ⟨l, hl, ?_⟩
    intro f r hr
    have href : (u.vm.file f).ref = u.holders f := hu.files.refs f
    rcases hsince f r hr with ⟨hpos, hres, hc⟩ | ⟨h0, hc⟩
    · exact ⟨fun hz => by omega, fun _ => ⟨hres, List.count_eq_zero.1 hc⟩⟩
    · exact ⟨fun _ => hc, fun hz => by omega⟩

end Step

/-- The first process opens a file, maps it and closes the descriptor. -/
def mapThenClose : List Act :=
  [.schedule 0, .forkret 0 (some 0), .open 0 5 false true false, .mmap 0 0 4096 1 0 0 0, .close 0 0]

theorem file_references_mapped : ∃ t, Run (@step smallImage) (fun _ _ => True) smallKernel
    mapThenClose t ∧ (t.proc 0).ofile 0 = none ∧ (t.vm.area 0).f = some 0 ∧
      (t.vm.file 0).ref = t.holders 0 ∧ (t.vm.file 0).type ≠ .none := by
  obtain ⟨t, hr, ht⟩ := exists_run (@step smallImage) (fun _ _ => true)
    (fun t => decide ((t.proc 0).ofile 0 = none ∧ (t.vm.area 0).f = some 0)) smallKernel mapThenClose
    (by decide +kernel)
  obtain ⟨h1, h2⟩ := of_decide_eq_true ht
  have hr' : Run (@step smallImage) (fun _ _ => True) _ _ _ := hr.mono fun _ _ _ => trivial
  have href := @file_references smallKernel t smallImage mapThenClose booted_small hr'
  exact ⟨t, hr', h1, h2, href.1 0, href.2.2.2.1 0 0 h2⟩

end Xv6
