import Xv6.Sched.Table

/-!
# Every step moves the tasks by a `TaskStep`

The acts of the kernel one by one, and the result

* `step_moved`: a step moves every task by a `TaskStep`, and the CPUs by a `CpuStep`.

A run starts in a `Booted` state, in which one process is runnable and every other
slot is free.
-/

namespace Xv6

open Xv6.Lib

section

variable {s : Kernel} {a : Act} {c : Fin NCPU} {i : Fin NPROC}

/-! ### The process table alone -/

theorem wp_accountTick_moved {s₁ : Kernel} (ha : a.cpu = some c) (ht : a.tickCalls s = 1)
    (hc : s.cpu c = some i) (hcpu : s₁.cpu = s.cpu)
    (hw : WokeOthers (some i) s.proc s₁.proc) :
    wp (accountTick c i) s₁ (fun _ s' => Moved s a s') (fun _ => True) := by
  have hme := hw.me
  unfold accountTick
  obtain ⟨hy, htask⟩ := timerTick_task (s₁.proc i)
  simp only [wp_bind, wp_getProc, hy, decide_eq_true_eq]
  split
  · rename_i hr
    simp only [wp_bind, wp_setProc, wp_leaveCpu]
    rw [if_pos hr] at htask
    have h : LeftCpu s c i (fun t => t.ticked.woken)
        ((s₁.setProc i { (timerTick (s₁.proc i)).1 with state := .runnable }).setCpu c none) := by
      refine ⟨by simp [hcpu], ?_, fun j hj => by simpa [hj] using hw.slot j⟩
      have : (({ (timerTick (s₁.proc i)).1 with state := .runnable } : Proc)).task =
          { (timerTick (s₁.proc i)).1.task with state := .runnable } := rfl
      rw [Kernel.setCpu_proc, Kernel.setProc_proc_same, this, htask, hme]
      rfl
    rw [hme] at hr
    exact moved_of_left ha hc h (.yield c ha ht hc hr)
  · rename_i hr
    rw [if_neg hr, hme] at htask
    rw [wp_setProc]
    rw [hme] at hr
    refine ⟨fun j => ?_, .stay (by simp [hcpu]) fun c' i' ha' hc' => ?_⟩
    · by_cases hj : j = i
      · subst hj
        rw [Kernel.setProc_proc_same, htask]
        exact .tick c ha ht hc (by omega)
      · rw [Kernel.setProc_proc_other _ _ _ hj]
        rcases hw.slot j with h | ⟨hs, h⟩
        · rw [h]; exact .same
        · rw [h]; exact .wake hs
    · obtain rfl : c' = c := Option.some.inj (ha'.symm.trans ha)
      obtain rfl : i' = i := Option.some.inj (hc'.symm.trans hc)
      rw [Kernel.setProc_proc_same]
      exact congrArg Task.state htask

theorem wp_kerneltrapTimer_moved (hi : CpuInv s) (ha : a = .kernelTimer c) :
    wp (kerneltrapTimer c) s (fun _ s' => Moved s a s') (fun _ => True) := by
  unfold kerneltrapTimer
  refine wp_seq (wp_clockintr_woke s c) ?_
  rintro _ _ ⟨t, rfl, hw⟩
  simp only [wp_bind, wp_get]
  split
  · exact wp_pure.2 (moved_of_woke hi rfl hw)
  · rename_i i hc
    rw [Kernel.setTable_cpu] at hc
    split
    · rw [hc] at hw
      exact wp_accountTick_moved (by rw [ha]; rfl)
        (by simp [ha, Act.tickCalls, hc, hi.running c i hc]) hc rfl hw
    · exact wp_pure.2 (moved_of_woke hi rfl hw)

theorem wp_schedule_moved (ha : a = .schedule c) :
    wp (schedule c) s (fun _ s' => Moved s a s') (fun _ => True) := by
  unfold schedule
  simp only [wp_bind, wp_get]
  split
  · exact wp_pure.2 (Quiet.refl s).moved
  · rename_i hc
    rcases ht : schedulerPass s.proc with ⟨_ | b, t⟩
    · exact wp_set.2 (Quiet.moved ⟨schedulerPass_none ht, rfl, rfl⟩)
    · obtain ⟨hr, he, hb, hother⟩ := schedulerPass_some ht
      have hb' : (upd t b { t b with chan := 0 } b).task =
          { (s.proc b).task with state := .running } := by
        rw [upd_same, ← hb]; rfl
      refine wp_set.2 ⟨fun j => ?_, .take c b (by rw [ha]; rfl) hc hr (congrArg Task.state hb') rfl⟩
      by_cases hj : j = b
      · subst hj
        show TaskStep s a j _ (upd t j { t j with chan := 0 } j).task
        rw [hb']
        exact .dispatch hr he
      · show TaskStep s a j _ (upd t b { t b with chan := 0 } j).task
        rw [upd_other _ _ hj, hother j hj]
        exact .same

theorem wp_kill_moved (hi : CpuInv s) (pid : Int) (ha : a = .kill c pid) :
    wp (setTable fun t => (kkill pid t).2) s (fun _ s' => Moved s a s') (fun _ => True) := by
  rw [wp_setTable]
  unfold kkill
  split
  · exact (Quiet.refl s).moved
  · rename_i j hj
    have hp : (s.proc j).pid = pid := by simpa using List.find?_some hj
    have htask : (killSlot (s.proc j)).task = (s.proc j).task.doomed := by
      unfold killSlot Task.doomed
      rw [Proc.task_state]
      split <;> rfl
    dsimp only
    refine ⟨fun k => ?_, .stay rfl fun c' i ha' hc' => ?_⟩
    · by_cases hk : k = j
      · subst hk
        rw [Kernel.setTable_proc, upd_same, htask]
        exact .kill c (by rw [ha, Proc.task_pid, hp]) (by rw [Proc.task_pid, hp]; exact hj)
      · rw [Kernel.setTable_proc, upd_other _ _ hk]
        exact .same
    · rw [Kernel.setTable_proc]
      by_cases hk : i = j
      · subst hk
        rw [upd_same]
        unfold killSlot
        rw [if_neg (by rw [hi.running c' i hc']; simp)]
      · rw [upd_other _ _ hk]

theorem wp_setnice_moved (pid value : Int) (ha : a = .setnice c pid value) :
    wp (setTable fun t => (ksetnice pid value t).2) s (fun _ s' => Moved s a s')
      (fun _ => True) := by
  rw [wp_setTable]
  unfold ksetnice
  split
  · exact (Quiet.refl s).moved
  · rename_i hv
    split
    · exact (Quiet.refl s).moved
    · rename_i j hj
      have hp := List.find?_some hj
      simp only [bne_iff_ne, ne_eq, Bool.and_eq_true, beq_iff_eq] at hp
      dsimp only
      refine ⟨fun k => ?_, .stay rfl fun c' i ha' hc' => ?_⟩
      · by_cases hk : k = j
        · subst hk
          rw [Kernel.setTable_proc, upd_same]
          exact .renice c value (by rw [ha, Proc.task_pid, hp.2]) (by omega) hp.1
        · rw [Kernel.setTable_proc, upd_other _ _ hk]
          exact .same
      · rw [Kernel.setTable_proc]
        by_cases hk : i = j
        · subst hk
          rw [upd_same]
          rfl
        · rw [upd_other _ _ hk]

theorem IsQuiet.moved {α : Type} {x : KernelM α} (h : IsQuiet x) :
    wp x s (fun _ s' => Moved s a s') (fun _ => True) :=
  wp_conseq (h s) fun _ _ hq => hq.moved

/-! ### With memory -/

variable [Image]

theorem wp_kwait_moved (hi : CpuInv s) (ha : a.cpu = some c) (hc : s.cpu c = some i)
    (addr : Nat) : wp (kwait c i addr) s (fun _ s' => Moved s a s') (fun _ => True) := by
  unfold kwait
  simp only [wp_bind, wp_get]
  split
  · rename_i j hj
    have hz : (s.proc j).state = .zombie := by
      have := List.find?_some hj
      simp only [Bool.and_eq_true, beq_iff_eq] at this
      exact this.2
    rw [wp_bind]
    refine wp_onVm_any fun ok v => ?_
    split
    · rw [wp_bind]
      refine wp_freeproc_any fun v p hp => wp_pure.2 ?_
      refine moved_of_slot hi (k := j) (by simp [hz]) rfl (fun k hk => by simp [hk]) ?_
      rw [Kernel.setProc_proc_same, hp]
      exact .free (.inl hz)
    · exact wp_pure.2 (Quiet.moved ⟨fun _ => rfl, rfl, rfl⟩)
  · split
    · exact wp_pure.2 (Quiet.refl s).moved
    · refine wp_seq (wp_sleepOn c i _) fun _ u hu => wp_pure.2 ?_
      exact moved_of_left ha hc hu (.sleep c ha hc)

theorem wp_kwaitpid_moved (hi : CpuInv s) (ha : a.cpu = some c) (hc : s.cpu c = some i)
    (pid : Int) : wp (kwaitpid c i pid) s (fun _ s' => Moved s a s') (fun _ => True) := by
  unfold kwaitpid
  simp only [wp_bind, wp_get]
  split
  · exact wp_pure.2 (Quiet.refl s).moved
  · rename_i j hj
    split
    · exact wp_pure.2 (Quiet.refl s).moved
    · split
      · rename_i hz
        rw [wp_bind]
        refine wp_freeproc_any fun v p hp => wp_pure.2 ?_
        refine moved_of_slot hi (k := j) (by simp [hz]) rfl (fun k hk => by simp [hk]) ?_
        rw [Kernel.setProc_proc_same, hp]
        exact .free (.inl hz)
      · split
        · exact wp_pure.2 (Quiet.refl s).moved
        · refine wp_seq (wp_sleepOn c i _) fun _ u hu => wp_pure.2 ?_
          exact moved_of_left ha hc hu (.sleep c ha hc)

theorem wp_die_moved (ha : a.cpu = some c) (hf : a.isFault) (hc : s.cpu c = some i) (v : Vm) :
    wp (do setProc i fun p => { p with killed := true }; kexit c i (-1)) (s.setVm v)
      (fun _ s' => Moved s a s') (fun _ => True) := by
  rw [wp_bind, wp_setProc]
  refine wp_conseq (wp_kexit c i _) fun _ u hu => ?_
  have h := hu.of_woke (s := s) (g := fun t => { t with killed := true }) rfl
    (by simp [Proc.task]) (fun j hj => .inl (by simp [hj]))
  exact moved_of_left ha hc h (.fault c ha hf hc)

theorem wp_usertrapFault_moved (ha : a.cpu = some c) (hf : a.isFault) (hc : s.cpu c = some i)
    (va : Nat) (read : Bool) :
    wp (usertrapFault c i va read) s (fun _ s' => Moved s a s') (fun _ => True) := by
  unfold usertrapFault
  simp only [wp_bind, wp_getProc]
  refine wp_onVm_any fun ok v => ?_
  split
  · exact wp_pure.2 (Quiet.moved ⟨fun _ => rfl, rfl, rfl⟩)
  · exact wp_die_moved ha hf hc v

theorem wp_usertrapTimer_moved (ha : a = .userTimer c) (hc : s.cpu c = some i)
    (hf : s.first = false) (he : (s.proc i).exec = none) :
    wp (usertrapTimer c i) s (fun _ s' => Moved s a s') (fun _ => True) := by
  unfold usertrapTimer
  refine wp_seq (wp_clockintr_woke s c) ?_
  rintro _ _ ⟨t, rfl, hw⟩
  rw [hc] at hw
  simp only [wp_bind, wp_getProc]
  have hcpu : a.cpu = some c := by rw [ha]; rfl
  split
  · refine wp_conseq (wp_kexit c i _) fun _ u hu => ?_
    have h := hu.of_woke (s := s) (g := id) rfl hw.me fun j _ => hw.slot j
    exact moved_of_left hcpu hc h (.exit c hcpu hc)
  · rename_i hk
    have hk' : (s.proc i).killed = false := by
      rw [← Proc.task_killed, ← hw.me]
      simpa using hk
    exact wp_accountTick_moved hcpu (by simp [ha, Act.tickCalls, hc, hf, he, hk']) hc rfl hw

theorem wp_fork_moved (hi : CpuInv s) (ha : a = .fork c) (hc : s.cpu c = some i) :
    wp (kfork i) s (fun _ s' => Moved s a s') (fun _ => True) := by
  have hr := hi.running c i hc
  refine wp_conseq (wp_kfork (by simp [hr])) fun _ u hu => ?_
  refine ⟨fun j => ?_, .stay hu.1 fun c' i' ha' hc' => ?_⟩
  · rcases hu.2 j with h | ⟨hun, h | h⟩
    · rw [h]; exact .same
    · rw [h]; exact .free (.inr hun)
    · rw [h]; exact .fork c i ha hc hun
  · rcases hu.2 i' with h | ⟨hun, -⟩
    · exact congrArg Task.state h
    · rw [hi.running c' i' hc'] at hun; cases hun

theorem wp_code_moved (hi : CpuInv s) : wp a.code s (fun _ s' => Moved s a s') (fun _ => True) := by
  have h0 := (Quiet.refl s).moved (a := a)
  unfold Act.code
  cases a with
  | schedule c => exact wp_schedule_moved rfl
  | forkret c ip =>
    refine wp_withProc h0 fun i _ => ?_
    rw [wp_bind, wp_get]
    split
    · exact (quiet_forkret i ip).moved
    · exact wp_pure.2 h0
  | userTimer c => exact wp_withUser h0 fun i hc hf he => wp_usertrapTimer_moved rfl hc hf he
  | kernelTimer c => exact wp_kerneltrapTimer_moved hi rfl
  | wakeup c chan =>
    rw [wp_bind, wp_get, wp_setTable]
    exact moved_of_woke hi rfl (wokeOthers_wakeup _ chan s.proc)
  | sleep c chan =>
    refine wp_withProc h0 fun i hc => ?_
    refine wp_conseq (wp_sleepOn c i chan) fun _ u hu => ?_
    exact moved_of_left rfl hc hu (.sleep c rfl hc)
  | kill c pid => exact wp_withUser h0 fun i _ _ _ => wp_kill_moved hi pid rfl
  | setnice c pid value => exact wp_withUser h0 fun i _ _ _ => wp_setnice_moved pid value rfl
  | fork c =>
    refine wp_withUser h0 fun i hc _ _ => ?_
    exact wp_seq (wp_fork_moved hi rfl hc) fun _ _ h => wp_pure.2 h
  | exit c status =>
    refine wp_withUser h0 fun i hc _ _ => ?_
    refine wp_conseq (wp_kexit c i status) fun _ u hu => ?_
    exact moved_of_left rfl hc hu (.exit c rfl hc)
  | wait c addr =>
    refine wp_withUser h0 fun i hc _ _ => ?_
    exact wp_seq (wp_kwait_moved hi rfl hc addr) fun _ _ h => wp_pure.2 h
  | waitpid c pid =>
    refine wp_withUser h0 fun i hc _ _ => ?_
    exact wp_seq (wp_kwaitpid_moved hi rfl hc pid) fun _ _ h => wp_pure.2 h
  | sbrk c n t =>
    refine wp_withUser h0 fun i _ _ _ => ?_
    exact IsQuiet.moved (quiet_bind (quiet_sysSbrk i n t) fun _ => quiet_pure _)
  | fault c va read =>
    exact wp_withUser h0 fun i hc _ _ => wp_usertrapFault_moved rfl rfl hc va read
  | trap c => exact wp_withUser h0 fun i hc _ _ => wp_die_moved rfl rfl hc s.vm
  | mmap c addr length prot flags fd offset | munmap c addr =>
    refine wp_withUser h0 fun i _ _ _ => ?_
    exact IsQuiet.moved (quiet_bind (quiet_onVm _) fun _ => quiet_pure _)
  | store c va x => exact wp_withUser h0 fun i _ _ _ => (quiet_onVm _).moved
  | copyout c va bytes | copyin c va len =>
    refine wp_withUser h0 fun i _ _ _ => ?_
    exact IsQuiet.moved (quiet_bind (quiet_onVm _) fun _ => quiet_pure _)
  | pipe c fdarray =>
    refine wp_withUser h0 fun i _ _ _ => ?_
    exact IsQuiet.moved (quiet_bind (quiet_sysPipe i fdarray) fun _ => quiet_pure _)
  | close c fd =>
    refine wp_withUser h0 fun i _ _ _ => ?_
    exact IsQuiet.moved (quiet_bind (quiet_sysClose i fd) fun _ => quiet_pure _)
  | dup c fd =>
    refine wp_withUser h0 fun i _ _ _ => ?_
    exact IsQuiet.moved (quiet_bind (quiet_sysDup i fd) fun _ => quiet_pure _)
  | «open» c ip device readable writable =>
    refine wp_withUser h0 fun i _ _ _ => ?_
    exact IsQuiet.moved (quiet_bind (quiet_sysOpen i ip device readable writable)
      fun _ => quiet_pure _)
  | execStart c path uargv ip =>
    exact wp_withUser h0 fun i _ _ _ => (quiet_sysExecStart i path uargv ip).moved
  | execStep c => exact wp_withProc h0 fun i _ => (quiet_sysExecStep i).moved
  | disk ip f => exact (quiet_onVm _).moved

/-- **Every step moves every task by a `TaskStep` and the CPUs by a `CpuStep`.** -/
theorem step_moved {s' : Kernel} (hi : CpuInv s) (h : step s a = .ok s') : Moved s a s' := by
  obtain ⟨u, hu⟩ := step_eq_ok.1 h
  have hm := wp_ok (wp_code_moved hi) hu
  exact hm

/-! ### Boot -/

/-- The task of a slot that was never used. -/
def Task.blank : Task := ({} : Proc).task

theorem booted_tasks {s : Kernel} (h : Booted s) :
    s.cpu = (fun _ => none) ∧ ∃ j, (s.proc j).task =
      { (initSlot {} 1).task with state := .runnable } ∧
      ∀ k, k ≠ j → (s.proc k).task = .blank := by
  obtain ⟨disk, h⟩ := h
  refine wp_ok (Q := fun _ s => s.cpu = (fun _ => none) ∧ ∃ j, (s.proc j).task =
    { (initSlot {} 1).task with state := .runnable } ∧
      ∀ k, k ≠ j → (s.proc k).task = .blank) (E := fun _ => True) ?_ h
  unfold boot
  rw [wp_bind]
  refine wp_onVm_any fun _ v => ?_
  rw [wp_bind]
  refine wp_onVm_any fun pas v => ?_
  rw [wp_bind, wp_modify]
  unfold userinit
  rw [wp_bind]
  refine wp_allocproc_any (wp_throw.2 trivial) (fun _ _ _ _ _ _ => wp_throw.2 trivial) fun j v n p _ hp => ?_
  simp only [wp_bind, wp_modify, wp_setProc]
  refine ⟨rfl, j, ?_, fun k hk => ?_⟩
  · have hp' : p.task = (initSlot {} 1).task := hp
    rw [Kernel.setProc_proc_same, Kernel.setProc_proc_same, ← hp']
    rfl
  · rw [Kernel.setProc_proc_other _ _ _ hk]
    simp only [Kernel.setProc_proc_other _ _ _ hk]
    rfl

theorem booted_cpuInv {s : Kernel} (h : Booted s) : CpuInv s := by
  have hcpu := (booted_tasks h).1
  exact ⟨fun c i hc => by simp [hcpu] at hc, fun c c' i hc => by simp [hcpu] at hc⟩

theorem cpuInv_step {s s' : Kernel} {a : Act} (hi : CpuInv s) (h : step s a = .ok s') : CpuInv s' :=
  hi.moved (step_moved hi h)

end

end Xv6
