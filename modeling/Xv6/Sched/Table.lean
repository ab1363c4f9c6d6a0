import Xv6.Sched.Task

/-!
# The process table under the operations of the kernel

What each operation of `kernel/proc.c` and `kernel/trap.c` does to the tasks and the
CPUs.  Memory is left open: whatever an operation on it does, the process table is
changed by the operations of this file only.

* `Quiet`, `IsQuiet`: operations that leave every task alone;
* `WokeOthers`: what `wakeup` and its callers do to the others;
* `LeftCpu`: what `sleep`, `exit` and `yield` do;
* `schedulerPass_some`: what a pass of the scheduler dispatches.
-/

namespace Xv6

open Xv6.Lib

/-! ### Quiet operations -/

/-- No task and no CPU changed. -/
structure Quiet (s s' : Kernel) : Prop where
  task : ∀ j, (s'.proc j).task = (s.proc j).task
  cpu : s'.cpu = s.cpu
  nextpid : s'.nextpid = s.nextpid

theorem Quiet.refl (s : Kernel) : Quiet s s := ⟨fun _ => rfl, rfl, rfl⟩

theorem Quiet.trans (s t u : Kernel) (h : Quiet s t) (h' : Quiet t u) : Quiet s u :=
  ⟨fun j => (h'.task j).trans (h.task j), h'.cpu.trans h.cpu, h'.nextpid.trans h.nextpid⟩

theorem Quiet.moved {s s' : Kernel} {a : Act} (h : Quiet s s') : Moved s a s' where
  task j := by rw [h.task j]; exact .same
  cpu := .stay h.cpu fun c i _ _ => congrArg Task.state (h.task i)

/-- Operations that leave every task and every CPU alone. -/
abbrev IsQuiet {α : Type} (x : KernelM α) : Prop := Along Quiet x

theorem quiet_pure {α : Type} (a : α) : IsQuiet (pure a : KernelM α) := .pure Quiet.refl a

theorem quiet_bind {α β : Type} {x : KernelM α} {f : α → KernelM β} (hx : IsQuiet x)
    (hf : ∀ a, IsQuiet (f a)) : IsQuiet (x >>= f) := .bind Quiet.trans hx hf

theorem quiet_get : IsQuiet (get : KernelM Kernel) := .get Quiet.refl

theorem quiet_onVm {α : Type} (x : VmM α) : IsQuiet (onVm x) := fun _ =>
  wp_onVm_any fun _ _ => ⟨fun _ => rfl, rfl, rfl⟩

theorem quiet_getProc (i : Fin NPROC) : IsQuiet (getProc i) := fun s =>
  wp_getProc.2 (Quiet.refl s)

theorem quiet_setProc {i : Fin NPROC} {f : Proc → Proc} (hf : ∀ p, (f p).task = p.task) :
    IsQuiet (setProc i f) := by
  intro s
  rw [wp_setProc]
  refine ⟨fun j => ?_, rfl, rfl⟩
  by_cases h : j = i
  · subst h; simp [Kernel.setProc, hf]
  · simp [Kernel.setProc, h]

theorem quiet_fdalloc (i : Fin NPROC) (f : Fin NFILE) : IsQuiet (fdalloc i f) := by
  unfold fdalloc
  refine quiet_bind (quiet_getProc i) fun p => ?_
  split
  · exact quiet_pure _
  · exact quiet_bind (quiet_setProc fun _ => rfl) fun _ => quiet_pure _

theorem quiet_clearFd (i : Fin NPROC) (fd : Fin NOFILE) : IsQuiet (clearFd i fd) :=
  quiet_setProc fun _ => rfl

theorem quiet_sysDup (i : Fin NPROC) (fd : Fin NOFILE) : IsQuiet (sysDup i fd) := by
  unfold sysDup
  repeat' first
    | exact quiet_pure _ | exact quiet_onVm _ | exact quiet_getProc _ | exact quiet_fdalloc _ _
    | refine quiet_bind ?_ fun _ => ?_ | split

/-! ### Waking up -/

/-- Tasks other than that of `me` may have been woken up. -/
def WokeOthers (me : Option (Fin NPROC)) (t t' : ProcTable) : Prop :=
  ∀ j, (t' j).task = (t j).task ∨
    some j ≠ me ∧ (t j).state = .sleeping ∧ (t' j).task = (t j).task.woken

theorem WokeOthers.trans {me : Option (Fin NPROC)} {t t' t'' : ProcTable}
    (h : WokeOthers me t t') (h' : WokeOthers me t' t'') : WokeOthers me t t'' := by
  intro j
  rcases h j with h1 | ⟨hme, hs, hw⟩
  · rcases h' j with h2 | ⟨hme, hs, hw⟩
    · exact .inl (h2.trans h1)
    · have hst : (t j).state = .sleeping := (congrArg Task.state h1).symm.trans hs
      exact .inr ⟨hme, hst, by rw [hw, h1]⟩
  · rcases h' j with h2 | ⟨_, hs', _⟩
    · exact .inr ⟨hme, hs, by rw [h2, hw]⟩
    · -- a task woken by the first call is not asleep any more
      have : (t' j).state = .runnable := congrArg Task.state hw
      rw [this] at hs'
      cases hs'

theorem wokeOthers_of_task {me : Option (Fin NPROC)} {t t' : ProcTable}
    (h : ∀ j, (t' j).task = (t j).task) : WokeOthers me t t' := fun j => .inl (h j)

theorem wokeOthers_wakeup (me : Option (Fin NPROC)) (chan : Nat) (t : ProcTable) :
    WokeOthers me t (wakeup me chan t) := by
  intro j
  unfold wakeup
  by_cases hme : some j = me
  · simp [hme]
  · rw [if_neg hme]
    unfold wakeSlot
    by_cases hs : (t j).state = .sleeping ∧ (t j).chan = chan
    · rw [if_pos hs]
      exact .inr ⟨hme, hs.1, rfl⟩
    · rw [if_neg hs]
      exact .inl rfl

theorem wokeOthers_reparent (i : Fin NPROC) (init : Option (Fin NPROC)) (t : ProcTable) :
    WokeOthers (some i) t (reparent i init (reparentWakeups i init t)) := by
  have h1 : WokeOthers (some i) t (reparentWakeups i init t) := by
    unfold reparentWakeups
    split
    · exact wokeOthers_of_task fun _ => rfl
    · split
      · exact wokeOthers_wakeup _ _ _
      · exact wokeOthers_of_task fun _ => rfl
  refine h1.trans (wokeOthers_of_task fun j => ?_)
  unfold reparent
  split <;> rfl

theorem wokeOthers_wakeupParent (i : Fin NPROC) (t : ProcTable) :
    WokeOthers (some i) t (wakeupParent i t) := by
  unfold wakeupParent
  split
  · exact wokeOthers_of_task fun _ => rfl
  · exact wokeOthers_wakeup _ _ _

theorem WokeOthers.me {i : Fin NPROC} {t t' : ProcTable} (h : WokeOthers (some i) t t') :
    (t' i).task = (t i).task := by
  rcases h i with h | ⟨h, -, -⟩
  · exact h
  · exact absurd rfl h

theorem WokeOthers.slot {me : Option (Fin NPROC)} {t t' : ProcTable} (h : WokeOthers me t t')
    (j : Fin NPROC) : (t' j).task = (t j).task ∨
      (t j).state = .sleeping ∧ (t' j).task = (t j).task.woken :=
  (h j).imp_right And.right

/-! ### Forking and leaving -/

/-- What `kfork` by the process in slot `i` does to the tasks. -/
def ForkPost (s : Kernel) (i : Fin NPROC) (s' : Kernel) : Prop :=
  s'.cpu = s.cpu ∧ ∀ j, (s'.proc j).task = (s.proc j).task ∨
    (s.proc j).state = .unused ∧ ((s'.proc j).task = .freed ∨
      (s'.proc j).task = (s.proc j).task.born (s.proc i).task s.nextpid)

theorem forkPost_of_slot {s s' : Kernel} {i j : Fin NPROC} (hu : (s.proc j).state = .unused)
    (hcpu : s'.cpu = s.cpu) (hother : ∀ k, k ≠ j → (s'.proc k).task = (s.proc k).task)
    (hj : (s'.proc j).task = .freed ∨
      (s'.proc j).task = (s.proc j).task.born (s.proc i).task s.nextpid) : ForkPost s i s' := by
  refine ⟨hcpu, fun k => ?_⟩
  by_cases hk : k = j
  · subst hk; exact .inr ⟨hu, hj⟩
  · exact .inl (hother k hk)

theorem forkPost_freed {s u : Kernel} {i j : Fin NPROC} {p : Proc} (hu : (s.proc j).state = .unused)
    (hcpu : u.cpu = s.cpu) (hother : ∀ k, k ≠ j → u.proc k = s.proc k) (hp : p.task = .freed) :
    ForkPost s i (u.setProc j p) := by
  refine forkPost_of_slot hu hcpu (fun k hk => ?_) (.inl ?_)
  · rw [Kernel.setProc_proc_other _ _ _ hk, hother k hk]
  · rw [Kernel.setProc_proc_same, hp]

/-- The process in slot `i` left CPU `c` with the task `f`, others may have been woken. -/
structure LeftCpu (s : Kernel) (c : Fin NCPU) (i : Fin NPROC) (f : Task → Task)
    (s' : Kernel) : Prop where
  cpu : s'.cpu = upd s.cpu c none
  me : (s'.proc i).task = f (s.proc i).task
  others : ∀ j, j ≠ i → (s'.proc j).task = (s.proc j).task ∨
    (s.proc j).state = .sleeping ∧ (s'.proc j).task = (s.proc j).task.woken

theorem LeftCpu.of_woke {s s₁ s' : Kernel} {c : Fin NCPU} {i : Fin NPROC} {f g : Task → Task}
    (h : LeftCpu s₁ c i f s') (hcpu : s₁.cpu = s.cpu)
    (hme : (s₁.proc i).task = g (s.proc i).task)
    (hw : ∀ j, j ≠ i → (s₁.proc j).task = (s.proc j).task ∨
      (s.proc j).state = .sleeping ∧ (s₁.proc j).task = (s.proc j).task.woken) :
    LeftCpu s c i (fun t => f (g t)) s' where
  cpu := by rw [h.cpu, hcpu]
  me := by rw [h.me, hme]
  others j hj := by
    rcases hw j hj with h1 | ⟨hs, h1⟩
    · rcases h.others j hj with h2 | ⟨hs, h2⟩
      · exact .inl (h2.trans h1)
      · exact .inr ⟨(congrArg Task.state h1).symm.trans hs, by rw [h2, h1]⟩
    · rcases h.others j hj with h2 | ⟨hs', -⟩
      · exact .inr ⟨hs, h2.trans h1⟩
      · have : (s₁.proc j).state = .runnable := congrArg Task.state h1
        rw [this] at hs'
        cases hs'

theorem moved_of_left {s s' : Kernel} {a : Act} {c : Fin NCPU} {i : Fin NPROC} {f : Task → Task}
    (ha : a.cpu = some c) (hc : s.cpu c = some i) (h : LeftCpu s c i f s')
    (hf : TaskStep s a i (s.proc i).task (f (s.proc i).task)) : Moved s a s' where
  task j := by
    by_cases hj : j = i
    · subst hj; rw [h.me]; exact hf
    · rcases h.others j hj with h1 | ⟨hs, h1⟩
      · rw [h1]; exact .same
      · rw [h1]; exact .wake hs
  cpu := .leave c i ha hc h.cpu

theorem moved_of_woke {s s' : Kernel} {a : Act} {me : Option (Fin NPROC)} (hi : CpuInv s)
    (hcpu : s'.cpu = s.cpu) (hw : WokeOthers me s.proc s'.proc) : Moved s a s' where
  task j := by
    rcases hw j with h1 | ⟨-, hs, h1⟩
    · rw [h1]; exact .same
    · rw [h1]; exact .wake hs
  cpu := .stay hcpu fun c i _ hc => by
    rcases hw i with h1 | ⟨-, hs, -⟩
    · exact congrArg Task.state h1
    · rw [hi.running c i hc] at hs; cases hs

theorem moved_of_slot {s s' : Kernel} {a : Act} {k : Fin NPROC} (hi : CpuInv s)
    (hk : (s.proc k).state ≠ .running) (hcpu : s'.cpu = s.cpu)
    (hother : ∀ j, j ≠ k → (s'.proc j).task = (s.proc j).task)
    (hs : TaskStep s a k (s.proc k).task (s'.proc k).task) : Moved s a s' where
  task j := by
    by_cases hj : j = k
    · subst hj; exact hs
    · rw [hother j hj]; exact .same
  cpu := .stay hcpu fun c i _ hc => by
    have hik : i ≠ k := by rintro rfl; exact hk (hi.running c i hc)
    exact congrArg Task.state (hother i hik)

theorem wp_sleepOn {s : Kernel} (c : Fin NCPU) (i : Fin NPROC) (chan : Nat) :
    wp (sleepOn c i chan) s (fun _ s' => LeftCpu s c i (fun t => { t with state := .sleeping }) s')
      (fun _ => True) := by
  unfold sleepOn
  simp only [wp_bind, wp_setProc, wp_leaveCpu]
  refine ⟨rfl, by simp [Proc.task], fun j hj => .inl (by simp [hj])⟩

theorem wp_clockintr_woke (s : Kernel) (c : Fin NCPU) :
    wp (clockintr c) s (fun _ s' => ∃ t, s' = s.setTable t ∧ WokeOthers (s.cpu c) s.proc t)
      (fun _ => True) := by
  unfold clockintr
  simp only [wp_bind, wp_get, wp_when, wp_setTable]
  exact ⟨fun _ => ⟨_, rfl, wokeOthers_wakeup _ _ _⟩,
    fun _ => ⟨s.proc, rfl, wokeOthers_of_task fun _ => rfl⟩⟩

theorem timerTick_task (p : Proc) :
    (timerTick p).2 = decide (p.task.ticked.remainSlice ≤ 0) ∧
    (timerTick p).1.task = if p.task.ticked.remainSlice ≤ 0
      then { p.task.ticked.woken with state := p.state } else p.task.ticked := by
  have hr : (eevdfTick p).remainSlice = p.task.ticked.remainSlice := rfl
  unfold timerTick
  by_cases h : p.task.ticked.remainSlice ≤ 0
  · simp only [hr, h, if_true, decide_true, true_and]
    simp only [Proc.task, Task.ticked, Task.woken, Task.refresh, eevdfRefreshDeadline, eevdfTick]
  · simp only [hr, h, if_false, decide_false, true_and]
    simp only [Proc.task, Task.ticked, eevdfTick]
    congr 1

/-! ### A pass of the scheduler -/

/-- What the selection loop keeps: no task changes, and the candidate is runnable and
passes the test of `eevdf_is_eligible`. -/
def SelectInv (t : ProcTable) (st : RqStats) (bt : Option (Fin NPROC) × ProcTable) : Prop :=
  (∀ j, (bt.2 j).task = (t j).task) ∧
  ∀ b, bt.1 = some b → (t b).state = .runnable ∧ eevdfIsEligible (t b) st = true

theorem eevdfIsEligible_congr {p q : Proc} (h : p.task = q.task) (st : RqStats) :
    eevdfIsEligible p st = eevdfIsEligible q st := by
  have hs : p.state = q.state := congrArg Task.state h
  have hv : p.vruntime = q.vruntime := congrArg Task.vruntime h
  unfold eevdfIsEligible eevdfOnRq
  rw [hs, hv]

theorem selectSlot_inv {t : ProcTable} {st : RqStats} {bt : Option (Fin NPROC) × ProcTable}
    (h : SelectInv t st bt) (i : Fin NPROC) : SelectInv t st (selectSlot st bt i) := by
  obtain ⟨⟨e, he⟩, hbest⟩ := selectSlot_cases st bt i
  refine ⟨fun j => ?_, fun b hb => ?_⟩
  · rw [he]
    by_cases hj : j = i
    · subst hj; simpa [Proc.task] using h.1 j
    · simpa [hj] using h.1 j
  · rcases hbest b hb with hb | ⟨rfl, hr, hel⟩
    · exact h.2 b hb
    · have hst : (bt.2 b).state = (t b).state := congrArg Task.state (h.1 b)
      exact ⟨hst ▸ hr, (eevdfIsEligible_congr (h.1 b) st).symm.trans hel⟩

theorem select_inv {t : ProcTable} {st : RqStats} {bt : Option (Fin NPROC) × ProcTable}
    (h : SelectInv t st bt) (is : List (Fin NPROC)) :
    SelectInv t st (is.foldl (selectSlot st) bt) := by
  induction is generalizing bt with
  | nil => exact h
  | cons i is ih => exact ih (selectSlot_inv h i)

theorem select_pass (t : ProcTable) : SelectInv t (eevdfCollectRqStats t)
    ((List.finRange NPROC).foldl (selectSlot (eevdfCollectRqStats t)) (none, t)) :=
  select_inv ⟨fun _ => rfl, by rintro _ ⟨⟩⟩ _

theorem schedulerPass_none {t t' : ProcTable} (h : schedulerPass t = (none, t')) (j : Fin NPROC) :
    (t' j).task = (t j).task := by
  have hinv := select_pass t
  unfold schedulerPass at h
  dsimp only at h
  generalize (List.finRange NPROC).foldl (selectSlot (eevdfCollectRqStats t)) (none, t) = bt
    at h hinv
  obtain ⟨_ | b, t''⟩ := bt
  · cases h; exact hinv.1 j
  · cases h

/-- **What a pass dispatches** is runnable and passed the test of `eevdf_is_eligible` with
the statistics of the table; nothing else changes but its state. -/
theorem schedulerPass_some {t t' : ProcTable} {b : Fin NPROC} (h : schedulerPass t = (some b, t')) :
    (t b).state = .runnable ∧ eevdfIsEligible (t b) (eevdfCollectRqStats t) = true ∧
    (t' b).task = { (t b).task with state := .running } ∧
    ∀ j, j ≠ b → (t' j).task = (t j).task := by
  have hinv := select_pass t
  unfold schedulerPass at h
  dsimp only at h
  generalize (List.finRange NPROC).foldl (selectSlot (eevdfCollectRqStats t)) (none, t) = bt
    at h hinv
  obtain ⟨_ | b', t''⟩ := bt
  · cases h
  · cases h
    obtain ⟨hr, he⟩ := hinv.2 b rfl
    refine ⟨hr, he, ?_, fun j hj => ?_⟩
    · rw [upd_same, ← hinv.1 b]
      rfl
    · rw [upd_other _ _ hj]
      exact hinv.1 j

section

variable [Image]

theorem quiet_growproc (i : Fin NPROC) (n : Int) : IsQuiet (growproc i n) := by
  unfold growproc
  refine quiet_bind (quiet_getProc i) fun p => ?_
  dsimp only
  split
  · split
    · exact quiet_pure _
    · refine quiet_bind (quiet_onVm _) fun r => ?_
      split
      · exact quiet_pure _
      · exact quiet_bind (quiet_setProc fun _ => rfl) fun _ => quiet_pure _
  · split
    · refine quiet_bind (quiet_onVm _) fun r => ?_
      exact quiet_bind (quiet_setProc fun _ => rfl) fun _ => quiet_pure _
    · exact quiet_pure _

theorem quiet_sysSbrk (i : Fin NPROC) (n t : Int) : IsQuiet (sysSbrk i n t) := by
  unfold sysSbrk
  refine quiet_bind (quiet_getProc i) fun p => ?_
  dsimp only
  split
  · exact quiet_growproc i n
  · split
    · exact quiet_pure _
    · split
      · exact quiet_pure _
      · exact quiet_bind (quiet_setProc fun _ => rfl) fun _ => quiet_pure _

theorem quiet_sysPipe (i : Fin NPROC) (fdarray : Nat) : IsQuiet (sysPipe i fdarray) := by
  unfold sysPipe
  repeat' first
    | exact quiet_pure _ | exact quiet_onVm _ | exact quiet_getProc _ | exact quiet_fdalloc _ _
    | exact quiet_clearFd _ _ | refine quiet_bind ?_ fun _ => ?_ | split

theorem quiet_sysClose (i : Fin NPROC) (fd : Fin NOFILE) : IsQuiet (sysClose i fd) := by
  unfold sysClose
  repeat' first
    | exact quiet_pure _ | exact quiet_onVm _ | exact quiet_getProc _
    | exact quiet_clearFd _ _ | refine quiet_bind ?_ fun _ => ?_ | split

theorem quiet_sysOpen (i : Fin NPROC) (ip : Nat) (device readable writable : Bool) :
    IsQuiet (sysOpen i ip device readable writable) := by
  unfold sysOpen
  repeat' first
    | exact quiet_pure _ | exact quiet_onVm _ | exact quiet_fdalloc _ _
    | refine quiet_bind ?_ fun _ => ?_ | split

theorem quiet_sysExecEnd (i : Fin NPROC) : IsQuiet (sysExecEnd i) := by
  unfold sysExecEnd
  repeat' first
    | exact quiet_pure _ | exact quiet_onVm _ | exact quiet_getProc _
    | exact quiet_setProc fun _ => rfl | refine quiet_bind ?_ fun _ => ?_ | split

theorem quiet_sysExecStart (i : Fin NPROC) (path uargv : Nat) (ip : Option Nat) :
    IsQuiet (sysExecStart i path uargv ip) := by
  unfold sysExecStart
  repeat' first
    | exact quiet_pure _ | exact quiet_onVm _ | exact quiet_getProc _
    | exact quiet_setProc fun _ => rfl | refine quiet_bind ?_ fun _ => ?_ | split

theorem quiet_sysExecRun (i : Fin NPROC) (e : ExecArgs) : IsQuiet (sysExecRun i e) := by
  unfold sysExecRun
  repeat' first
    | exact quiet_get | exact quiet_onVm _ | exact quiet_sysExecEnd _
    | exact quiet_setProc fun _ => rfl | refine quiet_bind ?_ fun _ => ?_ | split

theorem quiet_sysExecStep (i : Fin NPROC) : IsQuiet (sysExecStep i) := by
  unfold sysExecStep
  repeat' first
    | exact quiet_pure _ | exact quiet_onVm _ | exact quiet_getProc _ | exact quiet_sysExecEnd _
    | exact quiet_sysExecRun _ _ | exact quiet_setProc fun _ => rfl
    | refine quiet_bind ?_ fun _ => ?_ | split

theorem quiet_forkret (i : Fin NPROC) (ip : Option Nat) : IsQuiet (forkret i ip) := by
  unfold forkret
  refine quiet_bind (quiet_getProc i) fun p => ?_
  refine quiet_bind (.modify fun s => ⟨fun _ => rfl, rfl, rfl⟩) fun _ => ?_
  refine quiet_bind (quiet_onVm _) fun r => ?_
  split
  · exact .throw _
  · exact quiet_setProc fun _ => rfl

theorem quiet_closeFiles (i : Fin NPROC) (fds : List (Fin NOFILE)) : IsQuiet (closeFiles i fds) := by
  induction fds with
  | nil => exact quiet_pure _
  | cons fd fds ih =>
    refine quiet_bind (quiet_getProc i) fun p => quiet_bind (quiet_onVm _) fun _ => ?_
    exact quiet_bind (quiet_setProc fun _ => rfl) fun _ => ih

/-! ### Free slots -/

theorem wp_freeproc_any {i : Fin NPROC} {s : Kernel} {Q : PUnit → Kernel → Prop}
    (h : ∀ v p, p.task = .freed → Q ⟨⟩ ((s.setVm v).setProc i p)) :
    wp (freeproc i) s Q (fun _ => True) := by
  unfold freeproc
  simp only [wp_bind, wp_getProc]
  refine wp_when_onVm_any fun v => ?_
  simp only [wp_setProc]
  refine wp_onVm_any fun _ v => wp_when_onVm_any fun v => ?_
  simp only [Kernel.setVm_setProc, Kernel.setVm_setVm, Kernel.setProc_setProc]
  exact h v _ rfl

theorem wp_allocproc_any {s : Kernel} {Q : Option (Fin NPROC) → Kernel → Prop}
    (hnone : Q none s)
    (hfail : ∀ j v n p, (s.proc j).state = .unused → p.task = .freed →
      Q none (((s.setVm v).setNextpid n).setProc j p))
    (hok : ∀ j v n p, (s.proc j).state = .unused →
      p.task = (initSlot (s.proc j) s.nextpid).task →
      Q (some j) (((s.setVm v).setNextpid n).setProc j p)) :
    wp allocproc s Q (fun _ => True) := by
  unfold allocproc
  simp only [wp_bind, wp_get]
  split
  · exact wp_pure.2 hnone
  · rename_i j hj
    have hu : (s.proc j).state = .unused := by simpa using List.find?_some hj
    simp only [allocpid, wp_bind, wp_get, wp_set, wp_pure, wp_setProc]
    refine wp_onVm_any fun tf v => ?_
    cases tf with
    | none =>
      simp only [wp_bind, wp_setProc]
      refine wp_freeproc_any fun v p hp => ?_
      simp only [Kernel.setVm_setProc, Kernel.setVm_setVm, Kernel.setProc_setProc, wp_pure]
      exact hfail j v _ p hu hp
    | some tf =>
      simp only [wp_bind, wp_setProc]
      refine wp_onVm_any fun pt v => ?_
      cases pt with
      | none =>
        simp only [wp_bind, wp_setProc]
        refine wp_freeproc_any fun v p hp => ?_
        simp only [Kernel.setVm_setProc, Kernel.setVm_setVm, Kernel.setProc_setProc, wp_pure]
        exact hfail j v _ p hu hp
      | some pt =>
        simp only [wp_bind, wp_setProc, Kernel.setVm_setProc, Kernel.setVm_setVm,
          Kernel.setProc_setProc, wp_pure]
        refine hok j v _ _ hu ?_
        simp [Proc.task]

/-! ### Fork -/

theorem wp_kfork {s : Kernel} {i : Fin NPROC} (hi : (s.proc i).state ≠ .unused) :
    wp (kfork i) s (fun _ s' => ForkPost s i s') (fun _ => True) := by
  unfold kfork
  rw [wp_bind]
  refine wp_allocproc_any (wp_pure.2 ⟨rfl, fun _ => .inl rfl⟩) ?_ ?_
  · intro j v n p hu hp
    exact wp_pure.2 (forkPost_freed hu rfl (fun _ _ => rfl) hp)
  · intro j v n p hu hp
    have hij : i ≠ j := by rintro rfl; exact hi hu
    simp only [wp_bind, wp_getProc]
    refine wp_onVm_any fun ok v => ?_
    cases ok with
    | false =>
      rw [if_neg (by simp), wp_bind]
      exact wp_freeproc_any fun v p hp => wp_pure.2 (forkPost_freed hu rfl (fun k hk => by simp [hk]) hp)
    | true =>
      simp only [if_true, wp_bind, wp_setProc]
      refine wp_onVm_any fun ok v => ?_
      cases ok with
      | false =>
        rw [if_neg (by simp), wp_bind]
        exact wp_freeproc_any fun v p hp => wp_pure.2 (forkPost_freed hu rfl (fun k hk => by simp [hk]) hp)
      | true =>
        simp only [if_true, wp_bind, wp_setProc]
        refine wp_onVm_any fun _ v => wp_onVm_any fun _ v => ?_
        simp only [wp_pure, Kernel.setVm_setProc, Kernel.setVm_setVm,
          Kernel.setProc_setProc, Kernel.setProc_proc_same]
        refine forkPost_of_slot hu rfl (fun k hk => ?_) (.inr ?_)
        · simp [hk]
        · have hkilled : p.killed = (s.proc j).killed := congrArg Task.killed hp
          have hpid : p.pid = s.nextpid := congrArg Task.pid hp
          simp [Proc.task, Task.born, Task.refresh, eevdfRefreshDeadline, hij, hkilled, hpid]

/-! ### Exit -/

theorem wp_kexit {s : Kernel} (c : Fin NCPU) (i : Fin NPROC) (status : Int) :
    wp (kexit c i status) s (fun _ s' => LeftCpu s c i (fun t => { t with state := .zombie }) s')
      (fun _ => True) := by
  unfold kexit
  rw [wp_bind, wp_get]
  split
  · exact wp_throw.2 trivial
  · rw [wp_bind]
    refine wp_onVm_any fun _ v => ?_
    refine wp_seq (quiet_closeFiles i _ _) fun _ u hu => ?_
    simp only [wp_bind, wp_setTable, wp_setProc, wp_leaveCpu]
    have hw : WokeOthers (some i) s.proc
        (wakeupParent i (reparent i s.initproc (reparentWakeups i s.initproc u.proc))) :=
      (wokeOthers_of_task hu.task).trans
        ((wokeOthers_reparent i s.initproc u.proc).trans (wokeOthers_wakeupParent i _))
    refine ⟨by simp [hu.cpu], ?_, fun j hj => ?_⟩
    · have hme := hw.me
      simp only [Proc.task, Task.mk.injEq] at hme
      simp [Proc.task, hme]
    · rcases hw j with h | ⟨-, hs, h⟩
      · exact .inl (by simpa [hj] using h)
      · exact .inr ⟨hs, by simpa [hj] using h⟩

end

end Xv6
