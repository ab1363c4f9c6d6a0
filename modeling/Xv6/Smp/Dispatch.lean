import Xv6.Smp.Runs

/-!
# Sleep and wakeup, and dispatch

For any CPUs, any calls and interrupts and any interleaving of their requests:

* `no_lost_wakeup`: when `wakeup(chan)` returns to a context that holds `lk`, no process has
  released `lk` inside `sleep(chan, lk)` without having been made `RUNNABLE` since.
* `exclusive_dispatch`: a process whose lock is free is `RUNNING` exactly when it is the current
  process of exactly one CPU, and it is switched to when its context is stored and with its lock
  only.
-/

namespace Xv6.Smp

open Xv6.Lib

variable {C : Type} [DecidableEq C] {quiet : Prop} {s : Sys C} {c d : C} {i j : Fin NPROC}
  {cur : C → Option (Fin NPROC)} {home : Fin NPROC → Option C} {ready : Fin NPROC → Bool}
  {as : List (Act C)}

theorem good_of_any (h : Placed cur home)
    (hrun : Run step (fun _ _ => True) (start cur home ready) as s) : Good False s :=
  good_of_run h (hrun.mono fun _ _ _ hf => hf.elim)

omit [DecidableEq C] in
/-- A CPU that is about to make a request has what the request takes. -/
theorem Good.ok {q : Req} {k : q.Ans → Code Unit} (h : Good quiet s) (hc : s.code c = .ask q k) :
    ∃ x, Own quiet s c x ∧ Ok (s.on c) quiet x q := by
  obtain ⟨L, hl, hcodes⟩ := h
  have hrun := hcodes.run c
  rw [hc] at hrun
  exact ⟨_, hl.own c, hrun.1⟩

omit [DecidableEq C] in
theorem Good.shared (h : Good quiet s) : Shared quiet s := by
  obtain ⟨L, hl, -⟩ := h
  exact hl.toShared

omit [DecidableEq C] in
theorem Own.only_lock {x : Loc} (h : Own quiet s c x) (hh : x.held = [.proc i]) :
    s.owner (.proc j) = some c ↔ j = i := by
  rw [← h.held, hh, List.mem_singleton, Lock.proc.injEq]

/-! Three CPUs that run the first three processes. -/

instance neZero_three : NeZero 3 := ⟨by decide⟩

def firstThree (c : Fin 3) : Option (Fin NPROC) := some (Fin.ofNat NPROC c.val)

def onFirst (i : Fin NPROC) : Option (Fin 3) := if h : i.val < 3 then some ⟨i.val, h⟩ else none

theorem placed_firstThree : Placed firstThree onFirst := by
  unfold Placed
  decide +kernel

/-- All requests that the calls need which are made on the CPUs in turn. -/
def carryOut (cs : List (Fin 3 × Nat)) : List (Act (Fin 3)) := cs.map fun p => .run p.1 p.2

/-- The request that a CPU makes next. -/
def Sys.next (s : Sys C) (c : C) : Option Req :=
  match s.code c with
  | .ask q _ => some q
  | _ => none

omit [DecidableEq C] in
theorem Sys.code_of_next {q : Req} (h : s.next c = some q) : ∃ k, s.code c = .ask q k := by
  unfold Sys.next at h
  split at h
  · cases h
    exact ⟨_, ‹_›⟩
  · cases h

/-- Equality of the requests that tell what a CPU waits for or has done. -/
def Req.same : Req → Req → Bool
  | .acquire l, .acquire l' => decide (l = l')
  | .write i w, .write i' w' => decide (i = i' ∧ w = w')
  | .woken chan, .woken chan' => decide (chan = chan')
  | _, _ => false

theorem Req.eq_of_same {q r : Req} (h : q.same r = true) : q = r := by
  unfold Req.same at h
  split at h
  · rw [of_decide_eq_true h]
  · obtain ⟨rfl, rfl⟩ := of_decide_eq_true h
    rfl
  · rw [of_decide_eq_true h]
  · cases h

omit [DecidableEq C] in
theorem Sys.code_of_same {q : Req} (h : (s.next c).any (·.same q) = true) :
    ∃ k, s.code c = .ask q k := by
  rw [Option.any_eq_true] at h
  obtain ⟨r, hr, hq⟩ := h
  rw [Req.eq_of_same hq] at hr
  exact Sys.code_of_next hr

/-! ### Sleep and wakeup -/

/-- **No wakeup is lost**, and `wakeup` wakes up nobody else. -/
theorem no_lost_wakeup (h : Placed cur home)
    (hrun : Run step (fun _ _ => True) (start cur home ready) as s) :
    (∀ c chan k lk, s.code c = .ask (.woken chan) k → lk.Cond → s.owner lk = some c →
      ∀ i, s.nap i ≠ some (chan, lk) ∧
        ((∀ l, s.nap i = some (chan, l) → l = lk) →
          ¬((s.proc i).state = .sleeping ∧ (s.proc i).chan = some chan))) ∧
    ∀ c i chan k, s.code c = .ask (.write i (.rouse (some chan))) k →
      (s.proc i).state = .sleeping ∧ (s.proc i).chan = some chan := by
  have hg := good_of_any h hrun
  refine ⟨?_, ?_⟩
  · intro c chan k lk hc hlk ho i
    obtain ⟨x, hx, hok⟩ := hg.ok hc
    have hnap : s.nap i ≠ some (chan, lk) := hx.clear i _ (hok i lk hlk ((hx.held lk).2 ho))
    refine ⟨hnap, ?_⟩
    rintro hone ⟨hs, hch⟩
    obtain ⟨ch, l, hn, hch'⟩ := hg.shared.doze i hs
    cases hch.symm.trans hch'
    rw [hone l hn] at hn
    exact hnap hn
  · intro c i chan k hc
    obtain ⟨x, hx, v, hv, hs, hch⟩ := hg.ok hc
    rw [← (hx.known i v hv).proc]
    exact ⟨hs, hch chan rfl⟩

/-- A process has gone to sleep in `acquiresleep`, and is on no CPU any more. -/
def goToSleep : List (Act (Fin 3)) :=
  .call 1 (.acquiresleep 7 8 2) :: carryOut ((1, 0) :: (1, 1) :: List.replicate 9 (1, 0))

/-- The process on the CPU 0 calls `releasesleep`, and is at the sleeper. -/
def wakeSleeper : List (Act (Fin 3)) :=
  goToSleep ++ carryOut [(1, 0), (1, 0)] ++
    .call 0 (.releasesleep 7 8) :: carryOut (List.replicate 5 (0, 0))

/-- It has gone through the table. -/
def wakeAll : List (Act (Fin 3)) :=
  wakeSleeper ++ carryOut (List.replicate (2 + 62 * 4) (0, 0))

theorem no_lost_wakeup_sleep :
    ∃ s t, Run step (fun _ _ => True) (start firstThree onFirst fun _ => true) wakeSleeper s ∧
      ((s.proc 1).state = .sleeping ∧ (s.proc 1).chan = some (.other 7)) ∧
      Run step (fun _ _ => True) (start firstThree onFirst fun _ => true) wakeAll t ∧
      t.owner (.other 8) = some 0 ∧ t.nap 1 ≠ some (.other 7, .other 8) ∧
      (t.proc 1).state = .runnable := by
  obtain ⟨s, hr, hs⟩ := exists_run step (fun _ _ => true)
    (fun s => (s.next 0).any (·.same (.write 1 (.rouse (some (.other 7))))))
    (start firstThree onFirst fun _ => true) wakeSleeper (by decide +kernel)
  obtain ⟨t, hq, ht⟩ := exists_run step (fun _ _ => true)
    (fun t => (t.next 0).any (·.same (.woken (.other 7))) &&
      decide (t.owner (.other 8) = some 0 ∧ (t.proc 1).state = .runnable))
    (start firstThree onFirst fun _ => true) wakeAll (by decide +kernel)
  have hr' : Run step (fun _ _ => True) _ _ _ := hr.mono fun _ _ _ => trivial
  have hq' : Run step (fun _ _ => True) _ _ _ := hq.mono fun _ _ _ => trivial
  rw [Bool.and_eq_true] at ht
  obtain ⟨hown, hstate⟩ := of_decide_eq_true ht.2
  obtain ⟨k, hk⟩ := Sys.code_of_same hs
  obtain ⟨l, hl⟩ := Sys.code_of_same ht.1
  exact ⟨s, t, hr', (no_lost_wakeup placed_firstThree hr').2 0 1 _ k hk, hq', hown,
    ((no_lost_wakeup placed_firstThree hq').1 0 _ l (.other 8) hl (fun i h => Lock.noConfusion h)
      hown 1).1, hstate⟩

/-! ### Dispatch -/

/-- **A process runs on one CPU, or on none.** -/
theorem exclusive_dispatch (h : Placed cur home)
    (hrun : Run step (fun _ _ => True) (start cur home ready) as s) :
    (∀ i, s.owner (.proc i) = none →
      ((s.proc i).state = .running ↔ ∃! c, s.cproc c = some i)) ∧
    (∀ c d i, s.cproc c = some i → s.cproc d = some i → c = d) ∧
    (∀ c d i, s.on c = some i → s.on d = some i → c = d) ∧
    (∀ c i k, s.code c = .ask (.write i .run) k → (s.proc i).state = .runnable ∧
      (∀ d, s.on d ≠ some i) ∧ ∀ d k', s.code d = .ask (.write i .run) k' → d = c) ∧
    (∀ c i k, s.code c = .ask (.load (some i)) k → s.saved i = true ∧
      ∀ j, s.owner (.proc j) = some c ↔ j = i) ∧
    ∀ c q k, s.code c = .ask q k → q = .save ∨ q = .load none →
      ∃ i, s.cproc c = some i ∧ ∀ j, s.owner (.proc j) = some c ↔ j = i := by
  have hg := good_of_any h hrun
  have hsh := hg.shared
  refine ⟨?_, hsh.inj, ?_, ?_, ?_, ?_⟩
  · intro i hi
    obtain ⟨v, hv, hf⟩ := hsh.free i hi
    rw [← hv.proc, ← hf.live, hv.live]
    refine ⟨?_, fun ⟨c, hc, _⟩ => ⟨c, hc⟩⟩
    rintro ⟨c, hc⟩
    exact ⟨c, hc, fun d hd => hsh.inj d c i hd hc⟩
  · intro c d i hc hd
    exact hsh.inj c d i (hsh.onCpu c i hc) (hsh.onCpu d i hd)
  · intro c i k hc
    obtain ⟨x, hx, v, hv, hr, hlive⟩ := hg.ok hc
    have hsees := hx.known i v hv
    have hmem : s.owner (.proc i) = some c :=
      (hx.held _).1 ((hx.wf.known i).1 (by rw [hv]; rfl))
    refine ⟨by rw [← hsees.proc]; exact hr, ?_, ?_⟩
    · intro d hd
      rw [hsees.live.2 ⟨d, hsh.onCpu d i hd⟩] at hlive
      cases hlive
    · intro d k' hd
      obtain ⟨y, hy, w, hw, -⟩ := hg.ok hd
      have hmem' : s.owner (.proc i) = some d :=
        (hy.held _).1 ((hy.wf.known i).1 (by rw [hw]; rfl))
      exact Option.some.inj (hmem'.symm.trans hmem)
  · intro c i k hc
    obtain ⟨x, hx, v, -, -, hheld, hv, -, hsv, -⟩ := hg.ok hc
    refine ⟨?_, fun j => hx.only_lock hheld⟩
    rw [← (hx.known i v hv).saved]
    exact hsv
  · intro c q k hc hq
    obtain ⟨x, hx, hok⟩ := hg.ok hc
    rcases hq with rfl | rfl
    · obtain ⟨i, v, hcpu, hheld, -⟩ := hok
      exact ⟨i, hx.cpu.symm.trans hcpu, fun j => hx.only_lock hheld⟩
    · obtain ⟨i, v, -, hcpu, hheld, -⟩ := hok
      exact ⟨i, hx.cpu.symm.trans hcpu, fun j => hx.only_lock hheld⟩

/-- A process has given up its CPU. -/
def giveUp : List (Act (Fin 3)) := .call 0 .yield :: carryOut (List.replicate 8 (0, 0))

theorem exclusive_dispatch_yield :
    ∃ s, Run step (fun _ _ => True) (start firstThree onFirst fun _ => true) giveUp s ∧
      s.on 0 = none ∧ ∀ i, s.owner (.proc i) = none →
        ((s.proc i).state = .running ↔ ∃! c, s.cproc c = some i) := by
  obtain ⟨s, hr, hs⟩ := exists_run step (fun _ _ => true) (fun s => decide (s.on 0 = none))
    (start firstThree onFirst fun _ => true) giveUp (by decide +kernel)
  have hr' : Run step (fun _ _ => True) _ _ _ := hr.mono fun _ _ _ => trivial
  exact ⟨s, hr', of_decide_eq_true hs, (exclusive_dispatch placed_firstThree hr').1⟩

end Xv6.Smp
