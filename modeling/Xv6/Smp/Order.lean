import Xv6.Smp.Dispatch
import Mathlib.Logic.Relation

/-!
# The order of the process locks

The scheduler keeps the lock of the best process so far while it takes the locks behind it.
`process_lock_order`: the other routines take them in the same order, and so no CPUs wait for each
other's in a circle, as long as no process calls `wait` with an address in a page of a mapped file
that is not in memory.

For such an address the `copyout` of `kwait` reads the file, with the lock of the child in its
hands: `vmfault` comes to `mmap_map_page`, and `iunlock` and `brelse` there call `wakeup`, which
goes through the table from the start.  `wait_deadlock` is a run in which this `wakeup` and a
scheduler wait for each other.
-/

namespace Xv6.Smp

open Xv6.Lib

variable {C : Type} [DecidableEq C] {s t : Sys C} {cur : C → Option (Fin NPROC)}
  {home : Fin NPROC → Option C} {ready : Fin NPROC → Bool}

/-! ### A status in a mapped file -/

/-- The blocks that `readi` reads. -/
def readBlocks (rounds : Nat) : Nat → Code Unit
  | 0 => pure ()
  | k + 1 => do
    let b ← choose
    acquiresleep b b rounds
    releasesleep b b
    readBlocks rounds k

/-- The part of `mmap_map_page` that reads the file: `ilock`, `readi` of a page, `iunlock`. -/
def mmapMapPage (rounds : Nat) : Code Unit := do
  let ip ← choose
  acquiresleep ip ip rounds
  let n ← choose
  readBlocks rounds (n % 5)
  releasesleep ip ip

/-- `copyout` to a page of a mapped file that is not in memory. -/
def copyoutMapped (rounds : Nat) : Code Bool := do
  mmapMapPage rounds
  ask

/-- What happens on the machine: what has been considered so far, or a call of `wait` with such an
address. -/
inductive Event (C : Type)
  | act (a : Act C)
  | waitMapped (c : C) (rounds : Nat)

def Event.step (s : Sys C) : Event C → Except Halt (Sys C)
  | .act a => Smp.step s a
  | .waitMapped c rounds =>
    match s.on c, s.code c with
    | some i, .ret _ => .ok (s.setCode c (some i) (kwait (copyoutMapped rounds) rounds))
    | _, _ => .error .idle

def Event.InMemory : Event C → Prop
  | .act _ => True
  | .waitMapped _ _ => False

theorem run_of_events {es : List (Event C)} (h : Run Event.step (fun _ e => e.InMemory) s es t) :
    ∃ as, Run step (fun _ _ => True) s as t := by
  induction h with
  | nil s => exact ⟨[], .nil s⟩
  | @cons s u t e es hok hstep _ ih =>
    obtain ⟨as, has⟩ := ih
    cases e with
    | act a => exact ⟨a :: as, .cons trivial hstep has⟩
    | waitMapped c rounds => exact hok.elim

/-! ### The order -/

/-- The CPU waits for a process lock that the other CPU holds. -/
def WaitsFor (s : Sys C) (c d : C) : Prop :=
  ∃ j k, s.code c = .ask (.acquire (.proc j)) k ∧ s.owner (.proc j) = some d

/-- **The process locks are taken in the order of the table.** -/
theorem process_lock_order (h : Placed cur home) {es : List (Event C)}
    (hrun : Run Event.step (fun _ e => e.InMemory) (start cur home ready) es s) :
    (∀ c i j k, s.owner (.proc i) = some c → s.code c = .ask (.acquire (.proc j)) k → i < j) ∧
      ∀ c, ¬Relation.TransGen (WaitsFor s) c c := by
  obtain ⟨as, has⟩ := run_of_events hrun
  have hg := good_of_any h has
  have horder : ∀ c i j k, s.owner (.proc i) = some c →
      s.code c = .ask (.acquire (.proc j)) k → i < j := by
    intro c i j k hi hc
    obtain ⟨x, hx, -, hord⟩ := hg.ok hc
    exact hord j rfl i ((hx.held _).2 hi)
  refine ⟨horder, ?_⟩
  -- along a chain of waiting CPUs the locks that they wait for come later and later
  have hchain : ∀ c d, Relation.TransGen (WaitsFor s) c d →
      ∃ j k, s.code c = .ask (.acquire (.proc j)) k ∧
        ∀ j' k', s.code d = .ask (.acquire (.proc j')) k' → j < j' := by
    intro c d hcd
    induction hcd with
    | single hw =>
      obtain ⟨j, k, hc, ho⟩ := hw
      exact ⟨j, k, hc, fun j' k' hd => horder _ j j' k' ho hd⟩
    | tail _ hw ih =>
      obtain ⟨j, k, hc, hlt⟩ := ih
      obtain ⟨j', k', hd, ho⟩ := hw
      exact ⟨j, k, hc, fun j'' k'' he =>
        Nat.lt_trans (hlt j' k' hd) (horder _ j' j'' k'' ho he)⟩
  intro c hcc
  obtain ⟨j, k, hc, hlt⟩ := hchain c c hcc
  exact Nat.lt_irrefl _ (hlt j k hc)

/-- The process on the CPU 0 gives up its CPU, and the scheduler there is at the table again. -/
def reschedule : List (Act (Fin 3)) :=
  giveUp ++ carryOut [(0, 0), (0, 0)] ++ .again 0 :: carryOut (List.replicate (2 * 64 * 3) (0, 0))

/-- It keeps the lock of the process 0, and comes to a lock that the CPU 1 has taken. -/
def schedulerWaits : List (Event (Fin 3)) :=
  (reschedule ++ .call 1 .yield :: carryOut [(1, 0), (1, 0), (0, 0), (0, 0), (0, 1)]).map .act

/-- The scheduler on the CPU 0 has the first lock, and waits for the second. -/
theorem process_lock_order_waiting :
    ∃ s k, Run Event.step (fun _ e => e.InMemory) (start firstThree onFirst fun _ => true)
        schedulerWaits s ∧
      s.owner (.proc 0) = some 0 ∧ s.code 0 = .ask (.acquire (.proc 1)) k ∧
      s.owner (.proc 1) = some 1 ∧ (0 : Fin NPROC) < 1 ∧
      ∀ c, ¬Relation.TransGen (WaitsFor s) c c := by
  obtain ⟨s, hr, hs⟩ := exists_run Event.step (fun _ e => match e with
      | .act _ => true
      | .waitMapped _ _ => false)
    (fun s => (s.next 0).any (·.same (.acquire (.proc 1))) &&
      decide (s.owner (.proc 0) = some 0 ∧ s.owner (.proc 1) = some 1))
    (start firstThree onFirst fun _ => true) schedulerWaits (by decide +kernel)
  have hr' : Run Event.step (fun _ e => e.InMemory) (start firstThree onFirst fun _ => true)
      schedulerWaits s := by
    refine hr.mono fun _ e he => ?_
    cases e with
    | act a => trivial
    | waitMapped c rounds => cases he
  rw [Bool.and_eq_true] at hs
  obtain ⟨h0, h1⟩ := of_decide_eq_true hs.2
  obtain ⟨k, hk⟩ := Sys.code_of_same hs.1
  have hord := process_lock_order placed_firstThree hr'
  exact ⟨s, k, hr', h0, hk, h1, hord.1 0 0 1 k h0 hk, hord.2⟩

/-- The process 1 exits.  Its parent on the CPU 2 finds it, with a status that goes to a mapped
file, and is in the `wakeup` of `iunlock`, while a scheduler has kept the lock of the process 0. -/
def waitForChild : List (Event (Fin 3)) :=
  (.call 1 .exit :: carryOut (List.replicate (2 + 64 + 1 + 63 * 4 + 1 + 1 + 3 + 5 + 2) (1, 0)) ++
    reschedule).map .act ++
  .waitMapped 2 2 :: (carryOut ([(2, 0), (2, 0), (2, 0), (2, 1)] ++ List.replicate 9 (2, 0) ++
    [(0, 0), (0, 0), (0, 1)])).map .act

/-- **Two CPUs wait for each other's process lock.** -/
theorem wait_deadlock :
    ∃ s, Run Event.step (fun _ _ => True) (start firstThree onFirst fun _ => true) waitForChild s ∧
      (∃ k, s.owner (.proc 1) = some 2 ∧ s.code 2 = .ask (.acquire (.proc 0)) k) ∧
      WaitsFor s 2 0 ∧ WaitsFor s 0 2 := by
  obtain ⟨s, hr, hs⟩ := exists_run Event.step (fun _ _ => true)
    (fun s => ((s.next 2).any (·.same (.acquire (.proc 0))) &&
        (s.next 0).any (·.same (.acquire (.proc 1)))) &&
      decide (s.owner (.proc 0) = some 0 ∧ s.owner (.proc 1) = some 2))
    (start firstThree onFirst fun _ => true) waitForChild (by decide +kernel)
  rw [Bool.and_eq_true, Bool.and_eq_true] at hs
  obtain ⟨h0, h1⟩ := of_decide_eq_true hs.2
  obtain ⟨k, hk⟩ := Sys.code_of_same hs.1.1
  obtain ⟨l, hl⟩ := Sys.code_of_same hs.1.2
  exact ⟨s, hr.mono fun _ _ _ => trivial, ⟨k, h1, hk⟩, ⟨0, k, hk, h0⟩, ⟨1, l, hl, h1⟩⟩

end Xv6.Smp
