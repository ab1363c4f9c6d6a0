import Mathlib.Logic.Basic
import Mathlib.Tactic.Common

/-!
# Runs of a step function

A system is given by `step : σ → α → Except ε σ`: the state after an action, or the
error that ends the run.  `Run step ok s as t` says that the actions `as` lead from
`s` to `t` and that each one is allowed by `ok` in the state in which it is taken.

* `Run.invariant`: what holds at the start and is kept by each step holds at the end;
* `Run.invariant_count`: the same for a property that depends on what the run has
  cost so far;
* `exists_run`: a run that was computed, with a check of each action, is a run;
* `Run.of_runAll`: a check of every state on the way holds at each moment of the run.
-/

namespace Xv6.Lib

variable {σ α ε : Type} {step : σ → α → Except ε σ} {ok ok' : σ → α → Prop}

/-- The actions lead from one state to the other, and each is allowed where it is taken. -/
inductive Run (step : σ → α → Except ε σ) (ok : σ → α → Prop) : σ → List α → σ → Prop
  | nil (s : σ) : Run step ok s [] s
  | cons {s t u : σ} {a : α} {as : List α} (hok : ok s a) (hstep : step s a = .ok t)
      (hrun : Run step ok t as u) : Run step ok s (a :: as) u

namespace Run

theorem mono {s t : σ} {as : List α} (h : Run step ok s as t)
    (hok : ∀ s a, ok s a → ok' s a) : Run step ok' s as t := by
  induction h with
  | nil s => exact .nil s
  | cons hk hs _ ih => exact .cons (hok _ _ hk) hs ih

theorem append {s t u : σ} {as bs : List α} (h : Run step ok s as t) (h' : Run step ok t bs u) :
    Run step ok s (as ++ bs) u := by
  induction h with
  | nil s => exact h'
  | cons hk hs _ ih => exact .cons hk hs (ih h')

/-- **The invariant rule.** -/
theorem invariant {I : σ → Prop} {s t : σ} {as : List α} (h : Run step ok s as t) (h0 : I s)
    (hI : ∀ s a t, I s → ok s a → step s a = .ok t → I t) : I t := by
  induction h with
  | nil s => exact h0
  | cons hk hs _ ih => exact ih (hI _ _ _ h0 hk hs)

end Run

/-! ### Computed runs -/

/-- Run the actions, checking each one: the state reached, `none` if a check fails or
the system stops. -/
def runCheck (step : σ → α → Except ε σ) (check : σ → α → Bool) : σ → List α → Option σ
  | s, [] => some s
  | s, a :: as =>
    if check s a then
      match step s a with
      | .ok t => runCheck step check t as
      | .error _ => none
    else none

theorem run_of_runCheck {check : σ → α → Bool} {s t : σ} {as : List α}
    (h : runCheck step check s as = some t) : Run step (fun s a => check s a = true) s as t := by
  induction as generalizing s with
  | nil => cases h; exact .nil _
  | cons a as ih =>
    rw [runCheck] at h
    split at h
    · rename_i hc
      cases hs : step s a with
      | error e => rw [hs] at h; cases h
      | ok u => rw [hs] at h; exact .cons hc hs (ih h)
    · cases h

/-- **A computed run is a run**, and what was computed of its last state holds. -/
theorem exists_run (step : σ → α → Except ε σ) (check : σ → α → Bool) (p : σ → Bool) (s : σ)
    (as : List α) (h : (runCheck step check s as).any p = true) :
    ∃ t, Run step (fun s a => check s a = true) s as t ∧ p t = true := by
  cases hr : runCheck step check s as with
  | none => rw [hr] at h; cases h
  | some t => rw [hr] at h; exact ⟨t, run_of_runCheck hr, h⟩

theorem exists_run_step (step : σ → α → Except ε σ) (check : σ → α → Bool) (p q : σ → Bool)
    (s : σ) (as : List α) (a : α)
    (h : (runCheck step check s as).any (fun t => p t && match step t a with
      | .ok u => q u
      | .error _ => false) = true) :
    ∃ t u, Run step (fun s a => check s a = true) s as t ∧ p t = true ∧ step t a = .ok u ∧
      q u = true := by
  obtain ⟨t, hr, ht⟩ := exists_run step check _ s as h
  rw [Bool.and_eq_true] at ht
  obtain ⟨hp, hq⟩ := ht
  split at hq
  · exact ⟨t, _, hr, hp, ‹_›, hq⟩
  · cases hq

theorem exists_run_error [DecidableEq ε] (step : σ → α → Except ε σ) (check : σ → α → Bool)
    (p : σ → Bool) (s : σ) (as : List α) (a : α) (e : ε)
    (h : (runCheck step check s as).any (fun t => p t && match step t a with
      | .ok _ => false
      | .error x => decide (x = e)) = true) :
    ∃ t, Run step (fun s a => check s a = true) s as t ∧ p t = true ∧ step t a = .error e := by
  obtain ⟨t, hr, ht⟩ := exists_run step check _ s as h
  rw [Bool.and_eq_true] at ht
  obtain ⟨hp, he⟩ := ht
  cases hs : step t a with
  | ok u =>
    rw [hs] at he
    cases he
  | error x =>
    rw [hs] at he
    cases of_decide_eq_true he
    exact ⟨t, hr, hp, hs⟩

/-- Run the actions and check every state on the way. -/
def runAll (step : σ → α → Except ε σ) (p : σ → Bool) : σ → List α → Bool
  | s, [] => p s
  | s, a :: as =>
    p s && match step s a with
      | .ok t => runAll step p t as
      | .error _ => true

/-- What was checked of every state on the way holds at each moment of the run. -/
theorem Run.of_runAll {p : σ → Bool} {s t : σ} {as bs : List α} (h : Run step ok s as t)
    (hall : runAll step p s (as ++ bs) = true) : p t = true := by
  induction h with
  | nil s =>
    cases bs with
    | nil => exact hall
    | cons b bs =>
      rw [List.nil_append, runAll, Bool.and_eq_true] at hall
      exact hall.1
  | cons _ hs _ ih =>
    rw [List.cons_append, runAll, hs, Bool.and_eq_true] at hall
    exact ih hall.2

/-! ### Costs -/

/-- What a run costs, when an action costs `cost s a` in the state `s`. -/
def runCost (step : σ → α → Except ε σ) (cost : σ → α → Nat) : σ → List α → Nat
  | _, [] => 0
  | s, a :: as =>
    cost s a + match step s a with
      | .ok t => runCost step cost t as
      | .error _ => 0

/-- The invariant rule for a property that depends on the cost so far. -/
theorem Run.invariant_count (cost : σ → α → Nat) (I : Nat → σ → Prop) {s t : σ} {as : List α}
    (h : Run step ok s as t) {n : Nat} (h0 : I n s)
    (hI : ∀ n s a t, I n s → ok s a → step s a = .ok t → I (n + cost s a) t) :
    I (n + runCost step cost s as) t := by
  induction h generalizing n with
  | nil s => exact h0
  | cons hk hs _ ih =>
    have h1 := ih (hI _ _ _ _ h0 hk hs)
    rw [runCost, hs, ← Nat.add_assoc]
    exact h1

end Xv6.Lib
