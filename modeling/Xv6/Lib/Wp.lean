import Mathlib.Logic.Basic
import Mathlib.Tactic.Common

/-!
# Weakest preconditions

A program that changes a state `σ` and may stop with an `ε` is a `Prog σ ε α`.
`wp x s Q E` says what a run of `x` from `s` does: it returns with `Q`, or it
stops with `E`.  The rules below take a program apart at its binds, so that a
proof about a program cites one specification for each call it makes:

* `wp_bind`, `wp_pure`, `wp_get`, `wp_set`, `wp_throw`: one rule per construct;
* `wp_mono`: the consequence rule, by which a specification is used;
* `wp_zoom`: a program over a component of the state, run inside the whole.
-/

namespace Xv6.Lib

/-- Programs over a state `σ` that may stop with an `ε`. -/
abbrev Prog (σ ε α : Type) : Type := StateT σ (Except ε) α

variable {σ τ ε δ α β : Type} {s t : σ} {E E' : ε → Prop}

/-- A run of `x` from `s` returns with `Q` or stops with `E`. -/
def wp (x : Prog σ ε α) (s : σ) (Q : α → σ → Prop) (E : ε → Prop) : Prop :=
  match x s with
  | .ok (a, t) => Q a t
  | .error e => E e

/-! ### Constructs -/

@[simp] theorem wp_pure {a : α} {Q : α → σ → Prop} :
    wp (pure a : Prog σ ε α) s Q E ↔ Q a s := Iff.rfl

@[simp] theorem wp_throw {e : ε} {Q : α → σ → Prop} :
    wp (throw e : Prog σ ε α) s Q E ↔ E e := Iff.rfl

@[simp] theorem wp_get {Q : σ → σ → Prop} :
    wp (get : Prog σ ε σ) s Q E ↔ Q s s := Iff.rfl

@[simp] theorem wp_set {Q : PUnit → σ → Prop} :
    wp (set t : Prog σ ε PUnit) s Q E ↔ Q ⟨⟩ t := Iff.rfl

@[simp] theorem wp_modify {f : σ → σ} {Q : PUnit → σ → Prop} :
    wp (modify f : Prog σ ε PUnit) s Q E ↔ Q ⟨⟩ (f s) := Iff.rfl

@[simp] theorem wp_bind {x : Prog σ ε α} {f : α → Prog σ ε β} {Q : β → σ → Prop} :
    wp (x >>= f) s Q E ↔ wp x s (fun a t => wp (f a) t Q E) E := by
  unfold wp
  show (match (StateT.bind x f) s with | .ok (a, t) => Q a t | .error e => E e) ↔ _
  unfold StateT.bind
  cases h : x s with
  | ok r => obtain ⟨a, t⟩ := r; exact Iff.rfl
  | error e => exact Iff.rfl

/-- Run `x` only if `c` holds. -/
def when (c : Prop) [Decidable c] (x : Prog σ ε PUnit) : Prog σ ε PUnit :=
  if c then x else pure ⟨⟩

@[simp] theorem wp_when {c : Prop} [Decidable c] {x : Prog σ ε PUnit} {Q : PUnit → σ → Prop} :
    wp (when c x) s Q E ↔ (c → wp x s Q E) ∧ (¬c → Q ⟨⟩ s) := by
  unfold when
  by_cases h : c
  · simp [h]
  · simp [h, wp_pure]

/-! ### Consequence -/

variable {x : Prog σ ε α} {a : α} {Q Q' : α → σ → Prop}

/-- **The consequence rule.** -/
theorem wp_mono (h : wp x s Q E) (hQ : ∀ a t, Q a t → Q' a t) (hE : ∀ e, E e → E' e) :
    wp x s Q' E' := by
  unfold wp at *
  cases hx : x s with
  | ok r => rw [hx] at h; exact hQ _ _ h
  | error e => rw [hx] at h; exact hE _ h

theorem wp_conseq (h : wp x s Q E) (hQ : ∀ a t, Q a t → Q' a t) : wp x s Q' E :=
  wp_mono h hQ (fun _ => id)

/-- **The sequencing rule.** A specification of the first call leads to the rest. -/
theorem wp_seq {f : α → Prog σ ε β} {R : β → σ → Prop} (h : wp x s Q E)
    (hf : ∀ a t, Q a t → wp (f a) t R E) : wp (x >>= f) s R E :=
  wp_bind.2 (wp_conseq h hf)

theorem wp_ok (h : wp x s Q E) (hx : x s = .ok (a, t)) : Q a t := by
  unfold wp at h; rw [hx] at h; exact h

theorem wp_error {e : ε} (h : wp x s Q E) (hx : x s = .error e) : E e := by
  unfold wp at h; rw [hx] at h; exact h

theorem wp_total (h : wp x s Q (fun _ => False)) : ∃ a t, x s = .ok (a, t) ∧ Q a t := by
  unfold wp at h
  split at h
  · exact ⟨_, _, ‹_›, h⟩
  · exact h.elim

theorem wp_run (h : wp x s Q E) : wp x s (fun a t => x s = .ok (a, t) ∧ Q a t) E := by
  unfold wp at h ⊢
  cases hx : x s with
  | ok y =>
    rw [hx] at h
    exact ⟨rfl, h⟩
  | error e =>
    rw [hx] at h
    exact h

theorem wp_of_run (hx : x s = .ok (a, t)) (hQ : Q a t) : wp x s Q E := by
  unfold wp
  rw [hx]
  exact hQ

theorem run_of_wp (h : wp x s (fun b u => b = a ∧ u = t) fun _ => False) :
    x s = .ok (a, t) := by
  obtain ⟨b, u, hx, rfl, rfl⟩ := wp_total h
  exact hx

theorem wp_any (h : ∀ a t, Q a t) : wp x s Q fun _ => True := by
  unfold wp
  split
  · exact h _ _
  · trivial

/-! ### Moving along a relation -/

/-- Every run of `x` that returns moves the state along `r`. -/
def Along (r : σ → σ → Prop) (x : Prog σ ε α) : Prop :=
  ∀ s, wp x s (fun _ t => r s t) (fun _ => True)

namespace Along

variable {r : σ → σ → Prop}

theorem pure (hr : ∀ s, r s s) (a : α) : Along r (pure a : Prog σ ε α) := fun s => hr s

theorem throw (e : ε) : Along r (throw e : Prog σ ε α) := fun _ => trivial

theorem get (hr : ∀ s, r s s) : Along r (get : Prog σ ε σ) := fun s => hr s

theorem modify {f : σ → σ} (hf : ∀ s, r s (f s)) : Along r (modify f : Prog σ ε PUnit) :=
  fun s => hf s

theorem bind (hr : ∀ s t u, r s t → r t u → r s u) {f : α → Prog σ ε β}
    (hx : Along r x) (hf : ∀ a, Along r (f a)) : Along r (x >>= f) := by
  intro s
  refine wp_seq (hx s) fun a t hst => ?_
  exact wp_conseq (hf a t) fun _ u htu => hr s t u hst htu

theorem when (hr : ∀ s, r s s) {c : Prop} [Decidable c] {x : Prog σ ε PUnit} (hx : Along r x) :
    Along r (when c x) := by
  intro s
  rw [wp_when]
  exact ⟨fun _ => hx s, fun _ => hr s⟩

end Along

/-! ### Components -/

/-- Run a program over a component of the state, which stops for reasons of its own. -/
def zoom (view : σ → τ) (put : τ → σ → σ) (why : δ → ε) (x : Prog τ δ α) : Prog σ ε α := fun s =>
  match x (view s) with
  | .ok (a, t) => .ok (a, put t s)
  | .error e => .error (why e)

theorem wp_zoom {view : σ → τ} {put : τ → σ → σ} {why : δ → ε} {x : Prog τ δ α} :
    wp (zoom view put why x) s Q E ↔ wp x (view s) (fun a t => Q a (put t s)) fun e => E (why e) := by
  unfold wp zoom
  cases h : x (view s) with
  | ok r => obtain ⟨a, t⟩ := r; exact Iff.rfl
  | error e => exact Iff.rfl

-- specifications are used through the rules above; a run is never unfolded by accident
attribute [irreducible] wp

end Xv6.Lib
