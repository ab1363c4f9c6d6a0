import Mathlib.Logic.Basic

/-!
# Programs that may stop

`Ends x Q E` says how a program `x` without a state ends: with a result in `Q`, or for a reason in `E`.
A specification of a program names both, so that the results of a run and the inputs for which there
is one follow from the same proof.
-/

namespace Xv6.Lib

variable {ε α β : Type} {x : Except ε α} {Q R : α → Prop} {E : ε → Prop}

def Ends (x : Except ε α) (Q : α → Prop) (E : ε → Prop) : Prop :=
  match x with
  | .ok a => Q a
  | .error e => E e

namespace Ends

theorem bind {f : α → Except ε β} {S : β → Prop} (h : Ends x Q E) (hf : ∀ a, Q a → Ends (f a) S E) :
    Ends (x >>= f) S E := by
  cases x with
  | ok a => exact hf a h
  | error e => exact h

theorem mono {F : ε → Prop} (h : Ends x Q E) (hQ : ∀ a, Q a → R a) (hE : ∀ e, E e → F e) : Ends x R F := by
  cases x with
  | ok a => exact hQ a h
  | error e => exact hE e h

theorem conseq (h : Ends x Q E) (hQ : ∀ a, Q a → R a) : Ends x R E := h.mono hQ fun _ => id

theorem ite {c : Prop} [Decidable c] {y : Except ε α} (hx : c → Ends x Q E) (hy : ¬ c → Ends y Q E) :
    Ends (if c then x else y) Q E := by
  split
  · exact hx ‹c›
  · exact hy ‹¬ c›

theorem dite {c : Prop} [Decidable c] {x : c → Except ε α} {y : ¬ c → Except ε α}
    (hx : ∀ h, Ends (x h) Q E) (hy : ∀ h, Ends (y h) Q E) : Ends (if h : c then x h else y h) Q E := by
  split
  · exact hx ‹c›
  · exact hy ‹¬ c›

theorem of_ok {a : α} (h : Ends x Q E) (hx : x = .ok a) : Q a := by
  subst hx
  exact h

theorem total (h : Ends x Q fun _ => False) : ∃ a, x = .ok a ∧ Q a := by
  cases x with
  | ok a => exact ⟨a, rfl, h⟩
  | error e => exact h.elim

end Ends

end Xv6.Lib
