import Mathlib.Logic.Basic
import Mathlib.Tactic.Common

/-!
# Programs as trees of requests

A program that talks to its environment is the tree of the requests it makes: `Eff Q A ε α`
asks `q : Q`, goes on with the answer in `A q`, returns an `α` or stops with an `ε`.  Since
it is data, it can be run in one go or one request at a time, among other programs.

A `Protocol` says in which order requests may be made, by a state that moves with each of
them.  `Eff.Follows` says that a program keeps to it whatever it is answered.

A `Service` also says which answers there are: `Eff.Uses` says that a program that is
answered by it makes only requests the service can meet, and how the program ends.
-/

namespace Xv6.Lib

/-- A program that makes requests. -/
inductive Eff (Q : Type) (A : Q → Type) (ε α : Type) : Type
  | ret (a : α)
  | stop (e : ε)
  | ask (q : Q) (k : A q → Eff Q A ε α)

variable {Q : Type} {A : Q → Type} {ε α β γ : Type}

namespace Eff

def bind : Eff Q A ε α → (α → Eff Q A ε β) → Eff Q A ε β
  | ret a, f => f a
  | stop e, _ => stop e
  | ask q k, f => ask q fun a => (k a).bind f

instance : Monad (Eff Q A ε) where
  pure := ret
  bind := bind

/-- Make one request. -/
def perform (q : Q) : Eff Q A ε (A q) := ask q ret

end Eff

/-- An order on requests: the ones that may be made in a state, and the state after. -/
structure Protocol (Q γ : Type) where
  ok : γ → Q → Prop
  next : γ → Q → γ

namespace Eff

variable (P : Protocol Q γ)

/-- From the state `s` the program keeps to the protocol, and returns with `K`. -/
def Follows : Eff Q A ε α → γ → (α → γ → Prop) → Prop
  | ret a, s, K => K a s
  | stop _, _, _ => True
  | ask q k, s, K => P.ok s q ∧ ∀ a, (k a).Follows (P.next s q) K

variable {P} {s : γ} {K K' : α → γ → Prop}

theorem follows_pure {a : α} : (pure a : Eff Q A ε α).Follows P s K ↔ K a s := Iff.rfl

/-- **Sequencing.** -/
theorem follows_bind {c : Eff Q A ε α} {f : α → Eff Q A ε β} {K : β → γ → Prop} :
    (c >>= f).Follows P s K ↔ c.Follows P s fun a t => (f a).Follows P t K := by
  show (c.bind f).Follows P s K ↔ _
  induction c generalizing s with
  | ret a | stop e => exact Iff.rfl
  | ask q k ih =>
    show (P.ok s q ∧ ∀ a, ((k a).bind f).Follows P (P.next s q) K) ↔ _
    simp only [ih]
    exact Iff.rfl

/-- **The consequence rule.** -/
theorem Follows.mono {c : Eff Q A ε α} (h : c.Follows P s K) (hK : ∀ a t, K a t → K' a t) :
    c.Follows P s K' := by
  induction c generalizing s with
  | ret a => exact hK _ _ h
  | stop e => exact trivial
  | ask q k ih => exact ⟨h.1, fun a => ih a (h.2 a)⟩

end Eff

/-- An environment that answers: the requests it can meet in a state, and the answers it may
give with the state after. -/
structure Service (Q : Type) (A : Q → Type) (γ : Type) where
  ok : γ → Q → Prop
  gives : γ → (q : Q) → A q → γ → Prop

namespace Eff

variable (S : Service Q A γ)

/-- Answered by the service from the state `s`, the program makes requests that can be met,
returns with `K` or stops with `E`. -/
def Uses : Eff Q A ε α → γ → (α → γ → Prop) → (ε → Prop) → Prop
  | ret a, s, K, _ => K a s
  | stop e, _, _, E => E e
  | ask q k, s, K, E => S.ok s q ∧ ∀ a t, S.gives s q a t → (k a).Uses t K E

variable {S} {s : γ} {K K' : α → γ → Prop} {E : ε → Prop}

theorem uses_pure {a : α} : (pure a : Eff Q A ε α).Uses S s K E ↔ K a s := Iff.rfl

theorem uses_perform {q : Q} {K : A q → γ → Prop} :
    (perform q : Eff Q A ε (A q)).Uses S s K E ↔
      S.ok s q ∧ ∀ a t, S.gives s q a t → K a t := Iff.rfl

/-- **Sequencing.** -/
theorem uses_bind {c : Eff Q A ε α} {f : α → Eff Q A ε β} {K : β → γ → Prop} :
    (c >>= f).Uses S s K E ↔ c.Uses S s (fun a t => (f a).Uses S t K E) E := by
  show (c.bind f).Uses S s K E ↔ _
  induction c generalizing s with
  | ret a | stop e => exact Iff.rfl
  | ask q k ih =>
    show (S.ok s q ∧ ∀ a t, S.gives s q a t → ((k a).bind f).Uses S t K E) ↔ _
    simp only [ih]
    exact Iff.rfl

/-- **The consequence rule.** -/
theorem Uses.mono {c : Eff Q A ε α} (h : c.Uses S s K E) (hK : ∀ a t, K a t → K' a t) :
    c.Uses S s K' E := by
  induction c generalizing s with
  | ret a => exact hK _ _ h
  | stop e => exact h
  | ask q k ih => exact ⟨h.1, fun a t ht => ih a (h.2 a t ht)⟩

end Eff

end Xv6.Lib
