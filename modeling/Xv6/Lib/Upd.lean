import Mathlib.Logic.Function.Basic
import Mathlib.Tactic.Common

/-!
# Updating a function at one point

`upd f a b` is `Function.update f a b` for functions that are not dependent.  It
unfolds to a plain `if`, without the cast of the dependent version, and so a term
built from many updates evaluates.
-/

namespace Xv6.Lib

variable {α β : Type} [DecidableEq α]

/-- `f` with the value `b` at `a`. -/
def upd (f : α → β) (a : α) (b : β) : α → β := fun x => if x = a then b else f x

theorem upd_eq_update (f : α → β) (a : α) (b : β) : upd f a b = Function.update f a b := by
  funext x
  simp [upd, Function.update_apply]

theorem upd_apply (f : α → β) (a : α) (b : β) (x : α) :
    upd f a b x = if x = a then b else f x := rfl

@[simp] theorem upd_same (f : α → β) (a : α) (b : β) : upd f a b a = b := by simp [upd]

@[simp] theorem upd_other (f : α → β) {a x : α} (b : β) (h : x ≠ a) : upd f a b x = f x := by
  simp [upd, h]

@[simp] theorem upd_upd (f : α → β) (a : α) (b b' : β) : upd (upd f a b) a b' = upd f a b' := by
  simp only [upd_eq_update, Function.update_idem]

theorem upd_self (f : α → β) (a : α) : upd f a (f a) = f := by
  rw [upd_eq_update, Function.update_eq_self]

theorem upd_comm (f : α → β) {a a' : α} (h : a ≠ a') (b b' : β) :
    upd (upd f a b) a' b' = upd (upd f a' b') a b := by
  simp only [upd_eq_update]
  exact Function.update_comm h b b' f

theorem comp_upd {γ : Type} (g : β → γ) (f : α → β) (a : α) (b : β) :
    (fun x => g (upd f a b x)) = upd (fun x => g (f x)) a (g b) := by
  funext x
  simp only [upd_apply]
  split
  · rfl
  · rfl

end Xv6.Lib
