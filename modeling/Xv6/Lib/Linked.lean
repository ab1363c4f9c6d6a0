import Xv6.Lib.Upd
import Mathlib.Data.List.Chain

/-!
# Circular lists

A list of nodes linked by `next`, and a circular one: `b :: l ++ [b]` is linked.

* `exists_tour`: the walk round a circular list can start at any of its nodes;
* `linked_upd`: a link is set outside of the list;
* `Linked.redirect`: a node takes over the link of another one.
-/

namespace Xv6.Lib

variable {α : Type} {next : α → α} {b f u v : α} {l : List α}

/-- Each node links to the one after it. -/
def Linked (next : α → α) (l : List α) : Prop := l.IsChain fun a b => next a = b

theorem linked_split {l₁ l₂ : List α} : Linked next (l₁ ++ f :: l₂) ↔
    Linked next (l₁ ++ [f]) ∧ Linked next (f :: l₂) :=
  List.isChain_split

@[simp] theorem linked_cons_cons : Linked next (u :: v :: l) ↔ next u = v ∧ Linked next (v :: l) :=
  List.isChain_cons_cons

@[simp] theorem linked_singleton : Linked next [u] := List.isChain_singleton u

theorem exists_tour (h : Linked next (b :: l ++ [b])) (hf : f ∈ b :: l) :
    ∃ l', Linked next (f :: l' ++ [f]) ∧ (f :: l').Perm (b :: l) := by
  rcases List.mem_cons.1 hf with rfl | hf
  · exact ⟨l, h, List.Perm.refl _⟩
  · obtain ⟨l₁, l₂, rfl⟩ := List.append_of_mem hf
    have hcut : Linked next ((b :: l₁) ++ f :: (l₂ ++ [b])) := by simpa using h
    obtain ⟨h₁, h₂⟩ := linked_split.1 hcut
    refine ⟨l₂ ++ b :: l₁, ?_, ?_⟩
    · have := linked_split.2 ⟨(show Linked next ((f :: l₂) ++ [b]) by simpa using h₂),
        (show Linked next (b :: (l₁ ++ [f])) by simpa using h₁)⟩
      simpa using this
    · exact (List.perm_append_comm : ((f :: l₂) ++ (b :: l₁)).Perm _)

variable [DecidableEq α]

theorem linked_upd (h : Linked next (l ++ [f])) (hu : u ∉ l) : Linked (upd next u v) (l ++ [f]) := by
  induction l with
  | nil => exact linked_singleton
  | cons a l ih =>
    rw [List.mem_cons, not_or] at hu
    cases l with
    | nil =>
      simp only [List.cons_append, List.nil_append, linked_cons_cons] at h ⊢
      exact ⟨(upd_other _ _ (Ne.symm hu.1)).trans h.1, linked_singleton⟩
    | cons a' l =>
      simp only [List.cons_append, linked_cons_cons] at h ⊢
      exact ⟨(upd_other _ _ (Ne.symm hu.1)).trans h.1, ih h.2 hu.2⟩

theorem Linked.redirect (h : Linked next (u :: (l ++ [f]))) (hv : v ∉ l) :
    Linked (upd next v (next u)) (v :: (l ++ [f])) := by
  cases l with
  | nil => exact linked_cons_cons.2 ⟨(upd_same _ _ _).trans (linked_cons_cons.1 h).1, linked_singleton⟩
  | cons a l =>
    obtain ⟨hu, hl⟩ := linked_cons_cons.1 h
    exact linked_cons_cons.2 ⟨(upd_same _ _ _).trans hu, linked_upd (l := a :: l) hl hv⟩

end Xv6.Lib
