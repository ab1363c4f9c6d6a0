import Xv6.Lib.Upd

/-!
# Redo logs

A redo log lists some addresses and the contents that belong there.  `overlay L v d` is
the store `d` with the log applied: the `i`-th address of `L` gets `v i`.  Installing an
entry of the log does not change the overlay, whatever was installed before, and when all
entries are installed the log can be dropped.
-/

namespace Xv6.Lib

variable {α β : Type} [DecidableEq α] {L : List α} {v : Nat → β} {d : α → β}

/-- The store `d` with the entries of the log applied. -/
def overlay (L : List α) (v : Nat → β) (d : α → β) (a : α) : β :=
  if a ∈ L then v (L.idxOf a) else d a

@[simp] theorem overlay_nil : overlay [] v d = d := by
  funext a
  simp [overlay]

/-- **Installing an entry is idempotent.** -/
theorem overlay_upd_mem {a : α} (h : a ∈ L) (x : β) : overlay L v (upd d a x) = overlay L v d := by
  funext b
  unfold overlay
  split
  · rfl
  · rename_i hb
    exact upd_other _ _ fun he => hb (he ▸ h)

/-- **A log that is installed is redundant.** -/
theorem overlay_of_installed (h : ∀ i (hi : i < L.length), d L[i] = v i) : overlay L v d = d := by
  funext a
  unfold overlay
  split
  · rename_i ha
    have hlt := List.idxOf_lt_length_of_mem ha
    have := h _ hlt
    rw [List.getElem_idxOf] at this
    exact this.symm
  · rfl

/-- The overlay of a store that agrees with `f` outside the log and a log that agrees
with `f` is `f`. -/
theorem overlay_eq {f : α → β} {a : α} (hv : ∀ i (hi : i < L.length), v i = f L[i])
    (hd : a ∉ L → d a = f a) : overlay L v d a = f a := by
  unfold overlay
  split
  · rename_i ha
    have hlt := List.idxOf_lt_length_of_mem ha
    rw [hv _ hlt, List.getElem_idxOf]
  · rename_i ha
    exact hd ha

theorem overlay_congr {v' : Nat → β} {d' : α → β} {a : α} (hv : ∀ i < L.length, v' i = v i)
    (hd : a ∉ L → d' a = d a) : overlay L v' d' a = overlay L v d a := by
  unfold overlay
  split
  · rename_i ha
    exact hv _ (List.idxOf_lt_length_of_mem ha)
  · rename_i ha
    exact hd ha

end Xv6.Lib
