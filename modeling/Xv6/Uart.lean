import Xv6.Lib.Count
import Xv6.Lib.Run
import Xv6.Param
import Mathlib.Data.Fintype.Card

/-!
# Output to the UART

`uartwrite`, `uartputc_sync` and the output half of `uartintr` of `kernel/uart.c`, on all CPUs at
once, over a device that loses a byte where its FIFO holds 16.

`uartputc_sync` takes no lock: other CPUs may write between its look at the LSR and its own
write, and `tx_busy` knows nothing of its bytes.  There is room all the same: a CPU puts in one
byte for each time that it saw the FIFO empty.  This is the output before a panic: `panicking` is left
out, with which `uartputc_sync` does without `push_off` and a thread may leave its CPU between the look
and the write.
-/

namespace Xv6.Uart

open Xv6.Lib

/-- What a CPU does next that has seen `LSR_TX_IDLE`. -/
inductive Pc
  | out
  /-- `uartputc_sync` writes the byte. -/
  | sync (x : UInt8)
  /-- `uartintr`, which holds `tx_lock`, sets `tx_busy` to 0. -/
  | intr
  deriving DecidableEq

/-- A byte, with the thread whose `uartwrite` it comes from; none for `uartputc_sync`. -/
abbrev Item (W : Type) : Type := Option W × UInt8

structure Sys (W : Type) where
  fifo : List (Item W) := []
  txBusy : Bool := false
  pc : Fin NCPU → Pc := fun _ => .out
  /-- What each thread's `uartwrite` has not written yet. -/
  rest : W → List UInt8 := fun _ => []
  /-- Not in the source: all that was passed to `uartwrite`, written to the THR, and sent. -/
  given : W → List UInt8 := fun _ => []
  thr : List (Item W) := []
  sent : List (Item W) := []

inductive Act (W : Type)
  | call (w : W) (buf : List UInt8)
  /-- A round of the loop in `uartwrite`. -/
  | write (w : W)
  | look (i : Fin NCPU) (x : UInt8)
  | put (i : Fin NCPU)
  | enter (i : Fin NCPU)
  | clear (i : Fin NCPU)
  | transmit

variable {W : Type}

/-- `WriteReg(THR, x)`. -/
def Sys.writeThr (s : Sys W) (x : Item W) : Sys W :=
  { s with fifo := if s.fifo.length < 16 then s.fifo ++ [x] else s.fifo, thr := s.thr ++ [x] }

def Sys.goto (s : Sys W) (i : Fin NCPU) (pc : Pc) : Sys W := { s with pc := upd s.pc i pc }

/-- A CPU may write on an old look at the LSR. -/
def Pc.due (pc : Pc) : Nat := if pc = .out then 0 else 1

def Sys.due (s : Sys W) : Nat := ∑ i, (s.pc i).due

theorem due_goto (s : Sys W) (i : Fin NCPU) (pc : Pc) :
    (s.goto i pc).due + (s.pc i).due = s.due + pc.due := by
  have h := sum_change (S := Finset.univ) (f := fun j => (upd s.pc i pc j).due)
    (g := fun j => (s.pc j).due) (Finset.mem_univ i) fun j _ hj => by rw [upd_other _ _ hj]
  rwa [upd_same] at h

theorem due_le (s : Sys W) : s.due ≤ NCPU := by
  refine (Finset.sum_le_card_nsmul _ _ 1 fun i _ => ?_).trans (by simp)
  unfold Pc.due
  split <;> decide

variable [DecidableEq W]

/-- No `uartintr` holds `tx_lock`. -/
abbrev Sys.Free (s : Sys W) : Prop := ∀ i, s.pc i ≠ .intr

/-- One step; an error where the CPU has to wait. -/
def step (s : Sys W) : Act W → Except Unit (Sys W)
  | .call w buf =>
    if s.rest w = [] then
      .ok { s with rest := upd s.rest w buf, given := upd s.given w (s.given w ++ buf) }
    else .error ()
  | .write w =>
    match s.rest w with
    | [] => .error ()
    | x :: buf =>
      if s.txBusy = false ∧ s.Free then
        .ok { s.writeThr (some w, x) with txBusy := true, rest := upd s.rest w buf }
      else .error ()
  | .look i x => if s.pc i = .out ∧ s.fifo = [] then .ok (s.goto i (.sync x)) else .error ()
  | .put i =>
    match s.pc i with
    | .sync x => .ok ((s.writeThr (none, x)).goto i .out)
    | _ => .error ()
  | .enter i =>
    if s.pc i = .out ∧ s.fifo = [] ∧ s.Free then .ok (s.goto i .intr) else .error ()
  | .clear i => if s.pc i = .intr then .ok { s.goto i .out with txBusy := false } else .error ()
  | .transmit =>
    match s.fifo with
    | [] => .error ()
    | x :: l => .ok { s with fifo := l, sent := s.sent ++ [x] }

/-- The bytes of a thread. -/
def bytesOf (w : W) (l : List (Item W)) : List UInt8 :=
  l.filterMap fun x => if x.1 = some w then some x.2 else none

structure Inv (s : Sys W) : Prop where
  room : s.fifo.length + s.due + (!s.txBusy).toNat ≤ NCPU + 1
  order : s.sent ++ s.fifo = s.thr
  bytes : ∀ w, bytesOf w s.thr ++ s.rest w = s.given w

variable {s t : Sys W} {i : Fin NCPU} {pc : Pc} {a : Act W}

theorem Inv.goto (h : Inv s) (hf : s.fifo = []) : Inv (s.goto i pc) := by
  refine ⟨?_, h.order, h.bytes⟩
  have hdue := due_le (s.goto i pc)
  have hbusy := Bool.toNat_le (!s.txBusy)
  show s.fifo.length + _ + (!s.txBusy).toNat ≤ _
  rw [hf, List.length_nil]
  omega

theorem Inv.writeThr (h : Inv s) (hr : s.fifo.length ≤ NCPU) (x : Item W) :
    (s.writeThr x).fifo = s.fifo ++ [x] ∧ s.sent ++ (s.writeThr x).fifo = s.thr ++ [x] := by
  have hf : (s.writeThr x).fifo = s.fifo ++ [x] := if_pos (Nat.lt_of_le_of_lt hr (by decide))
  exact ⟨hf, by rw [hf, ← List.append_assoc, h.order]⟩

theorem Inv.step (h : Inv s) (hs : step s a = .ok t) : Inv t := by
  have hroom := h.room
  cases a with simp only [Uart.step] at hs
  | call w buf =>
    split at hs <;> cases hs
    rename_i hw
    refine ⟨hroom, h.order, fun v => ?_⟩
    have hv := h.bytes v
    by_cases hvw : v = w
    · subst hvw
      simp_all
    · simpa [hvw] using hv
  | write w =>
    split at hs
    · cases hs
    split at hs <;> cases hs
    rename_i x buf hw hb
    rw [hb.1, Bool.not_false, Bool.toNat_true] at hroom
    obtain ⟨hf, ho⟩ := h.writeThr (by omega) (some w, x)
    refine ⟨?_, ho, fun v => ?_⟩
    · show (s.writeThr (some w, x)).fifo.length + s.due + 0 ≤ _
      rw [hf, List.length_append, List.length_singleton]
      omega
    · have hv := h.bytes v
      by_cases hvw : v = w
      · subst hvw
        simpa [bytesOf, Sys.writeThr, hw] using hv
      · simpa [bytesOf, Sys.writeThr, hvw, Ne.symm hvw] using hv
  | look i x =>
    split at hs <;> cases hs
    exact h.goto (And.right ‹_›)
  | put i =>
    split at hs <;> cases hs
    rename_i x hi
    have hd := due_goto s i .out
    simp only [hi, Pc.due, reduceCtorEq, if_false, if_true] at hd
    obtain ⟨hf, ho⟩ := h.writeThr (by omega) (none, x)
    refine ⟨?_, ho, fun w => by simpa [bytesOf, Sys.writeThr, Sys.goto] using h.bytes w⟩
    show (s.writeThr (none, x)).fifo.length + (s.goto i .out).due + (!s.txBusy).toNat ≤ _
    rw [hf, List.length_append, List.length_singleton]
    omega
  | enter i =>
    split at hs <;> cases hs
    rename_i hi
    exact h.goto hi.2.1
  | clear i =>
    split at hs <;> cases hs
    rename_i hi
    have hd := due_goto s i .out
    simp only [hi, Pc.due, reduceCtorEq, if_false, if_true] at hd
    refine ⟨?_, h.order, h.bytes⟩
    show s.fifo.length + (s.goto i .out).due + 1 ≤ _
    omega
  | transmit =>
    split at hs <;> cases hs
    rename_i x l hl
    have ho := h.order
    rw [hl] at hroom ho
    refine ⟨le_trans ?_ hroom, by simpa using ho, h.bytes⟩
    show l.length + s.due + (!s.txBusy).toNat ≤ _
    rw [List.length_cons]
    omega

/-- **No byte is lost.** Whatever the CPUs do, what was sent and what is in the FIFO are the bytes
written, in order, the FIFO is never full, and a thread's bytes are written once, in the order of
its calls. -/
theorem output_complete {as : List (Act W)} (h : Run step (fun _ _ => True) {} as s) :
    s.sent ++ s.fifo = s.thr ∧ s.fifo.length ≤ NCPU + 1 ∧
      ∀ w, bytesOf w (s.sent ++ s.fifo) ++ s.rest w = s.given w := by
  have h : Inv s := h.invariant ⟨by simp [Sys.due, Pc.due], rfl, fun _ => rfl⟩
    fun _ _ _ hu _ hs => hu.step hs
  have hroom := h.room
  refine ⟨h.order, by omega, fun w => ?_⟩
  rw [h.order]
  exact h.bytes w

/-- Two CPUs have both seen the FIFO empty, and `uartwrite` comes between their bytes. -/
theorem output_complete_three : ∃ s : Sys Unit,
    s.fifo = [(none, 1), (some (), 3), (none, 2)] ∧ s.fifo.length ≤ NCPU + 1 := by
  obtain ⟨s, hrun, hs⟩ := exists_run step (fun _ _ => true)
    (fun s : Sys Unit => s.fifo = [(none, 1), (some (), 3), (none, 2)]) {}
    [.call () [3], .look 0 1, .look 1 2, .put 0, .write (), .put 1] (by decide)
  exact ⟨s, of_decide_eq_true hs, (output_complete (hrun.mono fun _ _ _ => trivial)).2.1⟩

end Xv6.Uart
