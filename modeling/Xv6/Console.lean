import Xv6.Lib.Ring
import Xv6.Lib.Run
import Mathlib.Data.List.Induction

/-!
# The console's input

`consoleintr` and `consoleread` of `kernel/console.c`.  A ring of 128 bytes has three indices, which count
modulo 2^32: from `r` to `w` are the bytes that readers may take, from `w` to `e` the line that is being
edited.  Any number of readers are in `consoleread` at once; one that finds nothing sleeps and gives the
lock up, and what it has read so far stays read.

`Input` is what the ring stands for: a queue and a line.
-/

namespace Xv6.Console

open Xv6.Lib

abbrev INPUT_BUF_SIZE : Nat := 128

structure Cons where
  buf : Nat → UInt8
  r : Nat
  w : Nat
  e : Nat

/-- A call of `consoleread`: the bytes asked for, those still wanted, and those copied out. -/
structure Reader where
  target : Nat
  n : Nat
  got : List UInt8
deriving DecidableEq

structure Sys where
  cons : Cons
  reader : Nat → Option Reader
  /-- The calls that have returned, with what they read. -/
  returned : List (Nat × List UInt8)

/-! ### The code -/

/-- `C('D')`, `C('U')`, `C('P')` and `C('H')`. -/
abbrev ctrlD : UInt8 := 4
abbrev ctrlU : UInt8 := 21
abbrev ctrlP : UInt8 := 16
abbrev ctrlH : UInt8 := 8
abbrev newline : UInt8 := 10

/-- Differences of the indices, as `uint`. -/
def sub32 (x y : Nat) : Nat := (x + (2 ^ 32 - y)) % 2 ^ 32

/-- The loop of the kill character, for at most `k` bytes. -/
def killLoop : Nat → Cons → Cons
  | 0, s => s
  | k + 1, s =>
    if s.e ≠ s.w ∧ s.buf (sub32 s.e 1 % INPUT_BUF_SIZE) ≠ newline then killLoop k { s with e := sub32 s.e 1 }
    else s

/-- The byte `c` goes into the ring. -/
def store (c : UInt8) (s : Cons) : Cons :=
  let s := { s with buf := upd s.buf (s.e % INPUT_BUF_SIZE) c, e := (s.e + 1) % 2 ^ 32 }
  if c = newline ∨ c = ctrlD ∨ sub32 s.e s.r = INPUT_BUF_SIZE then { s with w := s.e } else s

def consoleintr (c : UInt8) (s : Cons) : Cons :=
  if c = ctrlP then s
  else if c = ctrlU then killLoop (sub32 s.e s.w) s
  else if c = ctrlH ∨ c = 127 then
    if s.e ≠ s.w then { s with e := sub32 s.e 1 } else s
  else if c ≠ 0 ∧ sub32 s.e s.r < INPUT_BUF_SIZE then store (if c = 13 then newline else c) s
  else s

inductive Action where
  | intr (c : UInt8)
  /-- A call of `consoleread` by the process `i`. -/
  | read (i n : Nat)
  /-- One round of the loop. -/
  | round (i : Nat)
  /-- The reader sleeps, and was killed. -/
  | killed (i : Nat)

def Sys.finish (s : Sys) (i : Nat) (t : Reader) : Sys :=
  { s with reader := upd s.reader i none, returned := s.returned ++ [(i, t.got)] }

/-- One round of the loop of `consoleread`, or its end. -/
def Sys.round (s : Sys) (i : Nat) (t : Reader) : Except Unit Sys :=
  if t.n = 0 then .ok (s.finish i t)
  else if s.cons.r = s.cons.w then .error ()
  else
    let c := s.cons.buf (s.cons.r % INPUT_BUF_SIZE)
    let r := (s.cons.r + 1) % 2 ^ 32
    if c = ctrlD then
      .ok (Sys.finish { s with cons.r := if t.n < t.target then sub32 r 1 else r } i t)
    else
      let t := { t with n := t.n - 1, got := t.got ++ [c] }
      if c = newline then .ok (Sys.finish { s with cons.r := r } i t)
      else .ok { s with cons.r := r, reader := upd s.reader i (some t) }

/-- An error is an action that is not possible: a reader that has to sleep, or is not there. -/
def step (s : Sys) : Action → Except Unit Sys
  | .intr c => .ok { s with cons := consoleintr c s.cons }
  | .read i n =>
    if s.reader i = none then .ok { s with reader := upd s.reader i (some ⟨n, n, []⟩) } else .error ()
  | .round i => (s.reader i).elim (.error ()) (s.round i)
  | .killed i =>
    if (s.reader i).any (fun t => t.n ≠ 0) ∧ s.cons.r = s.cons.w then .ok { s with reader := upd s.reader i none }
    else .error ()

/-! ### What it is for -/

/-- The queue of the committed bytes and the line being edited, with the bytes committed and those
delivered since the start. -/
structure Input where
  queue : List UInt8
  line : List UInt8
  reader : Nat → Option Reader
  returned : List (Nat × List UInt8)
  committed : List UInt8
  delivered : List UInt8

def Input.full (a : Input) : Prop := INPUT_BUF_SIZE ≤ a.queue.length + a.line.length

instance (a : Input) : Decidable a.full := inferInstanceAs (Decidable (_ ≤ _))

/-- A byte joins the line; the end of a line, a control-D and a full buffer commit it. -/
def Input.type (a : Input) (c : UInt8) : Input :=
  let a := { a with line := a.line ++ [c] }
  if c = newline ∨ c = ctrlD ∨ a.full then
    { a with queue := a.queue ++ a.line, line := [], committed := a.committed ++ a.line }
  else a

def Input.intr (a : Input) (c : UInt8) : Input :=
  if c = ctrlP then a
  else if c = ctrlU then { a with line := [] }
  else if c = ctrlH ∨ c = 127 then { a with line := a.line.dropLast }
  else if c = 0 ∨ a.full then a
  else a.type (if c = 13 then newline else c)

def Input.finish (a : Input) (i : Nat) (got : List UInt8) : Input :=
  { a with reader := upd a.reader i none, returned := a.returned ++ [(i, got)] }

/-- A reader takes the next committed byte.  A control-D ends its call, and stays for the next one exactly
when the call has bytes to return. -/
def Input.round (a : Input) (i : Nat) (t : Reader) : Except Unit Input :=
  if t.n = 0 then .ok (a.finish i t.got)
  else match a.queue with
    | [] => .error ()
    | c :: queue =>
      let a' := { a with queue, delivered := a.delivered ++ [c] }
      if c = ctrlD then .ok (if t.got = [] then a'.finish i [] else a.finish i t.got)
      else if c = newline then .ok (a'.finish i (t.got ++ [c]))
      else .ok { a' with reader := upd a.reader i (some ⟨t.target, t.n - 1, t.got ++ [c]⟩) }

def Input.step (a : Input) : Action → Except Unit Input
  | .intr c => .ok (a.intr c)
  | .read i n =>
    if a.reader i = none then .ok { a with reader := upd a.reader i (some ⟨n, n, []⟩) } else .error ()
  | .round i => (a.reader i).elim (.error ()) (a.round i)
  | .killed i =>
    if (a.reader i).any (fun t => t.n ≠ 0) ∧ a.queue = [] then .ok { a with reader := upd a.reader i none }
    else .error ()

/-! ### The ring holds the queue and the line -/

structure Holds (s : Cons) (queue line : List UInt8) : Prop where
  window : Window INPUT_BUF_SIZE (2 ^ 32) s.buf s.r s.e (queue ++ line)
  mark : s.w = (s.r + queue.length) % 2 ^ 32
  open_line : newline ∉ line

variable {s : Cons} {queue line : List UInt8}

theorem Holds.length_le (h : Holds s queue line) : queue.length + line.length ≤ 128 := by
  have := h.window.len
  rwa [List.length_append] at this

theorem Holds.edit (h : Holds s queue line) : s.e = (s.r + queue.length + line.length) % 2 ^ 32 := by
  rw [h.window.high, List.length_append, Nat.add_assoc]

theorem Holds.sub_r (h : Holds s queue line) : sub32 s.e s.r = queue.length + line.length := by
  have h1 := h.length_le
  have h2 := h.window.low
  have h3 := h.edit
  unfold sub32
  omega

theorem Holds.sub_w (h : Holds s queue line) : sub32 s.e s.w = line.length := by
  have h1 := h.length_le
  have h2 := h.mark
  have h3 := h.edit
  unfold sub32
  omega

theorem Holds.e_eq_w (h : Holds s queue line) : s.e = s.w ↔ line = [] := by
  have h1 := h.length_le
  have h2 := h.mark
  have h3 := h.edit
  rw [← List.length_eq_zero_iff]
  omega

theorem Holds.r_eq_w (h : Holds s queue line) : s.r = s.w ↔ queue = [] := by
  have h1 := h.length_le
  have h2 := h.mark
  have h3 := h.window.low
  rw [← List.length_eq_zero_iff]
  omega

theorem dvd_size : INPUT_BUF_SIZE ∣ 2 ^ 32 := by decide

theorem Holds.erase {c : UInt8} (h : Holds s queue (line ++ [c])) :
    Holds { s with e := sub32 s.e 1 } queue line ∧ s.buf (sub32 s.e 1 % INPUT_BUF_SIZE) = c := by
  have hw := h.window
  rw [← List.append_assoc] at hw
  obtain ⟨hwin, hlast⟩ := hw.retract dvd_size
  exact ⟨⟨hwin, h.mark, fun hm => h.open_line (List.mem_append_left _ hm)⟩, hlast⟩

theorem Holds.kill (h : Holds s queue line) : Holds (killLoop line.length s) queue [] := by
  induction line using List.reverseRecOn generalizing s with
  | nil => exact h
  | append_singleton line c ih =>
    obtain ⟨herase, hlast⟩ := h.erase
    have hne : s.e ≠ s.w := fun he => absurd (h.e_eq_w.1 he) (by simp)
    have hc : c ≠ newline := by
      rintro rfl
      exact h.open_line (by simp)
    rw [List.length_append, List.length_singleton, killLoop, if_pos ⟨hne, by rwa [hlast]⟩]
    exact ih herase

theorem Holds.store (h : Holds s queue line) (hlen : queue.length + line.length < 128) (c : UInt8) :
    Window INPUT_BUF_SIZE (2 ^ 32) (upd s.buf (s.e % INPUT_BUF_SIZE) c) s.r ((s.e + 1) % 2 ^ 32)
      (queue ++ (line ++ [c])) := by
  have hlen' : (queue ++ line).length < INPUT_BUF_SIZE := by rwa [List.length_append]
  rw [← List.append_assoc]
  exact (h.window.write dvd_size hlen' c).advance dvd_size hlen' (upd_same _ _ _)

theorem Holds.take {c : UInt8} (h : Holds s (c :: queue) line) :
    s.buf (s.r % INPUT_BUF_SIZE) = c ∧ Holds { s with r := (s.r + 1) % 2 ^ 32 } queue line := by
  refine ⟨h.window.head, h.window.pop dvd_size, ?_, h.open_line⟩
  rw [h.mark, List.length_cons, Nat.mod_add_mod]
  congr 1
  omega

/-- The index goes back over a control-D that stays. -/
theorem sub32_add_one {x : Nat} (hx : x < 2 ^ 32) : sub32 ((x + 1) % 2 ^ 32) 1 = x := by
  unfold sub32
  omega

/-! ### Simulation -/

/-- The ring stands for the queue and the line, and the readers are the same. -/
structure Rep (s : Sys) (a : Input) : Prop where
  holds : Holds s.cons a.queue a.line
  reader : s.reader = a.reader
  returned : s.returned = a.returned
  counts : ∀ i t, s.reader i = some t → t.target = t.n + t.got.length
  order : a.committed = a.delivered ++ a.queue

variable {a : Input} {z : Sys}

theorem Rep.type (h : Rep z a) (hfull : ¬ a.full) (c : UInt8) :
    Rep { z with cons := store c z.cons } (a.type c) := by
  have H := h.holds
  have hlen : a.queue.length + a.line.length < 128 := Nat.not_le.1 hfull
  have hwin := H.store hlen c
  have hline : (a.line ++ [c]).length = a.line.length + 1 := by rw [List.length_append, List.length_singleton]
  -- how long the queue and the line are, after the byte
  have hsub : sub32 ((z.cons.e + 1) % 2 ^ 32) z.cons.r = a.queue.length + (a.line.length + 1) := by
    have h1 := H.window.low
    have h2 := H.edit
    unfold sub32
    omega
  unfold store Input.type
  dsimp only
  have hiff : (c = newline ∨ c = ctrlD ∨ sub32 ((z.cons.e + 1) % 2 ^ 32) z.cons.r = INPUT_BUF_SIZE) ↔
      (c = newline ∨ c = ctrlD ∨ Input.full { a with line := a.line ++ [c] }) := by
    have hkey : a.queue.length + (a.line.length + 1) = 128 ↔ 128 ≤ a.queue.length + (a.line.length + 1) := by
      omega
    rw [hsub, Input.full]
    dsimp only
    rw [hline]
    exact or_congr Iff.rfl (or_congr Iff.rfl hkey)
  by_cases hcommit : c = newline ∨ c = ctrlD ∨ Input.full { a with line := a.line ++ [c] }
  · rw [if_pos hcommit, if_pos (hiff.2 hcommit)]
    refine ⟨⟨?_, ?_, List.not_mem_nil⟩, h.reader, h.returned, h.counts, ?_⟩ <;> dsimp only
    · rw [List.append_nil]
      exact hwin
    · rw [H.edit, Nat.mod_add_mod, List.length_append, hline]
      congr 1
      omega
    · rw [h.order, List.append_assoc]
  · rw [if_neg hcommit, if_neg (mt hiff.1 hcommit)]
    refine ⟨⟨hwin, H.mark, ?_⟩, h.reader, h.returned, h.counts, h.order⟩
    intro hm
    rcases List.mem_append.1 hm with hm | hm
    · exact H.open_line hm
    · exact hcommit (Or.inl (List.mem_singleton.1 hm).symm)

theorem Rep.intr (h : Rep z a) (c : UInt8) : Rep { z with cons := consoleintr c z.cons } (a.intr c) := by
  have H := h.holds
  unfold consoleintr Input.intr
  by_cases hP : c = ctrlP
  · rw [if_pos hP, if_pos hP]
    exact h
  rw [if_neg hP, if_neg hP]
  by_cases hU : c = ctrlU
  · rw [if_pos hU, if_pos hU, H.sub_w]
    exact ⟨H.kill, h.reader, h.returned, h.counts, h.order⟩
  rw [if_neg hU, if_neg hU]
  by_cases hH : c = ctrlH ∨ c = 127
  · rw [if_pos hH, if_pos hH]
    refine ⟨?_, h.reader, h.returned, h.counts, h.order⟩
    dsimp only
    rcases List.eq_nil_or_concat a.line with hnil | ⟨line, x, hline⟩
    · rw [if_neg (not_not_intro (H.e_eq_w.2 hnil))]
      rw [hnil] at H ⊢
      exact H
    · rw [List.concat_eq_append] at hline
      rw [if_pos (mt H.e_eq_w.1 (by rw [hline]; simp))]
      rw [hline] at H ⊢
      rw [List.dropLast_concat]
      exact H.erase.1
  rw [if_neg hH, if_neg hH, H.sub_r]
  by_cases hput : c ≠ 0 ∧ a.queue.length + a.line.length < INPUT_BUF_SIZE
  · have hfull : ¬ a.full := Nat.not_le.2 hput.2
    rw [if_pos hput, if_neg (not_or.2 ⟨hput.1, hfull⟩)]
    exact h.type hfull _
  · have hout : c = 0 ∨ a.full := by
      by_cases h0 : c = 0
      · exact Or.inl h0
      · exact Or.inr (Nat.not_lt.1 fun hlt => hput ⟨h0, hlt⟩)
    rw [if_neg hput, if_pos hout]
    exact h

theorem Rep.reader_upd (h : Rep z a) {i : Nat} {o : Option Reader}
    (ho : ∀ t, o = some t → t.target = t.n + t.got.length) :
    Rep { z with reader := upd z.reader i o } { a with reader := upd a.reader i o } := by
  refine ⟨h.holds, congrArg (upd · i o) h.reader, h.returned, fun j u hj => ?_, h.order⟩
  by_cases hji : j = i
  · subst hji
    exact ho u ((upd_same _ _ _).symm.trans hj)
  · exact h.counts j u ((upd_other _ _ hji).symm.trans hj)

theorem Rep.finish (h : Rep z a) (i : Nat) (t : Reader) : Rep (z.finish i t) (a.finish i t.got) := by
  have h' := h.reader_upd (i := i) (o := none) fun t ht => by cases ht
  exact ⟨h'.holds, h'.reader, congrArg (· ++ [(i, t.got)]) h.returned, h'.counts, h'.order⟩

theorem Rep.take {c : UInt8} {queue : List UInt8} (h : Rep z a) (hq : a.queue = c :: queue) :
    Rep { z with cons.r := (z.cons.r + 1) % 2 ^ 32 } { a with queue, delivered := a.delivered ++ [c] } := by
  have H := h.holds
  rw [hq] at H
  refine ⟨H.take.2, h.reader, h.returned, h.counts, ?_⟩
  rw [h.order, hq, List.append_assoc]
  rfl

/-- The two systems do the same: both stop, or both go on. -/
def Agree : Except Unit Sys → Except Unit Input → Prop
  | .ok z, .ok a => Rep z a
  | .error _, .error _ => True
  | _, _ => False

theorem Rep.round (h : Rep z a) {i : Nat} {t : Reader} (hi : z.reader i = some t) :
    Agree (z.round i t) (a.round i t) := by
  have H := h.holds
  have hcount := h.counts i t hi
  unfold Sys.round Input.round
  by_cases hn : t.n = 0
  · rw [if_pos hn, if_pos hn]
    exact h.finish i t
  rw [if_neg hn, if_neg hn]
  cases hq : a.queue with
  | nil =>
    rw [if_pos (H.r_eq_w.2 hq)]
    trivial
  | cons c queue =>
    have htake := h.take hq
    rw [if_neg (mt H.r_eq_w.1 (by rw [hq]; simp))]
    rw [hq] at H
    dsimp only
    rw [H.take.1]
    by_cases hD : c = ctrlD
    · rw [if_pos hD, if_pos hD]
      by_cases hgot : t.got = []
      · -- nothing was read: the control-D is used up
        rw [if_pos hgot, if_neg (by rw [hcount, hgot]; simp)]
        have := htake.finish i t
        rwa [hgot] at this
      · have hlt : t.n < t.target := by
          have := List.length_pos_iff.2 hgot
          omega
        rw [if_neg hgot, if_pos hlt, sub32_add_one H.window.low]
        exact h.finish i t
    · rw [if_neg hD, if_neg hD]
      by_cases hnl : c = newline
      · rw [if_pos hnl, if_pos hnl]
        exact htake.finish i ⟨t.target, t.n - 1, t.got ++ [c]⟩
      · rw [if_neg hnl, if_neg hnl]
        refine htake.reader_upd fun u hu => ?_
        cases hu
        dsimp only
        rw [hcount, List.length_append, List.length_singleton]
        omega

theorem rep_step (h : Rep z a) (x : Action) : Agree (step z x) (a.step x) := by
  cases x with
  | intr c => exact h.intr c
  | read i n =>
    have hz : z.reader i = a.reader i := congrFun h.reader i
    rw [step, Input.step, hz]
    by_cases hi : a.reader i = none
    · rw [if_pos hi, if_pos hi]
      exact h.reader_upd fun t ht => by cases ht; rfl
    · rw [if_neg hi, if_neg hi]
      trivial
  | round i =>
    rw [step, Input.step, ← h.reader]
    cases hi : z.reader i with
    | none => trivial
    | some t => exact h.round hi
  | killed i =>
    have hz : z.reader i = a.reader i := congrFun h.reader i
    have hiff : ((a.reader i).any (fun t => t.n ≠ 0) = true ∧ z.cons.r = z.cons.w) ↔
        ((a.reader i).any (fun t => t.n ≠ 0) = true ∧ a.queue = []) := and_congr_right fun _ => h.holds.r_eq_w
    rw [step, Input.step, hz]
    by_cases hi : (a.reader i).any (fun t => t.n ≠ 0) = true ∧ a.queue = []
    · rw [if_pos hi, if_pos (hiff.2 hi)]
      exact h.reader_upd fun t ht => by cases ht
    · rw [if_neg hi, if_neg (mt hiff.1 hi)]
      trivial

/-! ### Runs -/

/-- Nothing was typed, and nobody reads. -/
def Sys.start (buf : Nat → UInt8) : Sys := { cons := ⟨buf, 0, 0, 0⟩, reader := fun _ => none, returned := [] }

def Input.start : Input := ⟨[], [], fun _ => none, [], [], []⟩

theorem rep_start (buf : Nat → UInt8) : Rep (Sys.start buf) Input.start where
  holds := ⟨⟨Nat.zero_le _, Nat.two_pow_pos 32, rfl, fun k hk => by cases hk⟩, rfl, List.not_mem_nil⟩
  reader := rfl
  returned := rfl
  counts i t ht := by cases ht
  order := rfl

theorem Agree.ok {y : Except Unit Input} (h : Agree (.ok z) y) : ∃ a, y = .ok a ∧ Rep z a := by
  cases y with
  | ok a => exact ⟨a, rfl, h⟩
  | error e => cases h

theorem Agree.ok_iff {x : Except Unit Sys} {y : Except Unit Input} (h : Agree x y) :
    (∃ t, x = .ok t) ↔ ∃ b, y = .ok b := by
  cases x <;> cases y <;> simp_all [Agree]

/-- A run of the code is one of the queue and the line. -/
theorem rep_run (h : Rep z a) {xs : List Action} {z' : Sys} (r : Run step (fun _ _ => True) z xs z') :
    ∃ a', Run Input.step (fun _ _ => True) a xs a' ∧ Rep z' a' := by
  induction r generalizing a with
  | nil z => exact ⟨a, .nil a, h⟩
  | @cons z _ _ x _ _ hs _ ih =>
    have hstep := rep_step h x
    rw [hs] at hstep
    obtain ⟨b, hb, hrep⟩ := hstep.ok
    obtain ⟨a', ra, h'⟩ := ih hrep
    exact ⟨a', .cons trivial hb ra, h'⟩

/-- **The line discipline.**  Whatever is typed and read, in any order and for as long as one likes, the
ring holds a queue and a line of at most 128 bytes together, which change as those of `Input` do: erasing
takes from the line only, a newline, a control-D and a full buffer commit the whole line, and readers take
the committed bytes in the order in which they were committed. -/
theorem line_discipline (buf : Nat → UInt8) (xs : List Action) (s : Sys)
    (r : Run step (fun _ _ => True) (Sys.start buf) xs s) :
    ∃ a, Run Input.step (fun _ _ => True) Input.start xs a ∧ Rep s a ∧
      a.queue.length + a.line.length ≤ INPUT_BUF_SIZE ∧ a.committed = a.delivered ++ a.queue ∧
      ∀ x, (∃ t, step s x = .ok t) ↔ ∃ b, a.step x = .ok b := by
  obtain ⟨a, ra, h⟩ := rep_run (rep_start buf) r
  exact ⟨a, ra, h, h.holds.length_le, h.order, fun x => (rep_step h x).ok_iff⟩

/-- A line is typed with a slip and read by two processes; the second one finds the end of the input. -/
theorem line_discipline_two : ∃ s, Run step (fun _ _ => True) (Sys.start fun _ => 0)
      [.intr 97, .intr 98, .intr ctrlH, .intr ctrlD, .read 1 5, .round 1, .round 1, .read 2 5, .round 2] s ∧
    s.returned = [(1, [97]), (2, [])] ∧ ∃ a, Rep s a ∧ a.committed = a.delivered ++ a.queue := by
  obtain ⟨s, r, hs⟩ := exists_run step (fun _ _ => true) (fun s => decide (s.returned = [(1, [97]), (2, [])]))
    (Sys.start fun _ => 0)
    [.intr 97, .intr 98, .intr ctrlH, .intr ctrlD, .read 1 5, .round 1, .round 1, .read 2 5, .round 2] (by decide)
  have r' : Run step (fun _ _ => True) (Sys.start fun _ => 0) _ s := r.mono fun _ _ _ => trivial
  obtain ⟨a, _, h, _, hord, _⟩ := line_discipline (fun _ => 0) _ s r'
  exact ⟨s, r', of_decide_eq_true hs, a, h, hord⟩

end Xv6.Console
