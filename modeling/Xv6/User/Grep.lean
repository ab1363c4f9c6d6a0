import Xv6.User.Memmove
import Mathlib.Data.List.GetD
import Mathlib.Data.List.TakeWhile

/-!
# The lines that `grep` puts out

`grep` of `user/grep.c` with its matcher.  The program reads into what is left of a buffer of 1024 bytes,
puts out the matching lines that end in it, and moves the unfinished line to the start of the buffer.
When the unfinished line fills the buffer, the next `read` asks for no byte, gets none, and the program
takes that for the end of the input.

A pointer into `buf` is its offset.
-/

namespace Xv6.Grep

open Xv6.Lib

/-- `sizeof(buf)`. -/
abbrev BUFSIZE : Nat := 1024

/-- `'\n'`. -/
abbrev nl : UInt8 := 10

/-! ### The matcher

A C string is the list of its bytes before the NUL. -/

/-- `matchstar`, where `here` is `matchhere` of the rest of the expression. -/
def matchstar (here : List UInt8 → Bool) (x : UInt8) : List UInt8 → Bool
  | [] => here []
  | t :: text => here (t :: text) || ((t == x || x == 46) && matchstar here x text)

def matchhere : List UInt8 → List UInt8 → Bool
  | [], _ => true
  | x :: 42 :: re, text => matchstar (matchhere re) x text
  | [36], text => text.isEmpty
  | _ :: _, [] => false
  | x :: re, t :: text => (x == 46 || x == t) && matchhere re text

/-- The `do` loop of `match`. -/
def matchAny (re : List UInt8) : List UInt8 → Bool
  | [] => matchhere re []
  | t :: text => matchhere re (t :: text) || matchAny re text

def «match» : List UInt8 → List UInt8 → Bool
  | 94 :: re, text => matchhere re text
  | re, text => matchAny re text

/-! ### The program -/

/-- `strchr`, with `room` bytes up to the end of the buffer. -/
def strchr (b : Bytes64) (x : UInt8) : Nat → Nat → Option Nat
  | 0, _ => none
  | room + 1, s => if b s = 0 then none else if b s = x then some s else strchr b x room (s + 1)

/-- The C string at `s`, with `room` bytes up to the end of the buffer. -/
def cstring (b : Bytes64) : Nat → Nat → List UInt8
  | 0, _ => []
  | room + 1, s => if b s = 0 then [] else b s :: cstring b room (s + 1)

/-- The `n` bytes at `s`. -/
def bytesAt (b : Bytes64) (s n : Nat) : List UInt8 := (List.range n).map fun i => b (s + i)

/-- The loop over the lines that end in the buffer: the buffer, `p`, and what has been written. -/
def lineLoop (re : List UInt8) : Nat → Bytes64 → Nat → List UInt8 → Option (Bytes64 × Nat × List UInt8)
  | 0, _, _, _ => none
  | fuel + 1, b, p, out =>
    match strchr b nl (BUFSIZE - p) p with
    | none => some (b, p, out)
    | some q =>
      let b := upd b q 0
      if «match» re (cstring b (BUFSIZE - p) p) then
        let b := upd b q nl
        lineLoop re fuel b (q + 1) (out ++ bytesAt b p (q + 1 - p))
      else lineLoop re fuel b (q + 1) out

/-- The number of bytes that a `read` of at most `want` bytes returns, with `left` bytes before the end of
the input, when it would return `size` of them: never none unless it must. -/
def readLen (want left size : Nat) : Nat := min (min want left) (max 1 size)

/-- The loop over the reads.  The sizes of the chunks are `size 0`, `size 1`, … where they can be. -/
def readLoop (re : List UInt8) (size : Nat → Nat) :
    Nat → Nat → Bytes64 → Nat → List UInt8 → List UInt8 → Option (List UInt8)
  | 0, _, _, _, _, _ => none
  | fuel + 1, i, b, m, input, out =>
    let n := readLen (BUFSIZE - m - 1) input.length (size i)
    if n = 0 then some out
    else do
      let b := fun a => if m ≤ a ∧ a < m + n then input.getD (a - m) 0 else b a
      let m := m + n
      let b := upd b m 0
      let (b, p, out) ← lineLoop re BUFSIZE b 0 out
      if 0 < m then
        let m := m - p
        readLoop re size fuel (i + 1) (Ulib.memmove 0 p m b) m (input.drop n) out
      else readLoop re size fuel (i + 1) b m (input.drop n) out

/-- `grep`, from a buffer that holds anything. -/
def grep (re : List UInt8) (size : Nat → Nat) (b : Bytes64) (input : List UInt8) : Option (List UInt8) :=
  readLoop re size (input.length + 1) 0 b 0 input []

/-! ### Lines -/

/-- The newline-terminated lines, and what follows the last of them. -/
def splitLines : List UInt8 → List (List UInt8) × List UInt8
  | [] => ([], [])
  | x :: s =>
    if x = nl then ([] :: (splitLines s).1, (splitLines s).2)
    else match splitLines s with
      | ([], r) => ([], x :: r)
      | (l :: ls, r) => ((x :: l) :: ls, r)

/-- The matching ones of some lines, each with its newline. -/
def shown (re : List UInt8) (ls : List (List UInt8)) : List UInt8 :=
  (ls.filter («match» re)).flatMap (· ++ [nl])

/-- A line that fits into the buffer, with its newline and a NUL. -/
def fits (l : List UInt8) : Bool := l.length + 2 ≤ BUFSIZE

variable {re l s t : List UInt8} {ls : List (List UInt8)} {b : Bytes64}

@[simp] theorem shown_nil : shown re [] = [] := rfl

theorem shown_append (re : List UInt8) (ls ls' : List (List UInt8)) :
    shown re (ls ++ ls') = shown re ls ++ shown re ls' := by
  unfold shown
  rw [List.filter_append, List.flatMap_append]

theorem shown_cons_pos (h : «match» re l = true) : shown re (l :: ls) = l ++ [nl] ++ shown re ls := by
  unfold shown
  rw [List.filter_cons_of_pos h, List.flatMap_cons]

theorem shown_cons_neg (h : ¬ «match» re l = true) : shown re (l :: ls) = shown re ls := by
  unfold shown
  rw [List.filter_cons_of_neg h]

theorem shown_eq_nil : shown re ls = [] ↔ ∀ l ∈ ls, «match» re l = false := by
  unfold shown
  rw [List.flatMap_eq_nil_iff]
  constructor
  · intro h l hl
    by_contra hm
    have := h l (List.mem_filter.2 ⟨hl, eq_true_of_ne_false hm⟩)
    exact absurd this (List.append_ne_nil_of_right_ne_nil l (List.cons_ne_nil nl []))
  · intro h l hl
    have hm := List.mem_filter.1 hl
    rw [h l hm.1] at hm
    exact absurd hm.2 Bool.false_ne_true

theorem splitLines_line (h : nl ∉ l) :
    splitLines (l ++ nl :: s) = (l :: (splitLines s).1, (splitLines s).2) := by
  induction l with
  | nil => rw [List.nil_append, splitLines, if_pos rfl]
  | cons x l ih =>
    rw [List.mem_cons, not_or] at h
    rw [List.cons_append, splitLines, if_neg (Ne.symm h.1), ih h.2]

theorem splitLines_rest (h : nl ∉ s) : splitLines s = ([], s) := by
  induction s with
  | nil => rfl
  | cons x s ih =>
    rw [List.mem_cons, not_or] at h
    rw [splitLines, if_neg (Ne.symm h.1), ih h.2]

theorem line_cases (s : List UInt8) : nl ∉ s ∨ ∃ l r, nl ∉ l ∧ s = l ++ nl :: r := by
  by_cases h : nl ∈ s
  · obtain ⟨l, r, hs, hl⟩ := List.eq_append_cons_of_mem h
    exact Or.inr ⟨l, r, hl, hs⟩
  · exact Or.inl h

/-- A text is split line by line: to prove something of every text, prove it of one without a newline and
of one with a first line. -/
theorem line_induction {P : List UInt8 → Prop} (rest : ∀ s, nl ∉ s → P s)
    (line : ∀ l r, nl ∉ l → P r → P (l ++ nl :: r)) (s : List UInt8) : P s := by
  induction hn : s.length using Nat.strong_induction_on generalizing s with
  | _ n ih =>
    rcases line_cases s with h | ⟨l, r, hl, rfl⟩
    · exact rest s h
    · refine line l r hl (ih r.length ?_ r rfl)
      rw [← hn, List.length_append, List.length_cons]
      omega

theorem splitLines_append (s t : List UInt8) :
    splitLines (s ++ t) = ((splitLines s).1 ++ (splitLines ((splitLines s).2 ++ t)).1,
      (splitLines ((splitLines s).2 ++ t)).2) := by
  induction s using line_induction with
  | rest s h => rw [splitLines_rest h, List.nil_append]
  | line l r hl ih =>
    rw [List.append_assoc, List.cons_append, splitLines_line hl, splitLines_line hl, ih, List.cons_append]

theorem nl_notMem_rest (s : List UInt8) : nl ∉ (splitLines s).2 := by
  induction s using line_induction with
  | rest s h =>
    rw [splitLines_rest h]
    exact h
  | line l r hl ih =>
    rw [splitLines_line hl]
    exact ih

theorem rest_sublist (s : List UInt8) : (splitLines s).2.Sublist s := by
  induction s using line_induction with
  | rest s h =>
    simpa only [splitLines_rest h] using List.Sublist.refl s
  | line l r hl ih =>
    rw [splitLines_line hl]
    exact (ih.cons nl).trans (List.sublist_append_right l _)

theorem length_line_lt (s : List UInt8) : ∀ l ∈ (splitLines s).1, l.length < s.length := by
  induction s using line_induction with
  | rest s h =>
    rw [splitLines_rest h]
    intro l hl
    cases hl
  | line l r hl ih =>
    rw [splitLines_line hl]
    intro l' hl'
    rw [List.length_append, List.length_cons]
    rcases List.mem_cons.1 hl' with rfl | hr
    · omega
    · have := ih l' hr
      omega

/-- The first line of a text is at least as long as any start of the text without a newline. -/
theorem takeWhile_fits_of_full (ht : nl ∉ t) (h : BUFSIZE ≤ t.length + 1) (s : List UInt8) :
    (splitLines (t ++ s)).1.takeWhile fits = [] := by
  rcases line_cases s with hs | ⟨l, r, hl, rfl⟩
  · rw [splitLines_rest (by simp [ht, hs])]
    rfl
  · rw [← List.append_assoc, splitLines_line (by simp [ht, hl]), List.takeWhile_cons_of_neg]
    simp only [fits, List.length_append, decide_eq_true_eq]
    omega

/-! ### The buffer -/

/-- The buffer holds `s` at `p`. -/
def Holds (b : Bytes64) (p : Nat) (s : List UInt8) : Prop := ∀ i, (h : i < s.length) → b (p + i) = s[i]

variable {p q n : Nat}

theorem holds_append : Holds b p (s ++ t) ↔ Holds b p s ∧ Holds b (p + s.length) t := by
  constructor
  · intro h
    refine ⟨fun i hi => ?_, fun i hi => ?_⟩
    · have := h i (by rw [List.length_append]; omega)
      rwa [List.getElem_append_left hi] at this
    · have := h (s.length + i) (by rw [List.length_append]; omega)
      rw [List.getElem_append_right (by omega)] at this
      simpa only [Nat.add_assoc, Nat.add_sub_cancel_left] using this
  · rintro ⟨hs, ht⟩ i hi
    by_cases h : i < s.length
    · rw [hs i h, List.getElem_append_left h]
    · rw [List.length_append] at hi
      have := ht (i - s.length) (by omega)
      rw [List.getElem_append_right (by omega), ← this]
      congr 1
      omega

theorem holds_cons {x : UInt8} : Holds b p (x :: s) ↔ b p = x ∧ Holds b (p + 1) s := by
  rw [← List.singleton_append, holds_append]
  refine and_congr ⟨fun h => h 0 Nat.zero_lt_one, ?_⟩ Iff.rfl
  intro h i hi
  obtain rfl : i = 0 := Nat.lt_one_iff.1 hi
  exact h

theorem Holds.upd (h : Holds b p s) {x : UInt8} (hq : q < p ∨ p + s.length ≤ q) : Holds (upd b q x) p s := by
  intro i hi
  rw [upd_other _ _ (by omega)]
  exact h i hi

theorem Holds.bytesAt_eq (h : Holds b p s) : bytesAt b p s.length = s := by
  refine List.ext_getElem (by rw [bytesAt, List.length_map, List.length_range]) fun i hi hs => ?_
  simp only [bytesAt, List.getElem_map, List.getElem_range]
  exact h i hs

theorem Holds.cstring_eq (h : Holds b p s) (h0 : 0 ∉ s) (hend : b (p + s.length) = 0) (hroom : s.length < n) :
    cstring b n p = s := by
  induction s generalizing p n with
  | nil =>
    obtain ⟨n, rfl⟩ := Nat.exists_eq_add_of_lt hroom
    rw [List.length_nil, Nat.add_zero] at hend
    rw [List.length_nil, Nat.zero_add, cstring, if_pos hend]
  | cons x s ih =>
    obtain ⟨n, rfl⟩ : ∃ k, n = k + 1 := ⟨n - 1, by rw [List.length_cons] at hroom; omega⟩
    rw [List.mem_cons, not_or] at h0
    obtain ⟨hx, hs⟩ := holds_cons.1 h
    rw [List.length_cons] at hend hroom
    rw [cstring, hx, if_neg (Ne.symm h0.1), ih hs h0.2 (by rw [← hend]; congr 1; omega) (by omega)]

theorem strchr_rest (h : Holds b p s) (h0 : 0 ∉ s) (hnl : nl ∉ s) (hend : b (p + s.length) = 0) :
    strchr b nl n p = none := by
  induction s generalizing p n with
  | nil =>
    cases n with
    | zero => rfl
    | succ n =>
      rw [List.length_nil, Nat.add_zero] at hend
      rw [strchr, if_pos hend]
  | cons x s ih =>
    cases n with
    | zero => rfl
    | succ n =>
      rw [List.mem_cons, not_or] at h0 hnl
      obtain ⟨hx, hs⟩ := holds_cons.1 h
      rw [strchr, hx, if_neg (Ne.symm h0.1), if_neg (Ne.symm hnl.1),
        ih hs h0.2 hnl.2 (by rw [← hend, List.length_cons]; congr 1; omega)]

theorem strchr_line (h : Holds b p l) (h0 : 0 ∉ l) (hnl : nl ∉ l) (hend : b (p + l.length) = nl)
    (hroom : l.length < n) : strchr b nl n p = some (p + l.length) := by
  induction l generalizing p n with
  | nil =>
    obtain ⟨n, rfl⟩ := Nat.exists_eq_add_of_lt hroom
    rw [List.length_nil, Nat.add_zero] at hend
    rw [List.length_nil, Nat.zero_add, strchr, hend, if_neg (by decide), if_pos rfl, Nat.add_zero]
  | cons x l ih =>
    obtain ⟨n, rfl⟩ : ∃ k, n = k + 1 := ⟨n - 1, by rw [List.length_cons] at hroom; omega⟩
    rw [List.mem_cons, not_or] at h0 hnl
    obtain ⟨hx, hl⟩ := holds_cons.1 h
    rw [List.length_cons] at hend hroom
    rw [strchr, hx, if_neg (Ne.symm h0.1), if_neg (Ne.symm hnl.1),
      ih hl h0.2 hnl.2 (by rw [← hend]; congr 1; omega) (by omega), List.length_cons]
    congr 1
    omega

/-! ### The loops -/

/-- The inner loop puts out the matching lines of the buffer, and stops at the unfinished one. -/
theorem lineLoop_eq (re s out : List UInt8) (fuel : Nat) (h : Holds b p s) (h0 : 0 ∉ s)
    (hend : b (p + s.length) = 0) (hp : p + s.length < BUFSIZE) (hf : s.length < fuel) :
    ∃ b', lineLoop re fuel b p out =
        some (b', p + s.length - (splitLines s).2.length, out ++ shown re (splitLines s).1) ∧
      Holds b' (p + s.length - (splitLines s).2.length) (splitLines s).2 := by
  induction s using line_induction generalizing b p fuel out with
  | rest s hnl =>
    obtain ⟨fuel, rfl⟩ := Nat.exists_eq_add_of_lt hf
    rw [splitLines_rest hnl, lineLoop, strchr_rest h h0 hnl hend, Nat.add_sub_cancel, shown_nil,
      List.append_nil]
    exact ⟨b, rfl, h⟩
  | line l r hl ih =>
    obtain ⟨fuel, rfl⟩ : ∃ k, fuel = k + 1 := ⟨fuel - 1, by omega⟩
    obtain ⟨hhl, hhr⟩ := holds_append.1 h
    obtain ⟨hq, hhr⟩ := holds_cons.1 hhr
    rw [List.mem_append, List.mem_cons, not_or, not_or] at h0
    have hlen : (l ++ nl :: r).length = l.length + 1 + r.length := by
      rw [List.length_append, List.length_cons]
      omega
    rw [hlen] at hend hp hf ⊢
    have hrest := rest_sublist r |>.length_le
    rw [splitLines_line hl, lineLoop, strchr_line hhl h0.1 hl hq (by omega)]
    -- with the newline overwritten, the line is a string
    have hline : cstring (upd b (p + l.length) 0) (BUFSIZE - p) p = l :=
      (hhl.upd (Or.inr (Nat.le_refl _))).cstring_eq h0.1 (upd_same b _ _) (by omega)
    have hpos : p + l.length + 1 + r.length = p + (l.length + 1 + r.length) := by omega
    dsimp only
    rw [hline]
    by_cases hm : «match» re l = true
    · rw [if_pos hm, shown_cons_pos hm, upd_upd]
      have hback : upd b (p + l.length) nl = b := by
        rw [← hq, upd_self]
      have hwrite : bytesAt b p (p + l.length + 1 - p) = l ++ [nl] := by
        have hhead : Holds b p (l ++ [nl]) := holds_append.2 ⟨hhl, holds_cons.2 ⟨hq, fun i hi => by cases hi⟩⟩
        rw [← hhead.bytesAt_eq, List.length_append, List.length_singleton]
        congr 1
        omega
      rw [hback, hwrite, ← List.append_assoc out (l ++ [nl]), ← hpos]
      exact ih _ _ hhr h0.2.2 (by rw [hpos]; exact hend) (by omega) (by omega)
    · rw [if_neg hm, shown_cons_neg hm, ← hpos]
      refine ih _ _ (hhr.upd (Or.inl (Nat.lt_succ_self _))) h0.2.2 ?_ (by omega) (by omega)
      rw [upd_other _ _ (by omega), hpos]
      exact hend

/-- A read is empty only at the end of the input, or when no byte was asked for. -/
theorem readLen_eq_zero {want left size : Nat} : readLen want left size = 0 ↔ want = 0 ∨ left = 0 := by
  unfold readLen
  omega

theorem holds_moved (h : Holds b p s) (hlen : s.length = n) : Holds (moved 0 p n b) 0 s := by
  intro i hi
  rw [moved, if_pos (by omega), ← h i hi]
  congr 1
  omega

/-- The outer loop, with the unfinished line `t` at the start of the buffer: it puts out the matching
lines up to the first one that does not fit. -/
theorem readLoop_eq {size : Nat → Nat} {input : List UInt8} {fuel i m : Nat} {out : List UInt8}
    (hin : 0 ∉ input) (h : Holds b 0 t) (hm : t.length = m) (h0 : 0 ∉ t) (hnl : nl ∉ t) (hle : m < BUFSIZE)
    (hf : input.length < fuel) :
    readLoop re size fuel i b m input out =
      some (out ++ shown re ((splitLines (t ++ input)).1.takeWhile fits)) := by
  induction fuel generalizing i b m input out t with
  | zero => cases hf
  | succ fuel ih =>
    rw [readLoop]
    dsimp only
    by_cases hn : readLen (BUFSIZE - m - 1) input.length (size i) = 0
    · rw [if_pos hn]
      have hnone : (splitLines (t ++ input)).1.takeWhile fits = [] := by
        rcases readLen_eq_zero.1 hn with hfull | hend
        · exact takeWhile_fits_of_full hnl (by omega) input
        · rw [List.length_eq_zero_iff.1 hend, List.append_nil, splitLines_rest hnl]
          rfl
      rw [hnone, shown_nil, List.append_nil]
    · rw [if_neg hn]
      have hle' : readLen (BUFSIZE - m - 1) input.length (size i) ≤ BUFSIZE - m - 1 ∧
          readLen (BUFSIZE - m - 1) input.length (size i) ≤ input.length := by
        unfold readLen
        omega
      generalize readLen (BUFSIZE - m - 1) input.length (size i) = n at hn hle' ⊢
      obtain ⟨chunk, rest, rfl, hchunk⟩ : ∃ u v, input = u ++ v ∧ u.length = n :=
        ⟨input.take n, input.drop n, (List.take_append_drop n input).symm, List.length_take_of_le hle'.2⟩
      rw [List.mem_append, not_or] at hin
      have hs0 : 0 ∉ t ++ chunk := by
        rw [List.mem_append, not_or]
        exact ⟨h0, hin.1⟩
      have hlen : (t ++ chunk).length = m + n := by
        rw [List.length_append, hm, hchunk]
      -- the buffer after the read holds the unfinished line and the chunk
      have hread : Holds (upd (fun a => if m ≤ a ∧ a < m + n then (chunk ++ rest).getD (a - m) 0 else b a)
          (m + n) 0) 0 (t ++ chunk) := by
        refine Holds.upd (holds_append.2 ⟨fun j hj => ?_, fun j hj => ?_⟩) (Or.inr (by omega))
        · rw [if_neg (by omega)]
          exact h j hj
        · rw [if_pos (by omega), Nat.zero_add, hm, Nat.add_sub_cancel_left,
            List.getD_eq_getElem _ _ (by rw [List.length_append]; omega), List.getElem_append_left hj]
      obtain ⟨b', hloop, hb'⟩ := lineLoop_eq re (t ++ chunk) out BUFSIZE hread hs0
        (by rw [hlen, Nat.zero_add]; exact upd_same _ _ _) (by omega) (by omega)
      have hrest := (rest_sublist (t ++ chunk)).length_le
      rw [hlen, Nat.zero_add] at hloop hb'
      rw [hlen] at hrest
      rw [hloop]
      simp only [Option.bind_eq_bind, Option.bind_some]
      have hB : BUFSIZE = 1024 := rfl
      rw [if_pos (by omega), ulib_memmove_eq (by omega) (by omega), Nat.sub_sub_self hrest,
        List.drop_left' hchunk]
      have hsub := rest_sublist (t ++ chunk)
      rw [ih hin.2 (holds_moved hb' rfl) rfl (fun hx => hs0 (hsub.subset hx)) (nl_notMem_rest _) (by omega)
        (by rw [List.length_append] at hf; omega)]
      -- every line that ends in the buffer fits
      have hfits : ∀ l ∈ (splitLines (t ++ chunk)).1, fits l = true := by
        intro l hl
        have := length_line_lt _ l hl
        simp only [fits, decide_eq_true_eq]
        omega
      rw [← List.append_assoc t, splitLines_append (t ++ chunk) rest, List.takeWhile_append_of_pos hfits,
        shown_append, List.append_assoc]

/-- What `grep` puts out, however its input is cut: the matching lines before the first one that does not
fit into the buffer. -/
theorem grep_eq (size : Nat → Nat) (b : Bytes64) {input : List UInt8} (hin : 0 ∉ input) :
    grep re size b input = some (shown re ((splitLines input).1.takeWhile fits)) :=
  readLoop_eq (t := []) hin (fun i hi => by cases hi) rfl (List.not_mem_nil) (List.not_mem_nil) (by decide)
    (Nat.lt_succ_self _)

/-- **Every line.**  However the input is cut, `grep` ends, and it puts out exactly the matching lines of
the input precisely when no line matches from the first one on that is too long for the buffer. -/
theorem grep_all_lines (re : List UInt8) (size : Nat → Nat) (b : Bytes64) (input : List UInt8)
    (hin : 0 ∉ input) :
    grep re size b input = some (shown re (splitLines input).1) ↔
      ∀ l ∈ (splitLines input).1.dropWhile fits, «match» re l = false := by
  rw [grep_eq size b hin, Option.some_inj, ← shown_eq_nil]
  have hsplit := shown_append re ((splitLines input).1.takeWhile fits)
    ((splitLines input).1.dropWhile fits)
  rw [List.takeWhile_append_dropWhile] at hsplit
  rw [hsplit]
  constructor
  · intro h
    exact List.self_eq_append_right.1 h
  · intro h
    rw [h, List.append_nil]

/-- A line of 1023 bytes `a`, and one that is only `b`. -/
def longInput : List UInt8 := List.replicate 1023 97 ++ [nl, 98, nl]

/-- The line that matches `b` is lost. -/
theorem grep_long_line : grep [98] (fun _ => BUFSIZE) (fun _ => 0) longInput = some [] ∧
    shown [98] (splitLines longInput).1 = [98, nl] := by
  have hin : 0 ∉ longInput := by decide +kernel
  rw [grep_eq _ _ hin]
  decide +kernel

/-- A read of one byte at a time does no harm. -/
theorem grep_all_lines_one : grep [98] (fun _ => 1) (fun _ => 0) [98, 97, nl, 97, nl, 97] = some [98, 97, nl] := by
  have h := (grep_all_lines [98] (fun _ => 1) (fun _ => 0) [98, 97, nl, 97, nl, 97] (by decide)).2 (by decide)
  rw [h]
  decide

end Xv6.Grep
