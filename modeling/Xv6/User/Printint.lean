import Mathlib.Data.Nat.Digits.Lemmas

/-!
# Printing integers

`printint` of `kernel/printf.c` and of `user/printf.c`.  The digits go backwards into a buffer of 20
bytes and come out in the other order.  A store past the end of the buffer is an error of the model.
-/

namespace Xv6

/-- The size of `buf`. -/
abbrev DIGITBUF : Nat := 20

/-- The `do` loop, with `room` bytes left in the buffer: `buf[i++] = digits[x % base]` while `x /= base` is
not zero. -/
def digitLoop (digits : Nat → Char) (base : Nat) : Nat → Nat → List Char → Option (List Char)
  | 0, _, _ => none
  | room + 1, x, buf =>
    let buf := buf ++ [digits (x % base)]
    if x / base ≠ 0 then digitLoop digits base room (x / base) buf else some buf

/-- `printint`, with its table of digits: the characters it puts out, `none` if a store leaves the buffer. -/
def printintWith (digits : Nat → Char) (xx : BitVec 64) (base : Nat) (sign : Bool) : Option (List Char) := do
  let neg := sign && xx.slt 0
  let x := if neg then -xx else xx
  let buf ← digitLoop digits base DIGITBUF x.toNat []
  if neg then
    if buf.length < DIGITBUF then pure (buf ++ ['-']).reverse else none
  else pure buf.reverse

def kernelDigits (d : Nat) : Char := "0123456789abcdef".toList.getD d '?'

def userDigits (d : Nat) : Char := "0123456789ABCDEF".toList.getD d '?'

/-- `printint` of the kernel. -/
def Kprintf.printint := printintWith kernelDigits

/-- `printint` of the user library. -/
def Uprintf.printint := printintWith userDigits

theorem toLower_userDigits : ∀ d < 16, (userDigits d).toLower = kernelDigits d := by decide +kernel

/-! ### The loop -/

/-- The digits of a number, the last one first; zero has one. -/
def places (base x : Nat) : List Nat := if x = 0 then [0] else Nat.digits base x

variable {digits : Nat → Char} {base x : Nat}

theorem places_step (hb : 1 < base) (h : x / base ≠ 0) : places base x = x % base :: places base (x / base) := by
  have hx : x ≠ 0 := by
    rintro rfl
    exact h (Nat.zero_div base)
  unfold places
  rw [if_neg hx, if_neg h, Nat.digits_def' hb (Nat.pos_of_ne_zero hx)]

theorem places_last (hb : 1 < base) (h : x / base = 0) : places base x = [x % base] := by
  unfold places
  by_cases hx : x = 0
  · rw [if_pos hx, hx, Nat.zero_mod]
  · rw [if_neg hx, Nat.digits_def' hb (Nat.pos_of_ne_zero hx), h, Nat.digits_zero]

theorem digitLoop_eq (hb : 1 < base) {room : Nat} (buf : List Char) (h : (places base x).length ≤ room) :
    digitLoop digits base room x buf = some (buf ++ (places base x).map digits) := by
  induction room generalizing x buf with
  | zero =>
    unfold places at h
    split at h
    · cases h
    · rename_i hx
      exact absurd (Nat.digits_eq_nil_iff_eq_zero.1 (List.length_eq_zero_iff.1 (Nat.le_zero.1 h))) hx
  | succ room ih =>
    rw [digitLoop]
    by_cases hx : x / base = 0
    · rw [if_neg (not_not_intro hx), places_last hb hx]
      rfl
    · rw [places_step hb hx] at h ⊢
      rw [if_pos hx, ih _ (Nat.le_of_succ_le_succ h), List.append_assoc]
      rfl

theorem places_length {k : Nat} (hb : 1 < base) (hk : 0 < k) (h : x < base ^ k) : (places base x).length ≤ k := by
  unfold places
  split
  · exact hk
  · exact (Nat.digits_length_le_iff hb x).2 h

/-- What makes a list of digits, the first one first, the representation of a number. -/
structure Represents (base : Nat) (ds : List Nat) (x : Nat) : Prop where
  digit : ∀ d ∈ ds, d < base
  value : ds.foldl (fun a d => base * a + d) 0 = x
  nonempty : ds ≠ []
  leading : ds.head? = some 0 → ds = [0]

theorem foldl_reverse_eq_ofDigits (l : List Nat) :
    l.reverse.foldl (fun a d => base * a + d) 0 = Nat.ofDigits base l := by
  induction l with
  | nil => rfl
  | cons d l ih =>
    rw [List.reverse_cons, List.foldl_append, ih, List.foldl_cons, List.foldl_nil, Nat.ofDigits_cons, Nat.add_comm]

theorem represents_places (hb : 1 < base) (x : Nat) : Represents base (places base x).reverse x := by
  unfold places
  by_cases hx : x = 0
  · rw [if_pos hx]
    refine ⟨fun d hd => ?_, ?_, List.cons_ne_nil _ _, fun _ => rfl⟩
    · rw [List.mem_singleton.1 hd]
      omega
    · rw [hx]
      rfl
  · rw [if_neg hx]
    have hne : Nat.digits base x ≠ [] := Nat.digits_ne_nil_iff_ne_zero.2 hx
    refine ⟨fun d hd => ?_, ?_, ?_, fun h0 => ?_⟩
    · exact Nat.digits_lt_base hb (List.mem_reverse.1 hd)
    · rw [foldl_reverse_eq_ofDigits, Nat.ofDigits_digits]
    · rwa [Ne, List.reverse_eq_nil_iff]
    · rw [List.head?_reverse, List.getLast?_eq_some_getLast hne] at h0
      exact absurd (Option.some.inj h0) (Nat.getLast_digit_ne_zero base hx)

/-! ### `printint` -/

/-- The absolute value of what is printed. -/
def magnitude (xx : BitVec 64) (sign : Bool) : Nat := if sign then xx.toInt.natAbs else xx.toNat

theorem toNat_printed (xx : BitVec 64) (sign : Bool) :
    (if (sign && xx.slt 0) = true then -xx else xx).toNat = magnitude xx sign ∧
      ((sign && xx.slt 0) = true → magnitude xx sign ≤ 2 ^ 63) := by
  have hlt := xx.isLt
  have hslt : xx.slt 0 = decide (xx.toInt < 0) := rfl
  unfold magnitude
  rw [hslt, BitVec.toInt_eq_toNat_cond]
  cases sign with
  | false => exact ⟨rfl, fun h => by cases h⟩
  | true =>
    rw [Bool.true_and, if_pos rfl]
    split
    · rename_i h
      rw [if_neg (by simp)]
      exact ⟨by simp, fun hc => by simp at hc; omega⟩
    · rename_i h
      have hneg : ((xx.toNat : Int) - (2 ^ 64 : Nat)) < 0 := by omega
      rw [if_pos (by simpa using hneg), BitVec.toNat_neg]
      refine ⟨?_, fun _ => ?_⟩ <;> omega

theorem printintWith_eq (xx : BitVec 64) (hb : base = 10 ∨ base = 16) (sign : Bool) :
    printintWith digits xx base sign = some ((if sign && xx.slt 0 then ['-'] else []) ++
      (places base (magnitude xx sign)).reverse.map digits) := by
  have hb1 : 1 < base := by omega
  obtain ⟨hx, hneg⟩ := toNat_printed xx sign
  have hlt : magnitude xx sign < 2 ^ 64 := by
    rw [← hx]
    exact BitVec.isLt _
  have hlen : ∀ k, 0 < k → magnitude xx sign < 10 ^ k → (places base (magnitude xx sign)).length ≤ k := by
    intro k hk h
    refine places_length hb1 hk (Nat.lt_of_lt_of_le h (Nat.pow_le_pow_left ?_ k))
    omega
  unfold printintWith
  dsimp only
  rw [hx, digitLoop_eq hb1 [] (hlen 20 (by decide) (Nat.lt_trans hlt (by decide))), List.nil_append]
  cases hn : sign && xx.slt 0 with
  | false =>
    rw [if_neg Bool.false_ne_true, List.nil_append, List.map_reverse]
    rfl
  | true =>
    have h19 := hlen 19 (by decide) (Nat.lt_of_le_of_lt (hneg hn) (by decide))
    have hroom : ((places base (magnitude xx sign)).map digits).length < DIGITBUF := by
      rw [List.length_map]
      exact Nat.lt_succ_of_le h19
    rw [if_pos rfl, List.map_reverse]
    show (if _ < DIGITBUF then _ else none) = _
    rw [if_pos hroom, List.reverse_append]
    rfl

/-- **Integer printing.**  For every 64-bit value, base 10 or 16 and both modes: no store leaves the buffer,
and what comes out is a `-` for a negative signed value and the digits of its absolute value, the same
digits in both versions, up to the case of the letters. -/
theorem printint_represents (xx : BitVec 64) (base : Nat) (hb : base = 10 ∨ base = 16) (sign : Bool) :
    ∃ ds, Represents base ds (if sign then xx.toInt.natAbs else xx.toNat) ∧
      Kprintf.printint xx base sign =
        some ((if sign = true ∧ xx.toInt < 0 then ['-'] else []) ++ ds.map kernelDigits) ∧
      Uprintf.printint xx base sign =
        some ((if sign = true ∧ xx.toInt < 0 then ['-'] else []) ++ ds.map userDigits) ∧
      (Uprintf.printint xx base sign).map (fun out => out.map Char.toLower) = Kprintf.printint xx base sign := by
  have hrep := represents_places (show 1 < base by omega) (magnitude xx sign)
  have hsign : (if (sign && xx.slt 0) = true then ['-'] else []) =
      if sign = true ∧ xx.toInt < 0 then ['-'] else [] := by
    have hslt : xx.slt 0 = decide (xx.toInt < 0) := rfl
    rw [hslt]
    simp only [Bool.and_eq_true, decide_eq_true_eq]
  have hk : Kprintf.printint xx base sign = _ := printintWith_eq xx hb sign
  have hu : Uprintf.printint xx base sign = _ := printintWith_eq xx hb sign
  rw [hsign] at hk hu
  refine ⟨_, hrep, hk, hu, ?_⟩
  rw [hk, hu, Option.map_some, List.map_append, List.map_map]
  refine congrArg some (congrArg₂ _ ?_ (List.map_congr_left fun d hd => ?_))
  · split <;> rfl
  · have hd16 : d < 16 := by
      have := hrep.digit d hd
      omega
    exact toLower_userDigits d hd16

/-- The smallest signed value. -/
theorem printint_represents_min : Kprintf.printint (BitVec.ofInt 64 (-2 ^ 63)) 10 true =
    some "-9223372036854775808".toList := by
  have h := (printint_represents (BitVec.ofInt 64 (-2 ^ 63)) 10 (Or.inl rfl) true).choose_spec.2.2.2
  exact h.symm.trans (by decide +kernel)

/-! ### `atoi` -/

/-- The loop of `atoi`, with an `int` that wraps. -/
def atoiLoop (n : BitVec 32) : List Char → BitVec 32
  | [] => n
  | x :: s =>
    if '0' ≤ x ∧ x ≤ '9' then
      atoiLoop (n * 10 + BitVec.ofNat 32 x.toNat - BitVec.ofNat 32 '0'.toNat) s
    else n

/-- `atoi` of the user library. -/
def atoi (s : List Char) : BitVec 32 := atoiLoop 0#32 s

theorem userDigits_decimal : ∀ d < 10, ('0' ≤ userDigits d ∧ userDigits d ≤ '9') ∧
    (userDigits d).toNat = '0'.toNat + d := by decide +kernel

theorem atoiLoop_digits {ds : List Nat} (h : ∀ d ∈ ds, d < 10) (m : Nat) :
    atoiLoop (.ofNat 32 m) (ds.map userDigits) =
      .ofNat 32 (ds.foldl (fun a d => 10 * a + d) m) := by
  induction ds generalizing m with
  | nil => rfl
  | cons d ds ih =>
    obtain ⟨hd, hv⟩ := userDigits_decimal d (h d List.mem_cons_self)
    rw [List.map_cons, atoiLoop, if_pos hd, hv, List.foldl_cons,
      ← ih fun e he => h e (List.mem_cons_of_mem d he)]
    congr 1
    bv_omega

/-- **`atoi` reads what `printint` prints**, up to the width of an `int`; it does not know the `-`. -/
theorem atoi_printint (xx : BitVec 64) (sign : Bool) : (Uprintf.printint xx 10 sign).map atoi =
    some (if sign = true ∧ xx.toInt < 0 then 0 else xx.setWidth 32) := by
  have hx := (toNat_printed xx sign).1
  have hslt : (sign && xx.slt 0) = decide (sign = true ∧ xx.toInt < 0) := by
    cases sign <;> simp [BitVec.slt]
  rw [Uprintf.printint, printintWith_eq xx (.inl rfl), Option.map_some]
  rw [hslt] at hx ⊢
  by_cases hn : sign = true ∧ xx.toInt < 0
  · simp only [hn, and_self, decide_true, if_true]
    rfl
  · have hrep := represents_places (show 1 < 10 by decide) (magnitude xx sign)
    simp only [hn, decide_false, Bool.false_eq_true, if_false, List.nil_append] at hx ⊢
    rw [atoi, atoiLoop_digits hrep.digit 0, hrep.value, ← hx]
    rfl

end Xv6
