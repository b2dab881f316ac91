import ArithSyntax.Expr.Literal
import Mathlib.Data.Nat.Digits.Defs

/-!
# Decimal texts

A literal is read from the left, digit by digit. What it comes to is the sum of its digits, each
times a power of ten (`Literal.ofDigitChars_eq_worth`), and the digits of that number are those of
the literal without leading zeros (`Literal.toDigits_ofDigitChars`). The other way round, the digits
of a number are read as that number (`Literal.read_toDigits`).
-/

set_option autoImplicit false

namespace ArithSyntax.Literal

/-- A nonempty text of the ten decimal digits. -/
def Digits (text : List Char) : Prop :=
  text ≠ [] ∧ ∀ c ∈ text, c ∈ digits

/-- The sum of the digits of a text, each times the power of ten of its place from the right. -/
def worth (text : List Char) : Nat :=
  (text.reverse.mapIdx fun place c => digits.idxOf c * 10 ^ place).sum

/-- A text without its leading zeros, or a zero if nothing is left. -/
def trimmed (text : List Char) : List Char :=
  match text.dropWhile (· = '0') with
  | [] => ['0']
  | c :: rest => c :: rest

variable {text : List Char}

/-! ## Single digits -/

/-- A digit is the character of its place among the ten. -/
theorem digitChar_idxOf {c : Char} (h : c ∈ digits) :
    digits.idxOf c < 10 ∧ Nat.digitChar (digits.idxOf c) = c := by
  simp only [digits, List.mem_cons, List.not_mem_nil, or_false] at h
  rcases h with h | h | h | h | h | h | h | h | h | h <;> subst h <;> decide

theorem ofDigitChars_cons {c : Char} (h : c ∈ digits) (text : List Char) (n : Nat) :
    Nat.ofDigitChars 10 (c :: text) n = Nat.ofDigitChars 10 text (10 * n + digits.idxOf c) := by
  obtain ⟨hlt, hchar⟩ := digitChar_idxOf h
  rw [← Nat.ofDigitChars_cons_digitChar_of_lt_ten hlt, hchar]

/-! ## From texts to numbers -/

theorem worth_cons (c : Char) (text : List Char) :
    worth (c :: text) = 10 ^ text.length * digits.idxOf c + worth text := by
  simp [worth, List.mapIdx_append, Nat.mul_comm, Nat.add_comm]

/-- What a text is read as from the left is the sum of its digits by their places. -/
theorem ofDigitChars_eq_worth (h : ∀ c ∈ text, c ∈ digits) :
    Nat.ofDigitChars 10 text 0 = worth text := by
  induction text with
  | nil => rfl
  | cons c text ih =>
    have htext := ih fun d hd => h d (List.mem_cons_of_mem c hd)
    rw [ofDigitChars_cons (h c List.mem_cons_self), Nat.mul_zero, Nat.zero_add,
      Nat.ofDigitChars_eq_ofDigitChars_zero, htext, worth_cons]

/-! ## And back -/

theorem trimmed_zero_cons (text : List Char) : trimmed ('0' :: text) = trimmed text := by
  rw [trimmed, List.dropWhile_cons_of_pos (by decide)]
  rfl

theorem trimmed_cons {c : Char} (h : c ≠ '0') (text : List Char) :
    trimmed (c :: text) = c :: text := by
  rw [trimmed, List.dropWhile_cons_of_neg (by simpa using h)]

theorem length_trimmed_le (h : text ≠ []) : (trimmed text).length ≤ text.length := by
  have hdrop := (List.dropWhile_sublist (l := text) (· = '0')).length_le
  unfold trimmed
  split
  · exact List.length_pos_iff.2 h
  · next hrest =>
    rw [hrest] at hdrop
    exact hdrop

/-- Digits that are read behind a positive number are the last digits of what it comes to. -/
theorem toDigits_ofDigitChars_of_pos (h : ∀ c ∈ text, c ∈ digits) {n : Nat} (hn : 0 < n) :
    Nat.toDigits 10 (Nat.ofDigitChars 10 text n) = Nat.toDigits 10 n ++ text := by
  induction text generalizing n with
  | nil => rw [Nat.ofDigitChars_nil, List.append_nil]
  | cons c text ih =>
    have hc := h c List.mem_cons_self
    obtain ⟨hlt, hchar⟩ := digitChar_idxOf hc
    have hstep : Nat.toDigits 10 (10 * n + digits.idxOf c) = Nat.toDigits 10 n ++ [c] := by
      rw [← Nat.toDigits_append_toDigits (by decide) hn hlt, Nat.toDigits_of_lt_base hlt, hchar]
    rw [ofDigitChars_cons hc, ih (fun d hd => h d (List.mem_cons_of_mem c hd)) (by omega), hstep,
      List.append_assoc]
    rfl

/-- The digits of what a text is read as are those of the text, without leading zeros. -/
theorem toDigits_ofDigitChars (h : ∀ c ∈ text, c ∈ digits) :
    Nat.toDigits 10 (Nat.ofDigitChars 10 text 0) = trimmed text := by
  induction text with
  | nil => rfl
  | cons c text ih =>
    have htext : ∀ d ∈ text, d ∈ digits := fun d hd => h d (List.mem_cons_of_mem c hd)
    have hc := h c List.mem_cons_self
    rw [ofDigitChars_cons hc, Nat.mul_zero, Nat.zero_add]
    by_cases hzero : c = '0'
    · -- A leading zero leaves the number that is read on from at zero.
      subst hzero
      rw [trimmed_zero_cons]
      exact ih htext
    · obtain ⟨hlt, hchar⟩ := digitChar_idxOf hc
      have hpos : 0 < digits.idxOf c := by
        apply Nat.pos_of_ne_zero
        intro hidx
        rw [hidx] at hchar
        exact hzero hchar.symm
      rw [trimmed_cons hzero, toDigits_ofDigitChars_of_pos htext hpos,
        Nat.toDigits_of_lt_base hlt, hchar]
      rfl

/-! ## What is read -/

theorem digits_iff : Digits text ↔ ¬ (text = [] ∨ ¬ text.all Char.isDigit) := by
  simp [Digits, isDigit_iff_mem_digits]

theorem read_of_digits (h : Digits text) (hlen : text.length ≤ digitLimit) :
    read text = .ok (worth text) := by
  rw [read, if_neg (digits_iff.1 h), if_neg (Nat.not_lt.2 hlen), ofDigitChars_eq_worth h.2]

theorem read_of_digits_of_long (h : Digits text) (hlen : digitLimit < text.length) :
    read text = .error .tooLong := by
  rw [read, if_neg (digits_iff.1 h), if_pos hlen]

theorem read_of_not_digits (h : ¬ Digits text) : read text = .error .notDigits := by
  rw [read, if_pos (Classical.not_not.1 fun hall => h (digits_iff.2 hall))]

/-- The decimal digits of a number are read as that number, if there are not too many. -/
theorem read_toDigits {n : Nat} (h : (Nat.toDigits 10 n).length ≤ digitLimit) :
    read (Nat.toDigits 10 n) = .ok n := by
  apply read_eq_ok_iff.2
  refine ⟨Nat.toDigits_ne_nil, ?_, h, Nat.ofDigitChars_ten_toDigits⟩
  intro c hc
  exact Nat.isDigit_of_mem_toDigits (by decide) (by decide) hc

/-- A number that is read has no more digits than a literal may have. -/
theorem length_toDigits_of_read {n : Nat} (h : read text = .ok n) :
    (Nat.toDigits 10 n).length ≤ digitLimit := by
  obtain ⟨hne, hdigits, hlen, rfl⟩ := read_eq_ok_iff.1 h
  rw [toDigits_ofDigitChars fun c hc => (isDigit_iff_mem_digits c).1 (hdigits c hc)]
  exact Nat.le_trans (length_trimmed_le hne) hlen

end ArithSyntax.Literal
