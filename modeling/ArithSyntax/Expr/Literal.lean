/-!
# Integer literals

A literal is a nonempty run of the decimal digits `0` to `9`, leading zeros allowed, and is refused
when it is longer than `digitLimit`. Nothing else is a literal: no sign, no separator, no digit of
another script.
-/

set_option autoImplicit false

namespace ArithSyntax.Literal

/-- The decimal digits, ascending. -/
def digits : List Char := ['0', '1', '2', '3', '4', '5', '6', '7', '8', '9']

/-- The greatest number of digits in a literal, leading zeros included. -/
def digitLimit : Nat := 4300

/-- Why a text is no literal. -/
inductive Refusal where
  | notDigits
  | tooLong
deriving DecidableEq

/-- The wording of a refusal. -/
def Refusal.reason : Refusal → String
  | notDigits => "not a run of decimal digits"
  | tooLong => "more than " ++ toString digitLimit ++ " digits"

/-- The value of a literal. -/
def read (s : List Char) : Except Refusal Nat :=
  if s = [] ∨ ¬ s.all Char.isDigit then .error .notDigits
  else if digitLimit < s.length then .error .tooLong
  else .ok (Nat.ofDigitChars 10 s 0)

theorem ofNat_mem_digits : ∀ d, d < 10 → Char.ofNat (48 + d) ∈ digits := by
  decide

/-- The characters of a literal are the ten decimal digits and no others. -/
theorem isDigit_iff_mem_digits (c : Char) : c.isDigit ↔ c ∈ digits := by
  constructor
  · intro h
    have low : 48 ≤ c.toNat := (Char.isDigit_iff_toNat.1 h).1
    have high : c.toNat ≤ 57 := (Char.isDigit_iff_toNat.1 h).2
    obtain ⟨d, hd⟩ := Nat.exists_eq_add_of_le low
    have small : d < 10 := by omega
    rw [← Char.ofNat_toNat c, hd]
    exact ofNat_mem_digits d small
  · intro h
    simp only [digits, List.mem_cons, List.not_mem_nil, or_false] at h
    rcases h with h | h | h | h | h | h | h | h | h | h <;> subst h <;> decide

/-- A text is read exactly if it is a nonempty run of digits that is not too long. -/
theorem read_eq_ok_iff {s : List Char} {n : Nat} :
    read s = .ok n ↔ s ≠ [] ∧ (∀ c ∈ s, c.isDigit = true) ∧ s.length ≤ digitLimit ∧
      Nat.ofDigitChars 10 s 0 = n := by
  rw [read]
  split
  · next h =>
    refine ⟨(fun h' => by cases h'), fun ⟨hne, hdigits, _⟩ => ?_⟩
    exact absurd (List.all_eq_true.2 hdigits) (h.resolve_left hne)
  · next h =>
    rw [not_or, Classical.not_not, List.all_eq_true] at h
    split
    · next hlong =>
      exact ⟨(fun h' => by cases h'), fun ⟨_, _, hlen, _⟩ => absurd hlong (Nat.not_lt.2 hlen)⟩
    · next hlong =>
      rw [Except.ok.injEq]
      exact ⟨fun hn => ⟨h.1, h.2, Nat.not_lt.1 hlong, hn⟩, fun ⟨_, _, _, hn⟩ => hn⟩

end ArithSyntax.Literal
