import ArithSyntax.Proofs.Grammar.Phrase
import ArithSyntax.Proofs.RoundTrip.Decimal
import ArithSyntax.Proofs.Tokens.Stepwise

/-!
# Reading written tokens

A text that is written token by token is read into the same tokens: a character that spells a kind
is a token of that kind, whatever follows it, and the decimal digits of a number are one token
unless another digit follows (`Cursor.nextToken_spelled`, `Cursor.nextToken_digits`).

Such tokens make up readings of several (`Cursor.exists_reads_spelled`), which compose.
-/

set_option autoImplicit false

namespace ArithSyntax

namespace Cursor

variable {c : Cursor}

/-- A character that spells a kind is a token of that kind. -/
theorem nextToken_spelled {k : Kind} {ch : Char} {tail : List Char} (hk : k.spelling? = some ch)
    (h : c.unread = ch :: tail) :
    ∃ (m : Mark) (rest : Cursor), c.nextToken = .ok (m.token k) rest ∧ rest.unread = tail := by
  have hone : c.unread = [ch] ++ tail := h
  refine ⟨⟨String.singleton ch, c.location⟩, c.past [ch], ?_, unread_past hone⟩
  exact nextToken_eq_of_scans_here (.spelled h (Kind.ofChar?_eq_some_iff.2 hk))

/-- A run of digits that no digit follows is one number. -/
theorem nextToken_digits {digits tail : List Char} (hne : digits ≠ [])
    (hdigits : ∀ ch ∈ digits, ch.isDigit = true) (htail : ∀ ch ∈ tail.head?, ch.isDigit = false)
    (h : c.unread = digits ++ tail) :
    ∃ (m : Mark) (rest : Cursor), c.nextToken = .ok (m.token .number) rest ∧ rest.unread = tail ∧
      m.text.toList = digits := by
  refine ⟨⟨String.ofList digits, c.location⟩, c.past digits, ?_, unread_past h,
    String.toList_ofList⟩
  exact nextToken_eq_of_scans_here (.number h hne hdigits htail)

/-- The spelling of a kind is read as a token of that kind. -/
theorem exists_reads_spelled {k : Kind} {ch : Char} {tail : List Char}
    (hk : k.spelling? = some ch) (h : c.unread = ch :: tail) :
    ∃ (m : Mark) (rest : Cursor), c.Reads [m.token k] rest ∧ rest.unread = tail := by
  obtain ⟨m, rest, hnext, hrest⟩ := nextToken_spelled hk h
  refine ⟨m, rest, .single hnext ?_, hrest⟩
  rintro rfl
  cases hk

end Cursor

end ArithSyntax
