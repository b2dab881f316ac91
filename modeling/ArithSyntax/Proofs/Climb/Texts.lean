import ArithSyntax.Parse
import ArithSyntax.Proofs.Climb.Parsers

/-!
# Texts and derivations

A text is read into tokens, and these are parsed on their own (`parseSource_of_tokenize`). So what a
text ends in is what a derivation on its tokens ends in (`parseSource_eq`).
-/

set_option autoImplicit false

namespace ArithSyntax

/-- The tree of a list of tokens that is one expression. -/
def parseTokens (tokens : List Token) (limit : Int) : Except Fault Expr := do
  let parser ← (Parser.ofTokens tokens limit).mapError .setup
  (outcome parser.parseExpression).mapError .failure

variable {source : String} {limit : Int} {ts rest : List Token} {out : Except Failure Expr}

theorem parseSource_of_error {e : LexError} (h : tokenize source = .error e) :
    parseSource source limit = .error (.lexical e) := by
  rw [parseSource, parserOf, h]
  rfl

theorem parseSource_of_tokenize (h : tokenize source = .ok ts) :
    parseSource source limit = parseTokens ts limit := by
  rw [parseSource, parserOf, h]
  rfl

theorem parseTokens_eq (heof : EndsWithEof ts) (hlimit : 1 ≤ limit)
    (h : Parses .standard limit (.expression 0) 0 ts out rest) :
    parseTokens ts limit = (finished out rest).mapError .failure := by
  let p : Parser := ⟨⟨ts, 0, heof, Nat.zero_le _⟩, .standard, limit, 0⟩
  have hp : Parser.ofTokens ts limit = .ok p := ofTokens_eq_ok_iff.2 ⟨heof, hlimit, rfl⟩
  have hparser : parseTokens ts limit = (outcome p.parseExpression).mapError .failure := by
    rw [parseTokens, hp]
    rfl
  rw [hparser, Parses.parseExpression (p := p) h, outcome_endsWith]

/-- A text ends in what a derivation on its tokens ends in. -/
theorem parseSource_eq (hts : tokenize source = .ok ts) (heof : EndsWithEof ts) (hlimit : 1 ≤ limit)
    (h : Parses .standard limit (.expression 0) 0 ts out rest) :
    parseSource source limit = (finished out rest).mapError .failure := by
  rw [parseSource_of_tokenize hts, parseTokens_eq heof hlimit h]

theorem mapError_eq_ok_iff {ε ε' α : Type} {f : ε → ε'} {x : Except ε α} {a : α} :
    x.mapError f = .ok a ↔ x = .ok a := by
  cases x with
  | error e => exact ⟨nofun, nofun⟩
  | ok b =>
    constructor
    · intro h
      cases h
      rfl
    · intro h
      cases h
      rfl

/-- A tree is returned for tokens exactly where the limit is positive and a derivation ends in the
tree before an end token. -/
theorem parseTokens_eq_ok_iff {t : Expr} :
    parseTokens ts limit = .ok t ↔ EndsWithEof ts ∧ 1 ≤ limit ∧
      ∃ rest, Parses .standard limit (.expression 0) 0 ts (.ok t) rest ∧
        ∀ u ∈ rest.head?, u.kind = .eof := by
  constructor
  · intro h
    cases hp : Parser.ofTokens ts limit with
    | error e =>
      rw [parseTokens, hp] at h
      cases h
    | ok p =>
      obtain ⟨heof, hlimit, -⟩ := ofTokens_eq_ok_iff.1 hp
      obtain ⟨out, rest, hparses, -⟩ := exists_parses .standard limit (.expression 0) 0 ts
      rw [parseTokens_eq heof hlimit hparses, mapError_eq_ok_iff] at h
      obtain ⟨rfl, hrest⟩ := finished_eq_ok_iff.1 h
      exact ⟨heof, hlimit, rest, hparses, hrest⟩
  · rintro ⟨heof, hlimit, rest, hparses, hrest⟩
    rw [parseTokens_eq heof hlimit hparses, mapError_eq_ok_iff]
    exact finished_eq_ok_iff.2 ⟨rfl, hrest⟩

/-- A text for which a tree is returned has tokens for which it is returned. -/
theorem exists_tokenize_of_parseSource {t : Expr} (h : parseSource source limit = .ok t) :
    ∃ ts, tokenize source = .ok ts ∧ parseTokens ts limit = .ok t := by
  cases hts : tokenize source with
  | error e =>
    rw [parseSource_of_error hts] at h
    cases h
  | ok ts => exact ⟨ts, rfl, by rwa [parseSource_of_tokenize hts] at h⟩

end ArithSyntax
