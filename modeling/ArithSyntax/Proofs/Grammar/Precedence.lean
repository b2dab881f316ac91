import ArithSyntax.Proofs.Climb.Parsers
import ArithSyntax.Proofs.Grammar.Climbing
import ArithSyntax.Proofs.Grammar.Unambiguous
import Mathlib.Logic.ExistsUnique

/-!
# Parsers read the grammar of precedence

A parser with the standard tables returns a tree exactly where the tree is that of a phrase of the
grammar, and it stops where the phrase ends (`parse_ok_iff_reading`). The phrase is the only one,
whatever tree it stands for. The limit on nesting takes nothing away unless it is smaller than the
nesting of the phrase, which is never more than the number of its tokens.
-/

set_option autoImplicit false

namespace ArithSyntax

open Phrase

/-- A well-bound phrase before a token that does not bind is read under the minimum `0`. -/
theorem Phrase.reading_zero {c : Phrase} {tree : Expr} {ts rest : List Token} (hw : c.WellBound)
    (he : c.erase? = some tree) (heq : ts = c.yield ++ rest) (hrest : nextPower rest = 0) :
    c.Reading 0 tree ts rest where
  wellBound := hw
  yield_eq := heq
  erase_eq := he
  closed q _ := by
    rw [hrest]
    exact Nat.zero_le q
  tighter p hp := by exact_mod_cast c.leftEdge_pos p hp
  stops := by
    rw [hrest]
    exact Int.le_refl 0

/-- Where the unread tokens of a stream start with a phrase, an end token is left after it. -/
theorem TokenStream.exists_eof_of_yield {s : TokenStream} {c : Phrase} {rest : List Token}
    (h : s.unread = c.yield ++ rest) (hrest : ∀ t ∈ rest.head?, t.kind = .eof) :
    ∃ t rest', t.kind = .eof ∧ rest = t :: rest' := by
  cases rest with
  | cons t rest' => exact ⟨t, rest', hrest t rfl, rfl⟩
  | nil =>
    rw [List.append_nil] at h
    have hlast := s.eofLast_unread
    rw [h] at hlast
    have hne : c.yield ≠ [] := by
      obtain ⟨t, back, hcons⟩ := c.exists_yield_cons
      rw [hcons]
      exact List.cons_ne_nil t back
    have hmem := List.getLast_mem hne
    exact absurd (hlast _ (List.getLast?_eq_some_getLast hne)) (c.kind_ne_eof _ hmem)

/-- A parser with the standard tables reads the phrases of the grammar. It returns a tree, and
leaves `rest`, exactly where the limit admits a phrase that stands for the tree, ends before `rest`,
holds on its left edge only operators that bind tighter than the minimum, and is followed by a token
that goes on neither with it nor with an operator on its right edge. At most one phrase does so. A
limit that is not below the number of unread tokens admits them all, and a whole expression is then
accepted exactly where the one well-bound phrase before an end token stands for it. -/
theorem parse_ok_iff_reading (p : Parser) (htables : p.tables = .standard) (hdepth : p.depth = 0)
    (min : Int) :
    (∀ tree rest, (∃ p', p.parse min = .ok tree p' ∧ p'.stream.unread = rest) ↔
      ∃ c : Phrase, c.Reading min tree p.stream.unread rest ∧ (c.nesting : Int) ≤ p.limit) ∧
    (∀ (c c' : Phrase) (tree tree' : Expr) (rest rest' : List Token),
      c.Reading min tree p.stream.unread rest → c'.Reading min tree' p.stream.unread rest' →
        c = c' ∧ tree = tree' ∧ rest = rest') ∧
    ((p.size : Int) ≤ p.limit → ∀ tree rest,
      (∃ p', p.parse min = .ok tree p' ∧ p'.stream.unread = rest) ↔
        ∃! c : Phrase, c.Reading min tree p.stream.unread rest) ∧
    ((p.size : Int) ≤ p.limit → ∀ tree, (∃ p', p.parseExpression = .ok tree p') ↔
      ∃! c : Phrase, c.WellBound ∧ c.erase? = some tree ∧
        ∃ t rest, t.kind = .eof ∧ p.stream.unread = c.yield ++ t :: rest) := by
  have hread : ∀ (min : Int) (tree : Expr) (rest : List Token),
      Parses p.tables p.limit (.expression min) p.depth p.stream.unread (.ok tree) rest ↔
        ∃ c : Phrase, c.Reading min tree p.stream.unread rest ∧ (c.nesting : Int) ≤ p.limit := by
    intro min tree rest
    rw [htables, hdepth, parses_expression_iff]
    simp
  have hadmit : (p.size : Int) ≤ p.limit → ∀ {c : Phrase} {rest : List Token},
      p.stream.unread = c.yield ++ rest → (c.nesting : Int) ≤ p.limit := by
    intro hsize c rest heq
    have hlen := c.nesting_le_length
    have hsum : p.size = c.yield.length + rest.length := by
      rw [Parser.size, heq, List.length_append]
    omega
  refine ⟨fun tree rest => (p.parse_ok_iff min tree rest).trans (hread min tree rest),
    fun c c' tree tree' rest rest' h h' => h.unique h', fun hsize tree rest => ?_,
    fun hsize tree => ?_⟩
  · -- There is a phrase by soundness, and it is the only one because the grammar is unambiguous.
    rw [p.parse_ok_iff min tree rest, hread]
    constructor
    · rintro ⟨c, hc, -⟩
      exact ⟨c, hc, fun c' hc' => (hc'.unique hc).1⟩
    · rintro ⟨c, hc, -⟩
      exact ⟨c, hc, hadmit hsize hc.yield_eq⟩
  · -- Before an end token a phrase is complete, so being well-bound is all that is asked of it.
    have hzero : ∀ {c : Phrase}, c.WellBound ∧ c.erase? = some tree ∧
        (∃ t rest, t.kind = .eof ∧ p.stream.unread = c.yield ++ t :: rest) →
          ∃ t rest, t.kind = .eof ∧ c.Reading 0 tree p.stream.unread (t :: rest) := by
      rintro c ⟨hw, he, t, rest, ht, heq⟩
      exact ⟨t, rest, ht, reading_zero hw he heq (by rw [nextPower_cons, ht]; rfl)⟩
    rw [p.parseExpression_ok_iff tree]
    constructor
    · rintro ⟨rest, h, heof⟩
      obtain ⟨c, hc, -⟩ := (hread 0 tree rest).1 h
      obtain ⟨t, rest', ht, rfl⟩ := TokenStream.exists_eof_of_yield hc.yield_eq heof
      refine ⟨c, ⟨hc.wellBound, hc.erase_eq, t, rest', ht, hc.yield_eq⟩, fun c' hc' => ?_⟩
      obtain ⟨_, _, -, hr⟩ := hzero hc'
      exact (hr.unique hc).1
    · rintro ⟨c, hc, -⟩
      obtain ⟨t, rest, ht, hr⟩ := hzero hc
      refine ⟨t :: rest, (hread 0 tree _).2 ⟨c, hr, hadmit hsize hr.yield_eq⟩, fun u hu => ?_⟩
      cases hu
      exact ht

/-- A parser of `2^-3*4`. -/
def signedPower : Parser where
  stream := {
    tokens := [⟨.number, "2", ⟨1, 1⟩⟩, ⟨.caret, "^", ⟨1, 2⟩⟩, ⟨.minus, "-", ⟨1, 3⟩⟩,
      ⟨.number, "3", ⟨1, 4⟩⟩, ⟨.star, "*", ⟨1, 5⟩⟩, ⟨.number, "4", ⟨1, 6⟩⟩, ⟨.eof, "", ⟨1, 7⟩⟩]
    position := 0
    endsWithEof := by decide
    position_le := by decide }
  tables := .standard
  limit := 256
  depth := 0

/-- The sign takes the product into its operand, although the power binds tighter than it does:
`2^(-(3*4))` is the one phrase that reads `2^-3*4`. -/
theorem existsUnique_reading_signedPower :
    signedPower.tables = .standard ∧ signedPower.depth = 0 ∧
      (signedPower.size : Int) ≤ signedPower.limit ∧
      ∃! c : Phrase, c.Reading 0
        (.binary .pow (.literal 2) (.prefixed .neg (.binary .mul (.literal 3) (.literal 4))))
        signedPower.stream.unread [⟨.eof, "", ⟨1, 7⟩⟩] :=
  ⟨rfl, rfl, by decide,
    ((parse_ok_iff_reading signedPower rfl rfl 0).2.2.1 (by decide) _ _).1 ⟨_, rfl, rfl⟩⟩

end ArithSyntax
