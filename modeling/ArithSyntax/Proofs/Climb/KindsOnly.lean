import ArithSyntax.Proofs.Climb.LastRead
import ArithSyntax.Proofs.Climb.Relabel
import Mathlib.Data.List.Forall2

/-!
# Kinds, and the texts of numbers, are all that is looked at

Two lists of tokens that have the same kinds in the same places, and the same texts where the tables
read numbers, are parsed alike: to the same place, and to the same tree or to failures that differ
in nothing but the token, which stands at the same place of either list (`parse_looksAtKinds`).

The two lists are not compared rule by rule. What a parser does not look at can be forgotten
(`Tables.seen`), and then the two lists are one; the runs on both are runs on that one list
(`Parses.relabel`), of which there is only one. The place of the token in a failure is where the
token was read last, or the next one (`names_of_parseExpression`).
-/

set_option autoImplicit false

namespace ArithSyntax

/-! ## Tokens that look alike -/

/-- With these tables the two tokens look the same: they are of one kind, and of one text if tokens
of their kind are read as numbers. -/
structure Tables.LookAlike (tables : Tables) (t u : Token) : Prop where
  kind_eq : u.kind = t.kind
  text_eq : tables.operand t.kind = some .number → u.text = t.text

/-- The token without what a parser with these tables does not look at. -/
def Tables.seen (tables : Tables) (t : Token) : Token where
  kind := t.kind
  text := if tables.operand t.kind = some .number then t.text else ""
  location := .unknown

variable {tables : Tables} {limit : Int}

theorem Tables.ignores_seen (tables : Tables) : tables.Ignores tables.seen where
  kind_eq _ := rfl
  text_eq _ ht := if_pos ht

theorem Tables.LookAlike.seen_eq {t u : Token} (h : tables.LookAlike t u) :
    tables.seen u = tables.seen t := by
  unfold Tables.seen
  rw [h.kind_eq]
  split
  · next hnumber => rw [h.text_eq hnumber]
  · rfl

theorem Tables.map_seen_eq {ts us : List Token} (h : List.Forall₂ tables.LookAlike ts us) :
    us.map tables.seen = ts.map tables.seen := by
  induction h with
  | nil => rfl
  | cons ht _ ih => rw [List.map_cons, List.map_cons, ht.seen_eq, ih]

/-! ## Failures that differ in their tokens -/

/-- The token that a failure names. Only parse errors name one. -/
def Failure.token? : Failure → Option Token
  | parsing e => e.token?
  | noLexeme _ => none
  | operator _ => none
  | noLookahead => none

/-- The second failure is the first one, but that it names another token if it names one: the first
names the token at some place of the first list, the second the token at that place of the second
list. -/
def Failure.Corresponds (ts us : List Token) (e e' : Failure) : Prop :=
  ∃ f : Token → Token, e' = e.relabel f ∧
    ∀ t, e.token? = some t → ∃ i : Nat, ts[i]? = some t ∧ us[i]? = some (f t)

namespace Failure

variable {f g : Token → Token} {e e' : Failure}

theorem token?_relabel (f : Token → Token) (e : Failure) :
    (e.relabel f).token? = e.token?.map f := by
  cases e with
  | parsing e => cases e <;> rfl
  | _ => rfl

theorem relabel_relabel (f g : Token → Token) (e : Failure) :
    (e.relabel f).relabel g = e.relabel (g ∘ f) := by
  cases e with
  | parsing e => cases e <;> simp [relabel, ParseError.relabel]
  | _ => rfl

/-- To replace the token of a failure by itself changes nothing. -/
theorem relabel_of_fixed (h : ∀ t, e.token? = some t → f t = t) : e.relabel f = e := by
  have hmap : ∀ t? : Option Token, (∀ t, t? = some t → f t = t) → t?.map f = t? := by
    intro t? hfixed
    cases t? with
    | none => rfl
    | some t => simp [hfixed t rfl]
  cases e with
  | parsing e =>
    cases e <;> simp_all [relabel, ParseError.relabel, token?, ParseError.token?]
  | _ => rfl

/-- Failures that are the same when their tokens are replaced differ in nothing but their tokens. -/
theorem exists_relabel (h : e'.relabel f = e.relabel f) :
    ∃ g, e' = e.relabel g ∧ ∀ t, e.token? = some t → e'.token? = some (g t) := by
  have htokens : e'.token?.map f = e.token?.map f := by
    rw [← token?_relabel, ← token?_relabel, h]
  cases hu : e'.token? with
  | none =>
    have ht : e.token? = none := by simpa [hu] using htokens.symm
    refine ⟨f, ?_, by simp [ht]⟩
    rw [← h, relabel_of_fixed (by simp [hu])]
  | some u =>
    -- Both failures become the second one when whatever they name is replaced by `u`.
    refine ⟨fun _ => u, ?_, fun t _ => rfl⟩
    calc e' = e'.relabel (fun _ => u) := (relabel_of_fixed (by simp [hu])).symm
      _ = (e'.relabel f).relabel (fun _ => u) := (relabel_relabel f (fun _ => u) e').symm
      _ = (e.relabel f).relabel (fun _ => u) := by rw [h]
      _ = e.relabel (fun _ => u) := relabel_relabel f (fun _ => u) e

end Failure

/-! ## Where a named token stands -/

/-- The place of the token that a failure names, if the parser has come to `position`: the token was
read last, or it is the next one and stands behind a complete expression. -/
def Failure.place (position : Nat) : Failure → Nat
  | parsing (.trailing _) => position
  | _ => position - 1

theorem Failure.place_relabel (f : Token → Token) (position : Nat) (e : Failure) :
    (e.relabel f).place position = e.place position := by
  cases e with
  | parsing e => cases e <;> rfl
  | _ => rfl

section Places

variable {p q : Parser} {e : Failure} {t : Token}

theorem NamesRead.getElem?_place {fault : ParseError}
    (h : NamesRead p q fault ∧ ∀ u, fault ≠ .trailing u) (ht : fault.token? = some t) :
    p.stream.tokens[(Failure.parsing fault).place q.stream.position]? = some t := by
  obtain ⟨hread, hinner⟩ := h
  have hplace : (Failure.parsing fault).place q.stream.position = q.stream.position - 1 := by
    cases fault with
    | trailing u => exact absurd rfl (hinner u)
    | _ => rfl
  rw [hplace]
  rcases hread with ⟨u, hu, -, hget⟩ | ⟨hnone, -⟩
  · rw [hu] at ht
    rwa [← ht]
  · rw [hnone] at ht
    cases ht

theorem getElem?_place_of_parse {min : Int} (h : p.parse min = .error e q)
    (ht : e.token? = some t) : p.stream.tokens[e.place q.stream.position]? = some t := by
  cases e with
  | parsing fault => exact NamesRead.getElem?_place (namesRead_of_parse h) ht
  | _ => cases ht

theorem getElem?_place_of_parseExpression (h : p.parseExpression = .error e q)
    (ht : e.token? = some t) : p.stream.tokens[e.place q.stream.position]? = some t := by
  cases e with
  | parsing fault =>
    rcases names_of_parseExpression h with hread | ⟨u, rfl, -, hget⟩
    · exact NamesRead.getElem?_place hread ht
    · cases ht
      exact hget
  | _ => cases ht

end Places

/-! ## Parsers -/

/-- The two runs end at the same place, with the same tree or with failures that correspond. -/
inductive EndsAlike (ts us : List Token) :
    Run Failure Parser Expr → Run Failure Parser Expr → Prop
  | tree {x : Expr} {q q' : Parser} (hposition : q'.stream.position = q.stream.position) :
      EndsAlike ts us (.ok x q) (.ok x q')
  | failure {e e' : Failure} {q q' : Parser} (hposition : q'.stream.position = q.stream.position)
      (h : e.Corresponds ts us e') : EndsAlike ts us (.error e q) (.error e' q')

/-- Runs that end at the same place and as one when tokens are replaced end alike, if what their
failures name stands where it should. -/
theorem EndsAlike.of_mapError {ts us : List Token} {out out' : Except Failure Expr} {q q' : Parser}
    {f : Token → Token}
    (hout : out'.mapError (Failure.relabel f) = out.mapError (Failure.relabel f))
    (hposition : q'.stream.position = q.stream.position)
    (hplace : ∀ e t, out = .error e → e.token? = some t →
      ts[e.place q.stream.position]? = some t)
    (hplace' : ∀ e t, out' = .error e → e.token? = some t →
      us[e.place q'.stream.position]? = some t) :
    EndsAlike ts us (endsWith out q) (endsWith out' q') := by
  cases out with
  | ok x =>
    cases out' with
    | ok x' =>
      cases hout
      exact .tree hposition
    | error e' => cases hout
  | error e =>
    cases out' with
    | ok x' => cases hout
    | error e' =>
      obtain ⟨g, rfl, htoken⟩ := Failure.exists_relabel (Except.error.inj hout)
      apply EndsAlike.failure hposition
      refine ⟨g, rfl, fun t ht => ⟨e.place q.stream.position, hplace e t rfl ht, ?_⟩⟩
      have hget := hplace' _ _ rfl (htoken t ht)
      rwa [Failure.place_relabel, hposition] at hget

/-- Parsers of tokens that look the same run on what is seen of them. -/
theorem Parses.seen_eq {d : Nat} {min : Int} {ts us rest rest' : List Token}
    {out out' : Except Failure Expr} (hseen : us.map tables.seen = ts.map tables.seen)
    (h : Parses tables limit (.expression min) d ts out rest)
    (h' : Parses tables limit (.expression min) d us out' rest') :
    out'.mapError (Failure.relabel tables.seen) = out.mapError (Failure.relabel tables.seen) ∧
      rest'.map tables.seen = rest.map tables.seen := by
  have hrun := h.relabel tables.ignores_seen (by simp)
  have hrun' := h'.relabel tables.ignores_seen (by simp)
  rw [hseen] at hrun'
  exact hrun'.unique hrun

/-- A parser looks at nothing but the kinds of tokens and the texts of those that it reads as
numbers. Whatever the tables, the place in the tokens, the minimum and the limit are: if other
tokens are put in the place of a parser's tokens, each of the kind that it replaces, and of the same
text where the tables read a number, an expression ends at the same place, with the same tree, or
with a failure of the same sort that holds the same limit, reason, kind or operator and, if any
token, the one at the same place. So it is with a whole expression. -/
theorem parse_looksAtKinds (p : Parser) {s : TokenStream}
    (htokens : List.Forall₂ p.tables.LookAlike p.stream.tokens s.tokens)
    (hposition : s.position = p.stream.position) (min : Int) :
    EndsAlike p.stream.tokens s.tokens (p.parse min) ({ p with stream := s }.parse min) ∧
      EndsAlike p.stream.tokens s.tokens p.parseExpression
        { p with stream := s }.parseExpression := by
  have hseen : s.unread.map p.tables.seen = p.stream.unread.map p.tables.seen := by
    unfold TokenStream.unread
    rw [List.map_drop, List.map_drop, Tables.map_seen_eq htokens, hposition]
  have hlength := htokens.length_eq
  -- What is left has the same length, so both stand at the same place.
  have hplace : ∀ {rest rest' : List Token},
      rest'.map p.tables.seen = rest.map p.tables.seen →
        (s.resume rest').position = (p.stream.resume rest).position := by
    intro rest rest' hrest
    have hlen := congrArg List.length hrest
    rw [List.length_map, List.length_map] at hlen
    show s.tokens.length - rest'.length = p.stream.tokens.length - rest.length
    rw [hlen, hlength]
  let p' : Parser := { p with stream := s }
  constructor
  · obtain ⟨out, rest, h, -⟩ :=
      exists_parses p.tables p.limit (.expression min) p.depth p.stream.unread
    obtain ⟨out', rest', h', -⟩ := exists_parses p.tables p.limit (.expression min) p.depth s.unread
    obtain ⟨hout, hrest⟩ := h.seen_eq hseen h'
    have hp := h.parse
    have hp' : p'.parse min = _ := Parses.parse (p := p') h'
    show EndsAlike _ _ (p.parse min) (p'.parse min)
    rw [hp, hp']
    apply EndsAlike.of_mapError hout (hplace hrest)
    · rintro e t rfl ht
      exact getElem?_place_of_parse hp ht
    · rintro e t rfl ht
      exact getElem?_place_of_parse hp' ht
  · obtain ⟨out, rest, h, -⟩ :=
      exists_parses p.tables p.limit (.expression 0) p.depth p.stream.unread
    obtain ⟨out', rest', h', -⟩ := exists_parses p.tables p.limit (.expression 0) p.depth s.unread
    obtain ⟨hout, hrest⟩ := h.seen_eq hseen h'
    have hp := h.parseExpression
    have hp' : p'.parseExpression = _ := Parses.parseExpression (p := p') h'
    have hfinished : (finished out' rest').mapError (Failure.relabel p.tables.seen) =
        (finished out rest).mapError (Failure.relabel p.tables.seen) := by
      rw [← finished_relabel p.tables.ignores_seen, ← finished_relabel p.tables.ignores_seen, hout,
        hrest]
    show EndsAlike _ _ p.parseExpression p'.parseExpression
    rw [hp, hp']
    apply EndsAlike.of_mapError hfinished (hplace hrest)
    · intro e t he ht
      rw [he] at hp
      exact getElem?_place_of_parseExpression hp ht
    · intro e t he ht
      rw [he] at hp'
      exact getElem?_place_of_parseExpression hp' ht

/-- A parser of `2*7)` for which the `7` is a token of the kind of factorials that is read as a
number. -/
def factorialAsNumber : Parser where
  stream := {
    tokens := [⟨.number, "2", ⟨1, 1⟩⟩, ⟨.star, "*", ⟨1, 2⟩⟩, ⟨.bang, "7", ⟨1, 3⟩⟩,
      ⟨.rparen, ")", ⟨1, 4⟩⟩, ⟨.eof, "", ⟨1, 5⟩⟩]
    position := 0
    endsWithEof := by decide
    position_le := by decide }
  tables := Tables.standard.setOperand .bang (some .number)
  limit := 256
  depth := 0

/-- The same numbers among operators and parentheses with misleading texts, and with no
locations. -/
def misleadingTexts : TokenStream where
  tokens := [⟨.number, "2", .unknown⟩, ⟨.star, "+", .unknown⟩, ⟨.bang, "7", .unknown⟩,
    ⟨.rparen, "(", .unknown⟩, ⟨.eof, "8", .unknown⟩]
  position := 0
  endsWithEof := by decide
  position_le := by decide

/-- The misleading texts mislead nobody: the product is read, and the token behind it is refused
under whatever text it goes by. -/
theorem parse_looksAtKinds_misleading :
    let p := factorialAsNumber
    let p' := { p with stream := misleadingTexts }
    List.Forall₂ p.tables.LookAlike p.stream.tokens p'.stream.tokens ∧
      p'.stream.position = p.stream.position ∧
      EndsAlike p.stream.tokens p'.stream.tokens (p.parse 0) (p'.parse 0) ∧
      EndsAlike p.stream.tokens p'.stream.tokens p.parseExpression p'.parseExpression ∧
      outcome (p'.parse 0) = .ok (.binary .mul (.literal 2) (.literal 7)) ∧
      outcome p.parseExpression = .error (.parsing (.trailing ⟨.rparen, ")", ⟨1, 4⟩⟩)) ∧
      outcome p'.parseExpression = .error (.parsing (.trailing ⟨.rparen, "(", .unknown⟩)) := by
  intro p p'
  have htokens : List.Forall₂ p.tables.LookAlike p.stream.tokens misleadingTexts.tokens := by
    apply List.Forall₂.cons ⟨rfl, fun _ => rfl⟩
    apply List.Forall₂.cons ⟨rfl, fun hstar => by cases hstar⟩
    apply List.Forall₂.cons ⟨rfl, fun _ => rfl⟩
    apply List.Forall₂.cons ⟨rfl, fun hrparen => by cases hrparen⟩
    exact .cons ⟨rfl, fun heof => by cases heof⟩ .nil
  obtain ⟨hparse, hexpression⟩ := parse_looksAtKinds p htokens rfl 0
  exact ⟨htokens, rfl, hparse, hexpression, rfl, rfl, rfl⟩

end ArithSyntax
