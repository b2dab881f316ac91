import ArithSyntax.Proofs.Climb.Faults

/-!
# Parse errors name the token read last

Five places raise a parse error, before or after the limit is checked, and nothing is read once one
is raised. So the token that the error names is the last that was read, and what is left are the
tokens behind it (`Parses.namesLast`). Only where the tokens have run out does an error name none.

The one exception is the error for a token after a complete expression: that token is looked at and
stays unread (`parseError_namesRead`).
-/

set_option autoImplicit false

namespace ArithSyntax

/-! ## Errors of the readers -/

/-- The parse errors that name no token. -/
def ParseError.AtEnd (limit : Int) (e : ParseError) : Prop :=
  e = .unexpectedPrefix none ∨ e = .depthExceeded limit none ∨ e = .unbalanced none

/-- Of the tokens `ts` all but `rest` are read, and the error names the last of them, or it names
none and all are read. -/
inductive NamesLast (limit : Int) (e : ParseError) (ts rest : List Token) : Prop
  | read {t : Token} (he : e.token? = some t) (ht : t :: rest <:+ ts)
      (hinner : ∀ u, e ≠ .trailing u)
  | exhausted (he : e.AtEnd limit) (hrest : rest = [])

/-- Tokens in front that were read earlier make no difference. -/
theorem NamesLast.suffix {limit : Int} {e : ParseError} {ts ts' rest : List Token}
    (h : NamesLast limit e ts rest) (hts : ts <:+ ts') : NamesLast limit e ts' rest := by
  cases h with
  | read he ht hinner => exact .read he (ht.trans hts) hinner
  | exhausted he hrest => exact .exhausted he hrest

theorem NamesLast.cons {limit : Int} {e : ParseError} {ts rest : List Token}
    (h : NamesLast limit e ts rest) (t : Token) : NamesLast limit e (t :: ts) rest :=
  h.suffix (List.suffix_cons t ts)

theorem ParseError.AtEnd.ne_trailing {limit : Int} {e : ParseError} (h : e.AtEnd limit) (t : Token) :
    e ≠ .trailing t := by
  rintro rfl
  rcases h with h | h | h <;> cases h

/-- A reader that refuses the next token, whatever it is, has read it. -/
theorem namesLast_tail {limit : Int} (refusal : Option Token → ParseError)
    (hnamed : ∀ t?, (refusal t?).token? = t?) (hend : (refusal none).AtEnd limit)
    (hinner : ∀ t? u, refusal t? ≠ .trailing u) (ts : List Token) :
    NamesLast limit (refusal ts.head?) ts ts.tail := by
  cases ts with
  | nil => exact .exhausted hend rfl
  | cons t ts => exact .read (hnamed (some t)) (List.suffix_refl _) (hinner (some t))

theorem namesLast_depthExceeded (limit : Int) (ts : List Token) :
    NamesLast limit (.depthExceeded limit ts.head?) ts ts.tail := by
  apply namesLast_tail (.depthExceeded limit)
  · intro t?
    rfl
  · exact Or.inr (Or.inl rfl)
  · intro t? u h
    cases h

theorem namesLast_unexpectedPrefix (limit : Int) (ts : List Token) :
    NamesLast limit (.unexpectedPrefix ts.head?) ts ts.tail := by
  apply namesLast_tail .unexpectedPrefix
  · intro t?
    rfl
  · exact Or.inl rfl
  · intro t? u h
    cases h

theorem namesLast_unbalanced (limit : Int) (ts : List Token) :
    NamesLast limit (.unbalanced ts.head?) ts ts.tail := by
  apply namesLast_tail .unbalanced
  · intro t?
    rfl
  · exact Or.inr (Or.inr rfl)
  · intro t? u h
    cases h

/-- A node that cannot be built is no matter of the tokens. -/
theorem applied_ne_parsing (tree : Except OperatorError Expr) (e : ParseError) :
    applied tree ≠ .error (.parsing e) := by
  cases tree with
  | ok tree => intro h; cases h
  | error fault => intro h; cases h

variable {tables : Tables} {limit : Int}

/-- Whatever is to be read, a parse error names the token read last. A reader that was given a token
may name that token, so it counts as the first. -/
theorem Parses.namesLast {task : Task} {d : Nat} {ts rest : List Token} {out : Except Failure Expr}
    (h : Parses tables limit task d ts out rest) {e : ParseError}
    (he : out = .error (.parsing e)) : NamesLast limit e (task.tokens ts) rest := by
  induction h with
  | tooDeep h =>
    -- The limit is checked after the token was read.
    cases he
    exact namesLast_depthExceeded limit _
  | exhausted h =>
    cases he
    exact namesLast_unexpectedPrefix limit []
  | @noOperand min d t ts h ht =>
    cases he
    exact namesLast_unexpectedPrefix limit (t :: ts)
  | operandFails h ht hop ih => exact ih he
  | expression h ht hop hfold ihop ihfold => exact ((ihfold he).suffix hop.suffix).cons _
  | number hn => cases he
  | badNumber hn =>
    -- The text that is refused is that of the token the reader was given.
    cases he
    exact .read rfl (List.suffix_refl _) fun u hu => by cases hu
  | signNoLexeme hl => cases he
  | signFails hl hx ih => exact (ih he).cons _
  | sign hl hx ih => exact absurd he (applied_ne_parsing _ e)
  | groupFails hx ih => exact (ih he).cons _
  | group hx hclose ih => cases he
  | @groupOpen d t ts mid x hx hclose ih =>
    -- The token in the place of the parenthesis is read, whatever it is.
    cases he
    exact ((namesLast_unbalanced limit mid).suffix hx.suffix).cons t
  | stop h => cases he
  | noLookahead h => cases he
  | noOperator h ht =>
    cases he
    exact .read rfl (List.suffix_refl _) fun u hu => by cases hu
  | operatorFails h ht hop ih => exact ih he
  | operators h ht hop hfold ihop ihfold => exact ((ihfold he).suffix hop.suffix).cons _
  | operatorNoLexeme hl => cases he
  | infixFails hl hm hx ih => exact (ih he).cons _
  | infixed hl hm hx ih => exact absurd he (applied_ne_parsing _ e)
  | postfixed hl => exact absurd he (applied_ne_parsing _ e)

/-! ## Parsers -/

/-- On its way from `p` to `q` the parser has read tokens, of which the error names the last, the one
before the place of `q`; or the error names none, and the place of `q` is the end of the tokens. -/
def NamesRead (p q : Parser) (e : ParseError) : Prop :=
  (∃ t, e.token? = some t ∧ p.stream.position < q.stream.position ∧
    p.stream.tokens[q.stream.position - 1]? = some t) ∨
  (e.token? = none ∧ q.stream.position = p.stream.tokens.length ∧ e.AtEnd p.limit)

/-- On its way from `p` to `q` the parser has come to a token that is no end token. The error names
that token, which stays unread. -/
def NamesUnread (p q : Parser) (e : ParseError) : Prop :=
  ∃ t, e = .trailing t ∧ t.kind ≠ .eof ∧ p.stream.tokens[q.stream.position]? = some t

/-- The token in front of the place to which a stream is taken. -/
theorem TokenStream.getElem?_resume {s : TokenStream} {t : Token} {rest : List Token}
    (h : t :: rest <:+ s.unread) : s.position < (s.resume rest).position ∧
      s.tokens[(s.resume rest).position - 1]? = some t := by
  obtain ⟨front, hfront⟩ := h
  have hread : s.unread = (front ++ [t]) ++ rest := by simp [← hfront]
  have hpos := position_resume hread
  rw [List.length_append, List.length_singleton] at hpos
  refine ⟨by omega, ?_⟩
  have hindex : (s.resume rest).position - 1 = s.position + front.length := by omega
  rw [hindex, ← List.getElem?_drop]
  show s.unread[front.length]? = some t
  rw [← hfront]
  simp

theorem ParseError.AtEnd.token?_eq {limit : Int} {e : ParseError} (h : e.AtEnd limit) :
    e.token? = none := by
  rcases h with rfl | rfl | rfl <;> rfl

section Parsers

variable {p q : Parser} {e : ParseError}

/-- Where a reader names the last of the tokens, its parser does. -/
theorem NamesLast.namesRead {rest : List Token}
    (h : NamesLast p.limit e p.stream.unread rest) :
    NamesRead p { p with stream := p.stream.resume rest } e := by
  cases h with
  | @read t he ht hinner =>
    obtain ⟨hlt, hget⟩ := TokenStream.getElem?_resume ht
    exact Or.inl ⟨t, he, hlt, hget⟩
  | exhausted he hrest =>
    subst hrest
    exact Or.inr ⟨he.token?_eq, Nat.sub_zero _, he⟩

theorem namesRead_of_parse {min : Int} (h : p.parse min = .error (.parsing e) q) :
    NamesRead p q e ∧ ∀ t, e ≠ .trailing t := by
  have hend : p.parse min = endsWith (.error (.parsing e)) q := h
  obtain ⟨rest, hparses, rfl⟩ := Parses.exists_of_parse hend
  have hlast : NamesLast p.limit e p.stream.unread rest := hparses.namesLast rfl
  refine ⟨hlast.namesRead, ?_⟩
  cases hlast with
  | read he ht hinner => exact hinner
  | exhausted he hrest => exact he.ne_trailing

/-- A whole expression fails where the expression does, or at the token after it. -/
theorem names_of_parseExpression (h : p.parseExpression = .error (.parsing e) q) :
    (NamesRead p q e ∧ ∀ t, e ≠ .trailing t) ∨ NamesUnread p q e := by
  have hend : p.parseExpression = endsWith (.error (.parsing e)) q := h
  obtain ⟨out, rest, hparses, -⟩ :=
    exists_parses p.tables p.limit (.expression 0) p.depth p.stream.unread
  obtain ⟨hout, rfl⟩ := endsWith_inj (hend.symm.trans hparses.parseExpression)
  cases out with
  | error fault =>
    cases hout
    have hparse : p.parse 0 = .error (.parsing e)
        { p with stream := p.stream.resume rest } := hparses.parse
    exact Or.inl (namesRead_of_parse hparse)
  | ok tree =>
    cases rest with
    | nil => cases hout
    | cons t rest =>
      rw [finished_cons] at hout
      split at hout
      · cases hout
      · next heof =>
        cases hout
        exact Or.inr ⟨t, rfl, heof, hparses.getElem?_resume⟩

end Parsers

/-- A parse error names the token that was read last. Whatever the tables, the tokens, the place in
them, the minimum and the limit are: after an expression failed, the named token is the one before
the place where the parser stands, and it has moved on to there; or no token is named, the tokens
are all read, and the error is one of three. So it is with a whole expression and with the error of
a parse result, except that the error for a token after the expression names the next token, which
is no end token and stays unread. Where an error reports a kind, it is that of the token it names. -/
theorem parseError_namesRead (p q : Parser) (min : Int) (e : ParseError) :
    (p.parse min = .error (.parsing e) q → NamesRead p q e ∧ ∀ t, e ≠ .trailing t) ∧
    (p.parseExpression = .error (.parsing e) q →
      (NamesRead p q e ∧ ∀ t, e ≠ .trailing t) ∨ NamesUnread p q e) ∧
    (∀ r, p.parseResult = .ok r q → r.error = some e →
      (NamesRead p q e ∧ ∀ t, e ≠ .trailing t) ∨ NamesUnread p q e) ∧
    ∀ k?, e.kind? = some k? → k? = e.token?.map Token.kind := by
  refine ⟨namesRead_of_parse, names_of_parseExpression, ?_, ?_⟩
  · intro r hr he
    exact names_of_parseExpression (parseExpression_of_result hr he)
  · intro k? hk
    cases e <;> cases hk <;> rfl

/-- A parser of an opening parenthesis and an end token for which the end token is a number. -/
def endingInNumber : Parser where
  stream := {
    tokens := [⟨.lparen, "(", ⟨1, 1⟩⟩, ⟨.eof, "7", ⟨1, 2⟩⟩]
    position := 0
    endsWithEof := by decide
    position_le := by decide }
  tables := Tables.standard.setOperand .eof (some .number)
  limit := 256
  depth := 0

/-- In the group of `endingInNumber` the end token is read as an operand, so no token is left that
the error could name. With the standard tables the end token is what the error names. -/
theorem namesRead_endingInNumber :
    (∃ q, endingInNumber.parse 0 = .error (.parsing (.unbalanced none)) q ∧
      NamesRead endingInNumber q (.unbalanced none)) ∧
    ∃ e q, { endingInNumber with tables := .standard }.parseResult = .ok ⟨none, some e⟩ q ∧
      ((NamesRead { endingInNumber with tables := .standard } q e ∧ ∀ t, e ≠ .trailing t) ∨
        NamesUnread { endingInNumber with tables := .standard } q e) ∧
      e.kind? = some (some .eof) ∧ some .eof = e.token?.map Token.kind := by
  let e : ParseError := .unexpectedPrefix (some ⟨.eof, "7", ⟨1, 2⟩⟩)
  have hkind : e.kind? = some (some .eof) := rfl
  refine ⟨⟨_, rfl, ?_⟩, e, _, rfl, ?_, hkind, ?_⟩
  · exact ((parseError_namesRead endingInNumber _ 0 _).1 rfl).1
  · exact (parseError_namesRead { endingInNumber with tables := .standard } _ 0 e).2.2.1 _ rfl rfl
  · exact (parseError_namesRead endingInNumber endingInNumber 0 e).2.2.2 _ hkind

end ArithSyntax
