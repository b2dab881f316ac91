import ArithSyntax.Parser.Result
import ArithSyntax.Proofs.Climb.Parsers
import ArithSyntax.Proofs.Grammar.Climbing

/-!
# What the tables are to blame for

A failure that is no parse error is a fault of the setup, and so is the parse error for an operator
that the tables do not know. Under a minimum that is not negative, each of these goes back to an
entry of the tables that does not suit its kind, or to a missing entry (`Parses.blamable`). The one
way to run out of tokens in search of an operator is a negative minimum, and no handler asks for
one: the minimum below an operator's own power is at least zero, since operators bind.

So tables whose entries suit their kinds let nothing but parse errors out
(`parse_faults`).
-/

set_option autoImplicit false

namespace ArithSyntax

/-! ## Suitable entries -/

/-- The kinds that a way to start an operand can serve. -/
def OperandHandler.Suits (k : Kind) : OperandHandler → Prop
  | number => True
  | sign => k = .plus ∨ k = .minus
  | group => True

/-- The kinds that a way to go on after an operand can serve. -/
def OperatorHandler.Suits (k : Kind) : OperatorHandler → Prop
  | leftInfix => k ∈ [Kind.plus, .minus, .star, .slash, .caret]
  | rightInfix => k ∈ [Kind.plus, .minus, .star, .slash, .caret]
  | postfixed => k = .bang

/-- Every entry suits its kind. After an operand, only the entries of the kinds that bind count. -/
structure Tables.Compatible (tables : Tables) : Prop where
  operand : ∀ k handler, tables.operand k = some handler → handler.Suits k
  infixed : ∀ k handler, 0 < k.power → tables.infixed k = some handler → handler.Suits k
  postfixed : ∀ k handler, 0 < k.power → tables.postfixed k = some handler → handler.Suits k

theorem Tables.standard_compatible : standard.Compatible where
  operand k handler h := by
    cases k <;> cases h <;> first | trivial | exact Or.inl rfl | exact Or.inr rfl
  infixed k handler _ h := by
    cases k <;> cases h <;> simp [OperatorHandler.Suits]
  postfixed k handler _ h := by
    cases k <;> cases h
    rfl

theorem Tables.Compatible.operator {tables : Tables} (h : tables.Compatible) {k : Kind}
    {handler : OperatorHandler} (hk : 0 < k.power) (ht : tables.operator k = some handler) :
    handler.Suits k := by
  cases hi : tables.infixed k with
  | some found =>
    rw [Tables.operator, hi] at ht
    cases ht
    exact h.infixed k handler hk hi
  | none =>
    rw [Tables.operator, hi] at ht
    exact h.postfixed k handler hk ht

/-- What a changed table holds was put there or was there before. -/
theorem Tables.entry_eq_some {α : Type} {table : Kind → Option α} {k k' : Kind} {new : Option α}
    {x : α} (h : entry table k new k' = some x) : k' = k ∧ new = some x ∨ table k' = some x := by
  unfold entry at h
  split at h
  · next hk => exact Or.inl ⟨hk, h⟩
  · exact Or.inr h

theorem Tables.Compatible.setOperand {tables : Tables} (h : tables.Compatible) {k : Kind}
    {new : Option OperandHandler} (hnew : ∀ handler, new = some handler → handler.Suits k) :
    (tables.setOperand k new).Compatible where
  operand k' handler ht := by
    rcases entry_eq_some ht with ⟨rfl, hput⟩ | hold
    · exact hnew handler hput
    · exact h.operand k' handler hold
  infixed := h.infixed
  postfixed := h.postfixed

theorem Tables.Compatible.setInfixed {tables : Tables} (h : tables.Compatible) {k : Kind}
    {new : Option OperatorHandler} (hnew : ∀ handler, new = some handler → handler.Suits k) :
    (tables.setInfixed k new).Compatible where
  operand := h.operand
  infixed k' handler hpos ht := by
    rcases entry_eq_some ht with ⟨rfl, hput⟩ | hold
    · exact hnew handler hput
    · exact h.infixed k' handler hpos hold
  postfixed := h.postfixed

/-! ## Handlers that suit build a node -/

section Handlers

variable {k : Kind} {op : String}

theorem applyPrefix_of_suits (hk : OperandHandler.sign.Suits k) (hl : k.lexeme? = some op)
    (x : Expr) : ∃ tree, Expr.applyPrefix op x = .ok tree := by
  rcases hk with rfl | rfl
  · cases hl
    exact ⟨_, Expr.applyPrefix_symbol .pos x⟩
  · cases hl
    exact ⟨_, Expr.applyPrefix_symbol .neg x⟩

theorem applyInfix_of_suits {handler : OperatorHandler} {m : Int} (hk : handler.Suits k)
    (hl : k.lexeme? = some op) (hm : handler.rightMin? op = some m) (l r : Expr) :
    ∃ tree, Expr.applyInfix op l r = .ok tree := by
  have hmem : k ∈ [Kind.plus, .minus, .star, .slash, .caret] := by
    cases handler with
    | leftInfix => exact hk
    | rightInfix => exact hk
    | postfixed => cases hm
  simp only [List.mem_cons, List.not_mem_nil, or_false] at hmem
  rcases hmem with rfl | rfl | rfl | rfl | rfl <;> cases hl
  · exact ⟨_, Expr.applyInfix_symbol .add l r⟩
  · exact ⟨_, Expr.applyInfix_symbol .sub l r⟩
  · exact ⟨_, Expr.applyInfix_symbol .mul l r⟩
  · exact ⟨_, Expr.applyInfix_symbol .div l r⟩
  · exact ⟨_, Expr.applyInfix_symbol .pow l r⟩

theorem applyPostfix_of_suits (hk : OperatorHandler.postfixed.Suits k) (hl : k.lexeme? = some op)
    (x : Expr) : ∃ tree, Expr.applyPostfix op x = .ok tree := by
  cases hk
  cases hl
  exact ⟨_, Expr.applyPostfix_symbol .factorial x⟩

theorem not_suits_of_lexeme?_eq_none (hl : k.lexeme? = none) : ¬ OperandHandler.sign.Suits k := by
  rintro (rfl | rfl) <;> cases hl

end Handlers

/-! ## Where a failure comes from -/

/-- The tables hold an entry that does not suit its kind, and that comes to be used. -/
def Tables.Unsuited (tables : Tables) : Prop :=
  (∃ k handler, tables.operand k = some handler ∧ ¬ handler.Suits k) ∨
    ∃ k handler, 0 < k.power ∧ tables.operator k = some handler ∧ ¬ handler.Suits k

theorem Tables.Compatible.not_unsuited {tables : Tables} (h : tables.Compatible) :
    ¬ tables.Unsuited := by
  rintro (⟨k, handler, ht, hk⟩ | ⟨k, handler, hpos, ht, hk⟩)
  · exact hk (h.operand k handler ht)
  · exact hk (h.operator hpos ht)

/-- The tables admit this failure, if no minimum is negative: the setup is at fault only where an
entry is unsuited, and an operator is unknown only where it has no entry. -/
def Tables.Admits (tables : Tables) : Failure → Prop
  | .parsing (.unexpectedInfix t) => 0 < t.kind.power ∧ tables.operator t.kind = none
  | .parsing _ => True
  | .noLexeme _ => tables.Unsuited
  | .operator _ => tables.Unsuited
  | .noLookahead => False

variable {tables : Tables} {limit : Int}

/-- What a derivation says about its failure. Minima must not be negative, and a handler is run for
a kind that the tables give it to. -/
def Blamable (tables : Tables) : Task → Except Failure Expr → Prop
  | .expression min, out => 0 ≤ min → ∀ e, out = .error e → tables.Admits e
  | .operand handler t, out => tables.operand t.kind = some handler →
      ∀ e, out = .error e → tables.Admits e
  | .operators min _, out => 0 ≤ min → ∀ e, out = .error e → tables.Admits e
  | .operator handler _ t, out => 0 < t.kind.power → tables.operator t.kind = some handler →
      ∀ e, out = .error e → tables.Admits e

/-- A node that cannot be built is the fault of the entry that wanted it. -/
theorem admits_of_applied {built : Except OperatorError Expr} {e : Failure}
    (h : applied built = .error e) (hunsuited : (∀ tree, built ≠ .ok tree) → tables.Unsuited) :
    tables.Admits e := by
  cases built with
  | ok tree => cases h
  | error fault =>
    cases h
    exact hunsuited fun tree htree => by cases htree

/-- No handler of an operator that binds asks for a negative minimum. -/
theorem rightMin_nonneg {handler : OperatorHandler} {t : Token} {op : String} {m : Int}
    (hpos : 0 < t.kind.power) (hl : t.kind.lexeme? = some op)
    (hm : handler.rightMin? op = some m) : 0 ≤ m := by
  have hpower : t.kind.power = bindingPower op := by
    rw [Kind.power, hl]
    rfl
  rw [hpower] at hpos
  cases handler with
  | leftInfix =>
    cases hm
    exact Int.natCast_nonneg _
  | rightInfix =>
    -- One below the operator's own power, which is positive.
    cases hm
    omega
  | postfixed => cases hm

/-- The tables admit every failure that occurs. -/
theorem Parses.blamable {task : Task} {d : Nat} {ts rest : List Token} {out : Except Failure Expr}
    (h : Parses tables limit task d ts out rest) : Blamable tables task out := by
  induction h with
  | tooDeep h => rintro - e ⟨⟩; trivial
  | exhausted h => rintro - e ⟨⟩; trivial
  | noOperand h ht => rintro - e ⟨⟩; trivial
  | operandFails h ht hop ih => exact fun _ => ih ht
  | expression h ht hop hfold ihop ihfold => exact ihfold
  | number hn => rintro - e ⟨⟩
  | badNumber hn => rintro - e ⟨⟩; trivial
  | signNoLexeme hl =>
    rintro ht e ⟨⟩
    exact Or.inl ⟨_, _, ht, not_suits_of_lexeme?_eq_none hl⟩
  | signFails hl hx ih => exact fun _ => ih (Int.natCast_nonneg _)
  | @sign _ t _ _ op x hl hx ih =>
    intro ht e he
    -- If the entry suited its kind, the node would have been built.
    refine admits_of_applied he fun hnot => Or.inl ⟨t.kind, .sign, ht, fun hk => ?_⟩
    obtain ⟨tree, htree⟩ := applyPrefix_of_suits hk hl x
    exact hnot tree htree
  | groupFails hx ih => exact fun _ => ih (Int.le_refl 0)
  | group hx hclose ih => rintro - e ⟨⟩
  | groupOpen hx hclose ih => rintro - e ⟨⟩; trivial
  | stop h => rintro - e ⟨⟩
  | noLookahead h =>
    -- The one rule for this failure asks for a negative minimum.
    exact fun hmin => absurd h (Int.not_lt.2 hmin)
  | noOperator h ht =>
    rintro hmin e ⟨⟩
    exact ⟨by omega, ht⟩
  | operatorFails h ht hop ih => exact fun hmin => ih (by omega) ht
  | operators h ht hop hfold ihop ihfold => exact ihfold
  | operatorNoLexeme hl =>
    -- Only kinds that bind come to an operator handler, and these have a lexeme.
    intro hpos
    rw [Kind.power_pos_iff, hl] at hpos
    cases hpos
  | infixFails hl hm hx ih => exact fun hpos _ => ih (rightMin_nonneg hpos hl hm)
  | @infixed handler left right _ t _ _ op m hl hm hx ih =>
    intro hpos ht e he
    refine admits_of_applied he fun hnot => Or.inr ⟨t.kind, handler, hpos, ht, fun hk => ?_⟩
    obtain ⟨tree, htree⟩ := applyInfix_of_suits hk hl hm left right
    exact hnot tree htree
  | @postfixed left _ t _ op hl =>
    intro hpos ht e he
    refine admits_of_applied he fun hnot => Or.inr ⟨t.kind, .postfixed, hpos, ht, fun hk => ?_⟩
    obtain ⟨tree, htree⟩ := applyPostfix_of_suits hk hl left
    exact hnot tree htree

/-! ## Parsers -/

section Parsers

variable {p q : Parser} {min : Int} {e : Failure}

theorem admits_of_parse (hmin : 0 ≤ min) (h : p.parse min = .error e q) : p.tables.Admits e := by
  have hparses : Parses p.tables p.limit (.expression min) p.depth p.stream.unread (.error e)
      q.stream.unread := .of_parse h
  exact hparses.blamable hmin e rfl

theorem admits_of_parseExpression (h : p.parseExpression = .error e q) : p.tables.Admits e := by
  have hend : p.parseExpression = endsWith (.error e) q := h
  obtain ⟨out, rest, hparses, hfinished⟩ := Parses.of_parseExpression hend
  cases out with
  | error e' =>
    cases hfinished
    exact hparses.blamable (Int.le_refl 0) e rfl
  | ok tree =>
    -- The expression itself was read, so the failure is the token after it.
    cases rest with
    | nil => cases hfinished
    | cons t rest =>
      rw [finished_cons] at hfinished
      split at hfinished
      · cases hfinished
      · cases hfinished
        trivial

theorem Tables.Compatible.exists_parsing (h : p.tables.Compatible) (he : p.tables.Admits e) :
    ∃ fault, e = .parsing fault := by
  cases e with
  | parsing fault => exact ⟨fault, rfl⟩
  | noLexeme k => exact absurd he h.not_unsuited
  | operator fault => exact absurd he h.not_unsuited
  | noLookahead => exact he.elim

/-- The standard tables know every operator that binds. -/
theorem not_admits_unexpectedInfix (t : Token) :
    ¬ Tables.standard.Admits (.parsing (.unexpectedInfix t)) := by
  rintro ⟨hpos, hnone⟩
  have hsome := (Tables.standard_operator_isSome_iff t.kind).2 hpos
  rw [hnone] at hsome
  cases hsome

/-- A parse result keeps a parse error and lets every other failure through. -/
theorem parseResult_cases (p : Parser) :
    (∃ tree q, p.parseExpression = .ok tree q ∧ p.parseResult = .ok ⟨some tree, none⟩ q) ∨
      (∃ fault q, p.parseExpression = .error (.parsing fault) q ∧
        p.parseResult = .ok ⟨none, some fault⟩ q) ∨
      ∃ e q, p.parseExpression = .error e q ∧ (∀ fault, e ≠ .parsing fault) ∧
        p.parseResult = .error e q := by
  unfold Parser.parseResult
  cases h : p.parseExpression with
  | ok tree q => exact Or.inl ⟨tree, q, rfl, rfl⟩
  | error e q =>
    cases e with
    | parsing fault => exact Or.inr (Or.inl ⟨fault, q, rfl, rfl⟩)
    | noLexeme k => exact Or.inr (Or.inr ⟨_, q, rfl, (fun fault h => by cases h), rfl⟩)
    | operator e => exact Or.inr (Or.inr ⟨_, q, rfl, (fun fault h => by cases h), rfl⟩)
    | noLookahead => exact Or.inr (Or.inr ⟨_, q, rfl, (fun fault h => by cases h), rfl⟩)

/-- The error of a parse result is that of the expression. -/
theorem parseExpression_of_result {r : ParseResult ParseError} {fault : ParseError}
    (h : p.parseResult = .ok r q) (hfault : r.error = some fault) :
    p.parseExpression = .error (.parsing fault) q := by
  rcases parseResult_cases p with ⟨tree, q', -, hr⟩ | ⟨fault', q', hp, hr⟩ | ⟨e, q', -, -, hr⟩
  · rw [hr] at h
    cases h
    cases hfault
  · rw [hr] at h
    cases h
    cases hfault
    exact hp
  · rw [hr] at h
    cases h

/-- A failure that is let through is that of the expression. -/
theorem parseExpression_of_failure (h : p.parseResult = .error e q) :
    p.parseExpression = .error e q := by
  rcases parseResult_cases p with ⟨tree, q', -, hr⟩ | ⟨fault, q', -, hr⟩ | ⟨e', q', hp, -, hr⟩
  · rw [hr] at h
    cases h
  · rw [hr] at h
    cases h
  · rw [hr] at h
    cases h
    exact hp

/-- With suitable entries, an expression is read or there is a parse error. -/
theorem parse_of_compatible (h : p.tables.Compatible) (hmin : 0 ≤ min) :
    (∃ tree q, p.parse min = .ok tree q) ∨ ∃ fault q, p.parse min = .error (.parsing fault) q := by
  cases hp : p.parse min with
  | ok tree q => exact Or.inl ⟨tree, q, rfl⟩
  | error e q =>
    obtain ⟨fault, rfl⟩ := h.exists_parsing (admits_of_parse hmin hp)
    exact Or.inr ⟨fault, q, rfl⟩

/-- With suitable entries there always is a parse result, of a tree or of an error and not of
both. -/
theorem parseResult_of_compatible (h : p.tables.Compatible) :
    ∃ r q, p.parseResult = .ok r q ∧ (r.tree.isSome ↔ r.error = none) ∧
      r.unwrap ≠ .error .empty := by
  rcases parseResult_cases p with ⟨tree, q, -, hr⟩ | ⟨fault, q, -, hr⟩ | ⟨e, q, he, hnot, -⟩
  · exact ⟨_, q, hr, by simp, fun hu => by cases hu⟩
  · exact ⟨_, q, hr, by simp, fun hu => by cases hu⟩
  · obtain ⟨fault, rfl⟩ := h.exists_parsing (admits_of_parseExpression he)
    exact absurd rfl (hnot fault)

end Parsers

/-- Only parse errors leave a parser whose tables hold suitable entries, as the standard tables do.
Whatever the tokens, the place in them, the limit and the depth are, and under every minimum that is
not negative: an expression is read or there is a parse error; there always is a parse result,
which is of a tree or of an error and not of both, so it never lacks what it is asked for. With the
standard tables the parse error is never that an operator is unknown. And whatever the tables are,
tokens never run out where an operator is due. -/
theorem parse_faults (p : Parser) {min : Int} (hmin : 0 ≤ min) :
    Tables.standard.Compatible ∧
    (p.tables.Compatible →
      ((∃ tree q, p.parse min = .ok tree q) ∨
        ∃ fault q, p.parse min = .error (.parsing fault) q) ∧
      ∃ r q, p.parseResult = .ok r q ∧ (r.tree.isSome ↔ r.error = none) ∧
        r.unwrap ≠ .error .empty) ∧
    (p.tables = .standard → ∀ (t : Token) (q : Parser),
      p.parse min ≠ .error (.parsing (.unexpectedInfix t)) q ∧
      p.parseExpression ≠ .error (.parsing (.unexpectedInfix t)) q ∧
      ∀ r, p.parseResult = .ok r q → r.error ≠ some (.unexpectedInfix t)) ∧
    ∀ q : Parser, p.parse min ≠ .error .noLookahead q ∧
      p.parseExpression ≠ .error .noLookahead q ∧ p.parseResult ≠ .error .noLookahead q := by
  refine ⟨Tables.standard_compatible, fun h => ?_, fun hstandard t q => ?_, fun q => ?_⟩
  · exact ⟨parse_of_compatible h hmin, parseResult_of_compatible h⟩
  · have hnot : ¬ p.tables.Admits (.parsing (.unexpectedInfix t)) := by
      rw [hstandard]
      exact not_admits_unexpectedInfix t
    refine ⟨fun hp => hnot (admits_of_parse hmin hp),
      fun hp => hnot (admits_of_parseExpression hp), fun r hr hfault => ?_⟩
    exact hnot (admits_of_parseExpression (parseExpression_of_result hr hfault))
  · refine ⟨fun hp => admits_of_parse hmin hp, fun hp => admits_of_parseExpression hp, fun hr => ?_⟩
    exact admits_of_parseExpression (parseExpression_of_failure hr)

/-- A parser of `!1-2` for which `!` opens a group and `-` joins no operands. -/
def openedByBang : Parser where
  stream := {
    tokens := [⟨.bang, "!", ⟨1, 1⟩⟩, ⟨.number, "1", ⟨1, 2⟩⟩, ⟨.minus, "-", ⟨1, 3⟩⟩,
      ⟨.number, "2", ⟨1, 4⟩⟩, ⟨.eof, "", ⟨1, 5⟩⟩]
    position := 0
    endsWithEof := by decide
    position_le := by decide }
  tables := (Tables.standard.setOperand .bang (some .group)).setInfixed .minus none
  limit := 256
  depth := 0

/-- The entries of `openedByBang` suit their kinds, so it keeps its failure as a parse result: the
sign binds, but there is no entry for it. With the standard tables that is not what fails. -/
theorem parseResult_openedByBang :
    openedByBang.tables.Compatible ∧
      (∃ r q, openedByBang.parseResult = .ok r q ∧ (r.tree.isSome ↔ r.error = none) ∧
        r.unwrap ≠ .error .empty) ∧
      (outcome openedByBang.parseResult =
        .ok ⟨none, some (.unexpectedInfix ⟨.minus, "-", ⟨1, 3⟩⟩)⟩) ∧
      ∀ t q, { openedByBang with tables := .standard }.parse 0 ≠
        .error (.parsing (.unexpectedInfix t)) q := by
  have hcompatible : openedByBang.tables.Compatible := by
    apply Tables.Compatible.setInfixed
    · apply Tables.standard_compatible.setOperand
      rintro handler ⟨⟩
      trivial
    · rintro handler ⟨⟩
  exact ⟨hcompatible, ((parse_faults openedByBang (Int.le_refl 0)).2.1 hcompatible).2, rfl,
    fun t q => ((parse_faults { openedByBang with tables := .standard }
      (Int.le_refl 0)).2.2.1 rfl t q).1⟩

end ArithSyntax
