import ArithSyntax.Proofs.Climb.DepthLimit
import ArithSyntax.Proofs.Grammar.Climbing
import ArithSyntax.Proofs.Scanner.Machine

/-!
# The parser accepts what the scanner accepts

With the standard tables and a limit that the tokens cannot exceed, a whole expression is accepted
exactly where the scanner accepts, and otherwise the error is of the scanner's class and carries the
token at which the scanner stopped (`parseExpression_scan`). So no choice of a minimum anywhere in
an expression decides whether, or at which token, it is refused.

What carries the induction is `Follows`: for any number of open groups, a reader that succeeds takes
the scanner to the tokens that it leaves, and a reader that fails stops the scanner at the token at
fault.
-/

set_option autoImplicit false

namespace ArithSyntax

/-! ## Single tokens -/

/-- The literals that can be read are the numerals. -/
theorem numeral_iff_read {text : List Char} :
    Numeral text ↔ ∃ n, Literal.read text = .ok n := by
  have hdigit : ∀ c : Char, c.isDigit = ('0' ≤ c && c ≤ '9') := by
    intro c
    simp [Char.isDigit, Char.le_def]
  simp only [Numeral, Literal.read_eq_ok_iff, List.all_eq_true, hdigit]
  constructor
  · rintro ⟨hpos, hlen, hall⟩
    exact ⟨_, List.ne_nil_of_length_pos hpos, hall, hlen, rfl⟩
  · rintro ⟨n, hne, hall, hlen, -⟩
    exact ⟨List.length_pos_iff.2 hne, hlen, hall⟩

namespace Scanner

variable {t : Token}

theorem scan_number {n : Nat} (ht : Tables.standard.operand t.kind = some .number)
    (hn : Literal.read t.text.toList = .ok n) (k : Nat) (ts : List Token) :
    (Scanner.mk .operand k).scan (t :: ts) = (Scanner.mk .operator k).scan ts := by
  have hnumeral : Numeral t.text.toList := numeral_iff_read.2 ⟨n, hn⟩
  apply scan_goesOn
  simp [step, stepOperand, Tables.kind_of_standard_number ht, hnumeral]

theorem scan_badNumber {r : Literal.Refusal} (ht : Tables.standard.operand t.kind = some .number)
    (hr : Literal.read t.text.toList = .error r) (k : Nat) (ts : List Token) :
    (Scanner.mk .operand k).scan (t :: ts) = ⟨some .malformedNumber, t :: ts⟩ := by
  have hnumeral : ¬ Numeral t.text.toList := by
    intro h
    obtain ⟨n, hn⟩ := numeral_iff_read.1 h
    rw [hr] at hn
    cases hn
  apply scan_stops
  simp [step, stepOperand, Tables.kind_of_standard_number ht, hnumeral]

theorem scan_sign (ht : Tables.standard.operand t.kind = some .sign) (k : Nat)
    (ts : List Token) :
    (Scanner.mk .operand k).scan (t :: ts) = (Scanner.mk .operand k).scan ts := by
  obtain ⟨op, hk⟩ := Tables.kind_of_standard_sign ht
  apply scan_goesOn
  cases op <;> simp [step, stepOperand, hk, PrefixOp.kind]

/-- Inside of a group one more group is open. -/
theorem scan_lparen (ht : Tables.standard.operand t.kind = some .group) (k : Nat)
    (ts : List Token) :
    (Scanner.mk .operand k).scan (t :: ts) = (Scanner.mk .operand (k + 1)).scan ts := by
  apply scan_goesOn
  simp [step, stepOperand, Tables.kind_of_standard_group ht]

/-- A token that starts no operand is refused where an operand is due. -/
theorem scan_noOperand (ht : Tables.standard.operand t.kind = none) (k : Nat)
    (ts : List Token) :
    (Scanner.mk .operand k).scan (t :: ts) = ⟨some .unexpectedPrefix, t :: ts⟩ := by
  apply scan_stops
  cases hkind : t.kind <;> rw [hkind] at ht <;> simp [step, stepOperand, hkind] <;> cases ht

theorem scan_binary {op : InfixOp} (ht : t.kind = op.kind) (k : Nat) (ts : List Token) :
    (Scanner.mk .operator k).scan (t :: ts) = (Scanner.mk .operand k).scan ts := by
  apply scan_goesOn
  cases op <;> simp [step, stepOperator, ht, InfixOp.kind]

theorem scan_postfixed {op : PostfixOp} (ht : t.kind = op.kind) (k : Nat) (ts : List Token) :
    (Scanner.mk .operator k).scan (t :: ts) = (Scanner.mk .operator k).scan ts := by
  apply scan_goesOn
  cases op
  simp [step, stepOperator, ht, PostfixOp.kind]

/-- A closing parenthesis closes one of the open groups. -/
theorem scan_rparen (ht : t.kind = .rparen) (k : Nat) (ts : List Token) :
    (Scanner.mk .operator (k + 1)).scan (t :: ts) = (Scanner.mk .operator k).scan ts := by
  apply scan_goesOn
  simp [step, stepOperator, ht]

/-- Inside of a group, a token that neither binds nor closes the group is refused. -/
theorem scan_unclosed {ts : List Token} (hpower : nextPower ts = 0)
    (hclose : ts.head?.map Token.kind ≠ some .rparen) (k : Nat) :
    (Scanner.mk .operator (k + 1)).scan ts = ⟨some .unbalanced, ts⟩ := by
  cases ts with
  | nil => rfl
  | cons t ts =>
    refine scan_stops ?_ ts
    rw [nextPower_cons] at hpower
    cases hkind : t.kind <;> rw [hkind] at hpower <;>
      simp_all [step, stepOperator, misplaced, Kind.power, Kind.lexeme?, bindingPower]

/-- Outside of all groups, a token that does not bind is accepted if and only if it ends the
tokens. -/
theorem scan_finished (ts : List Token) (hpower : t.kind.power = 0) :
    (Scanner.mk .operator 0).scan (t :: ts) =
      ⟨if t.kind = .eof then none else some .trailing, t :: ts⟩ := by
  refine scan_stops ?_ ts
  cases hkind : t.kind <;> rw [hkind] at hpower <;>
    simp_all [step, stepOperator, misplaced, Kind.power, Kind.lexeme?, bindingPower]

end Scanner

/-! ## Readers follow the scanner -/

/-- What a reader does on the tokens `ts`, the scanner does for any number of open groups. Where the
reader succeeds, the scanner comes to the tokens that it leaves and waits for an operator. Where it
fails, other than by its depth, the scanner stops with an error of the same class; the token that it
carries is the first of those at which the scanner stopped, and the reader leaves the others. -/
def Follows (mode : Mode) (ts rest : List Token) : Except Failure Expr → Prop
  | .ok _ => ∀ k, (Scanner.mk mode k).scan ts = (Scanner.mk .operator k).scan rest
  | .error e => e.IsDepth ∨ ∃ pe stopped, e = .parsing pe ∧ pe.errorClass ≠ .trailing ∧
      pe.token? = stopped.head? ∧ rest = stopped.tail ∧
      ∀ k, (Scanner.mk mode k).scan ts = ⟨some pe.errorClass, stopped⟩

section

variable {mode mode' : Mode} {ts ts' rest : List Token}

/-- A reader that fails on what the scanner comes to fails on what it started with. The number of
open groups may have changed in between. -/
theorem Follows.error_trans {e : Failure}
    (hscan : ∀ k, ∃ k', (Scanner.mk mode k).scan ts = (Scanner.mk mode' k').scan ts')
    (h : Follows mode' ts' rest (.error e)) : Follows mode ts rest (.error e) := by
  rcases h with hdepth | ⟨pe, stopped, he, hclass, htoken, hrest, hstop⟩
  · exact Or.inl hdepth
  · refine Or.inr ⟨pe, stopped, he, hclass, htoken, hrest, ?_⟩
    intro k
    obtain ⟨k', hk⟩ := hscan k
    rw [hk, hstop k']

theorem Follows.trans {out : Except Failure Expr}
    (hscan : ∀ k, (Scanner.mk mode k).scan ts = (Scanner.mk mode' k).scan ts')
    (h : Follows mode' ts' rest out) : Follows mode ts rest out := by
  cases out with
  | ok tree =>
    intro k
    rw [hscan k, h k]
  | error e =>
    apply h.error_trans
    intro k
    exact ⟨k, hscan k⟩

/-- A token that the reader refuses and leaves behind. -/
theorem Follows.refuse {pe : ParseError} (stopped : List Token) (hclass : pe.errorClass ≠ .trailing)
    (htoken : pe.token? = stopped.head?)
    (hstop : ∀ k, (Scanner.mk mode k).scan ts = ⟨some pe.errorClass, stopped⟩) :
    Follows mode ts stopped.tail (.error (.parsing pe)) :=
  Or.inr ⟨pe, stopped, rfl, hclass, htoken, rfl, hstop⟩

end

/-- Each task follows the scanner. The token that an operand or an operator starts with has been
read, so the scanner starts before it. -/
def Task.FollowsScanner (ts rest : List Token) (out : Except Failure Expr) : Task → Prop
  | .expression min => 0 ≤ min → Follows .operand ts rest out
  | .operand handler t => Tables.standard.operand t.kind = some handler →
      Follows .operand (t :: ts) rest out
  | .operators min _ => 0 ≤ min → Follows .operator ts rest out
  | .operator handler _ t => Tables.standard.operator t.kind = some handler →
      Follows .operator (t :: ts) rest out

variable {limit : Int} {d : Nat} {ts rest : List Token} {out : Except Failure Expr}

/-- After an expression comes a token that does not bind tighter than the minimum. -/
theorem Parses.nextPower_le {min : Int} {tree : Expr}
    (h : Parses .standard limit (.expression min) d ts (.ok tree) rest) :
    (nextPower rest : Int) ≤ min := by
  obtain ⟨c, hc, -⟩ := parses_expression_iff.1 h
  exact hc.stops

/-- With the standard tables and a minimum that is not negative, every reader follows the scanner.
A minimum only decides which of the readers takes an operator, never whether one does. -/
theorem Parses.followsScanner {task : Task} (h : Parses .standard limit task d ts out rest) :
    task.FollowsScanner ts rest out := by
  induction h with
  | tooDeep h => exact fun _ => Or.inl trivial
  | exhausted h => exact fun _ => .refuse [] ErrorClass.noConfusion rfl fun _ => rfl
  | @noOperand min d t ts h ht =>
    intro _
    apply Follows.refuse (t :: ts) ErrorClass.noConfusion rfl
    exact fun k => Scanner.scan_noOperand ht k ts
  | operandFails h ht hop ih => exact fun _ => ih ht
  | expression h ht hop hfold ihop ihfold =>
    intro hmin
    exact (ihfold hmin).trans (ihop ht)
  | @number d n t ts hn =>
    intro ht k
    exact Scanner.scan_number ht hn k ts
  | @badNumber d t ts r hn =>
    intro ht
    apply Follows.refuse (t :: ts) ErrorClass.noConfusion rfl
    exact fun k => Scanner.scan_badNumber ht hn k ts
  | signNoLexeme hl =>
    intro ht
    obtain ⟨op, hk⟩ := Tables.kind_of_standard_sign ht
    rw [hk, op.lexeme?_kind] at hl
    cases hl
  | @signFails d t ts rest symbol e hl hx ih =>
    intro ht
    apply (ih (Int.natCast_nonneg _)).trans
    exact fun k => Scanner.scan_sign ht k ts
  | @sign d t ts rest symbol x hl hx ih =>
    intro ht
    obtain ⟨op, hk⟩ := Tables.kind_of_standard_sign ht
    rw [hk, op.lexeme?_kind] at hl
    cases hl
    rw [Expr.applyPrefix_symbol]
    apply Follows.trans _ (ih (Int.natCast_nonneg _))
    exact fun k => Scanner.scan_sign ht k ts
  | @groupFails d t ts rest e hx ih =>
    intro ht
    -- Inside of the group one more group is open, but the error is the same for any number.
    apply (ih (Int.le_refl 0)).error_trans
    exact fun k => ⟨k + 1, Scanner.scan_lparen ht k ts⟩
  | @group d t close ts rest x hx hclose ih =>
    intro ht k
    rw [Scanner.scan_lparen ht, ih (Int.le_refl 0) (k + 1)]
    exact Scanner.scan_rparen hclose k rest
  | @groupOpen d t ts mid x hx hclose ih =>
    intro ht
    apply Follows.refuse mid ErrorClass.noConfusion rfl
    intro k
    -- Under the minimum `0` every operator was folded, so the next token is none.
    have hpower : nextPower mid ≤ 0 := by exact_mod_cast hx.nextPower_le
    rw [Scanner.scan_lparen ht, ih (Int.le_refl 0) (k + 1)]
    exact Scanner.scan_unclosed (Nat.le_zero.1 hpower) hclose k
  | stop h => exact fun _ _ => rfl
  | noLookahead h =>
    intro hmin
    omega
  | @noOperator min left d t ts h ht =>
    intro hmin
    -- With the standard tables, what binds has a handler.
    have hpos : 0 < t.kind.power := by omega
    have hhandler := (Tables.standard_operator_isSome_iff t.kind).2 hpos
    rw [ht] at hhandler
    cases hhandler
  | operatorFails h ht hop ih => exact fun _ => ih ht
  | operators h ht hop hfold ihop ihfold =>
    intro hmin
    exact (ihfold hmin).trans (ihop ht)
  | operatorNoLexeme hl =>
    intro ht
    have hpower := (Tables.standard_operator_isSome_iff _).1 (Option.isSome_of_mem ht)
    rw [Kind.power_pos_iff, hl] at hpower
    cases hpower
  | @infixFails handler left d t ts rest symbol m e hl hm hx ih =>
    intro ht
    rcases standard_handler_cases ht hl with ⟨op, hk, -, hm'⟩ | ⟨op, -, -, rfl⟩
    · rw [hm] at hm'
      cases hm'
      apply (ih (Int.natCast_nonneg _)).trans
      exact fun k => Scanner.scan_binary hk k ts
    · cases hm
  | @infixed handler left right d t ts rest symbol m hl hm hx ih =>
    intro ht
    rcases standard_handler_cases ht hl with ⟨op, hk, rfl, hm'⟩ | ⟨op, -, -, rfl⟩
    · rw [hm] at hm'
      cases hm'
      rw [Expr.applyInfix_symbol]
      apply Follows.trans _ (ih (Int.natCast_nonneg _))
      exact fun k => Scanner.scan_binary hk k ts
    · cases hm
  | @postfixed left d t ts symbol hl =>
    intro ht
    rcases standard_handler_cases ht hl with ⟨op, -, rfl, hm⟩ | ⟨op, hk, rfl, -⟩
    · cases hm
    · rw [Expr.applyPostfix_symbol]
      exact fun k => Scanner.scan_postfixed hk k ts

/-! ## Whole expressions -/

/-- After an expression the scanner stops, wherever the stream was not exhausted before. -/
theorem Parses.scan_ok {tree : Expr}
    (h : Parses .standard limit (.expression 0) d ts (.ok tree) rest) (heof : EofLast ts)
    (hts : ts ≠ []) :
    ∃ t after, rest = t :: after ∧
      Scanner.start.scan ts = ⟨if t.kind = .eof then none else some .trailing, t :: after⟩ := by
  have hscan : Scanner.start.scan ts = (Scanner.mk .operator 0).scan rest :=
    h.followsScanner (Int.le_refl 0) 0
  cases rest with
  | nil =>
    have hstopped := Scanner.start.scan_stopped_ne_nil heof hts
    rw [hscan] at hstopped
    exact absurd rfl hstopped
  | cons t after =>
    have hpower : t.kind.power ≤ 0 := by exact_mod_cast h.nextPower_le
    refine ⟨t, after, rfl, ?_⟩
    rw [hscan]
    exact Scanner.scan_finished after (Nat.le_zero.1 hpower)

/-- Where the reader fails within the limit, the scanner stops at the token of the error. -/
theorem Parses.scan_error {e : Failure}
    (h : Parses .standard limit (.expression 0) d ts (.error e) rest) (heof : EofLast ts)
    (hts : ts ≠ []) (hdepth : ¬ e.IsDepth) :
    ∃ pe t, e = .parsing pe ∧ pe.errorClass ≠ .trailing ∧ pe.token? = some t ∧
      Scanner.start.scan ts = ⟨some pe.errorClass, t :: rest⟩ := by
  rcases h.followsScanner (Int.le_refl 0) with
    habsurd | ⟨pe, stopped, he, hclass, htoken, hrest, hstop⟩
  · exact absurd habsurd hdepth
  · have hscan : Scanner.start.scan ts = ⟨some pe.errorClass, stopped⟩ := hstop 0
    have hstopped := Scanner.start.scan_stopped_ne_nil heof hts
    rw [hscan] at hstopped
    obtain ⟨t, after, rfl⟩ := List.exists_cons_of_ne_nil hstopped
    cases hrest
    exact ⟨pe, t, he, hclass, htoken, hscan⟩

/-- The verdict of the scanner on the unread tokens of a parser. -/
def Parser.verdict (p : Parser) : Verdict :=
  Scanner.start.scan p.stream.unread

/-- A parser that fails with an error refuses the tokens. -/
theorem Parser.not_ok_of_error {p p' : Parser} {e : Failure}
    (h : p.parseExpression = .error e p') : ¬ ∃ tree p', p.parseExpression = .ok tree p' := by
  rintro ⟨tree, p'', hok⟩
  rw [h] at hok
  cases hok

/-- With the standard tables and a limit that has room for all the tokens, a whole expression is
accepted exactly where the scanner accepts, and the parser stops at the end token at which the
scanner stopped. Otherwise the parser fails with an error of the scanner's class that carries the
token at which the scanner stopped, and it stops behind that token, except before a trailing one.
Nothing but the position of its stream has changed. -/
theorem parseExpression_scan (p : Parser) (htables : p.tables = .standard)
    (hunread : p.stream.unread ≠ []) (hsize : (p.depth : Int) + p.size ≤ p.limit) :
    ((∃ tree p', p.parseExpression = .ok tree p') ↔ p.verdict.refusal? = none) ∧
    ∃ t after, p.verdict.stopped = t :: after ∧
      (p.verdict.refusal? = none → t.kind = .eof ∧
        ∃ tree position, p.parseExpression = .ok tree { p with stream := position } ∧
          position.tokens = p.stream.tokens ∧ position.unread = t :: after) ∧
      ∀ c, p.verdict.refusal? = some c → ∃ e position,
        p.parseExpression = .error (.parsing e) { p with stream := position } ∧
          e.errorClass = c ∧ e.token? = some t ∧ position.tokens = p.stream.tokens ∧
            position.unread = if c = .trailing then t :: after else after := by
  obtain ⟨out, rest, h, -⟩ :=
    exists_parses p.tables p.limit (.expression 0) p.depth p.stream.unread
  have hroom : Room p.tables p.limit 0 (.expression 0) p.depth p.stream.unread := by
    have hpos : 0 < p.stream.unread.length := List.length_pos_iff.2 hunread
    have hlen : p.size = p.stream.unread.length := rfl
    exact ⟨p.stream.eofLast_unread, by omega⟩
  have hexceeds : ¬ Exceeds out := h.not_exceeds (fun _ => htables) hroom
  have hrun := h.parseExpression
  have hrest := h.unread_resume
  rw [htables] at h
  cases out with
  | ok tree =>
    obtain ⟨t, after, rfl, hscan⟩ := h.scan_ok p.stream.eofLast_unread hunread
    by_cases heof : t.kind = .eof
    · have hverdict : p.verdict = ⟨none, t :: after⟩ := by rw [Parser.verdict, hscan, if_pos heof]
      rw [finished_cons, if_pos heof] at hrun
      rw [hverdict]
      refine ⟨iff_of_true ⟨tree, _, hrun⟩ rfl, t, after, rfl, ?_, ?_⟩
      · exact fun _ => ⟨heof, tree, _, hrun, rfl, hrest⟩
      · exact fun c hc => by cases hc
    · have hverdict : p.verdict = ⟨some .trailing, t :: after⟩ := by
        rw [Parser.verdict, hscan, if_neg heof]
      rw [finished_cons, if_neg heof] at hrun
      rw [hverdict]
      refine ⟨iff_of_false (p.not_ok_of_error hrun) (Option.some_ne_none _), t, after, rfl, ?_, ?_⟩
      · exact fun hc => by cases hc
      · rintro c hc
        cases hc
        exact ⟨.trailing t, _, hrun, rfl, rfl, rfl, hrest⟩
  | error e =>
    obtain ⟨pe, t, rfl, hclass, htoken, hscan⟩ :=
      h.scan_error p.stream.eofLast_unread hunread hexceeds
    have hverdict : p.verdict = ⟨some pe.errorClass, t :: rest⟩ := hscan
    rw [hverdict]
    refine ⟨iff_of_false (p.not_ok_of_error hrun) (Option.some_ne_none _), t, rest, rfl, ?_, ?_⟩
    · exact fun hc => by cases hc
    · rintro c hc
      cases hc
      refine ⟨pe, _, hrun, rfl, htoken, rfl, ?_⟩
      -- A trailing token is the only one that is looked at without being read.
      rw [if_neg hclass]
      exact hrest

/-- A parser of `2)+`, which has room for its tokens. -/
def unopened : Parser where
  stream := {
    tokens := [⟨.number, "2", ⟨1, 1⟩⟩, ⟨.rparen, ")", ⟨1, 2⟩⟩, ⟨.plus, "+", ⟨1, 3⟩⟩,
      ⟨.eof, "", ⟨1, 4⟩⟩]
    position := 0
    endsWithEof := by decide
    position_le := by decide }
  tables := .standard
  limit := 4
  depth := 0

/-- The scanner refuses the parenthesis as trailing, so the parser stops before it, whatever is
wrong further on. -/
theorem parseExpression_unopened :
    unopened.tables = .standard ∧ unopened.stream.unread ≠ [] ∧
      (unopened.depth : Int) + unopened.size ≤ unopened.limit ∧
      ∃ e p', unopened.parseExpression = .error (.parsing e) p' ∧ e.errorClass = .trailing ∧
        e.token? = some ⟨.rparen, ")", ⟨1, 2⟩⟩ := by
  have hverdict : unopened.verdict.refusal? = some .trailing := by decide
  obtain ⟨-, t, after, hstopped, -, hrefused⟩ :=
    parseExpression_scan unopened rfl (by decide) (by decide)
  obtain ⟨e, position, hrun, hclass, htoken, -⟩ := hrefused .trailing hverdict
  refine ⟨rfl, by decide, by decide, e, _, hrun, hclass, ?_⟩
  have hcons : unopened.verdict.stopped = ⟨.rparen, ")", ⟨1, 2⟩⟩ ::
      [⟨.plus, "+", ⟨1, 3⟩⟩, ⟨.eof, "", ⟨1, 4⟩⟩] := by decide
  obtain ⟨rfl, -⟩ := List.cons.inj (hstopped.symm.trans hcons)
  exact htoken

end ArithSyntax
