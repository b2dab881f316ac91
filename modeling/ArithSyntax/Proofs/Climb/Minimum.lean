import ArithSyntax.Proofs.Grammar.Precedence

/-!
# The minimum only tells where folding stops

The minimum power of an expression is looked at by its own loop and by nothing inside of it. So of
two runs from the same place, the one with the larger minimum does what the other does until it
stops: it fails only as the other fails, and its tree is found in the other's on the way through
left operands (`Parses.expression_endsEarlier`).

A negative minimum lets folding never stop. It goes on where every token that binds is folded, and
the token there, which binds with power `0`, is no operator (`Parses.below_zero`).

## Main statements

* `parse_stopsEarlier`: parsers under two minima, and under a negative one.
-/

set_option autoImplicit false

namespace ArithSyntax

/-! ## Left parts of trees -/

/-- The first tree is the second, or is met on the way from it through left operands and the
operands of postfix operators. -/
inductive Expr.LeftPart (x : Expr) : Expr → Prop
  | refl : LeftPart x x
  | binary {op : InfixOp} {l r : Expr} (h : LeftPart x l) : LeftPart x (.binary op l r)
  | postfixed {op : PostfixOp} {y : Expr} (h : LeftPart x y) : LeftPart x (.postfixed op y)

theorem Expr.LeftPart.trans {x y z : Expr} (h : x.LeftPart y) (h' : y.LeftPart z) :
    x.LeftPart z := by
  induction h' with
  | refl => exact h
  | binary _ ih => exact .binary ih
  | postfixed _ ih => exact .postfixed ih

variable {tables : Tables} {limit : Int} {d : Nat} {ts rest : List Token}
  {out : Except Failure Expr}

/-- The tree is made by folding operators into the tree of the task, if it has one. -/
def Task.Extends (tree : Expr) : Task → Prop
  | expression _ => True
  | operand _ _ => True
  | operators _ left => left.LeftPart tree
  | operator _ left _ => left.LeftPart tree

/-- A tree into which operators are folded is a left part of what becomes of it. -/
theorem Parses.leftPart {task : Task} {tree : Expr} (h : Parses tables limit task d ts out rest)
    (htree : out = .ok tree) : task.Extends tree := by
  induction h generalizing tree with
  | stop h =>
    cases htree
    exact .refl
  | noLookahead h => cases htree
  | noOperator h ht => cases htree
  | operatorFails h ht hop ih => cases htree
  | operators h ht hop hfold ihop ihfold => exact (ihop rfl).trans (ihfold htree)
  | operatorNoLexeme hl => cases htree
  | infixFails hl hm hx ih => cases htree
  | infixed hl hm hx ih =>
    obtain ⟨op, -, rfl⟩ := Expr.eq_binary_of_applyInfix (applied_eq_ok htree)
    exact .binary .refl
  | postfixed hl =>
    obtain ⟨op, -, rfl⟩ := Expr.eq_postfixed_of_applyPostfix (applied_eq_ok htree)
    exact .postfixed .refl
  | _ => trivial

/-! ## Two minima -/

/-- The first run ends as the second does, or before it: with a tree, which is a left part of what
the second makes if it makes a tree. -/
inductive StopsEarlier (out₁ : Except Failure Expr) (rest₁ : List Token)
    (out₂ : Except Failure Expr) (rest₂ : List Token) : Prop
  | alike (hout : out₁ = out₂) (hrest : rest₁ = rest₂)
  | earlier {tree : Expr} (hout : out₁ = .ok tree) (hrest : rest₂ <:+ rest₁)
      (hpart : ∀ tree₂, out₂ = .ok tree₂ → tree.LeftPart tree₂)

/-- There is a run of the task that ends as this outcome and rest say, or before it. -/
def EndsEarlier (tables : Tables) (limit : Int) (task : Task) (d : Nat) (ts : List Token)
    (out₂ : Except Failure Expr) (rest₂ : List Token) : Prop :=
  ∃ out₁ rest₁, Parses tables limit task d ts out₁ rest₁ ∧ StopsEarlier out₁ rest₁ out₂ rest₂

theorem Parses.endsEarlier {task : Task} (h : Parses tables limit task d ts out rest) :
    EndsEarlier tables limit task d ts out rest :=
  ⟨out, rest, h, .alike rfl rfl⟩

/-- Where the larger minimum stops at once, the tree so far is what the other run goes on from. -/
theorem Parses.endsEarlier_of_stop {min₁ min₂ : Int} {left : Expr}
    (h : Parses tables limit (.operators min₂ left) d ts out rest)
    (hstop : (nextPower ts : Int) ≤ min₁) :
    EndsEarlier tables limit (.operators min₁ left) d ts out rest :=
  ⟨.ok left, ts, .stop hstop, .earlier rfl h.suffix fun _ htree => h.leftPart htree⟩

/-- Folding under a larger minimum goes along with folding under the smaller one until it stops. The
induction is on the run under the smaller minimum, which reads no less. -/
theorem Parses.operators_endsEarlier {min₁ min₂ : Int} (hle : min₂ ≤ min₁) {left : Expr}
    (h : Parses tables limit (.operators min₂ left) d ts out rest) :
    EndsEarlier tables limit (.operators min₁ left) d ts out rest := by
  rcases Int.lt_or_le min₁ (nextPower ts) with hlt | hstop
  · generalize htask : Task.operators min₂ left = task at h
    induction h generalizing left with
    | stop h =>
      cases htask
      omega
    | noLookahead h =>
      cases htask
      exact Parses.endsEarlier (.noLookahead hlt)
    | noOperator h ht =>
      cases htask
      exact Parses.endsEarlier (.noOperator hlt ht)
    | operatorFails h ht hop ih =>
      cases htask
      exact Parses.endsEarlier (.operatorFails hlt ht hop)
    | @operators min left tree d t ts mid rest handler out h ht hop hfold ihop ihfold =>
      cases htask
      have hbehind : EndsEarlier tables limit (.operators min₁ tree) d mid out rest := by
        rcases Int.lt_or_le min₁ (nextPower mid) with hlt' | hstop
        · exact ihfold hlt' rfl
        · exact hfold.endsEarlier_of_stop hstop
      obtain ⟨out₁, rest₁, hfold₁, hends⟩ := hbehind
      exact ⟨out₁, rest₁, .operators hlt ht hop hfold₁, hends⟩
    | _ => cases htask
  · exact h.endsEarlier_of_stop hstop

/-- Reading an expression under a larger minimum goes along with reading it under the smaller one
until it stops. Its operand is the same: it does not know of the minimum. -/
theorem Parses.expression_endsEarlier {min₁ min₂ : Int} (hle : min₂ ≤ min₁)
    (h : Parses tables limit (.expression min₂) d ts out rest) :
    EndsEarlier tables limit (.expression min₁) d ts out rest := by
  cases h with
  | tooDeep h => exact Parses.endsEarlier (.tooDeep h)
  | exhausted h => exact Parses.endsEarlier (.exhausted h)
  | noOperand h ht => exact Parses.endsEarlier (.noOperand h ht)
  | operandFails h ht hop => exact Parses.endsEarlier (.operandFails h ht hop)
  | expression h ht hop hfold =>
    obtain ⟨out₁, rest₁, hfold₁, hends⟩ := hfold.operators_endsEarlier hle
    exact ⟨out₁, rest₁, .expression h ht hop hfold₁, hends⟩

/-! ## Negative minima -/

/-- Folding stops only where the minimum is not negative, as no token binds with less than `0`. -/
theorem Parses.operators_min_nonneg {min : Int} {left tree : Expr}
    (h : Parses tables limit (.operators min left) d ts (.ok tree) rest) : 0 ≤ min := by
  generalize htask : Task.operators min left = task at h
  generalize hout : Except.ok tree = out at h
  induction h generalizing left with
  | stop h =>
    cases htask
    omega
  | noLookahead h => cases hout
  | noOperator h ht => cases hout
  | operatorFails h ht hop ih => cases hout
  | operators h ht hop hfold ihop ihfold =>
    cases htask
    exact ihfold rfl hout
  | _ => cases htask

theorem Parses.min_nonneg {min : Int} {tree : Expr}
    (h : Parses tables limit (.expression min) d ts (.ok tree) rest) : 0 ≤ min := by
  cases h with
  | expression h ht hop hfold => exact hfold.operators_min_nonneg

/-- Under a negative minimum folding goes along with folding under `0`, and where that stops, it
takes the next token for an operator. -/
theorem Parses.operators_below_zero {min : Int} (hmin : min < 0) {left tree : Expr} {t : Token}
    (ht : tables.operator t.kind = none)
    (h : Parses tables limit (.operators 0 left) d ts (.ok tree) (t :: rest)) :
    Parses tables limit (.operators min left) d ts (.error (.parsing (.unexpectedInfix t)))
      rest := by
  generalize htask : Task.operators 0 left = task at h
  generalize hout : Except.ok tree = out at h
  generalize hrest : t :: rest = ts' at h
  induction h generalizing left with
  | stop h =>
    cases htask
    cases hrest
    exact .noOperator (by omega) ht
  | noLookahead h => cases hout
  | noOperator h ht => cases hout
  | operatorFails h ht hop ih => cases hout
  | operators h hhandler hop hfold ihop ihfold =>
    cases htask
    exact .operators (by omega) hhandler hop (ihfold rfl hout hrest)
  | _ => cases htask

theorem Parses.below_zero {min : Int} (hmin : min < 0) {tree : Expr} {t : Token}
    (ht : tables.operator t.kind = none)
    (h : Parses tables limit (.expression 0) d ts (.ok tree) (t :: rest)) :
    Parses tables limit (.expression min) d ts (.error (.parsing (.unexpectedInfix t))) rest := by
  cases h with
  | expression h hhandler hop hfold =>
    exact .expression h hhandler hop (hfold.operators_below_zero hmin ht)

/-! ## Parsers -/

/-- With the standard tables, an expression of a parser ends before a token that does not bind. -/
theorem Parser.exists_unbound {p : Parser} (htables : p.tables = .standard) {tree : Expr}
    {rest : List Token}
    (h : Parses p.tables p.limit (.expression 0) p.depth p.stream.unread (.ok tree) rest) :
    ∃ t rest', rest = t :: rest' ∧ p.tables.operator t.kind = none := by
  have hstandard := h
  rw [htables, parses_expression_iff] at hstandard
  obtain ⟨c, hc, -⟩ := hstandard
  cases rest with
  | nil =>
    -- The last token would be one of a phrase, but it is an end token.
    obtain ⟨t, rest', -, hnil⟩ := TokenStream.exists_eof_of_yield hc.yield_eq (by simp)
    cases hnil
  | cons t rest =>
    refine ⟨t, rest, rfl, ?_⟩
    have hpower : ¬ 0 < t.kind.power := by
      have hstops := hc.stops
      rw [nextPower_cons] at hstops
      omega
    rw [← Tables.standard_operator_isSome_iff, ← htables] at hpower
    simpa using hpower

section Parsers

variable {p : Parser}

theorem exists_parse_stopsEarlier {min₁ min₂ : Int} (hle : min₂ ≤ min₁) {tree : Expr} {q : Parser}
    (h : p.parse min₂ = .ok tree q) : ∃ tree₁ q₁, p.parse min₁ = .ok tree₁ q₁ ∧
      q₁.stream.position ≤ q.stream.position ∧ tree₁.LeftPart tree := by
  have hend : p.parse min₂ = endsWith (.ok tree) q := h
  obtain ⟨rest, hparses, rfl⟩ := Parses.exists_of_parse hend
  obtain ⟨out₁, rest₁, hparses₁, hends⟩ := hparses.expression_endsEarlier hle
  cases hends with
  | alike hout hrest =>
    subst hout
    subst hrest
    exact ⟨tree, _, hparses₁.parse, Nat.le_refl _, .refl⟩
  | @earlier tree₁ hout hrest hpart =>
    subst hout
    refine ⟨tree₁, _, hparses₁.parse, ?_, hpart tree rfl⟩
    have hlen := hrest.length_le
    show p.stream.tokens.length - rest₁.length ≤ p.stream.tokens.length - rest.length
    omega

theorem parse_error_of_le {min₁ min₂ : Int} (hle : min₂ ≤ min₁) {e : Failure} {q : Parser}
    (h : p.parse min₁ = .error e q) : p.parse min₂ = .error e q := by
  obtain ⟨out, rest, hparses, -⟩ :=
    exists_parses p.tables p.limit (.expression min₂) p.depth p.stream.unread
  obtain ⟨out₁, rest₁, hparses₁, hends⟩ := hparses.expression_endsEarlier hle
  have hend : p.parse min₁ = endsWith (.error e) q := h
  obtain ⟨hout, hq⟩ := endsWith_inj (hparses₁.parse.symm.trans hend)
  cases hends with
  | alike hout₁ hrest =>
    subst hout₁
    subst hrest
    rw [hparses.parse, hout, hq]
    rfl
  | earlier hout₁ hrest hpart =>
    -- A run that stops before the other one returns a tree.
    rw [hout₁] at hout
    cases hout

/-- Where an expression ends before a token that is no operator, a negative minimum reads on, takes
that token, and fails with it. -/
theorem parse_below_zero {min : Int} (hmin : min < 0) (htables : p.tables = .standard) {tree : Expr}
    {q : Parser} (h : p.parse 0 = .ok tree q) :
    ∃ t, p.stream.tokens[q.stream.position]? = some t ∧
      p.parse min = .error (.parsing (.unexpectedInfix t)) { q with stream := q.stream.next.2 } ∧
      q.stream.next.2.position = q.stream.position + 1 := by
  have hend : p.parse 0 = endsWith (.ok tree) q := h
  obtain ⟨_, hparses, rfl⟩ := Parses.exists_of_parse hend
  obtain ⟨t, rest, rfl, ht⟩ := Parser.exists_unbound htables hparses
  have hunread : (p.stream.resume (t :: rest)).unread = [t] ++ rest := hparses.unread_resume
  have hnext : (p.stream.resume (t :: rest)).next.2 = p.stream.resume rest := by
    rw [TokenStream.next, hunread]
    rfl
  have hget := hparses.getElem?_resume
  refine ⟨t, hget, ?_, ?_⟩
  · rw [(hparses.below_zero hmin ht).parse, hnext]
    rfl
  · have hlt := (List.getElem?_eq_some_iff.1 hget).1
    exact (TokenStream.next_position _).trans (Nat.min_eq_left hlt)

end Parsers

/-- Of two minima the larger one only makes folding stop earlier, whatever the tables and the limit
are. Where an expression is returned under the smaller minimum, one is returned under the larger, of
no more tokens, and its tree is a left part of the other. Where the larger minimum leads to a
failure, the smaller leads to the same failure at the same place. Under a negative minimum nothing
is ever returned; with the standard tables the failure is then at the token before which the
minimum `0` ends, and that token is read. -/
theorem parse_stopsEarlier (p : Parser) {min₁ min₂ : Int} (hle : min₂ ≤ min₁) :
    (∀ tree₂ q₂, p.parse min₂ = .ok tree₂ q₂ → ∃ tree₁ q₁, p.parse min₁ = .ok tree₁ q₁ ∧
      q₁.stream.position ≤ q₂.stream.position ∧ tree₁.LeftPart tree₂) ∧
    (∀ e q, p.parse min₁ = .error e q → p.parse min₂ = .error e q) ∧
    (∀ min < 0, ∀ tree q, p.parse min ≠ .ok tree q) ∧
    (p.tables = .standard → ∀ tree q, p.parse 0 = .ok tree q → ∀ min < 0,
      ∃ t, p.stream.tokens[q.stream.position]? = some t ∧
        p.parse min = .error (.parsing (.unexpectedInfix t)) { q with stream := q.stream.next.2 } ∧
        q.stream.next.2.position = q.stream.position + 1) := by
  refine ⟨fun tree₂ q₂ h => exists_parse_stopsEarlier hle h, fun e q h => parse_error_of_le hle h,
    ?_, ?_⟩
  · intro min hmin tree q h
    have hparses : Parses p.tables p.limit (.expression min) p.depth p.stream.unread (.ok tree)
        q.stream.unread := .of_parse h
    have hnonneg := hparses.min_nonneg
    omega
  · intro htables tree q h min hmin
    exact parse_below_zero hmin htables h

/-- A parser of `2!*3+4`. -/
def productAndSum : Parser where
  stream := {
    tokens := [⟨.number, "2", ⟨1, 1⟩⟩, ⟨.bang, "!", ⟨1, 2⟩⟩, ⟨.star, "*", ⟨1, 3⟩⟩,
      ⟨.number, "3", ⟨1, 4⟩⟩, ⟨.plus, "+", ⟨1, 5⟩⟩, ⟨.number, "4", ⟨1, 6⟩⟩, ⟨.eof, "", ⟨1, 7⟩⟩]
    position := 0
    endsWithEof := by decide
    position_le := by decide }
  tables := .standard
  limit := 256
  depth := 0

/-- The minimum `10` stops before the sum, and the minimum `-1` runs into the end token. -/
theorem parse_stopsEarlier_productAndSum :
    (∃ tree₁ q₁, productAndSum.parse 10 = .ok tree₁ q₁ ∧ q₁.stream.position ≤ 6 ∧
      tree₁.LeftPart (.binary .add (.binary .mul (.postfixed .factorial (.literal 2)) (.literal 3))
        (.literal 4))) ∧
    (∀ tree q, productAndSum.parse (-1) ≠ .ok tree q) ∧
    ∃ q, productAndSum.parse (-1) = .error (.parsing (.unexpectedInfix ⟨.eof, "", ⟨1, 7⟩⟩)) q := by
  obtain ⟨hstops, -, hnever, hbelow⟩ :=
    parse_stopsEarlier productAndSum (show (0 : Int) ≤ 10 by decide)
  refine ⟨hstops _ _ rfl, hnever (-1) (by decide), ?_⟩
  obtain ⟨t, ht, herror, -⟩ := hbelow rfl _ _ rfl (-1) (by decide)
  cases ht
  exact ⟨_, herror⟩

end ArithSyntax
