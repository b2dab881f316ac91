import ArithSyntax.Proofs.Climb.Parsers

/-!
# Runs on relabelled tokens

A function on tokens that keeps their kinds, and keeps the texts of those that are read as numbers,
carries every run to a run: on the tokens so replaced, each reader ends in the same tree, or in the
same failure with the token in it replaced, and it leaves the same tokens, replaced
(`Parses.relabel`). So a parser does not look at what such a function may change. In particular it
does not look at locations.

The induction is over the rules of climbing. What carries it is that a token enters the tree only as
a number, by its text, or as an operator, by its kind.
-/

set_option autoImplicit false

namespace ArithSyntax

/-! ## Replacing the tokens in failures -/

/-- The parse error with its token replaced. -/
def ParseError.relabel (f : Token → Token) : ParseError → ParseError
  | custom message token? => custom message (token?.map f)
  | unexpectedPrefix token? => unexpectedPrefix (token?.map f)
  | unexpectedInfix token => unexpectedInfix (f token)
  | unbalanced token? => unbalanced (token?.map f)
  | malformedNumber token reason => malformedNumber (f token) reason
  | depthExceeded limit token? => depthExceeded limit (token?.map f)
  | trailing token => trailing (f token)

/-- The failure with the token of a parse error replaced. Other failures hold no token. -/
def Failure.relabel (f : Token → Token) : Failure → Failure
  | parsing e => parsing (e.relabel f)
  | noLexeme kind => noLexeme kind
  | operator e => operator e
  | noLookahead => noLookahead

/-- The task with its token replaced. -/
def Task.relabel (f : Token → Token) : Task → Task
  | expression min => expression min
  | operand handler t => operand handler (f t)
  | operators min left => operators min left
  | operator handler left t => operator handler left (f t)

/-- With these tables, no reader notices that `f` has replaced the tokens: kinds are kept, and so
are the texts of tokens that are read as numbers. -/
structure Tables.Ignores (tables : Tables) (f : Token → Token) : Prop where
  kind_eq : ∀ t, (f t).kind = t.kind
  text_eq : ∀ t, tables.operand t.kind = some .number → (f t).text = t.text

variable {tables : Tables} {limit : Int} {f : Token → Token}

/-! ## Runs -/

theorem Tables.Ignores.nextPower_map (hf : tables.Ignores f) (ts : List Token) :
    nextPower (ts.map f) = nextPower ts := by
  cases ts with
  | nil => rfl
  | cons t ts => rw [List.map_cons, nextPower_cons, nextPower_cons, hf.kind_eq]

/-- A fault in an operator holds no token. -/
theorem applied_relabel (tree : Except OperatorError Expr) :
    (applied tree).mapError (Failure.relabel f) = applied tree := by
  cases tree <;> rfl

/-- On replaced tokens, a task ends as before, but for the tokens being replaced. -/
theorem Parses.relabel (hf : tables.Ignores f) {task : Task} {d : Nat} {ts rest : List Token}
    {out : Except Failure Expr} (h : Parses tables limit task d ts out rest)
    (htask : ∀ t, task = .operand .number t → (f t).text = t.text) :
    Parses tables limit (task.relabel f) d (ts.map f) (out.mapError (Failure.relabel f))
      (rest.map f) := by
  -- A text is looked at by the reader of numbers alone, and the tables say which token it reads.
  have hoperand : ∀ {t : Token} {handler : OperandHandler},
      tables.operand t.kind = some handler →
        ∀ u, Task.operand handler t = .operand .number u → (f u).text = u.text := by
    intro t handler ht u hu
    cases hu
    exact hf.text_eq t ht
  induction h with
  | @tooDeep min d ts h =>
    -- The error holds the next token, so the rule is applied to the replaced tokens first.
    have hrule : Parses tables limit (.expression min) d (ts.map f)
        (.error (.parsing (.depthExceeded limit (ts.map f).head?))) (ts.map f).tail := .tooDeep h
    rwa [List.head?_map, ← List.map_tail] at hrule
  | exhausted h => exact .exhausted h
  | noOperand h ht => exact .noOperand h (by rw [hf.kind_eq, ht])
  | operandFails h ht hop ih =>
    exact .operandFails h (by rw [hf.kind_eq, ht]) (ih (hoperand ht))
  | expression h ht hop hfold ihop ihfold =>
    exact .expression h (by rw [hf.kind_eq, ht]) (ihop (hoperand ht)) (ihfold (by simp))
  | number hn => exact .number (by rw [htask _ rfl, hn])
  | badNumber hn => exact .badNumber (by rw [htask _ rfl, hn])
  | @signNoLexeme d t ts hl =>
    have hrule : Parses tables limit (.operand .sign (f t)) d (ts.map f)
        (.error (.noLexeme (f t).kind)) (ts.map f) := .signNoLexeme (by rw [hf.kind_eq, hl])
    rwa [hf.kind_eq] at hrule
  | signFails hl hx ih => exact .signFails (by rw [hf.kind_eq, hl]) (ih (by simp))
  | sign hl hx ih =>
    rw [applied_relabel]
    exact .sign (by rw [hf.kind_eq, hl]) (ih (by simp))
  | groupFails hx ih => exact .groupFails (ih (by simp))
  | group hx hclose ih => exact .group (ih (by simp)) (by rw [hf.kind_eq, hclose])
  | @groupOpen d t ts mid x hx hclose ih =>
    have hhead : (mid.map f).head?.map Token.kind ≠ some .rparen := by
      cases mid with
      | nil => exact hclose
      | cons u mid => simpa [hf.kind_eq] using hclose
    have hrule := Parses.groupOpen (t := f t) (ih (by simp)) hhead
    rwa [List.head?_map, ← List.map_tail] at hrule
  | stop h => exact .stop (by rwa [hf.nextPower_map])
  | noLookahead h => exact .noLookahead h
  | noOperator h ht => exact .noOperator (by rwa [hf.kind_eq]) (by rw [hf.kind_eq, ht])
  | operatorFails h ht hop ih =>
    exact .operatorFails (by rwa [hf.kind_eq]) (by rw [hf.kind_eq, ht]) (ih (by simp))
  | operators h ht hop hfold ihop ihfold =>
    exact .operators (by rwa [hf.kind_eq]) (by rw [hf.kind_eq, ht]) (ihop (by simp))
      (ihfold (by simp))
  | @operatorNoLexeme handler left d t ts hl =>
    have hrule : Parses tables limit (.operator handler left (f t)) d (ts.map f)
        (.error (.noLexeme (f t).kind)) (ts.map f) := .operatorNoLexeme (by rw [hf.kind_eq, hl])
    rwa [hf.kind_eq] at hrule
  | infixFails hl hm hx ih => exact .infixFails (by rw [hf.kind_eq, hl]) hm (ih (by simp))
  | infixed hl hm hx ih =>
    rw [applied_relabel]
    exact .infixed (by rw [hf.kind_eq, hl]) hm (ih (by simp))
  | postfixed hl =>
    rw [applied_relabel]
    exact .postfixed (by rw [hf.kind_eq, hl])

/-- Whether the tokens end after an expression is a matter of kinds. -/
theorem finished_relabel (hf : tables.Ignores f) (out : Except Failure Expr) (rest : List Token) :
    finished (out.mapError (Failure.relabel f)) (rest.map f) =
      (finished out rest).mapError (Failure.relabel f) := by
  cases out with
  | error e => rfl
  | ok tree =>
    cases rest with
    | nil => rfl
    | cons t rest =>
      show finished (.ok tree) (f t :: rest.map f) = _
      rw [finished_cons, finished_cons, hf.kind_eq]
      split <;> rfl

theorem EndsWithEof.relabel (hf : tables.Ignores f) {ts : List Token} :
    EndsWithEof (ts.map f) ↔ EndsWithEof ts := by
  have hkind : Token.kind ∘ f = Token.kind := funext hf.kind_eq
  rw [EndsWithEof, EndsWithEof, List.getLast?_map, Option.map_map, hkind]

end ArithSyntax
