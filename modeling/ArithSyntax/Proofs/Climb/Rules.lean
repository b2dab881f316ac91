import ArithSyntax.Proofs.Climb.Unbounded

/-!
# The rules of climbing

`Parses` gives the parser's readers as rules: a task, at a nesting depth, turns a list of tokens
into a tree or a failure and leaves the rest of the tokens. There is one rule for each way in which
a reader can go on, so a property of all runs is an induction with one case for each rule.

The rules and the readers agree: each task ends in exactly one way on each list of tokens
(`exists_parses`, `Parses.unique`), and so ends its reader (`Parses.run_eq`).
-/

set_option autoImplicit false

namespace ArithSyntax

open ParseM

/-- What one of the readers is to do. -/
inductive Task where
  /-- Read an expression whose operators bind tighter than `min`. -/
  | expression (min : Int)
  /-- Read the operand that starts with the token `t`, which is already read. -/
  | operand (handler : OperandHandler) (t : Token)
  /-- Fold the operators that bind tighter than `min` into the tree `left`. -/
  | operators (min : Int) (left : Expr)
  /-- Fold the operator `t`, which is already read, into the tree `left`. -/
  | operator (handler : OperatorHandler) (left : Expr) (t : Token)

/-- The tokens of a task that is to go on with `ts`: its own token counts, though it is already
read. -/
def Task.tokens (ts : List Token) : Task → List Token
  | expression _ => ts
  | operand _ t => t :: ts
  | operators _ _ => ts
  | operator _ _ t => t :: ts

/-- The reader that does a task. -/
def Task.run (tables : Tables) (limit : Int) : Task → ParseM Expr
  | expression min => climbAll tables limit min
  | operand handler t => handler.run (climbAll tables limit) t
  | operators min left => foldAll tables limit min left
  | operator handler left t => handler.run (climbAll tables limit) left t

/-- The run that ends with this outcome in this state. -/
def endsWith {ε σ α : Type} (out : Except ε α) (s : σ) : Run ε σ α :=
  match out with
  | .ok a => .ok a s
  | .error e => .error e s

theorem final_endsWith {ε σ α : Type} (out : Except ε α) (s : σ) : final (endsWith out s) = s := by
  cases out <;> rfl

theorem outcome_endsWith {ε σ α : Type} (out : Except ε α) (s : σ) :
    outcome (endsWith out s) = out := by
  cases out <;> rfl

/-- The minimum under which a handler reads the right operand of an operator with this lexeme. -/
def OperatorHandler.rightMin? (op : String) : OperatorHandler → Option Int
  | leftInfix => some (bindingPower op)
  | rightInfix => some ((bindingPower op : Int) - 1)
  | postfixed => none

/-- A tree that was built, or the fault of its operator. -/
def applied (tree : Except OperatorError Expr) : Except Failure Expr :=
  tree.mapError .operator

/-- `Parses tables limit task d ts out rest`: inside of `d` expressions, the task ends on the tokens
`ts` with the outcome `out` and leaves `rest`. -/
inductive Parses (tables : Tables) (limit : Int) :
    Task → Nat → List Token → Except Failure Expr → List Token → Prop
  /-- The limit admits no further expression. -/
  | tooDeep {min : Int} {d : Nat} {ts : List Token} (h : limit ≤ d) :
      Parses tables limit (.expression min) d ts
        (.error (.parsing (.depthExceeded limit ts.head?))) ts.tail
  /-- No token is left to start an operand. -/
  | exhausted {min : Int} {d : Nat} (h : (d : Int) < limit) :
      Parses tables limit (.expression min) d [] (.error (.parsing (.unexpectedPrefix none))) []
  /-- The token starts no operand. -/
  | noOperand {min : Int} {d : Nat} {t : Token} {ts : List Token}
      (h : (d : Int) < limit) (ht : tables.operand t.kind = none) :
      Parses tables limit (.expression min) d (t :: ts)
        (.error (.parsing (.unexpectedPrefix (some t)))) ts
  | operandFails {min : Int} {d : Nat} {t : Token} {ts rest : List Token} {handler : OperandHandler}
      {e : Failure}
      (h : (d : Int) < limit)
      (ht : tables.operand t.kind = some handler)
      (hop : Parses tables limit (.operand handler t) (d + 1) ts (.error e) rest) :
      Parses tables limit (.expression min) d (t :: ts) (.error e) rest
  | expression {min : Int} {d : Nat} {t : Token} {ts mid rest : List Token}
      {handler : OperandHandler} {left : Expr} {out : Except Failure Expr}
      (h : (d : Int) < limit)
      (ht : tables.operand t.kind = some handler)
      (hop : Parses tables limit (.operand handler t) (d + 1) ts (.ok left) mid)
      (hfold : Parses tables limit (.operators min left) (d + 1) mid out rest) :
      Parses tables limit (.expression min) d (t :: ts) out rest
  | number {d n : Nat} {t : Token} {ts : List Token} (hn : Literal.read t.text.toList = .ok n) :
      Parses tables limit (.operand .number t) d ts (.ok (.literal n)) ts
  | badNumber {d : Nat} {t : Token} {ts : List Token} {r : Literal.Refusal}
      (hn : Literal.read t.text.toList = .error r) :
      Parses tables limit (.operand .number t) d ts (.error (.parsing (.ofRefusal t r))) ts
  | signNoLexeme {d : Nat} {t : Token} {ts : List Token} (hl : t.kind.lexeme? = none) :
      Parses tables limit (.operand .sign t) d ts (.error (.noLexeme t.kind)) ts
  | signFails {d : Nat} {t : Token} {ts rest : List Token} {op : String} {e : Failure}
      (hl : t.kind.lexeme? = some op)
      (hx : Parses tables limit (.expression (bindingPower op)) d ts (.error e) rest) :
      Parses tables limit (.operand .sign t) d ts (.error e) rest
  | sign {d : Nat} {t : Token} {ts rest : List Token} {op : String} {x : Expr}
      (hl : t.kind.lexeme? = some op)
      (hx : Parses tables limit (.expression (bindingPower op)) d ts (.ok x) rest) :
      Parses tables limit (.operand .sign t) d ts (applied (Expr.applyPrefix op x)) rest
  | groupFails {d : Nat} {t : Token} {ts rest : List Token} {e : Failure}
      (hx : Parses tables limit (.expression 0) d ts (.error e) rest) :
      Parses tables limit (.operand .group t) d ts (.error e) rest
  | group {d : Nat} {t close : Token} {ts rest : List Token} {x : Expr}
      (hx : Parses tables limit (.expression 0) d ts (.ok x) (close :: rest))
      (hclose : close.kind = .rparen) :
      Parses tables limit (.operand .group t) d ts (.ok x) rest
  | groupOpen {d : Nat} {t : Token} {ts mid : List Token} {x : Expr}
      (hx : Parses tables limit (.expression 0) d ts (.ok x) mid)
      (hclose : mid.head?.map Token.kind ≠ some .rparen) :
      Parses tables limit (.operand .group t) d ts (.error (.parsing (.unbalanced mid.head?)))
        mid.tail
  /-- The next token does not bind tighter than the minimum. -/
  | stop {min : Int} {left : Expr} {d : Nat} {ts : List Token} (h : (nextPower ts : Int) ≤ min) :
      Parses tables limit (.operators min left) d ts (.ok left) ts
  | noLookahead {min : Int} {left : Expr} {d : Nat} (h : min < 0) :
      Parses tables limit (.operators min left) d [] (.error .noLookahead) []
  | noOperator {min : Int} {left : Expr} {d : Nat} {t : Token} {ts : List Token}
      (h : min < t.kind.power) (ht : tables.operator t.kind = none) :
      Parses tables limit (.operators min left) d (t :: ts)
        (.error (.parsing (.unexpectedInfix t))) ts
  | operatorFails {min : Int} {left : Expr} {d : Nat} {t : Token} {ts rest : List Token}
      {handler : OperatorHandler} {e : Failure}
      (h : min < t.kind.power)
      (ht : tables.operator t.kind = some handler)
      (hop : Parses tables limit (.operator handler left t) d ts (.error e) rest) :
      Parses tables limit (.operators min left) d (t :: ts) (.error e) rest
  | operators {min : Int} {left tree : Expr} {d : Nat} {t : Token} {ts mid rest : List Token}
      {handler : OperatorHandler} {out : Except Failure Expr}
      (h : min < t.kind.power)
      (ht : tables.operator t.kind = some handler)
      (hop : Parses tables limit (.operator handler left t) d ts (.ok tree) mid)
      (hfold : Parses tables limit (.operators min tree) d mid out rest) :
      Parses tables limit (.operators min left) d (t :: ts) out rest
  | operatorNoLexeme {handler : OperatorHandler} {left : Expr} {d : Nat} {t : Token}
      {ts : List Token}
      (hl : t.kind.lexeme? = none) :
      Parses tables limit (.operator handler left t) d ts (.error (.noLexeme t.kind)) ts
  | infixFails {handler : OperatorHandler} {left : Expr} {d : Nat} {t : Token}
      {ts rest : List Token} {op : String} {m : Int} {e : Failure}
      (hl : t.kind.lexeme? = some op)
      (hm : handler.rightMin? op = some m)
      (hx : Parses tables limit (.expression m) d ts (.error e) rest) :
      Parses tables limit (.operator handler left t) d ts (.error e) rest
  | infixed {handler : OperatorHandler} {left right : Expr} {d : Nat} {t : Token}
      {ts rest : List Token} {op : String} {m : Int}
      (hl : t.kind.lexeme? = some op)
      (hm : handler.rightMin? op = some m)
      (hx : Parses tables limit (.expression m) d ts (.ok right) rest) :
      Parses tables limit (.operator handler left t) d ts (applied (Expr.applyInfix op left right))
        rest
  | postfixed {left : Expr} {d : Nat} {t : Token} {ts : List Token} {op : String}
      (hl : t.kind.lexeme? = some op) :
      Parses tables limit (.operator .postfixed left t) d ts
        (applied (Expr.applyPostfix op left)) ts

variable {tables : Tables} {limit : Int}

/-! ## Runs end as derivations do -/

theorem bind_of_ok {α β : Type} {m : ParseM α} {f : α → ParseM β} {s s' : Progress} {a : α}
    (h : m s = .ok a s') : (m >>= f) s = f a s' := by
  show EStateM.bind m f s = _
  rw [EStateM.bind, h]

theorem bind_of_error {α β : Type} {m : ParseM α} {f : α → ParseM β} {s s' : Progress}
    {e : Failure} (h : m s = .error e s') : (m >>= f) s = .error e s' := by
  show EStateM.bind m f s = _
  rw [EStateM.bind, h]

theorem nested_of_le {α : Type} (first? : Option Token) (m : ParseM α) {s : Progress}
    (h : limit ≤ s.depth) :
    nested limit first? m s = .error (.parsing (.depthExceeded limit first?)) s := by
  rw [nested, if_pos h]
  rfl

theorem nested_of_lt {α : Type} (first? : Option Token) {m : ParseM α} {d : Nat}
    {ts rest : List Token} {out : Except Failure α} (h : (d : Int) < limit)
    (hm : m ⟨ts, d + 1⟩ = endsWith out ⟨rest, d + 1⟩) :
    nested limit first? m ⟨ts, d⟩ = endsWith out ⟨rest, d⟩ := by
  rw [nested, if_neg (Int.not_le.2 h), hm]
  cases out <;> rfl

theorem built_apply (tree : Except OperatorError Expr) (s : Progress) :
    built tree s = endsWith (applied tree) s := by
  cases tree <;> rfl

theorem lexeme_of_some {t : Token} {op : String} (h : t.kind.lexeme? = some op) :
    lexeme t = pure op := by
  rw [lexeme, h]

theorem lexeme_of_none {t : Token} (h : t.kind.lexeme? = none) :
    lexeme t = throw (.noLexeme t.kind) := by
  rw [lexeme, h]

/-- A sign reads its operand under its own power and builds the node. -/
theorem OperandHandler.run_sign (parse : Int → ParseM Expr) {t : Token} {op : String}
    (hl : t.kind.lexeme? = some op) :
    OperandHandler.sign.run parse t =
      (parse (bindingPower op) >>= fun x => built (Expr.applyPrefix op x)) := by
  rw [OperandHandler.run, lexeme_of_some hl]
  rfl

/-- After the inner expression of a group, one more token is read, whatever it is. -/
theorem OperandHandler.run_group (parse : Int → ParseM Expr) (t : Token) {s mid : Progress}
    {x : Expr} (h : parse 0 s = .ok x mid) :
    OperandHandler.group.run parse t s =
      if mid.unread.head?.map Token.kind = some .rparen then
        .ok x { mid with unread := mid.unread.tail }
      else .error (.parsing (.unbalanced mid.unread.head?))
        { mid with unread := mid.unread.tail } := by
  refine (bind_of_ok h).trans ?_
  show (if mid.unread.head?.map Token.kind = some .rparen then pure x
    else refuse (.unbalanced mid.unread.head?) : ParseM Expr) _ = _
  split <;> rfl

/-- An infix handler reads the right operand under its own minimum and builds the node. -/
theorem OperatorHandler.run_binary {handler : OperatorHandler} {parse : Int → ParseM Expr}
    (left : Expr) {t : Token} {op : String} {m : Int} (hl : t.kind.lexeme? = some op)
    (hm : handler.rightMin? op = some m) :
    handler.run parse left t =
      (parse m >>= fun right => built (Expr.applyInfix op left right)) := by
  cases handler with
  | leftInfix =>
    cases hm
    rw [OperatorHandler.run, lexeme_of_some hl]
    rfl
  | rightInfix =>
    cases hm
    rw [OperatorHandler.run, lexeme_of_some hl]
    rfl
  | postfixed => cases hm

/-- The reader of a task ends as its derivation says. -/
theorem Parses.run_eq {task : Task} {d : Nat} {ts rest : List Token} {out : Except Failure Expr}
    (h : Parses tables limit task d ts out rest) :
    task.run tables limit ⟨ts, d⟩ = endsWith out ⟨rest, d⟩ := by
  induction h with
  | tooDeep h => rw [Task.run, climbAll_apply, nested_of_le _ _ h]; rfl
  | exhausted h =>
    rw [Task.run, climbAll_apply]
    exact nested_of_lt none h rfl
  | noOperand h ht =>
    rw [Task.run, climbAll_apply]
    refine nested_of_lt _ h ?_
    rw [List.head?_cons, readOperand, ht]
    rfl
  | operandFails h ht _ ih =>
    rw [Task.run, climbAll_apply]
    refine nested_of_lt _ h ?_
    rw [List.head?_cons, readOperand, ht]
    exact bind_of_error ih
  | expression h ht _ _ ihop ihfold =>
    rw [Task.run, climbAll_apply]
    refine nested_of_lt _ h ?_
    rw [List.head?_cons, readOperand, ht]
    exact (bind_of_ok ihop).trans ihfold
  | number hn =>
    rw [Task.run, OperandHandler.run, hn]
    rfl
  | badNumber hn =>
    rw [Task.run, OperandHandler.run, hn]
    rfl
  | signNoLexeme hl =>
    rw [Task.run, OperandHandler.run, lexeme_of_none hl]
    rfl
  | signFails hl _ ih =>
    rw [Task.run, OperandHandler.run_sign _ hl]
    exact bind_of_error ih
  | sign hl _ ih =>
    rw [Task.run, OperandHandler.run_sign _ hl]
    exact (bind_of_ok ih).trans (built_apply _ _)
  | groupFails _ ih => exact bind_of_error ih
  | @group _ t _ _ _ _ _ hclose ih =>
    exact (OperandHandler.run_group (climbAll tables limit) t ih).trans
      (if_pos (congrArg some hclose))
  | @groupOpen _ t _ _ _ _ hclose ih =>
    exact (OperandHandler.run_group (climbAll tables limit) t ih).trans (if_neg hclose)
  | stop h => exact foldAll_stop _ h
  | noLookahead h => exact foldAll_nil _ _ h
  | noOperator h ht =>
    rw [Task.run, foldAll_cons _ _ _ _ h, ht]
    rfl
  | operatorFails h ht _ ih =>
    rw [Task.run, foldAll_cons _ _ _ _ h, ht]
    exact bind_of_error ih
  | operators h ht _ _ ihop ihfold =>
    rw [Task.run, foldAll_cons _ _ _ _ h, ht]
    exact (bind_of_ok ihop).trans ihfold
  | @operatorNoLexeme handler _ _ _ _ hl =>
    cases handler <;> rw [Task.run, OperatorHandler.run, lexeme_of_none hl] <;> rfl
  | infixFails hl hm _ ih =>
    rw [Task.run, OperatorHandler.run_binary _ hl hm]
    exact bind_of_error ih
  | infixed hl hm _ ih =>
    rw [Task.run, OperatorHandler.run_binary _ hl hm]
    exact (bind_of_ok ih).trans (built_apply _ _)
  | postfixed hl =>
    rw [Task.run, OperatorHandler.run, lexeme_of_some hl]
    exact built_apply _ _

/-! ## Every task ends -/

/-- The task has a derivation, which leaves an end of the tokens. -/
def Ends (tables : Tables) (limit : Int) (task : Task) (d : Nat) (ts : List Token) : Prop :=
  ∃ out rest, Parses tables limit task d ts out rest ∧ rest <:+ ts

theorem ends_operand {d : Nat} {ts : List Token}
    (hx : ∀ min, Ends tables limit (.expression min) d ts) (handler : OperandHandler) (t : Token) :
    Ends tables limit (.operand handler t) d ts := by
  cases handler with
  | number =>
    cases hn : Literal.read t.text.toList with
    | ok n => exact ⟨_, ts, .number hn, List.suffix_refl ts⟩
    | error r => exact ⟨_, ts, .badNumber hn, List.suffix_refl ts⟩
  | sign =>
    cases hl : t.kind.lexeme? with
    | none => exact ⟨_, ts, .signNoLexeme hl, List.suffix_refl ts⟩
    | some op =>
      obtain ⟨out, rest, h, hr⟩ := hx (bindingPower op)
      cases out with
      | ok x => exact ⟨_, rest, .sign hl h, hr⟩
      | error e => exact ⟨_, rest, .signFails hl h, hr⟩
  | group =>
    obtain ⟨out, rest, h, hr⟩ := hx 0
    cases out with
    | error e => exact ⟨_, rest, .groupFails h, hr⟩
    | ok x =>
      have htail : rest.tail <:+ ts := (List.tail_suffix rest).trans hr
      -- The token after the inner expression is read, whether it closes the group or not.
      by_cases hclose : rest.head?.map Token.kind = some .rparen
      · cases rest with
        | nil => cases hclose
        | cons close rest => exact ⟨_, rest, .group h (Option.some.inj hclose), htail⟩
      · exact ⟨_, rest.tail, .groupOpen h hclose, htail⟩

theorem ends_operator {d : Nat} {ts : List Token}
    (hx : ∀ min, Ends tables limit (.expression min) d ts) (handler : OperatorHandler)
    (left : Expr) (t : Token) : Ends tables limit (.operator handler left t) d ts := by
  cases hl : t.kind.lexeme? with
  | none => exact ⟨_, ts, .operatorNoLexeme hl, List.suffix_refl ts⟩
  | some op =>
    cases hm : handler.rightMin? op with
    | none =>
      cases handler with
      | postfixed => exact ⟨_, ts, .postfixed hl, List.suffix_refl ts⟩
      | leftInfix => cases hm
      | rightInfix => cases hm
    | some m =>
      obtain ⟨out, rest, h, hr⟩ := hx m
      cases out with
      | ok x => exact ⟨_, rest, .infixed hl hm h, hr⟩
      | error e => exact ⟨_, rest, .infixFails hl hm h, hr⟩

/-- Reading an expression reads a token, and what it does after that it does on fewer tokens. -/
theorem ends_expression {ts : List Token}
    (hexpr : ∀ ts', ts'.length < ts.length → ∀ d min, Ends tables limit (.expression min) d ts')
    (hfold : ∀ ts', ts'.length < ts.length →
      ∀ d min left, Ends tables limit (.operators min left) d ts') (d : Nat) (min : Int) :
    Ends tables limit (.expression min) d ts := by
  rcases Int.lt_or_le d limit with h | h
  · cases ts with
    | nil => exact ⟨_, [], .exhausted h, List.suffix_refl []⟩
    | cons t ts =>
      cases ht : tables.operand t.kind with
      | none => exact ⟨_, ts, .noOperand h ht, List.suffix_cons t ts⟩
      | some handler =>
        obtain ⟨out, mid, hop, hmid⟩ :=
          ends_operand (hexpr ts (Nat.lt_succ_self _) (d + 1)) handler t
        cases out with
        | error e => exact ⟨_, mid, .operandFails h ht hop, hmid.trans (List.suffix_cons t ts)⟩
        | ok left =>
          obtain ⟨out, rest, hf, hr⟩ :=
            hfold mid (Nat.lt_succ_of_le hmid.length_le) (d + 1) min left
          exact ⟨out, rest, .expression h ht hop hf,
            hr.trans (hmid.trans (List.suffix_cons t ts))⟩
  · exact ⟨_, ts.tail, .tooDeep h, List.tail_suffix ts⟩

/-- Folding ends, or reads a token and goes on with fewer. -/
theorem ends_operators {ts : List Token}
    (hexpr : ∀ ts', ts'.length < ts.length → ∀ d min, Ends tables limit (.expression min) d ts')
    (hfold : ∀ ts', ts'.length < ts.length →
      ∀ d min left, Ends tables limit (.operators min left) d ts') (d : Nat) (min : Int)
    (left : Expr) : Ends tables limit (.operators min left) d ts := by
  rcases Int.lt_or_le min (nextPower ts) with h | h
  · cases ts with
    | nil => exact ⟨_, [], .noLookahead h, List.suffix_refl []⟩
    | cons t ts =>
      cases ht : tables.operator t.kind with
      | none => exact ⟨_, ts, .noOperator h ht, List.suffix_cons t ts⟩
      | some handler =>
        obtain ⟨out, mid, hop, hmid⟩ :=
          ends_operator (hexpr ts (Nat.lt_succ_self _) d) handler left t
        cases out with
        | error e => exact ⟨_, mid, .operatorFails h ht hop, hmid.trans (List.suffix_cons t ts)⟩
        | ok tree =>
          obtain ⟨out, rest, hf, hr⟩ := hfold mid (Nat.lt_succ_of_le hmid.length_le) d min tree
          exact ⟨out, rest, .operators h ht hop hf, hr.trans (hmid.trans (List.suffix_cons t ts))⟩
  · exact ⟨_, ts, .stop h, List.suffix_refl ts⟩

theorem ends_readers (n : Nat) : ∀ ts : List Token, ts.length ≤ n →
    (∀ d min, Ends tables limit (.expression min) d ts) ∧
      ∀ d min left, Ends tables limit (.operators min left) d ts := by
  induction n with
  | zero =>
    intro ts hn
    have hnone : ∀ ts' : List Token, ¬ ts'.length < ts.length := by omega
    exact ⟨ends_expression (fun ts' h => absurd h (hnone ts')) fun ts' h => absurd h (hnone ts'),
      ends_operators (fun ts' h => absurd h (hnone ts')) fun ts' h => absurd h (hnone ts')⟩
  | succ n ih =>
    intro ts hn
    -- Each reader calls the other on fewer tokens only, so both are proved together.
    have hexpr := fun (ts' : List Token) (h : ts'.length < ts.length) => (ih ts' (by omega)).1
    have hfold := fun (ts' : List Token) (h : ts'.length < ts.length) => (ih ts' (by omega)).2
    exact ⟨ends_expression hexpr hfold, ends_operators hexpr hfold⟩

/-- Every task has a derivation on every list of tokens, and it leaves an end of the list. -/
theorem exists_parses (tables : Tables) (limit : Int) (task : Task) (d : Nat) (ts : List Token) :
    Ends tables limit task d ts := by
  have hreaders := @ends_readers tables limit ts.length ts (Nat.le_refl _)
  cases task with
  | expression min => exact hreaders.1 d min
  | operand handler t => exact ends_operand (hreaders.1 d) handler t
  | operators min left => exact hreaders.2 d min left
  | operator handler left t => exact ends_operator (hreaders.1 d) handler left t

theorem endsWith_inj {ε σ α : Type} {out out' : Except ε α} {s s' : σ}
    (h : endsWith out s = endsWith out' s') : out = out' ∧ s = s' := by
  cases out <;> cases out' <;> cases h <;> exact ⟨rfl, rfl⟩

/-- A task has no two derivations that end differently. -/
theorem Parses.unique {task : Task} {d : Nat} {ts rest rest' : List Token}
    {out out' : Except Failure Expr} (h : Parses tables limit task d ts out rest)
    (h' : Parses tables limit task d ts out' rest') : out = out' ∧ rest = rest' := by
  obtain ⟨rfl, hs⟩ := endsWith_inj (h.run_eq.symm.trans h'.run_eq)
  cases hs
  exact ⟨rfl, rfl⟩

theorem Parses.suffix {task : Task} {d : Nat} {ts rest : List Token} {out : Except Failure Expr}
    (h : Parses tables limit task d ts out rest) : rest <:+ ts := by
  obtain ⟨out', rest', h', hr⟩ := exists_parses tables limit task d ts
  obtain ⟨-, rfl⟩ := h.unique h'
  exact hr

end ArithSyntax
