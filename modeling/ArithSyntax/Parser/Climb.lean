import ArithSyntax.Parser.Failure
import ArithSyntax.Parser.Tables
import ArithSyntax.Run

/-!
# Precedence climbing

An expression is one operand followed by operators. The operand is read as its first token's entry
in the tables says; then every operator that binds tighter than a given minimum is folded into the
tree, and the first that does not is left unread. Signs, groups and infix operators read their own
operands in the same way, with a minimum of their own.

Each expression within an expression counts against a limit. The limit is checked after the first
token was read, and before its entry is looked up.

`climb` takes the number of tokens that it may read. On an exhausted stream every call ends without
reading, and in that way the call also ends when it may read no more; so a number that is not
smaller than that of the unread tokens bounds nothing.
-/

set_option autoImplicit false

namespace ArithSyntax

/-- What a parser changes as it runs: the tokens still unread, and the number of expressions it is
inside of. -/
structure Progress where
  unread : List Token
  depth : Nat
deriving DecidableEq

/-- A run that yields a value or fails, and in both cases leaves the tokens that it has not read. -/
abbrev ParseM := EStateM Failure Progress

namespace ParseM

/-- Fails because of the tokens. -/
def refuse {α : Type} (e : ParseError) : ParseM α :=
  throw (.parsing e)

/-- The next token, which stays unread. -/
def peek : ParseM (Option Token) := fun s =>
  .ok s.unread.head? s

/-- Reads the next token. -/
def next : ParseM (Option Token) := fun s =>
  .ok s.unread.head? { s with unread := s.unread.tail }

/-- The binding power of the next token, and `0` at the end. -/
def peekPower : ParseM Nat := fun s =>
  .ok (s.unread.head?.elim 0 fun t => t.kind.power) s

/-- Runs `body` inside one more expression, if the limit admits one more. The depth is lowered again
when `body` ends, however it ends. -/
def nested {α : Type} (limit : Int) (first? : Option Token) (body : ParseM α) : ParseM α := fun s =>
  if limit ≤ s.depth then refuse (.depthExceeded limit first?) s
  else
    match body { s with depth := s.depth + 1 } with
    | .ok a s => .ok a { s with depth := s.depth - 1 }
    | .error e s => .error e { s with depth := s.depth - 1 }

/-- The lexeme of an operator token. It depends on the token's kind alone. -/
def lexeme (t : Token) : ParseM String :=
  match t.kind.lexeme? with
  | some lexeme => pure lexeme
  | none => throw (.noLexeme t.kind)

/-- The tree that an operator makes, if it is one of its place. -/
def built (tree : Except OperatorError Expr) : ParseM Expr :=
  match tree with
  | .ok tree => pure tree
  | .error e => throw (.operator e)

end ParseM

open ParseM

/-- Reads the operand that starts with `t`, with `parse` for the expressions inside it. -/
def OperandHandler.run (parse : Int → ParseM Expr) (t : Token) : OperandHandler → ParseM Expr
  | number =>
      match Literal.read t.text.toList with
      | .ok n => pure (.literal n)
      | .error refusal => refuse (.ofRefusal t refusal)
  | sign => do
      let op ← lexeme t
      let operand ← parse (bindingPower op)
      built (Expr.applyPrefix op operand)
  | group => do
      let inner ← parse 0
      let close ← next
      if close.map Token.kind = some .rparen then pure inner else refuse (.unbalanced close)

/-- Folds the operator `t` into the tree before it, with `parse` for its right operand. -/
def OperatorHandler.run (parse : Int → ParseM Expr) (left : Expr) (t : Token) :
    OperatorHandler → ParseM Expr
  | leftInfix => do
      let op ← lexeme t
      let right ← parse (bindingPower op)
      built (Expr.applyInfix op left right)
  | rightInfix => do
      let op ← lexeme t
      let right ← parse ((bindingPower op : Int) - 1)
      built (Expr.applyInfix op left right)
  | postfixed => do
      let op ← lexeme t
      built (Expr.applyPostfix op left)

/-- Reads the operand whose first token is `first?`. -/
def readOperand (tables : Tables) (parse : Int → ParseM Expr) (first? : Option Token) :
    ParseM Expr :=
  match first? with
  | none => refuse (.unexpectedPrefix none)
  | some t =>
      match tables.operand t.kind with
      | none => refuse (.unexpectedPrefix (some t))
      | some handler => handler.run parse t

/-- Folds at most `n` operators that bind tighter than `min` into the tree before them. -/
def foldOperators (tables : Tables) (parse : Int → ParseM Expr) (min : Int) :
    Nat → Expr → ParseM Expr
  | 0, left => if min < 0 then throw .noLookahead else pure left
  | n + 1, left => do
      if (← peekPower) ≤ min then
        pure left
      else
        match ← next with
        | none => throw .noLookahead
        | some t =>
            match tables.operator t.kind with
            | none => refuse (.unexpectedInfix t)
            | some handler => do foldOperators tables parse min n (← handler.run parse left t)

/-- Reads one operand and the operators after it that bind tighter than `min`, from at most `n`
tokens. -/
def climb (tables : Tables) (limit : Int) : Nat → Int → ParseM Expr
  | 0, _ => nested limit none (refuse (.unexpectedPrefix none))
  | n + 1, min => do
      let first? ← next
      nested limit first? do
        let left ← readOperand tables (climb tables limit n) first?
        foldOperators tables (climb tables limit n) min n left

/-- Reads an expression and requires that the tokens end after it. -/
def readExpression (tables : Tables) (limit : Int) (n : Nat) : ParseM Expr := do
  let tree ← climb tables limit n 0
  match ← peek with
  | none => pure tree
  | some t => if t.kind = .eof then pure tree else refuse (.trailing t)

end ArithSyntax
