import ArithSyntax.Token.Kind

/-!
# Handler tables

What a token does is looked up by its kind, in three tables: how it starts an operand, how it joins
two operands, how it follows one. A kind without an entry does nothing of that sort. The tables are
data, so that a caller may give a kind another meaning; they leave its binding power as it is.
-/

set_option autoImplicit false

namespace ArithSyntax

/-- The ways to start an operand. -/
inductive OperandHandler where
  /-- The token is an integer literal. -/
  | number
  /-- The token is a sign before its operand. -/
  | sign
  /-- The token opens a group that a closing parenthesis ends. -/
  | group
deriving DecidableEq

/-- The ways to go on after an operand. -/
inductive OperatorHandler where
  /-- A right operand follows, and an equal operator after it takes the whole as its left one. -/
  | leftInfix
  /-- A right operand follows, and takes an equal operator after it into itself. -/
  | rightInfix
  /-- No operand follows. -/
  | postfixed
deriving DecidableEq

/-- What each kind of token does. -/
structure Tables where
  operand : Kind → Option OperandHandler
  infixed : Kind → Option OperatorHandler
  postfixed : Kind → Option OperatorHandler

namespace Tables

/-- The tables of ordinary arithmetic. -/
def standard : Tables where
  operand
    | .number => some .number
    | .plus => some .sign
    | .minus => some .sign
    | .lparen => some .group
    | _ => none
  infixed
    | .plus => some .leftInfix
    | .minus => some .leftInfix
    | .star => some .leftInfix
    | .slash => some .leftInfix
    | .caret => some .rightInfix
    | _ => none
  postfixed
    | .bang => some .postfixed
    | _ => none

/-- The handler of a kind that follows an operand. An infix entry hides a postfix one. -/
def operator (t : Tables) (k : Kind) : Option OperatorHandler :=
  t.infixed k <|> t.postfixed k

/-- The table with the entry of one kind replaced, or removed. -/
def entry {α : Type} (table : Kind → Option α) (k : Kind) (new : Option α) : Kind → Option α :=
  fun other => if other = k then new else table other

/-- Replaces or removes how a kind starts an operand. -/
def setOperand (t : Tables) (k : Kind) (new : Option OperandHandler) : Tables :=
  { t with operand := entry t.operand k new }

/-- Replaces or removes how a kind joins two operands. -/
def setInfixed (t : Tables) (k : Kind) (new : Option OperatorHandler) : Tables :=
  { t with infixed := entry t.infixed k new }

/-- Replaces or removes how a kind follows an operand. -/
def setPostfixed (t : Tables) (k : Kind) (new : Option OperatorHandler) : Tables :=
  { t with postfixed := entry t.postfixed k new }

end Tables

end ArithSyntax
