import ArithSyntax.Text.Quoted

/-!
# Operators of expression trees

An operator stands before its operand, between two operands, or after its operand. Each of the
three places has its own closed set of operators. A symbol is read for one place at a time, so `-`
is a prefix operator and an infix operator, and `!` neither.
-/

set_option autoImplicit false

namespace ArithSyntax

/-- Where an operator stands. -/
inductive Fixity where
  | before
  | between
  | after
deriving DecidableEq

/-- The signs that stand before an operand. -/
inductive PrefixOp where
  | pos
  | neg
deriving DecidableEq

/-- The operators that stand between two operands. -/
inductive InfixOp where
  | mul
  | add
  | sub
  | div
  | pow
deriving DecidableEq

/-- The operators that stand after an operand. -/
inductive PostfixOp where
  | factorial
deriving DecidableEq

namespace PrefixOp

/-- All signs, ordered by their symbols. -/
def all : List PrefixOp := [pos, neg]

/-- How the sign is written. -/
def symbol : PrefixOp → String
  | pos => "+"
  | neg => "-"

/-- The sign that is written so. -/
def ofSymbol? (s : String) : Option PrefixOp :=
  all.find? fun op => op.symbol = s

theorem ofSymbol?_symbol (op : PrefixOp) : ofSymbol? op.symbol = some op := by
  cases op <;> decide

theorem symbol_of_ofSymbol? {s : String} {op : PrefixOp} (h : ofSymbol? s = some op) :
    op.symbol = s := by
  simpa using List.find?_some h

end PrefixOp

namespace InfixOp

/-- All infix operators, ordered by their symbols. -/
def all : List InfixOp := [mul, add, sub, div, pow]

/-- How the operator is written. -/
def symbol : InfixOp → String
  | mul => "*"
  | add => "+"
  | sub => "-"
  | div => "/"
  | pow => "^"

/-- The infix operator that is written so. -/
def ofSymbol? (s : String) : Option InfixOp :=
  all.find? fun op => op.symbol = s

theorem ofSymbol?_symbol (op : InfixOp) : ofSymbol? op.symbol = some op := by
  cases op <;> decide

theorem symbol_of_ofSymbol? {s : String} {op : InfixOp} (h : ofSymbol? s = some op) :
    op.symbol = s := by
  simpa using List.find?_some h

end InfixOp

namespace PostfixOp

/-- All postfix operators. -/
def all : List PostfixOp := [factorial]

/-- How the operator is written. -/
def symbol : PostfixOp → String
  | factorial => "!"

/-- The postfix operator that is written so. -/
def ofSymbol? (s : String) : Option PostfixOp :=
  all.find? fun op => op.symbol = s

theorem ofSymbol?_symbol (op : PostfixOp) : ofSymbol? op.symbol = some op := by
  cases op
  decide

theorem symbol_of_ofSymbol? {s : String} {op : PostfixOp} (h : ofSymbol? s = some op) :
    op.symbol = s := by
  simpa using List.find?_some h

end PostfixOp

namespace Fixity

/-- The symbols that may stand at this place, ordered by code point. -/
def symbols : Fixity → List String
  | before => PrefixOp.all.map PrefixOp.symbol
  | between => InfixOp.all.map InfixOp.symbol
  | after => PostfixOp.all.map PostfixOp.symbol

/-- The name of the place at the start of a message. -/
def title : Fixity → String
  | before => "Prefix"
  | between => "Infix"
  | after => "Postfix"

end Fixity

/-- A symbol that is no operator of its place. -/
structure OperatorError where
  fixity : Fixity
  given : String
deriving DecidableEq

/-- The wording names the place, the operators it admits, and the symbol that was given. -/
def OperatorError.message (e : OperatorError) : String :=
  e.fixity.title ++ " operator must be one of [" ++
    ", ".intercalate (e.fixity.symbols.map Text.quote) ++ "], got " ++ Text.quote e.given

end ArithSyntax
