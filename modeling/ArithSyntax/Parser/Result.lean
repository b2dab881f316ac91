import ArithSyntax.Parser.Basic

/-!
# Parse results

A parse result keeps the outcome of reading an expression as data: the tree, or the error that the
tokens gave rise to. Faults in how the parser was set up are not kept; they stay failures.

A caller may also put a result together, with both parts or with neither.
-/

set_option autoImplicit false

namespace ArithSyntax

/-- A tree or an error. -/
structure ParseResult (ε : Type) where
  tree : Option Expr
  error : Option ε
deriving DecidableEq

/-- Why a parse result holds no tree to give. -/
inductive NoTree (ε : Type) where
  | error (e : ε)
  | empty
deriving DecidableEq

namespace ParseResult

variable {ε : Type}

/-- There is no error. -/
def ok (r : ParseResult ε) : Bool :=
  r.error.isNone

/-- The tree. An error counts even when there is a tree beside it. -/
def unwrap (r : ParseResult ε) : Except (NoTree ε) Expr :=
  match r.error, r.tree with
  | some e, _ => .error (.error e)
  | none, some tree => .ok tree
  | none, none => .error .empty

end ParseResult

/-- Reads an expression, after which the tokens must end, and keeps a parse error. -/
def Parser.parseResult (p : Parser) : Run Failure Parser (ParseResult ParseError) :=
  match p.parseExpression with
  | .ok tree p => .ok ⟨some tree, none⟩ p
  | .error (.parsing e) p => .ok ⟨none, some e⟩ p
  | .error e p => .error e p

end ArithSyntax
