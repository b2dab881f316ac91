import ArithSyntax.Expr.Operator

/-!
# Expression trees

An expression is an integer literal or an operator applied to its operands. The type admits only
operators of the right place; `Expr.applyPrefix`, `Expr.applyInfix` and `Expr.applyPostfix` build a
node from an operator that is still a text, and refuse a text that is no operator there.

`Expr.render` writes a tree in infix form with a pair of parentheses around every operator node.
-/

set_option autoImplicit false

namespace ArithSyntax

/-- Arithmetic expressions. A literal may be negative, though no literal that is read from source
text is. -/
inductive Expr where
  | literal (value : Int)
  | prefixed (op : PrefixOp) (operand : Expr)
  | binary (op : InfixOp) (left right : Expr)
  | postfixed (op : PostfixOp) (operand : Expr)
deriving DecidableEq

namespace Expr

/-- The fully parenthesised infix form. -/
def render : Expr → String
  | literal n => toString n
  | prefixed op x => "(" ++ op.symbol ++ x.render ++ ")"
  | binary op l r => "(" ++ l.render ++ op.symbol ++ r.render ++ ")"
  | postfixed op x => "(" ++ x.render ++ op.symbol ++ ")"

/-- Applies the sign written `symbol`. -/
def applyPrefix (symbol : String) (x : Expr) : Except OperatorError Expr :=
  match PrefixOp.ofSymbol? symbol with
  | some op => .ok (prefixed op x)
  | none => .error ⟨.before, symbol⟩

/-- Applies the infix operator written `symbol`. -/
def applyInfix (symbol : String) (l r : Expr) : Except OperatorError Expr :=
  match InfixOp.ofSymbol? symbol with
  | some op => .ok (binary op l r)
  | none => .error ⟨.between, symbol⟩

/-- Applies the postfix operator written `symbol`. -/
def applyPostfix (symbol : String) (x : Expr) : Except OperatorError Expr :=
  match PostfixOp.ofSymbol? symbol with
  | some op => .ok (postfixed op x)
  | none => .error ⟨.after, symbol⟩

/-- The symbol of a sign applies that sign. -/
theorem applyPrefix_symbol (op : PrefixOp) (x : Expr) :
    applyPrefix op.symbol x = .ok (prefixed op x) := by
  rw [applyPrefix, PrefixOp.ofSymbol?_symbol]

/-- The symbol of an infix operator applies that operator. -/
theorem applyInfix_symbol (op : InfixOp) (l r : Expr) :
    applyInfix op.symbol l r = .ok (binary op l r) := by
  rw [applyInfix, InfixOp.ofSymbol?_symbol]

/-- The symbol of a postfix operator applies that operator. -/
theorem applyPostfix_symbol (op : PostfixOp) (x : Expr) :
    applyPostfix op.symbol x = .ok (postfixed op x) := by
  rw [applyPostfix, PostfixOp.ofSymbol?_symbol]

/-- A text that applies as a sign is the symbol of that sign. -/
theorem eq_prefixed_of_applyPrefix {symbol : String} {x t : Expr}
    (h : applyPrefix symbol x = .ok t) : ∃ op, symbol = PrefixOp.symbol op ∧ t = prefixed op x := by
  unfold applyPrefix at h
  split at h
  · next op hop =>
      cases h
      exact ⟨op, (PrefixOp.symbol_of_ofSymbol? hop).symm, rfl⟩
  · cases h

/-- A text that applies as an infix operator is the symbol of that operator. -/
theorem eq_binary_of_applyInfix {symbol : String} {l r t : Expr}
    (h : applyInfix symbol l r = .ok t) : ∃ op, symbol = InfixOp.symbol op ∧ t = binary op l r := by
  unfold applyInfix at h
  split at h
  · next op hop =>
      cases h
      exact ⟨op, (InfixOp.symbol_of_ofSymbol? hop).symm, rfl⟩
  · cases h

/-- A text that applies as a postfix operator is the symbol of that operator. -/
theorem eq_postfixed_of_applyPostfix {symbol : String} {x t : Expr}
    (h : applyPostfix symbol x = .ok t) :
    ∃ op, symbol = PostfixOp.symbol op ∧ t = postfixed op x := by
  unfold applyPostfix at h
  split at h
  · next op hop =>
      cases h
      exact ⟨op, (PostfixOp.symbol_of_ofSymbol? hop).symm, rfl⟩
  · cases h

end Expr

end ArithSyntax
