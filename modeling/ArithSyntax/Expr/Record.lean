import ArithSyntax.Expr.Basic

/-!
# Trees as plain records

The form in which a tree is exchanged: every node says which of the four variants it is, and an
operator is its symbol. A record may name an operator that its place does not admit;
`Record.toExpr` builds the tree bottom-up, left before right, and refuses the first such operator.

## Main statements

* `Record.toExpr_toRecord`: a tree is built again from its record.
* `Record.eq_toRecord_of_toExpr`: a record that builds a tree is the record of that tree.
-/

set_option autoImplicit false

namespace ArithSyntax

/-- A tree whose operators are symbols. -/
inductive Record where
  | value (n : Int)
  | prefixed (symbol : String) (operand : Record)
  | binary (symbol : String) (left right : Record)
  | postfixed (symbol : String) (operand : Record)
deriving DecidableEq

/-- The record of a tree. -/
def Expr.toRecord : Expr → Record
  | literal n => .value n
  | prefixed op x => .prefixed op.symbol x.toRecord
  | binary op l r => .binary op.symbol l.toRecord r.toRecord
  | postfixed op x => .postfixed op.symbol x.toRecord

namespace Record

/-- The tree of a record, or the first operator that its place does not admit. -/
def toExpr : Record → Except OperatorError Expr
  | value n => .ok (.literal n)
  | prefixed symbol x => do Expr.applyPrefix symbol (← x.toExpr)
  | binary symbol l r => do
      let left ← l.toExpr
      let right ← r.toExpr
      Expr.applyInfix symbol left right
  | postfixed symbol x => do Expr.applyPostfix symbol (← x.toExpr)

/-- A tree is built again from its record. -/
theorem toExpr_toRecord (e : Expr) : e.toRecord.toExpr = .ok e := by
  induction e with
  | literal n => rfl
  | prefixed op x ih =>
      simp [Expr.toRecord, toExpr, ih, Expr.applyPrefix_symbol, bind, Except.bind]
  | binary op l r ihl ihr =>
      simp [Expr.toRecord, toExpr, ihl, ihr, Expr.applyInfix_symbol, bind, Except.bind]
  | postfixed op x ih =>
      simp [Expr.toRecord, toExpr, ih, Expr.applyPostfix_symbol, bind, Except.bind]

/-- A record that builds a tree is the record of that tree. -/
theorem eq_toRecord_of_toExpr {r : Record} {e : Expr} (h : r.toExpr = .ok e) :
    r = e.toRecord := by
  induction r generalizing e with
  | value n =>
      cases h
      rfl
  | prefixed symbol x ih =>
      cases hx : x.toExpr with
      | error err => simp [toExpr, hx, bind, Except.bind] at h
      | ok y =>
          simp only [toExpr, hx, bind, Except.bind, Expr.applyPrefix] at h
          split at h
          · next op hop =>
              cases h
              simp [Expr.toRecord, PrefixOp.symbol_of_ofSymbol? hop, ← ih hx]
          · cases h
  | binary symbol l r ihl ihr =>
      cases hl : l.toExpr with
      | error err => simp [toExpr, hl, bind, Except.bind] at h
      | ok left =>
          cases hr : r.toExpr with
          | error err => simp [toExpr, hl, hr, bind, Except.bind] at h
          | ok right =>
              simp only [toExpr, hl, hr, bind, Except.bind, Expr.applyInfix] at h
              split at h
              · next op hop =>
                  cases h
                  simp [Expr.toRecord, InfixOp.symbol_of_ofSymbol? hop, ← ihl hl, ← ihr hr]
              · cases h
  | postfixed symbol x ih =>
      cases hx : x.toExpr with
      | error err => simp [toExpr, hx, bind, Except.bind] at h
      | ok y =>
          simp only [toExpr, hx, bind, Except.bind, Expr.applyPostfix] at h
          split at h
          · next op hop =>
              cases h
              simp [Expr.toRecord, PostfixOp.symbol_of_ofSymbol? hop, ← ih hx]
          · cases h

end Record

end ArithSyntax
