import ArithSyntax.Parser.Climb

/-!
# Relations between runs that the parser's pieces keep

The handlers, `readOperand` and `foldOperators` are put together from a few operations on runs. A
relation between runs that each of these operations keeps relates all of them, as soon as it relates
the two readers of inner expressions (`Congruence.foldOperators`). Only `climb` itself counts the
nesting, so it is for each relation to say what one more level does to it.

The depth error is left out of `Congruence.fail`, because no handler raises it; so a congruence may
state that the depth error does not occur.
-/

set_option autoImplicit false

namespace ArithSyntax

/-- The failure of one nested expression too many. -/
def Failure.IsDepth : Failure → Prop
  | .parsing (.depthExceeded _ _) => True
  | _ => False

open ParseM

/-- A relation between runs that sequencing and the operations of the parser keep. -/
structure Congruence (rel : (α : Type) → ParseM α → ParseM α → Prop) : Prop where
  pure : ∀ {α : Type} (a : α), rel α (pure a) (pure a)
  fail : ∀ {α : Type} (e : Failure), ¬ e.IsDepth → rel α (throw e) (throw e)
  bind : ∀ {α β : Type} {m m' : ParseM α} {f f' : α → ParseM β}, rel α m m' →
    (∀ a, rel β (f a) (f' a)) → rel β (m >>= f) (m' >>= f')
  next : rel (Option Token) next next
  peekPower : rel Nat peekPower peekPower

namespace Congruence

variable {rel : (α : Type) → ParseM α → ParseM α → Prop} {parse parse' : Int → ParseM Expr}

theorem refuse (C : Congruence rel) {α : Type} (e : ParseError)
    (h : ¬ (Failure.parsing e).IsDepth) :
    rel α (ParseM.refuse e) (ParseM.refuse e) :=
  C.fail _ h

theorem lexeme (C : Congruence rel) (t : Token) :
    rel String (ParseM.lexeme t) (ParseM.lexeme t) := by
  unfold ParseM.lexeme
  split
  · exact C.pure _
  · exact C.fail _ id

theorem built (C : Congruence rel) (tree : Except OperatorError Expr) :
    rel Expr (ParseM.built tree) (ParseM.built tree) := by
  unfold ParseM.built
  split
  · exact C.pure _
  · exact C.fail _ id

theorem runOperand (C : Congruence rel) (inner : ∀ min, rel Expr (parse min) (parse' min))
    (t : Token) (handler : OperandHandler) :
    rel Expr (handler.run parse t) (handler.run parse' t) := by
  cases handler with
  | number =>
      unfold OperandHandler.run
      dsimp only
      split
      · exact C.pure _
      · exact C.refuse _ id
  | sign => exact C.bind (C.lexeme t) fun _ => C.bind (inner _) fun _ => C.built _
  | group =>
      refine C.bind (inner 0) fun _ => C.bind C.next fun _ => ?_
      split
      · exact C.pure _
      · exact C.refuse _ id

theorem runOperator (C : Congruence rel) (inner : ∀ min, rel Expr (parse min) (parse' min))
    (left : Expr) (t : Token) (handler : OperatorHandler) :
    rel Expr (handler.run parse left t) (handler.run parse' left t) := by
  cases handler with
  | leftInfix => exact C.bind (C.lexeme t) fun _ => C.bind (inner _) fun _ => C.built _
  | rightInfix => exact C.bind (C.lexeme t) fun _ => C.bind (inner _) fun _ => C.built _
  | postfixed => exact C.bind (C.lexeme t) fun _ => C.built _

theorem readOperand (C : Congruence rel) (tables : Tables)
    (inner : ∀ min, rel Expr (parse min) (parse' min)) (first? : Option Token) :
    rel Expr (readOperand tables parse first?) (readOperand tables parse' first?) := by
  unfold ArithSyntax.readOperand
  split
  · exact C.refuse _ id
  · split
    · exact C.refuse _ id
    · exact C.runOperand inner _ _

/-- Folding keeps the relation. The induction is on the number of operators that may be folded; the
tree before them changes with each. -/
theorem foldOperators (C : Congruence rel) (tables : Tables)
    (inner : ∀ min, rel Expr (parse min) (parse' min)) (min : Int) (n : Nat) (left : Expr) :
    rel Expr (foldOperators tables parse min n left) (foldOperators tables parse' min n left) := by
  induction n generalizing left with
  | zero =>
      unfold ArithSyntax.foldOperators
      split
      · exact C.fail _ id
      · exact C.pure _
  | succ n ih =>
      unfold ArithSyntax.foldOperators
      refine C.bind C.peekPower fun _ => ?_
      split
      · exact C.pure _
      · refine C.bind C.next fun _ => ?_
        split
        · exact C.fail _ id
        · split
          · exact C.refuse _ id
          · exact C.bind (C.runOperator inner _ _ _) fun _ => ih _

/-- What `climb` does on one level keeps the relation. -/
theorem body (C : Congruence rel) (tables : Tables)
    (inner : ∀ min, rel Expr (parse min) (parse' min)) (min : Int) (n : Nat)
    (first? : Option Token) :
    rel Expr (ArithSyntax.readOperand tables parse first? >>=
        ArithSyntax.foldOperators tables parse min n)
      (ArithSyntax.readOperand tables parse' first? >>=
        ArithSyntax.foldOperators tables parse' min n) :=
  C.bind (C.readOperand tables inner first?) fun left => C.foldOperators tables inner min n left

end Congruence

end ArithSyntax
