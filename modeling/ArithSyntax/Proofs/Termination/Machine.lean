import ArithSyntax.Proofs.Climb.Parsers
import Mathlib.Logic.Relation

/-!
# Climbing in single steps

The readers of an expression call each other: an expression calls the handler of its first token and
those of its operators, and these call for further expressions. The machine makes these calls one at
a time. It has a stack on which each reader that has called another leaves what it is going to do
with the result, and nothing in it bounds the number of its steps.

## Main statements

* `Parses.reaches`: the machine gets from a task to the outcome that the task ends in, with the
  tokens left that the task leaves, and with the stack and the depth as they were.
-/

set_option autoImplicit false

namespace ArithSyntax

/-- What a reader that has called another does with the result. -/
inductive Frame where
  /-- Leave an expression. -/
  | leave
  /-- Fold the operators that bind tighter than `min` into the tree. -/
  | fold (min : Int)
  /-- Apply the sign `op` to the tree. -/
  | sign (op : String)
  /-- Read the token that has to close the group. -/
  | group
  /-- Apply the infix operator `op` to `left` and the tree. -/
  | right (op : String) (left : Expr)

/-- What the machine is about: a task that it takes up, or an outcome that it hands back. -/
inductive Control where
  | todo (task : Task)
  | done (out : Except Failure Expr)

/-- The readers that are under way, and what they share. -/
structure Machine where
  control : Control
  /-- What the readers that wait for the result are to do with it, the last caller first. -/
  stack : List Frame
  unread : List Token
  depth : Nat

namespace Machine

/-- Hands back an outcome. -/
def finish (m : Machine) (out : Except Failure Expr) : Machine :=
  { m with control := .done out }

/-- Takes up a task, whose result is for the readers that `frames` stand for. -/
def call (m : Machine) (task : Task) (frames : List Frame) : Machine :=
  { m with control := .todo task, stack := frames ++ m.stack }

/-- Begins an expression: its first token is read, the limit is checked, and the token's handler is
called one level further down. -/
def enter (tables : Tables) (limit min : Int) (m : Machine) : Machine :=
  let behind := { m with unread := m.unread.tail }
  if limit ≤ m.depth then
    behind.finish (.error (.parsing (.depthExceeded limit m.unread.head?)))
  else
    match m.unread.head? with
    | none => behind.finish (.error (.parsing (.unexpectedPrefix none)))
    | some t =>
        match tables.operand t.kind with
        | none => behind.finish (.error (.parsing (.unexpectedPrefix (some t))))
        | some handler =>
            { behind with depth := m.depth + 1 }.call (.operand handler t) [.fold min, .leave]

/-- Runs the handler of the token that starts an operand. -/
def startOperand (t : Token) (m : Machine) : OperandHandler → Machine
  | .number =>
      match Literal.read t.text.toList with
      | .ok n => m.finish (.ok (.literal n))
      | .error refusal => m.finish (.error (.parsing (.ofRefusal t refusal)))
  | .sign =>
      match t.kind.lexeme? with
      | none => m.finish (.error (.noLexeme t.kind))
      | some op => m.call (.expression (bindingPower op)) [.sign op]
  | .group => m.call (.expression 0) [.group]

/-- Folds the next operator into `left`, if it binds tighter than `min`: it is read and its handler
is called. -/
def foldNext (tables : Tables) (min : Int) (left : Expr) (m : Machine) : Machine :=
  if nextPower m.unread ≤ min then m.finish (.ok left)
  else
    match m.unread with
    | [] => m.finish (.error .noLookahead)
    | t :: ts =>
        match tables.operator t.kind with
        | none => { m with unread := ts }.finish (.error (.parsing (.unexpectedInfix t)))
        | some handler => { m with unread := ts }.call (.operator handler left t) [.fold min]

/-- Runs the handler of an operator. -/
def applyOperator (left : Expr) (t : Token) (m : Machine) (handler : OperatorHandler) : Machine :=
  match t.kind.lexeme? with
  | none => m.finish (.error (.noLexeme t.kind))
  | some op =>
      match handler.rightMin? op with
      | none => m.finish (applied (Expr.applyPostfix op left))
      | some min => m.call (.expression min) [.right op left]

/-- Closes a group around `tree`: one more token is read, whatever it is. -/
def close (tree : Expr) (m : Machine) : Machine :=
  let behind := { m with unread := m.unread.tail }
  if m.unread.head?.map Token.kind = some .rparen then behind.finish (.ok tree)
  else behind.finish (.error (.parsing (.unbalanced m.unread.head?)))

/-- Goes on with the reader that waits for `out`. A failure goes through to its caller; the depth is
lowered either way. -/
def resume (m : Machine) : Frame → Except Failure Expr → Machine
  | .leave, out => { m with depth := m.depth - 1 }.finish out
  | .fold min, .ok tree => m.call (.operators min tree) []
  | .sign op, .ok tree => m.finish (applied (Expr.applyPrefix op tree))
  | .group, .ok tree => m.close tree
  | .right op left, .ok tree => m.finish (applied (Expr.applyInfix op left tree))
  | _, .error e => m.finish (.error e)

/-- One step. With an outcome and nobody to hand it back to, the machine stands still. -/
def step (tables : Tables) (limit : Int) (m : Machine) : Machine :=
  match m.control with
  | .todo (.expression min) => m.enter tables limit min
  | .todo (.operand handler t) => m.startOperand t handler
  | .todo (.operators min left) => m.foldNext tables min left
  | .todo (.operator handler left t) => m.applyOperator left t handler
  | .done out =>
      match m.stack with
      | [] => m
      | frame :: stack => { m with stack := stack }.resume frame out

/-- The machine gets from `m` to `m'`. -/
abbrev Reaches (tables : Tables) (limit : Int) (m m' : Machine) : Prop :=
  Relation.ReflTransGen (fun m m' => m.step tables limit = m') m m'

end Machine

open Machine

variable {tables : Tables} {limit : Int} {d : Nat} {t : Token} {ts : List Token}
  (stack : List Frame)

/-! ## Steps that call a reader -/

theorem Machine.step_expression (min : Int) {handler : OperandHandler} (h : (d : Int) < limit)
    (ht : tables.operand t.kind = some handler) :
    step tables limit ⟨.todo (.expression min), stack, t :: ts, d⟩ =
      ⟨.todo (.operand handler t), .fold min :: .leave :: stack, ts, d + 1⟩ := by
  simp [step, enter, call, Int.not_le.2 h, ht]

theorem Machine.step_operators {min : Int} (left : Expr) {handler : OperatorHandler}
    (h : min < t.kind.power) (ht : tables.operator t.kind = some handler) :
    step tables limit ⟨.todo (.operators min left), stack, t :: ts, d⟩ =
      ⟨.todo (.operator handler left t), .fold min :: stack, ts, d⟩ := by
  simp [step, foldNext, call, Int.not_le.2 h, ht]

theorem Machine.step_sign {op : String} (hl : t.kind.lexeme? = some op) :
    step tables limit ⟨.todo (.operand .sign t), stack, ts, d⟩ =
      ⟨.todo (.expression (bindingPower op)), .sign op :: stack, ts, d⟩ := by
  simp [step, startOperand, call, hl]

theorem Machine.step_right {handler : OperatorHandler} (left : Expr) {op : String} {min : Int}
    (hl : t.kind.lexeme? = some op) (hm : handler.rightMin? op = some min) :
    step tables limit ⟨.todo (.operator handler left t), stack, ts, d⟩ =
      ⟨.todo (.expression min), .right op left :: stack, ts, d⟩ := by
  simp [step, applyOperator, call, hl, hm]

/-! ## The machine and the rules -/

/-- The machine gets from a task to its outcome, and what stands on the stack waits for that. -/
theorem Parses.reaches {task : Task} {rest : List Token} {out : Except Failure Expr}
    (h : Parses tables limit task d ts out rest) :
    Reaches tables limit ⟨.todo task, stack, ts, d⟩ ⟨.done out, stack, rest, d⟩ := by
  induction h generalizing stack with
  | tooDeep h =>
    apply Relation.ReflTransGen.single
    simp [step, enter, finish, h]
  | exhausted h =>
    apply Relation.ReflTransGen.single
    simp [step, enter, finish, Int.not_le.2 h]
  | noOperand h ht =>
    apply Relation.ReflTransGen.single
    simp [step, enter, finish, Int.not_le.2 h, ht]
  | @operandFails min _ _ _ _ _ _ h ht _ ih =>
    refine .head (step_expression stack min h ht) (.trans (ih _) ?_)
    exact .tail (.single rfl) rfl
  | @expression min _ _ _ _ _ _ _ _ h ht _ _ ihop ihfold =>
    refine .head (step_expression stack min h ht) (.trans (ihop _) ?_)
    exact .head rfl (.tail (ihfold (.leave :: stack)) rfl)
  | number hn =>
    apply Relation.ReflTransGen.single
    simp [step, startOperand, finish, hn]
  | badNumber hn =>
    apply Relation.ReflTransGen.single
    simp [step, startOperand, finish, hn]
  | signNoLexeme hl =>
    apply Relation.ReflTransGen.single
    simp [step, startOperand, finish, hl]
  | signFails hl _ ih => exact .head (step_sign stack hl) (.tail (ih _) rfl)
  | sign hl _ ih => exact .head (step_sign stack hl) (.tail (ih _) rfl)
  | groupFails _ ih => exact .head rfl (.tail (ih (.group :: stack)) rfl)
  | group _ hclose ih =>
    refine .head rfl (.tail (ih (.group :: stack)) ?_)
    simp [step, resume, close, finish, hclose]
  | groupOpen _ hclose ih =>
    refine .head rfl (.tail (ih (.group :: stack)) ?_)
    simp only [step, resume, close, if_neg hclose]
    rfl
  | stop h =>
    apply Relation.ReflTransGen.single
    simp [step, foldNext, finish, h]
  | noLookahead h =>
    apply Relation.ReflTransGen.single
    simp [step, foldNext, finish, Int.not_le.2 h]
  | noOperator h ht =>
    apply Relation.ReflTransGen.single
    simp [step, foldNext, finish, Int.not_le.2 h, ht]
  | @operatorFails _ left _ _ _ _ _ _ h ht _ ih =>
    exact .head (step_operators stack left h ht) (.tail (ih _) rfl)
  | @operators _ left _ _ _ _ _ _ _ _ h ht _ _ ihop ihfold =>
    refine .head (step_operators stack left h ht) (.trans (ihop _) ?_)
    exact .head rfl (ihfold stack)
  | operatorNoLexeme hl =>
    apply Relation.ReflTransGen.single
    simp [step, applyOperator, finish, hl]
  | @infixFails _ left _ _ _ _ _ _ _ hl hm _ ih =>
    exact .head (step_right stack left hl hm) (.tail (ih _) rfl)
  | @infixed _ left _ _ _ _ _ _ _ hl hm _ ih =>
    exact .head (step_right stack left hl hm) (.tail (ih _) rfl)
  | postfixed hl =>
    apply Relation.ReflTransGen.single
    simp [step, applyOperator, finish, hl, OperatorHandler.rightMin?]

end ArithSyntax
