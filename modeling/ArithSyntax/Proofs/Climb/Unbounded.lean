import ArithSyntax.Parser.Basic
import ArithSyntax.Parser.Bound

/-!
# Climbing without a bound

`climb` takes the number of tokens that it may read. A parser always gives it the number of tokens
that are left, so the bound can be taken from the state: `climbAll` and `foldAll` are `climb` and
`foldOperators` with the bound that the state itself sets. They satisfy the recursion equations that
know of no bound.

## Main statements

* `climbAll_eq`: an expression is a token, one more level, an operand and the operators after it.
* `foldAll_nil`, `foldAll_stop`, `foldAll_cons`: what folding does next depends on the next token.
-/

set_option autoImplicit false

namespace ArithSyntax

open ParseM

/-- The binding power of the first token, and `0` where there is none. -/
def nextPower (ts : List Token) : Nat :=
  ts.head?.elim 0 fun t => t.kind.power

@[simp] theorem nextPower_nil : nextPower [] = 0 := rfl

@[simp] theorem nextPower_cons (t : Token) (ts : List Token) :
    nextPower (t :: ts) = t.kind.power := rfl

variable (tables : Tables) (limit : Int)

/-- Reads an expression from all the tokens that are left. -/
def climbAll (min : Int) : ParseM Expr := fun s =>
  climb tables limit s.unread.length min s

/-- Folds the operators that bind tighter than `min`, from all the tokens that are left. -/
def foldAll (min : Int) (left : Expr) : ParseM Expr := fun s =>
  foldOperators tables (climbAll tables limit) min s.unread.length left s

theorem climb_agree_climbAll (n : Nat) (min : Int) :
    AgreeUpTo n (climb tables limit n min) (climbAll tables limit min) := by
  intro s h
  exact climb_eq_of_le tables limit min h (Nat.le_refl _)

theorem leavesSuffix_climbAll (min : Int) : LeavesSuffix (climbAll tables limit min) := by
  intro s
  exact leavesSuffix_climb tables limit s.unread.length min s

theorem foldOperators_agree_foldAll (n : Nat) (min : Int) (left : Expr) :
    AgreeUpTo n (foldOperators tables (climb tables limit n) min n left)
      (foldAll tables limit min left) := by
  intro s h
  obtain ⟨more, hm⟩ := Nat.exists_eq_add_of_le h
  have hshort : ∀ m, AgreeUpTo s.unread.length (climbAll tables limit m) (climb tables limit n m) :=
    fun m s' h' => (climb_agree_climbAll tables limit n m s' (Nat.le_trans h' h)).symm
  have key := foldOperators_agree tables (leavesSuffix_climbAll tables limit) hshort min more left s
    (Nat.le_refl _)
  rw [← hm] at key
  exact key.symm

/-- An expression is a token, one more level, an operand and the operators after it. -/
theorem climbAll_eq (min : Int) :
    climbAll tables limit min = (do
      let first? ← next
      nested limit first? do
        let left ← readOperand tables (climbAll tables limit) first?
        foldAll tables limit min left) := by
  funext s
  let n := s.unread.length
  have hinner : ∀ m, LeavesSuffix (climb tables limit n m) ∧
      AgreeUpTo n (climb tables limit n m) (climbAll tables limit m) :=
    fun m => ⟨leavesSuffix_climb tables limit n m, climb_agree_climbAll tables limit n m⟩
  show climb tables limit n min s = _
  rw [climb_eq tables limit min (Nat.le_refl n)]
  refine AgreeUpTo.bind leavesSuffix_next (.refl n _) (fun first? => ?_) s (Nat.le_refl n)
  have hop := (agreeUpTo_congruence n).readOperand tables hinner first?
  exact (hop.2.bind hop.1 fun left =>
    foldOperators_agree_foldAll tables limit n min left).nested limit first?

variable {tables limit}

/-- Reading an expression reads its first token, and then what follows on one more level. -/
theorem climbAll_apply (min : Int) (ts : List Token) (d : Nat) :
    climbAll tables limit min ⟨ts, d⟩ =
      nested limit ts.head? (readOperand tables (climbAll tables limit) ts.head? >>=
        foldAll tables limit min) ⟨ts.tail, d⟩ := by
  rw [climbAll_eq]
  rfl

/-! ## Folding, by the next token -/

/-- Folding ends before a token that does not bind tighter than the minimum. -/
theorem foldAll_stop {min : Int} (left : Expr) {s : Progress} (h : nextPower s.unread ≤ min) :
    foldAll tables limit min left s = .ok left s := by
  rcases s with ⟨unread, depth⟩
  cases unread with
  | nil =>
    have hmin : ¬ min < 0 := by simpa using h
    show foldOperators tables (climbAll tables limit) min 0 left _ = _
    rw [foldOperators, if_neg hmin]
    rfl
  | cons t ts =>
    show foldOperators tables (climbAll tables limit) min (ts.length + 1) left _ = _
    rw [foldOperators]
    show (if (nextPower (t :: ts) : Int) ≤ min then pure left else _ : ParseM Expr) _ = _
    rw [if_pos h]
    rfl

/-- With a negative minimum, folding never ends before the tokens do. -/
theorem foldAll_nil {min : Int} (left : Expr) (d : Nat) (h : min < 0) :
    foldAll tables limit min left ⟨[], d⟩ = .error .noLookahead ⟨[], d⟩ := by
  show foldOperators tables (climbAll tables limit) min 0 left _ = _
  rw [foldOperators, if_pos h]
  rfl

/-- A token that binds tighter than the minimum is folded, and folding goes on. -/
theorem foldAll_cons {min : Int} (left : Expr) (t : Token) (ts : List Token) (d : Nat)
    (h : min < t.kind.power) :
    foldAll tables limit min left ⟨t :: ts, d⟩ = (match tables.operator t.kind with
      | none => refuse (.unexpectedInfix t)
      | some handler => do
          foldAll tables limit min (← handler.run (climbAll tables limit) left t)) ⟨ts, d⟩ := by
  show foldOperators tables (climbAll tables limit) min (ts.length + 1) left _ = _
  rw [foldOperators]
  show (if (nextPower (t :: ts) : Int) ≤ min then pure left else _ : ParseM Expr) _ = _
  rw [if_neg (by simpa using h)]
  show (match tables.operator t.kind with
    | none => refuse (.unexpectedInfix t)
    | some handler => do
        foldOperators tables (climbAll tables limit) min ts.length
          (← handler.run (climbAll tables limit) left t) : ParseM Expr) ⟨ts, d⟩ = _
  cases hop : tables.operator t.kind with
  | none => rfl
  | some handler =>
    -- The handler leaves no more than `ts`, so the bound `ts.length` is sufficient after it.
    have hrun := (agreeUpTo_congruence ts.length).runOperator
      (fun m => ⟨leavesSuffix_climbAll tables limit m, .refl ts.length _⟩) left t handler
    refine hrun.2.bind hrun.1 (fun tree s hs => ?_) ⟨ts, d⟩ (Nat.le_refl _)
    obtain ⟨more, hm⟩ := Nat.exists_eq_add_of_le hs
    rw [hm]
    exact (foldOperators_agree tables (leavesSuffix_climbAll tables limit)
      (fun m => .refl _ _) min more tree s (Nat.le_refl _)).symm

end ArithSyntax
