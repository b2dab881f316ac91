import ArithSyntax.Parser.Congruence

/-!
# A sufficient bound bounds nothing

Every reader of the parser leaves an end of the tokens that it found. A call that may read as many
tokens as there are therefore never meets its bound before the end of the tokens, and there it does
what any call does.

## Main statements

* `leavesSuffix_climb`: reading an expression leaves an end of the tokens.
* `climb_eq_of_le`: two bounds that are both sufficient give the same run.
* `climb_eq`: under a sufficient bound, reading satisfies the recursion that knows of no bound.
-/

set_option autoImplicit false

namespace ArithSyntax

namespace ParseM

variable {α β : Type}

/-! ## What is left unread -/

/-- Whatever the tokens are, the run leaves an end of them. -/
def LeavesSuffix (m : ParseM α) : Prop :=
  ∀ s, (final (m s)).unread <:+ s.unread

theorem LeavesSuffix.pure (a : α) : LeavesSuffix (pure a) :=
  fun _ => List.suffix_refl _

theorem LeavesSuffix.throw (e : Failure) : LeavesSuffix (throw e : ParseM α) :=
  fun _ => List.suffix_refl _

/-- Two readers in sequence leave an end of the tokens, if each of them does. -/
theorem LeavesSuffix.bind {m : ParseM α} {f : α → ParseM β} (first : LeavesSuffix m)
    (second : ∀ a, LeavesSuffix (f a)) : LeavesSuffix (m >>= f) := by
  intro s
  have step := first s
  show (final (EStateM.bind m f s)).unread <:+ s.unread
  unfold EStateM.bind
  cases run : m s with
  | ok a s' =>
      rw [run] at step
      exact (second a s').trans step
  | error e s' =>
      rw [run] at step
      exact step

theorem LeavesSuffix.nested {m : ParseM α} (h : LeavesSuffix m) (limit : Int)
    (first? : Option Token) : LeavesSuffix (nested limit first? m) := by
  intro s
  have inner := h { s with depth := s.depth + 1 }
  unfold ParseM.nested
  split
  · exact List.suffix_refl _
  · split <;> next run =>
      rw [run] at inner
      exact inner

theorem leavesSuffix_peekPower : LeavesSuffix peekPower :=
  fun _ => List.suffix_refl _

theorem leavesSuffix_next : LeavesSuffix next :=
  fun _ => List.tail_suffix _

/-- To leave an end of the tokens is kept by everything that the parser is made of. -/
theorem leavesSuffix_congruence : Congruence fun _ m _ => LeavesSuffix m where
  pure := .pure
  fail e _ := .throw e
  bind := .bind
  next := leavesSuffix_next
  peekPower := leavesSuffix_peekPower

/-! ## Runs that agree on short inputs -/

/-- Both runs are the same wherever at most `n` tokens are unread. -/
def AgreeUpTo (n : Nat) (m m' : ParseM α) : Prop :=
  ∀ s : Progress, s.unread.length ≤ n → m s = m' s

theorem AgreeUpTo.refl (n : Nat) (m : ParseM α) : AgreeUpTo n m m :=
  fun _ _ => rfl

theorem AgreeUpTo.mono {n k : Nat} {m m' : ParseM α} (h : AgreeUpTo n m m') (le : k ≤ n) :
    AgreeUpTo k m m' :=
  fun s short => h s (Nat.le_trans short le)

/-- Runs that agree may be continued by runs that agree: what is left is no longer. -/
theorem AgreeUpTo.bind {n : Nat} {m m' : ParseM α} {f f' : α → ParseM β}
    (leaves : LeavesSuffix m) (first : AgreeUpTo n m m') (second : ∀ a, AgreeUpTo n (f a) (f' a)) :
    AgreeUpTo n (m >>= f) (m' >>= f') := by
  intro s short
  have step := leaves s
  show EStateM.bind m f s = EStateM.bind m' f' s
  unfold EStateM.bind
  rw [← first s short]
  cases run : m s with
  | ok a s' =>
      rw [run] at step
      exact second a s' (Nat.le_trans step.length_le short)
  | error e s' => rfl

/-- After a token was read, agreement is needed on one token less. -/
theorem AgreeUpTo.next_bind {n : Nat} {f f' : Option Token → ParseM β}
    (h : ∀ t?, AgreeUpTo n (f t?) (f' t?)) : AgreeUpTo (n + 1) (next >>= f) (next >>= f') :=
  fun s short => h s.unread.head? { s with unread := s.unread.tail } (by
    show s.unread.tail.length ≤ n
    rw [List.length_tail]
    omega)

theorem AgreeUpTo.nested {n : Nat} {m m' : ParseM α} (h : AgreeUpTo n m m') (limit : Int)
    (first? : Option Token) : AgreeUpTo n (nested limit first? m) (nested limit first? m') := by
  intro s short
  unfold ParseM.nested
  rw [h { s with depth := s.depth + 1 } short]

/-- Agreement up to a fixed length is kept by everything that the parser is made of. -/
theorem agreeUpTo_congruence (n : Nat) :
    Congruence fun _ m m' => LeavesSuffix m ∧ AgreeUpTo n m m' where
  pure a := ⟨.pure a, .refl n _⟩
  fail e _ := ⟨.throw e, .refl n _⟩
  bind first second :=
    ⟨first.1.bind fun a => (second a).1, first.2.bind first.1 fun a => (second a).2⟩
  next := ⟨leavesSuffix_next, .refl n _⟩
  peekPower := ⟨leavesSuffix_peekPower, .refl n _⟩

end ParseM

open ParseM

/-! ## Readers of operands and operators -/

section Readers

variable {parse parse' : Int → ParseM Expr}

/-- Folding does not depend on the bound, nor on how operands are read from more tokens than there
are. -/
theorem foldOperators_agree (tables : Tables) {n : Nat} (inner : ∀ min, LeavesSuffix (parse min))
    (same : ∀ min, AgreeUpTo n (parse min) (parse' min)) (min : Int) (more : Nat) (left : Expr) :
    AgreeUpTo n (foldOperators tables parse min n left)
      (foldOperators tables parse' min (n + more) left) := by
  induction n generalizing left with
  | zero =>
      intro s short
      rcases s with ⟨unread, depth⟩
      have empty : unread = [] := List.length_eq_zero_iff.1 (Nat.le_zero.1 short)
      subst empty
      cases more with
      | zero => rfl
      | succ more =>
          unfold foldOperators
          simp only [peekPower, bind, EStateM.bind, List.head?_nil, Option.elim_none]
          by_cases negative : min < 0
          · rw [if_pos negative, if_neg (by omega)]
            rfl
          · rw [if_neg negative, if_pos (by omega)]
  | succ n ih =>
      rw [Nat.add_right_comm]
      unfold foldOperators
      refine (AgreeUpTo.refl _ _).bind leavesSuffix_peekPower fun _ => ?_
      split
      · exact .refl _ _
      · refine AgreeUpTo.next_bind fun t? => ?_
        split
        · exact .refl _ _
        · split
          · exact .refl _ _
          · have shorter := fun m => (same m).mono (Nat.le_succ n)
            have handled := (agreeUpTo_congruence n).runOperator
              (fun m => ⟨inner m, shorter m⟩) left
            exact (handled _ _).2.bind (handled _ _).1 fun _ => ih shorter _

end Readers

/-! ## Expressions -/

/-- Reading an expression leaves an end of the tokens, whether it succeeds or not. -/
theorem leavesSuffix_climb (tables : Tables) (limit : Int) (n : Nat) (min : Int) :
    LeavesSuffix (climb tables limit n min) := by
  induction n generalizing min with
  | zero => exact (LeavesSuffix.throw _).nested limit none
  | succ n ih =>
      refine leavesSuffix_next.bind fun first? => LeavesSuffix.nested ?_ limit first?
      exact @Congruence.body _ _ (climb tables limit n) leavesSuffix_congruence tables ih min n
        first?

/-- A larger bound gives the same run, if the smaller one suffices. -/
theorem climb_agree (tables : Tables) (limit : Int) (n more : Nat) (min : Int) :
    AgreeUpTo n (climb tables limit n min) (climb tables limit (n + more) min) := by
  induction n generalizing min with
  | zero =>
      rintro ⟨unread, depth⟩ short
      have empty : unread = [] := List.length_eq_zero_iff.1 (Nat.le_zero.1 short)
      subst empty
      cases more with
      | zero => rfl
      | succ more => rfl
  | succ n ih =>
      rw [Nat.add_right_comm]
      have inner := leavesSuffix_climb tables limit n
      refine AgreeUpTo.next_bind fun first? => AgreeUpTo.nested ?_ limit first?
      have operand := (agreeUpTo_congruence n).readOperand tables (fun m => ⟨inner m, ih m⟩) first?
      exact operand.2.bind operand.1 fun left => foldOperators_agree tables inner ih min more left

/-- Two bounds that are both sufficient give the same run. -/
theorem climb_eq_of_le (tables : Tables) (limit : Int) {n m : Nat} (min : Int) {s : Progress}
    (hn : s.unread.length ≤ n) (hm : s.unread.length ≤ m) :
    climb tables limit n min s = climb tables limit m min s := by
  obtain ⟨i, rfl⟩ := Nat.exists_eq_add_of_le hn
  obtain ⟨j, rfl⟩ := Nat.exists_eq_add_of_le hm
  rw [← climb_agree tables limit _ i min s (Nat.le_refl _),
    ← climb_agree tables limit _ j min s (Nat.le_refl _)]

/-- Under a sufficient bound, an expression is one token read, then one more expression entered, an
operand, and the operators after it; operands are read in the same way, under the same bound. -/
theorem climb_eq (tables : Tables) (limit : Int) {n : Nat} (min : Int) {s : Progress}
    (h : s.unread.length ≤ n) :
    climb tables limit n min s = (do
      let first? ← next
      nested limit first? do
        let left ← readOperand tables (climb tables limit n) first?
        foldOperators tables (climb tables limit n) min n left) s :=
  climb_eq_of_le tables limit min h (Nat.le_succ_of_le h)

end ArithSyntax
