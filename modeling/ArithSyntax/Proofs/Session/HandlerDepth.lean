import ArithSyntax.Proofs.Climb.Rules

/-!
# The depth while a handler runs

Every reader of the parser leaves the depth as it found it, whether it succeeds or fails
(`keepsDepth_climb`). In between, a handler runs only inside of an expression, and no deeper than
the limit admits.

To say so, the readers are written once more with a watch around every handler and around every
expression that a handler reads (`watchedClimb`). A watch that goes unnoticed gives `climb`
(`watchedClimb_eq`). Such a watch is the one that breaks off the run as soon as the depth is not
between one and the limit (`watchedClimb_guarded`): it never finds a reason to.
-/

set_option autoImplicit false

namespace ArithSyntax

namespace ParseM

variable {α β : Type}

/-! ## The depth that is left -/

/-- Whatever happens, the run leaves the depth that it found. -/
def KeepsDepth (m : ParseM α) : Prop :=
  ∀ s, (final (m s)).depth = s.depth

theorem KeepsDepth.pure (a : α) : KeepsDepth (pure a) :=
  fun _ => rfl

theorem KeepsDepth.throw (e : Failure) : KeepsDepth (throw e : ParseM α) :=
  fun _ => rfl

/-- Two runs in sequence leave the depth, if each of them does. -/
theorem KeepsDepth.bind {m : ParseM α} {f : α → ParseM β} (first : KeepsDepth m)
    (second : ∀ a, KeepsDepth (f a)) : KeepsDepth (m >>= f) := by
  intro s
  have step := first s
  cases run : m s with
  | ok a s' =>
    rw [run] at step
    rw [bind_of_ok run]
    exact (second a s').trans step
  | error e s' =>
    rw [run] at step
    rw [bind_of_error run]
    exact step

/-- Entering an expression raises the depth, and leaving it lowers the depth again on both ways
out. -/
theorem KeepsDepth.nested {m : ParseM α} (h : KeepsDepth m) (limit : Int)
    (first? : Option Token) : KeepsDepth (nested limit first? m) := by
  intro s
  have inner := h { s with depth := s.depth + 1 }
  unfold ParseM.nested
  split
  · rfl
  · split <;> next run =>
      rw [run] at inner
      exact congrArg (· - 1) inner

theorem keepsDepth_congruence : Congruence fun _ m _ => KeepsDepth m where
  pure := .pure
  fail e _ := .throw e
  bind := .bind
  next _ := rfl
  peekPower _ := rfl

end ParseM

open ParseM

/-- Reading an expression leaves the depth as it was. -/
theorem keepsDepth_climb (tables : Tables) (limit : Int) (n : Nat) (min : Int) :
    KeepsDepth (climb tables limit n min) := by
  induction n generalizing min with
  | zero => exact (KeepsDepth.throw _).nested limit none
  | succ n ih =>
    refine KeepsDepth.bind (fun _ => rfl) fun first? => KeepsDepth.nested ?_ limit first?
    exact @Congruence.body _ _ (climb tables limit n) keepsDepth_congruence tables ih min n first?

/-! ## Readers under a watch -/

section Watch

variable (watch : ParseM Expr → ParseM Expr) (tables : Tables)

/-- `readOperand` with a watch around the handler and around each expression that it reads. -/
def watchedOperand (parse : Int → ParseM Expr) (first? : Option Token) : ParseM Expr :=
  match first? with
  | none => refuse (.unexpectedPrefix none)
  | some t =>
      match tables.operand t.kind with
      | none => refuse (.unexpectedPrefix (some t))
      | some handler => watch (handler.run (fun min => watch (parse min)) t)

/-- `foldOperators` with a watch around each handler and around each expression that it reads. -/
def watchedFold (parse : Int → ParseM Expr) (min : Int) : Nat → Expr → ParseM Expr
  | 0, left => if min < 0 then throw .noLookahead else pure left
  | n + 1, left => do
      if (← peekPower) ≤ min then
        pure left
      else
        match ← next with
        | none => throw .noLookahead
        | some t =>
            match tables.operator t.kind with
            | none => refuse (.unexpectedInfix t)
            | some handler => do
                let tree ← watch (handler.run (fun min => watch (parse min)) left t)
                watchedFold parse min n tree

/-- `climb` with a watch around each handler and around each expression that a handler reads. -/
def watchedClimb (limit : Int) : Nat → Int → ParseM Expr
  | 0, _ => nested limit none (refuse (.unexpectedPrefix none))
  | n + 1, min => do
      let first? ← next
      nested limit first? do
        let left ← watchedOperand watch tables (watchedClimb limit n) first?
        watchedFold watch tables (watchedClimb limit n) min n left

end Watch

/-- The run is inside of an expression, and no deeper than the limit admits. -/
def Within (limit : Int) (s : Progress) : Prop :=
  1 ≤ s.depth ∧ (s.depth : Int) ≤ limit

instance (limit : Int) (s : Progress) : Decidable (Within limit s) :=
  inferInstanceAs (Decidable (_ ∧ _))

/-- The watch that breaks off with `fault` where the depth is not within the limit, be it before or
after the run. -/
def guarded (limit : Int) (fault : Failure) (m : ParseM Expr) : ParseM Expr := fun s =>
  if Within limit s then
    if Within limit (final (m s)) then m s else .error fault (final (m s))
  else .error fault s

/-- A watch that shows no effect on a run that starts within the limit and leaves the depth. -/
def Unnoticed (limit : Int) (watch : ParseM Expr → ParseM Expr) : Prop :=
  ∀ (m : ParseM Expr) (s : Progress), Within limit s → (final (m s)).depth = s.depth →
    watch m s = m s

theorem unnoticed_guarded (limit : Int) (fault : Failure) :
    Unnoticed limit (guarded limit fault) := by
  intro m s hs hdepth
  have hafter : Within limit (final (m s)) := by
    rw [Within, hdepth]
    exact hs
  rw [guarded, if_pos hs, if_pos hafter]

/-- Both runs are the same within the limit, and the second leaves the depth that it found. -/
def AgreeWithin {α : Type} (limit : Int) (m m' : ParseM α) : Prop :=
  KeepsDepth m' ∧ ∀ s, Within limit s → m s = m' s

theorem AgreeWithin.bind {α β : Type} {limit : Int} {m m' : ParseM α} {f f' : α → ParseM β}
    (first : AgreeWithin limit m m') (second : ∀ a, AgreeWithin limit (f a) (f' a)) :
    AgreeWithin limit (m >>= f) (m' >>= f') := by
  refine ⟨first.1.bind fun a => (second a).1, fun s hs => ?_⟩
  have step := first.1 s
  have hsame := first.2 s hs
  cases run : m' s with
  | ok a s' =>
    rw [run] at step hsame
    -- The first run has left the depth, so the second starts within the limit as well.
    have hs' : Within limit s' := by
      rw [Within, show s'.depth = s.depth from step]
      exact hs
    rw [bind_of_ok hsame, bind_of_ok run]
    exact (second a).2 s' hs'
  | error e s' =>
    rw [run] at hsame
    rw [bind_of_error hsame, bind_of_error run]

theorem agreeWithin_congruence (limit : Int) : Congruence fun _ m m' => AgreeWithin limit m m' where
  pure a := ⟨.pure a, fun _ _ => rfl⟩
  fail e _ := ⟨.throw e, fun _ _ => rfl⟩
  bind := .bind
  next := ⟨fun _ => rfl, fun _ _ => rfl⟩
  peekPower := ⟨fun _ => rfl, fun _ _ => rfl⟩

section Unnoticed

variable {limit : Int} {watch : ParseM Expr → ParseM Expr} {m m' : ParseM Expr}

theorem AgreeWithin.watched (h : AgreeWithin limit m m') (hw : Unnoticed limit watch) :
    AgreeWithin limit (watch m) m' := by
  refine ⟨h.1, fun s hs => ?_⟩
  -- Within the limit both runs are one, and the other is known to leave the depth.
  have hdepth : (final (m s)).depth = s.depth := by
    rw [h.2 s hs]
    exact h.1 s
  rw [hw m s hs hdepth, h.2 s hs]

/-- Inside of one more expression the depth is within the limit, if the limit admits it. -/
theorem AgreeWithin.nested (h : AgreeWithin limit m m') (first? : Option Token) :
    nested limit first? m = nested limit first? m' := by
  funext s
  unfold ParseM.nested
  split
  · rfl
  · next hlt =>
    have hs : Within limit { s with depth := s.depth + 1 } := by
      constructor
      · exact Nat.le_add_left 1 s.depth
      · show ((s.depth + 1 : Nat) : Int) ≤ limit
        omega
    rw [h.2 _ hs]

variable (hw : Unnoticed limit watch) (tables : Tables) {parse : Int → ParseM Expr}
  (hparse : ∀ min, KeepsDepth (parse min))
include hw hparse

theorem agreeWithin_watchedOperand (first? : Option Token) :
    AgreeWithin limit (watchedOperand watch tables parse first?)
      (readOperand tables parse first?) := by
  have C := agreeWithin_congruence limit
  have inner : ∀ min, AgreeWithin limit (watch (parse min)) (parse min) :=
    fun min => AgreeWithin.watched ⟨hparse min, fun _ _ => rfl⟩ hw
  cases first? with
  | none => exact C.refuse (.unexpectedPrefix none) id
  | some t =>
    cases ht : tables.operand t.kind with
    | none =>
      simp only [watchedOperand, readOperand, ht]
      exact C.refuse (.unexpectedPrefix (some t)) id
    | some handler =>
      simp only [watchedOperand, readOperand, ht]
      exact (C.runOperand inner t handler).watched hw

theorem agreeWithin_watchedFold (min : Int) (n : Nat) (left : Expr) :
    AgreeWithin limit (watchedFold watch tables parse min n left)
      (foldOperators tables parse min n left) := by
  have C := agreeWithin_congruence limit
  have inner : ∀ min, AgreeWithin limit (watch (parse min)) (parse min) :=
    fun min => AgreeWithin.watched ⟨hparse min, fun _ _ => rfl⟩ hw
  induction n generalizing left with
  | zero =>
    unfold watchedFold foldOperators
    split
    · exact C.fail _ id
    · exact C.pure _
  | succ n ih =>
    unfold watchedFold foldOperators
    refine C.bind C.peekPower fun _ => ?_
    split
    · exact C.pure _
    · refine C.bind C.next fun t? => ?_
      cases t? with
      | none => exact C.fail .noLookahead id
      | some t =>
        cases ht : tables.operator t.kind with
        | none =>
          simp only [ht]
          exact C.refuse (.unexpectedInfix t) id
        | some handler =>
          simp only [ht]
          exact C.bind ((C.runOperator inner left t handler).watched hw) fun tree => ih tree

end Unnoticed

/-- An unnoticed watch changes nothing. -/
theorem watchedClimb_eq {limit : Int} {watch : ParseM Expr → ParseM Expr}
    (hw : Unnoticed limit watch) (tables : Tables) (n : Nat) (min : Int) :
    watchedClimb watch tables limit n min = climb tables limit n min := by
  induction n generalizing min with
  | zero => rfl
  | succ n ih =>
    -- Inner expressions are read alike, so all that is left to see to is one level of handlers.
    have hsame : watchedClimb watch tables limit n = climb tables limit n := funext ih
    have hkeeps := keepsDepth_climb tables limit n
    unfold watchedClimb climb
    rw [hsame]
    refine congrArg (next >>= ·) (funext fun first? => ?_)
    exact ((agreeWithin_watchedOperand hw tables hkeeps first?).bind fun left =>
      agreeWithin_watchedFold hw tables hkeeps min n left).nested first?

/-- While a handler runs, the depth is at least one and at most the limit: a watch that breaks off
the run where it is not makes no difference. -/
theorem watchedClimb_guarded (tables : Tables) (limit : Int) (fault : Failure) :
    watchedClimb (guarded limit fault) tables limit = climb tables limit :=
  funext fun n => funext fun min => watchedClimb_eq (unnoticed_guarded limit fault) tables n min

end ArithSyntax
