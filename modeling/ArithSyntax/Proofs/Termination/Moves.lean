import ArithSyntax.Proofs.Termination.Machine
import Mathlib.Algebra.Ring.Nat

/-!
# What a step does

Every step of the machine is a `Machine.Move`. It calls the handler of a token that it reads, or it
calls another reader and reads nothing, or it has an outcome and has read at most one token. Only
the call of a handler makes more work, and the token that was read pays for that. So the measure
goes down with every step (`Machine.Move.rank_lt`).
-/

set_option autoImplicit false

namespace ArithSyntax

/-! ## The measure -/

/-- The steps that a task takes at most, besides those that tokens pay for. -/
def Task.rank : Task → Nat
  | expression _ => 1
  | operand _ _ => 3
  | operators _ _ => 1
  | operator _ _ _ => 3

/-- The steps that a waiting reader takes at most when it goes on. -/
def Frame.rank : Frame → Nat
  | leave => 1
  | fold _ => 2
  | sign _ => 1
  | group => 1
  | right _ _ => 1

/-- The steps that the present task takes at most. -/
def Control.rank : Control → Nat
  | todo task => task.rank
  | done _ => 0

theorem Task.rank_pos (task : Task) : 0 < task.rank := by
  cases task <;> exact Nat.zero_lt_succ _

theorem Frame.rank_pos (frame : Frame) : 0 < frame.rank := by
  cases frame <;> exact Nat.zero_lt_succ _

namespace Machine

/-- The steps that are left for the readers under way. -/
def work (m : Machine) : Nat :=
  m.control.rank + (m.stack.map Frame.rank).sum

/-- The steps that the machine takes at most until it halts: those of the readers under way, and six
for each token that is still to be read. -/
def rank (m : Machine) : Nat :=
  6 * m.unread.length + m.work

/-- The machine has an outcome and nobody to hand it back to. -/
def Halted (m : Machine) : Prop :=
  m.stack = [] ∧ ∃ out, m.control = .done out

/-! ## Moves -/

/-- The token whose handler is about to run. -/
def handled? (m : Machine) : Option Token :=
  match m.control with
  | .todo (.operand _ t) => some t
  | .todo (.operator _ _ t) => some t
  | _ => none

/-- The machine is about to begin an expression. -/
def Calling (m : Machine) : Prop :=
  ∃ min, m.control = .todo (.expression min)

theorem not_calling_of_done {m : Machine} {out : Except Failure Expr} (h : m.control = .done out) :
    ¬ m.Calling := by
  rintro ⟨min, hcontrol⟩
  rw [h] at hcontrol
  cases hcontrol

/-- What a step does: a handler is called and its token was read, or another reader is called and
nothing was read, or there is an outcome. An expression that is begun calls the handler of its first
token, or fails. -/
inductive Move (m m' : Machine) : Prop
  | handles {t : Token} (ht : m'.handled? = some t) (hread : m.unread = t :: m'.unread)
      (hwork : m'.work ≤ m.work + 5)
  | calls (ht : m'.handled? = none) (hread : m'.unread = m.unread) (hcall : ¬ m.Calling)
      (hwork : m'.work < m.work)
  | finishes {out : Except Failure Expr} (hout : m'.control = .done out)
      (hread : m'.unread = m.unread ∨ m'.unread = m.unread.tail)
      (hcall : m.Calling → ∃ e, out = .error e) (hwork : ¬ m.Halted → m'.work < m.work)

section Steps

variable {tables : Tables} {limit min : Int} {left : Expr} {t : Token} {stack : List Frame}
  {unread rest : List Token} {depth : Nat} {out : Except Failure Expr}

/-- A task other than an expression ends. -/
theorem move_finish {task : Task} (h : ∀ min, task ≠ .expression min)
    (hread : rest = unread ∨ rest = unread.tail) :
    Move ⟨.todo task, stack, unread, depth⟩ ⟨.done out, stack, rest, depth⟩ := by
  refine .finishes rfl hread ?_ fun _ => Nat.add_lt_add_right task.rank_pos _
  rintro ⟨min, hcontrol⟩
  cases hcontrol
  exact absurd rfl (h min)

/-- An expression fails before it calls a handler. -/
theorem move_fail {e : Failure} :
    Move ⟨.todo (.expression min), stack, unread, depth⟩
      ⟨.done (.error e), stack, unread.tail, depth⟩ := by
  refine .finishes rfl (.inr rfl) (fun _ => ⟨e, rfl⟩) fun _ => ?_
  exact Nat.add_lt_add_right (Task.rank_pos (.expression min)) _

/-- A handler calls for an expression. -/
theorem move_call {task : Task} {frame : Frame} (htask : task.rank = 3) (hframe : frame.rank = 1) :
    Move ⟨.todo task, stack, unread, depth⟩
      ⟨.todo (.expression min), frame :: stack, unread, depth⟩ := by
  refine .calls rfl rfl ?_ ?_
  · rintro ⟨min, hcontrol⟩
    cases hcontrol
    cases htask
  · have hexpression : (Task.expression min).rank = 1 := rfl
    simp only [work, Control.rank, htask, hexpression, List.map_cons, List.sum_cons, hframe]
    omega

/-- A waiting reader ends. -/
theorem move_return {frame : Frame} {out' : Except Failure Expr} {depth' : Nat}
    (hread : rest = unread ∨ rest = unread.tail) :
    Move ⟨.done out, frame :: stack, unread, depth⟩ ⟨.done out', stack, rest, depth'⟩ := by
  refine .finishes rfl hread (fun hcall => absurd hcall (not_calling_of_done rfl)) fun _ => ?_
  simp [work, Control.rank, frame.rank_pos]

theorem move_enter :
    Move ⟨.todo (.expression min), stack, unread, depth⟩
      (enter tables limit min ⟨.todo (.expression min), stack, unread, depth⟩) := by
  unfold enter
  dsimp only
  split
  · exact move_fail
  · split
    · exact move_fail
    · next t ht =>
      split
      · exact move_fail
      · -- The handler, the loop behind it and the way out take five steps more.
        obtain ⟨ts, rfl⟩ := List.head?_eq_some_iff.1 ht
        refine .handles rfl rfl ?_
        simp [work, call, Control.rank, Task.rank, Frame.rank]
        omega

theorem move_startOperand (handler : OperandHandler) :
    Move ⟨.todo (.operand handler t), stack, unread, depth⟩
      (startOperand t ⟨.todo (.operand handler t), stack, unread, depth⟩ handler) := by
  cases handler with
  | number =>
    unfold startOperand
    dsimp only
    split <;> exact move_finish nofun (.inl rfl)
  | sign =>
    unfold startOperand
    dsimp only
    split
    · exact move_finish nofun (.inl rfl)
    · exact move_call rfl rfl
  | group => exact move_call rfl rfl

theorem move_foldNext :
    Move ⟨.todo (.operators min left), stack, unread, depth⟩
      (foldNext tables min left ⟨.todo (.operators min left), stack, unread, depth⟩) := by
  unfold foldNext
  split
  · exact move_finish nofun (.inl rfl)
  · split
    · exact move_finish nofun (.inl rfl)
    · next t ts hts =>
      cases hts
      split
      · exact move_finish nofun (.inr rfl)
      · refine .handles rfl rfl ?_
        simp [work, call, Control.rank, Task.rank, Frame.rank]
        omega

theorem move_applyOperator (handler : OperatorHandler) :
    Move ⟨.todo (.operator handler left t), stack, unread, depth⟩
      (applyOperator left t ⟨.todo (.operator handler left t), stack, unread, depth⟩ handler) := by
  unfold applyOperator
  split
  · exact move_finish nofun (.inl rfl)
  · split
    · exact move_finish nofun (.inl rfl)
    · exact move_call rfl rfl

theorem move_resume (frame : Frame) (out : Except Failure Expr) :
    Move ⟨.done out, frame :: stack, unread, depth⟩
      (resume ⟨.done out, stack, unread, depth⟩ frame out) := by
  cases frame with
  | leave => exact move_return (.inl rfl)
  | fold min =>
    cases out with
    | error e => exact move_return (.inl rfl)
    | ok tree =>
      refine .calls rfl rfl (not_calling_of_done rfl) ?_
      simp [work, resume, call, Control.rank, Task.rank, Frame.rank]
  | sign op => cases out <;> exact move_return (.inl rfl)
  | group =>
    cases out with
    | error e => exact move_return (.inl rfl)
    | ok tree =>
      simp only [resume, close]
      split <;> exact move_return (.inr rfl)
  | right op left => cases out <;> exact move_return (.inl rfl)

end Steps

/-- Every step is a move. -/
theorem move_step (tables : Tables) (limit : Int) (m : Machine) : Move m (m.step tables limit) := by
  rcases m with ⟨control, stack, unread, depth⟩
  cases control with
  | todo task =>
    cases task with
    | expression min => exact move_enter
    | operand handler t => exact move_startOperand handler
    | operators min left => exact move_foldNext
    | operator handler left t => exact move_applyOperator handler
  | done out =>
    cases stack with
    | nil =>
      refine .finishes rfl (.inl rfl) (fun hcall => absurd hcall (not_calling_of_done rfl)) ?_
      exact fun hhalted => absurd ⟨rfl, out, rfl⟩ hhalted
    | cons frame stack => exact move_resume frame out

section Moves

variable {m m' : Machine}

/-- Every step of a machine that has not halted leaves fewer steps to take. -/
theorem Move.rank_lt (h : Move m m') (hm : ¬ m.Halted) : m'.rank < m.rank := by
  unfold rank
  cases h with
  | handles ht hread hwork =>
    rw [hread, List.length_cons]
    omega
  | calls ht hread hcall hwork =>
    rw [hread]
    omega
  | finishes hout hread hcall hwork =>
    have hless := hwork hm
    rcases hread with hread | hread
    · rw [hread]
      omega
    · rw [hread, List.length_tail]
      omega

/-- At most one token is read in a step. -/
theorem Move.unread_suffix (h : Move m m') : m'.unread <:+ m.unread := by
  cases h with
  | handles ht hread =>
    rw [hread]
    exact List.suffix_cons _ _
  | calls ht hread => exact ⟨[], hread⟩
  | finishes hout hread =>
    rcases hread with hread | hread
    · exact ⟨[], hread⟩
    · rw [hread]
      exact List.tail_suffix _

/-- A handler is called for a token that was just read. -/
theorem Move.unread_of_handled {t : Token} (h : Move m m') (ht : m'.handled? = some t) :
    m.unread = t :: m'.unread := by
  cases h with
  | handles ht' hread =>
    rw [ht] at ht'
    cases ht'
    exact hread
  | calls ht' =>
    rw [ht] at ht'
    cases ht'
  | finishes hout =>
    rw [handled?, hout] at ht
    cases ht

/-- An expression that is begun reads a token or fails. -/
theorem Move.of_calling (h : Move m m') (hm : m.Calling) :
    m'.unread.length < m.unread.length ∨ ∃ e, m'.control = .done (.error e) := by
  cases h with
  | handles ht hread =>
    left
    rw [hread]
    exact Nat.lt_succ_self _
  | calls ht hread hcall => exact absurd hm hcall
  | finishes hout hread hcall =>
    obtain ⟨e, rfl⟩ := hcall hm
    exact .inr ⟨e, hout⟩

end Moves

end Machine

end ArithSyntax
