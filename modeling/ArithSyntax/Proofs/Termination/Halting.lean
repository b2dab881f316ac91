import ArithSyntax.Proofs.Termination.Moves
import Mathlib.Logic.Function.Iterate

/-!
# Every parse ends

The machine of single steps halts, whatever the tables, the tokens, the minimum and the limit are,
and what it halts with is what the parser answers. The measure is that of its moves: the number of
unread tokens, and what the readers under way have left to do. The limit does not enter into it.

A handler runs only when its token was just read, and an expression that is begun reads a token or
fails. So the expressions of a run begin with fewer and fewer tokens, and no two handlers are called
for one token (`parse_halts`).
-/

set_option autoImplicit false

namespace ArithSyntax

namespace Machine

variable {tables : Tables} {limit : Int} {m m' : Machine}

/-! ## Single steps -/

theorem step_of_halted (h : m.Halted) : m.step tables limit = m := by
  rcases m with ⟨control, stack, unread, depth⟩
  obtain ⟨hstack, out, hcontrol⟩ := h
  cases hstack
  cases hcontrol
  rfl

/-- A failure goes through to the first caller. -/
theorem control_step_of_failed {e : Failure} (h : m.control = .done (.error e)) :
    (m.step tables limit).control = .done (.error e) := by
  rcases m with ⟨control, stack, unread, depth⟩
  cases h
  cases stack with
  | nil => rfl
  | cons frame stack => cases frame <;> rfl

/-- An expression of which no token is left fails without a token. -/
theorem control_step_of_exhausted (hm : m.Calling) (h : m.unread = []) :
    (m.step tables limit).control = .done (.error (.parsing
      (if limit ≤ m.depth then .depthExceeded limit none else .unexpectedPrefix none))) := by
  rcases m with ⟨control, stack, unread, depth⟩
  obtain ⟨min, hcontrol⟩ := hm
  cases hcontrol
  cases h
  simp only [step, enter, List.head?_nil]
  split <;> rfl

/-- A loop whose minimum is negative goes on when no token is left, and fails. -/
theorem control_step_of_noLookahead {min : Int} {left : Expr}
    (hm : m.control = .todo (.operators min left)) (h : m.unread = []) (hmin : min < 0) :
    (m.step tables limit).control = .done (.error .noLookahead) := by
  rcases m with ⟨control, stack, unread, depth⟩
  cases hm
  cases h
  have hpower : ¬ (nextPower [] : Int) ≤ min := Int.not_le.2 hmin
  simp only [step, foldNext, if_neg hpower]
  rfl

/-! ## Runs -/

/-- From a machine that gets to a halt, the halt is found after as many steps as its rank says, and
after any more. -/
theorem iterate_step_of_reaches (h : Reaches tables limit m m') (hm' : m'.Halted) {n : Nat}
    (hn : m.rank ≤ n) : (step tables limit)^[n] m = m' := by
  induction h using Relation.ReflTransGen.head_induction_on generalizing n with
  | refl => exact Function.iterate_fixed (step_of_halted hm') n
  | @head m mid hmid hreach ih =>
    by_cases hm : m.Halted
    · -- A halted machine stands still, so the way from it is one from itself.
      rw [step_of_halted hm] at hmid
      subst hmid
      exact ih hn
    · have hlt := (move_step tables limit m).rank_lt hm
      rw [hmid] at hlt
      cases n with
      | zero => omega
      | succ n =>
        rw [Function.iterate_succ_apply, hmid]
        exact ih (by omega)

variable {i j : Nat}

/-- What is unread later is an end of what is unread earlier. -/
theorem unread_suffix_of_le (h : i ≤ j) :
    ((step tables limit)^[j] m).unread <:+ ((step tables limit)^[i] m).unread := by
  induction h with
  | refl => exact List.suffix_refl _
  | step _ ih =>
    rw [Function.iterate_succ_apply']
    exact (move_step tables limit _).unread_suffix.trans ih

/-- After a failure there is nothing but this failure. -/
theorem control_of_failed {e : Failure}
    (hi : ((step tables limit)^[i] m).control = .done (.error e)) (h : i ≤ j) :
    ((step tables limit)^[j] m).control = .done (.error e) := by
  induction h with
  | refl => exact hi
  | step _ ih =>
    rw [Function.iterate_succ_apply']
    exact control_step_of_failed ih

end Machine

/-! ## Parsers -/

namespace Parser

/-- The machine of an expression of the parser, after so many steps. -/
def machine (p : Parser) (min : Int) (n : Nat) : Machine :=
  (Machine.step p.tables p.limit)^[n] ⟨.todo (.expression min), [], p.stream.unread, p.depth⟩

/-- The place in the parser's stream where the machine is after so many steps. -/
def place (p : Parser) (min : Int) (n : Nat) : Nat :=
  (p.stream.resume (p.machine min n).unread).position

variable (p : Parser) (min : Int) {i j : Nat}

/-- What the parser answers is what its machine halts with. -/
theorem exists_halt : ∃ out rest,
    (∀ n, 6 * p.stream.unread.length + 1 ≤ n →
      p.machine min n = ⟨.done out, [], rest, p.depth⟩) ∧
    p.parse min = endsWith out { p with stream := p.stream.resume rest } := by
  obtain ⟨out, rest, hparses, -⟩ :=
    exists_parses p.tables p.limit (.expression min) p.depth p.stream.unread
  refine ⟨out, rest, fun n hn => ?_, hparses.parse⟩
  exact Machine.iterate_step_of_reaches (hparses.reaches []) ⟨rfl, out, rfl⟩ hn

theorem machine_succ (n : Nat) :
    p.machine min (n + 1) = (p.machine min n).step p.tables p.limit :=
  Function.iterate_succ_apply' _ _ _

theorem move_machine (n : Nat) : (p.machine min n).Move (p.machine min (n + 1)) := by
  rw [machine_succ]
  exact Machine.move_step p.tables p.limit _

theorem unread_machine_suffix (h : i ≤ j) :
    (p.machine min j).unread <:+ (p.machine min i).unread :=
  Machine.unread_suffix_of_le h

theorem unread_machine_suffix_tokens (n : Nat) :
    (p.machine min n).unread <:+ p.stream.tokens :=
  (p.unread_machine_suffix min (Nat.zero_le n)).trans (List.drop_suffix _ _)

theorem place_add_length (n : Nat) :
    p.place min n + (p.machine min n).unread.length = p.stream.tokens.length :=
  Nat.sub_add_cancel (p.unread_machine_suffix_tokens min n).length_le

theorem place_mono (h : i ≤ j) : p.place min i ≤ p.place min j := by
  have hlength := (p.unread_machine_suffix min h).length_le
  have hi := p.place_add_length min i
  have hj := p.place_add_length min j
  omega

/-- A handler is called for the token at the place of the machine, which is passed. -/
theorem place_of_handled {t : Token} (h : (p.machine min (i + 1)).handled? = some t) :
    p.stream.tokens[p.place min i]? = some t ∧ p.place min (i + 1) = p.place min i + 1 := by
  have hread := (p.move_machine min i).unread_of_handled h
  constructor
  · have hunread : (p.stream.resume (p.machine min i).unread).unread = (p.machine min i).unread :=
      TokenStream.unread_resume (p.unread_machine_suffix_tokens min i)
    rw [place, ← List.head?_drop]
    exact (congrArg List.head? hunread).trans (by rw [hread, List.head?_cons])
  · have hi := p.place_add_length min i
    have hnext := p.place_add_length min (i + 1)
    rw [hread, List.length_cons] at hi
    omega

/-- Where one step passes a token, no other step passes that token. -/
theorem place_ne (hi : p.place min (i + 1) ≠ p.place min i)
    (hj : p.place min (j + 1) ≠ p.place min j) (h : j ≠ i) : p.place min j ≠ p.place min i := by
  have hinext := p.place_mono min (Nat.le_add_right i 1)
  have hjnext := p.place_mono min (Nat.le_add_right j 1)
  rcases Nat.lt_or_gt_of_ne h with h | h
  · have hle : p.place min (j + 1) ≤ p.place min i := p.place_mono min h
    omega
  · have hle : p.place min (i + 1) ≤ p.place min j := p.place_mono min h
    omega

/-- An expression that is begun later begins with fewer tokens. -/
theorem length_unread_lt_of_calling (h : i < j) (hi : (p.machine min i).Calling)
    (hj : (p.machine min j).Calling) :
    (p.machine min j).unread.length < (p.machine min i).unread.length := by
  rcases (p.move_machine min i).of_calling hi with hread | ⟨e, hfail⟩
  · exact Nat.lt_of_le_of_lt (p.unread_machine_suffix min h).length_le hread
  · -- After the failure no expression is begun any more.
    obtain ⟨m, hcontrol⟩ := hj
    have hdone : (p.machine min j).control = .done (.error e) := Machine.control_of_failed hfail h
    rw [hcontrol] at hdone
    cases hdone

/-- A failure within the run is that of the parser. -/
theorem outcome_of_failed {e : Failure} (h : (p.machine min i).control = .done (.error e)) :
    outcome (p.parse min) = .error e := by
  obtain ⟨out, rest, hhalt, hparse⟩ := p.exists_halt min
  let n := Nat.max i (6 * p.stream.unread.length + 1)
  have hfail : (p.machine min n).control = .done (.error e) :=
    Machine.control_of_failed h (Nat.le_max_left _ _)
  rw [hhalt n (Nat.le_max_right _ _)] at hfail
  cases hfail
  rw [hparse, outcome_endsWith]

/-- An expression that is begun when no token is left fails, and with it the parser. -/
theorem outcome_of_exhausted (hi : (p.machine min i).Calling)
    (hunread : (p.machine min i).unread = []) :
    ∃ e, (e = .depthExceeded p.limit none ∨ e = .unexpectedPrefix none) ∧
      (p.machine min (i + 1)).control = .done (.error (.parsing e)) ∧
      outcome (p.parse min) = .error (.parsing e) := by
  have hfail : ∃ e, (e = .depthExceeded p.limit none ∨ e = .unexpectedPrefix none) ∧
      (p.machine min (i + 1)).control = .done (.error (.parsing e)) := by
    rw [machine_succ, Machine.control_step_of_exhausted hi hunread]
    refine ⟨_, ?_, rfl⟩
    split
    · exact .inl rfl
    · exact .inr rfl
  obtain ⟨e, he, hcontrol⟩ := hfail
  exact ⟨e, he, hcontrol, p.outcome_of_failed min hcontrol⟩

/-- A loop that goes on when no token is left fails, and with it the parser. -/
theorem outcome_of_noLookahead {lower : Int} {left : Expr}
    (hi : (p.machine min i).control = .todo (.operators lower left))
    (hunread : (p.machine min i).unread = []) (hlower : lower < 0) :
    (p.machine min (i + 1)).control = .done (.error .noLookahead) ∧
      outcome (p.parse min) = .error .noLookahead := by
  have hcontrol : (p.machine min (i + 1)).control = .done (.error .noLookahead) := by
    rw [machine_succ]
    exact Machine.control_step_of_noLookahead hi hunread hlower
  exact ⟨hcontrol, p.outcome_of_failed min hcontrol⟩

end Parser

/-- Every parse ends, with every table, at every place in the tokens, under every minimum and every
limit. Its machine, which makes the calls of the readers one by one and has no bound, halts within
six steps for each unread token and one more, with what the parser answers. However large the limit
is, it does not matter for that.

Where a handler is called, be it of an operand or of an operator, the token for which it is called
has just been read, and nothing else in the run reads this token. An expression begins with fewer
unread tokens than every one that was begun before it. When no token is left, an expression that is
begun fails, and so does a loop with a negative minimum, which has no end of its own; and the parser
fails with them. -/
theorem parse_halts (p : Parser) (min : Int) :
    (∃ out rest,
      (∀ n, 6 * p.stream.unread.length + 1 ≤ n →
        p.machine min n = ⟨.done out, [], rest, p.depth⟩) ∧
      p.parse min = endsWith out { p with stream := p.stream.resume rest }) ∧
    (∀ i t, (p.machine min (i + 1)).handled? = some t →
      p.stream.tokens[p.place min i]? = some t ∧ p.place min (i + 1) = p.place min i + 1 ∧
      ∀ j, j ≠ i → p.place min (j + 1) ≠ p.place min j → p.place min j ≠ p.place min i) ∧
    (∀ i j, i < j → (p.machine min i).Calling → (p.machine min j).Calling →
      (p.machine min j).unread.length < (p.machine min i).unread.length) ∧
    ∀ i, (p.machine min i).unread = [] →
      ((p.machine min i).Calling →
        ∃ e, (e = .depthExceeded p.limit none ∨ e = .unexpectedPrefix none) ∧
          (p.machine min (i + 1)).control = .done (.error (.parsing e)) ∧
          outcome (p.parse min) = .error (.parsing e)) ∧
      ∀ lower left, (p.machine min i).control = .todo (.operators lower left) → lower < 0 →
        (p.machine min (i + 1)).control = .done (.error .noLookahead) ∧
          outcome (p.parse min) = .error .noLookahead := by
  refine ⟨p.exists_halt min, ?_, ?_, ?_⟩
  · intro i t ht
    obtain ⟨hplace, hnext⟩ := p.place_of_handled min ht
    refine ⟨hplace, hnext, fun j hji hj => ?_⟩
    exact p.place_ne min (by omega) hj hji
  · intro i j h hi hj
    exact p.length_unread_lt_of_calling min h hi hj
  · intro i hunread
    constructor
    · intro hi
      exact p.outcome_of_exhausted min hi hunread
    · intro lower left hi hlower
      exact p.outcome_of_noLookahead min hi hunread hlower

/-- A parser of a minus sign and an end token, which starts an operand here. -/
def endStarting (handler : OperandHandler) : Parser where
  stream := {
    tokens := [⟨.minus, "-", ⟨1, 1⟩⟩, ⟨.eof, "5", ⟨1, 2⟩⟩]
    position := 0
    endsWithEof := by decide
    position_le := by decide }
  tables := Tables.standard.setOperand .eof (some handler)
  limit := 1000000000
  depth := 0

/-- The sign begins an expression, the end token opens a group in it, and the expression in that
group begins when no token is left: it fails, although the limit is far. Where the end token is a
number, the sign is the whole tree, and the loop behind it goes on: its minimum is below the power
of the end of the stream, which is zero. -/
theorem parse_halts_endStarting :
    (let p := endStarting .group
    let stop : Token := ⟨.eof, "5", ⟨1, 2⟩⟩
    (∃ out rest, p.machine (-1) 13 = ⟨.done out, [], rest, 0⟩) ∧
      ((p.machine (-1) 3).handled? = some stop ∧
        p.stream.tokens[p.place (-1) 2]? = some stop ∧
        ∀ j, j ≠ 2 → p.place (-1) (j + 1) ≠ p.place (-1) j → p.place (-1) j ≠ p.place (-1) 2) ∧
      ((p.machine (-1) 0).Calling ∧ (p.machine (-1) 4).Calling ∧
        (p.machine (-1) 4).unread.length < (p.machine (-1) 0).unread.length) ∧
      (p.machine (-1) 4).unread = [] ∧
      outcome (p.parse (-1)) = .error (.parsing (.unexpectedPrefix none))) ∧
    let p := endStarting .number
    (p.machine (-1) 9).unread = [] ∧
      (p.machine (-1) 9).control = .todo (.operators (-1) (.prefixed .neg (.literal 5))) ∧
      outcome (p.parse (-1)) = .error .noLookahead := by
  constructor
  · intro p stop
    obtain ⟨⟨out, rest, hhalt, -⟩, htokens, hcalls, hexhausted⟩ := parse_halts p (-1)
    have hhandled : (p.machine (-1) 3).handled? = some stop := rfl
    obtain ⟨hplace, -, hother⟩ := htokens 2 stop hhandled
    have hfirst : (p.machine (-1) 0).Calling := ⟨-1, rfl⟩
    have hlast : (p.machine (-1) 4).Calling := ⟨0, rfl⟩
    have hless := hcalls 0 4 (by decide) hfirst hlast
    obtain ⟨e, -, hcontrol, houtcome⟩ := (hexhausted 4 rfl).1 hlast
    obtain rfl : .unexpectedPrefix none = e := by
      cases hcontrol
      rfl
    exact ⟨⟨out, rest, hhalt 13 (by decide)⟩, ⟨hhandled, hplace, hother⟩, ⟨hfirst, hlast, hless⟩,
      rfl, houtcome⟩
  · intro p
    obtain ⟨-, -, -, hexhausted⟩ := parse_halts p (-1)
    have hloop : p.machine (-1) 9 =
        ⟨.todo (.operators (-1) (.prefixed .neg (.literal 5))), [.leave], [], 1⟩ := rfl
    have hunread : (p.machine (-1) 9).unread = [] := congrArg Machine.unread hloop
    have hcontrol := congrArg Machine.control hloop
    exact ⟨hunread, hcontrol, ((hexhausted 9 hunread).2 _ _ hcontrol (by decide)).2⟩

end ArithSyntax
