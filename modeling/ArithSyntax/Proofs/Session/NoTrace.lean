import ArithSyntax.Parser.Session
import ArithSyntax.Proofs.Climb.Parsers
import ArithSyntax.Proofs.Session.HandlerDepth

/-!
# Sessions leave no trace but the tokens read

A session may fail in any of its steps and goes on all the same. Whatever its steps were, the parser
is then inside of no expression, its list of tokens is the one it started with, and it has not gone
back in it (`Parser.later_after`). So what a later step reads depends on nothing but the tables,
the limit and the tokens that are left: a new parser with these does the same
(`session_leaves_no_trace`).
-/

set_option autoImplicit false

namespace ArithSyntax

open ParseM

/-! ## Readers leave nothing but fewer tokens -/

section Tidy

variable {α β : Type}

/-- Whatever happens, an end of the tokens is left, and the depth that was found. -/
structure Tidy (m : ParseM α) : Prop where
  suffix : LeavesSuffix m
  depth : KeepsDepth m

theorem Tidy.pure (a : α) : Tidy (pure a) :=
  ⟨.pure a, .pure a⟩

theorem Tidy.throw (e : Failure) : Tidy (throw e : ParseM α) :=
  ⟨.throw e, .throw e⟩

theorem Tidy.bind {m : ParseM α} {f : α → ParseM β} (first : Tidy m) (second : ∀ a, Tidy (f a)) :
    Tidy (m >>= f) :=
  ⟨first.suffix.bind fun a => (second a).suffix, first.depth.bind fun a => (second a).depth⟩

theorem tidy_congruence : Congruence fun _ m _ => Tidy m where
  pure := .pure
  fail e _ := .throw e
  bind := .bind
  next := ⟨leavesSuffix_next, fun _ => rfl⟩
  peekPower := ⟨leavesSuffix_peekPower, fun _ => rfl⟩

variable (tables : Tables) (limit : Int) (n : Nat)

theorem tidy_climb (min : Int) : Tidy (climb tables limit n min) :=
  ⟨leavesSuffix_climb tables limit n min, keepsDepth_climb tables limit n min⟩

theorem tidy_readExpression : Tidy (readExpression tables limit n) := by
  refine (tidy_climb tables limit n 0).bind fun tree => ?_
  have hpeek : Tidy peek := ⟨fun _ => List.suffix_refl _, fun _ => rfl⟩
  refine hpeek.bind fun t? => ?_
  split
  · exact .pure tree
  · split
    · exact .pure tree
    · exact .throw _

theorem tidy_runOperand (handler : OperandHandler) (t : Token) :
    Tidy (handler.run (climb tables limit n) t) := by
  exact @Congruence.runOperand _ _ (climb tables limit n) tidy_congruence
    (tidy_climb tables limit n) t handler

theorem tidy_runOperator (handler : OperatorHandler) (left : Expr) (t : Token) :
    Tidy (handler.run (climb tables limit n) left t) := by
  exact @Congruence.runOperator _ _ (climb tables limit n) tidy_congruence
    (tidy_climb tables limit n) left t handler

end Tidy

/-! ## One step -/

/-- The steps that read expressions or run a handler. -/
def ParseStep.IsReading : ParseStep → Prop
  | .parse _ | .parseExpression | .parseResult | .startOperand _ _ | .foldOperator _ _ _ => True
  | _ => False

namespace Parser

/-- The second parser may come after the first in a session: it is inside of as many expressions,
or of none, its tokens are the same, and no fewer of them are read. -/
structure Later (p q : Parser) : Prop where
  depth : q.depth = p.depth ∨ q.depth = 0
  tokens : q.stream.tokens = p.stream.tokens
  position : p.stream.position ≤ q.stream.position

theorem Later.refl (p : Parser) : Later p p :=
  ⟨.inl rfl, rfl, Nat.le_refl _⟩

theorem Later.trans {p q r : Parser} (h : Later p q) (h' : Later q r) : Later p r := by
  refine ⟨?_, h'.tokens.trans h.tokens, Nat.le_trans h.position h'.position⟩
  rcases h'.depth with hr | hr
  · rw [hr]
    exact h.depth
  · exact .inr hr

/-- A stream goes on from a place where no more is unread than before. -/
theorem later_resume (p : Parser) {rest : List Token} (h : rest <:+ p.stream.unread) :
    Later p { p with stream := p.stream.resume rest } := by
  refine ⟨.inl rfl, rfl, ?_⟩
  have hlen := h.length_le
  have hle := p.stream.position_le
  rw [TokenStream.length_unread] at hlen
  show p.stream.position ≤ p.stream.tokens.length - rest.length
  omega

variable {α : Type}

theorem outcome_exec (p : Parser) (m : ParseM α) :
    outcome (p.exec m) = outcome (m ⟨p.stream.unread, p.depth⟩) := by
  unfold exec
  cases m ⟨p.stream.unread, p.depth⟩ <;> rfl

/-- A tidy reader changes nothing of a parser but its place in the tokens. -/
theorem final_exec (p : Parser) {m : ParseM α} (h : Tidy m) :
    let rest := (final (m ⟨p.stream.unread, p.depth⟩)).unread
    rest <:+ p.stream.unread ∧ final (p.exec m) = { p with stream := p.stream.resume rest } := by
  intro rest
  have hdepth : (final (m ⟨p.stream.unread, p.depth⟩)).depth = p.depth := h.depth _
  have hfinal : final (p.exec m) = { p with
      stream := p.stream.resume rest
      depth := (final (m ⟨p.stream.unread, p.depth⟩)).depth } := by
    simp only [exec, rest]
    cases m ⟨p.stream.unread, p.depth⟩ <;> rfl
  rw [hdepth] at hfinal
  exact ⟨h.suffix _, hfinal⟩

theorem final_ofRun (reply : α → ParseReply) (r : Run Failure Parser α) :
    final (Stepped.ofRun reply r) = final r := by
  cases r <;> rfl

theorem final_parseResult (p : Parser) : final p.parseResult = final p.parseExpression := by
  unfold parseResult
  cases p.parseExpression with
  | ok tree q => rfl
  | error e q => cases e <;> rfl

/-- A step that reads changes nothing of the parser but its place in the tokens, whether it fails or
not. -/
theorem final_perform_of_isReading (p : Parser) {step : ParseStep} (h : step.IsReading) :
    ∃ rest, rest <:+ p.stream.unread ∧
      final (p.perform step) = { p with stream := p.stream.resume rest } := by
  cases step with
  | parse min =>
    rw [perform, final_ofRun]
    exact ⟨_, p.final_exec (tidy_climb p.tables p.limit p.size min)⟩
  | parseExpression =>
    rw [perform, final_ofRun]
    exact ⟨_, p.final_exec (tidy_readExpression p.tables p.limit p.size)⟩
  | parseResult =>
    rw [perform, final_ofRun, final_parseResult]
    exact ⟨_, p.final_exec (tidy_readExpression p.tables p.limit p.size)⟩
  | startOperand handler t =>
    rw [perform, final_ofRun]
    exact ⟨_, p.final_exec (tidy_runOperand p.tables p.limit p.size handler t)⟩
  | foldOperator handler left t =>
    rw [perform, final_ofRun]
    exact ⟨_, p.final_exec (tidy_runOperator p.tables p.limit p.size handler left t)⟩
  | _ => exact h.elim

/-- Whatever a step does, and whether it fails or not, the parser after it may come after the one
before it. -/
theorem later_perform (p : Parser) (step : ParseStep) : Later p (final (p.perform step)) := by
  have hreading : step.IsReading → Later p (final (p.perform step)) := by
    intro h
    obtain ⟨rest, hrest, heq⟩ := p.final_perform_of_isReading h
    rw [heq]
    exact p.later_resume hrest
  cases step with
  | next => exact p.later_resume (List.tail_suffix p.stream.unread)
  | peekPower =>
    have hpeek : Tidy peekPower := tidy_congruence.peekPower
    obtain ⟨hrest, heq⟩ := p.final_exec hpeek
    rw [perform, final_ofRun, heq]
    exact p.later_resume hrest
  | renew limit =>
    rw [perform]
    cases hnew : ofStream p.stream limit with
    | error e => exact .refl p
    | ok new =>
      -- The new parser takes over the stream at its place.
      obtain ⟨-, rfl⟩ := ofStream_eq_ok_iff.1 hnew
      exact ⟨.inr rfl, rfl, Nat.le_refl _⟩
  | peek => exact .refl p
  | tables => exact .refl p
  | setOperand kind handler => exact ⟨.inl rfl, rfl, Nat.le_refl _⟩
  | setInfixed kind handler => exact ⟨.inl rfl, rfl, Nat.le_refl _⟩
  | setPostfixed kind handler => exact ⟨.inl rfl, rfl, Nat.le_refl _⟩
  | setLimit limit => exact ⟨.inl rfl, rfl, Nat.le_refl _⟩
  | parse min => exact hreading trivial
  | parseExpression => exact hreading trivial
  | parseResult => exact hreading trivial
  | startOperand handler t => exact hreading trivial
  | foldOperator handler left t => exact hreading trivial

/-! ## Sessions -/

/-- The parser after a session, in which any step may have failed. -/
def after (p : Parser) (steps : List ParseStep) : Parser :=
  steps.foldl (fun p step => final (p.perform step)) p

/-- What one step keeps, a session keeps. -/
theorem later_after (p : Parser) (steps : List ParseStep) : Later p (p.after steps) := by
  induction steps generalizing p with
  | nil => exact .refl p
  | cons step steps ih => exact (p.later_perform step).trans (ih _)

/-! ## What a reading depends on -/

/-- Two parsers with the same tables, the same limit and the same tokens left, inside of as many
expressions. What they have read may differ. -/
structure Alike (p q : Parser) : Prop where
  unread : p.stream.unread = q.stream.unread
  tables : p.tables = q.tables
  limit : p.limit = q.limit
  depth : p.depth = q.depth

/-- The same outcome, and the same tokens left. -/
def SameAnswer {ε : Type} (r r' : Run ε Parser α) : Prop :=
  outcome r = outcome r' ∧ (final r).stream.unread = (final r').stream.unread

variable {p q : Parser}

theorem Alike.climb_eq (h : Alike p q) : p.climb = q.climb := by
  rw [climb, climb, size, size, h.tables, h.limit, h.unread]

theorem Alike.exec (h : Alike p q) {m : ParseM α} (hm : Tidy m) :
    SameAnswer (p.exec m) (q.exec m) := by
  have hrest : ∀ p : Parser, (final (p.exec m)).stream.unread =
      (final (m ⟨p.stream.unread, p.depth⟩)).unread := by
    intro p
    obtain ⟨hsuffix, heq⟩ := p.final_exec hm
    rw [heq]
    exact TokenStream.unread_resume (hsuffix.trans (List.drop_suffix _ _))
  constructor
  · rw [outcome_exec, outcome_exec, h.unread, h.depth]
  · rw [hrest, hrest, h.unread, h.depth]

theorem SameAnswer.ofRun {r r' : Run Failure Parser α} (h : SameAnswer r r')
    (reply : α → ParseReply) : SameAnswer (Stepped.ofRun reply r) (Stepped.ofRun reply r') := by
  obtain ⟨hout, hrest⟩ := h
  refine ⟨?_, by rwa [final_ofRun, final_ofRun]⟩
  cases r <;> cases r' <;> cases hout <;> rfl

theorem SameAnswer.parseResult (h : SameAnswer p.parseExpression q.parseExpression) :
    SameAnswer p.parseResult q.parseResult := by
  obtain ⟨hout, hrest⟩ := h
  refine ⟨?_, by rwa [final_parseResult, final_parseResult]⟩
  unfold Parser.parseResult
  cases hp : p.parseExpression <;> cases hq : q.parseExpression <;> rw [hp, hq] at hout <;>
    cases hout
  · rfl
  · -- The same error is kept as a result or let through, whichever it is.
    next e _ _ => cases e <;> rfl

/-- Parsers that are alike read alike. -/
theorem Alike.perform (h : Alike p q) {step : ParseStep} (hstep : step.IsReading) :
    SameAnswer (p.perform step) (q.perform step) := by
  -- A reader is made of the tables, the limit and the number of tokens left, so both run the same.
  have hexpression : SameAnswer p.parseExpression q.parseExpression := by
    unfold parseExpression size
    rw [← h.tables, ← h.limit, ← h.unread]
    exact h.exec (tidy_readExpression p.tables p.limit p.size)
  cases step with
  | parse min =>
    apply SameAnswer.ofRun
    unfold parse
    rw [← h.climb_eq]
    exact h.exec (tidy_climb p.tables p.limit p.size min)
  | parseExpression => exact hexpression.ofRun _
  | parseResult => exact hexpression.parseResult.ofRun _
  | startOperand handler t =>
    apply SameAnswer.ofRun
    unfold startOperand
    rw [← h.climb_eq]
    exact h.exec (tidy_runOperand p.tables p.limit p.size handler t)
  | foldOperator handler left t =>
    apply SameAnswer.ofRun
    unfold foldOperator
    rw [← h.climb_eq]
    exact h.exec (tidy_runOperator p.tables p.limit p.size handler left t)
  | _ => exact hstep.elim

end Parser

/-- A session leaves no trace in the parser but the tokens that it has read. The session may consist
of any steps, and any of them may have failed. After one step more, the parser is inside of no
expression, its tokens are those of the stream it was made of, and it has gone forward in them, if
at all. During the step, handlers run inside of at least one expression and of no more than the
limit admits: what the parser reads expressions with does the same under a watch that breaks off the
run with any fault at all where it finds the depth outside of these bounds.

A step that reads expressions or runs a handler leaves the limit and the tables as they were. It
answers as on any newly made parser that is given this limit and these tables, if the stream of that
parser has the same tokens left, and it leaves the same tokens there. -/
theorem session_leaves_no_trace {stream : TokenStream} {limit : Int} {p : Parser}
    (hp : Parser.ofStream stream limit = .ok p) (steps : List ParseStep) (step : ParseStep) :
    let q := p.after steps
    let q' := final (q.perform step)
    (q'.depth = 0 ∧ q'.stream.tokens = stream.tokens ∧ q.stream.position ≤ q'.stream.position ∧
      q'.stream.position ≤ stream.tokens.length) ∧
    (∀ fault, watchedClimb (guarded q.limit fault) q.tables q.limit q.size = q.climb) ∧
    (step.IsReading → q'.limit = q.limit ∧ q'.tables = q.tables ∧
      ∀ (stream' : TokenStream) (limit' : Int) (new : Parser), stream'.unread = q.stream.unread →
        Parser.ofStream stream' limit' = .ok new →
          let r := { new with tables := q.tables, limit := q.limit }
          outcome (q.perform step) = outcome (r.perform step) ∧
            q'.stream.unread = (final (r.perform step)).stream.unread) := by
  intro q q'
  obtain ⟨-, rfl⟩ := Parser.ofStream_eq_ok_iff.1 hp
  have hq := Parser.later_after ⟨stream, .standard, limit, 0⟩ steps
  have hq' : Parser.Later q q' := q.later_perform step
  have hdepth : q.depth = 0 := hq.depth.elim id id
  have hdepth' : q'.depth = 0 := hq'.depth.elim (fun h => h.trans hdepth) id
  have htokens : q'.stream.tokens = stream.tokens := hq'.tokens.trans hq.tokens
  refine ⟨⟨hdepth', htokens, hq'.position, ?_⟩, fun fault => ?_, fun hstep => ?_⟩
  · rw [← htokens]
    exact q'.stream.position_le
  · rw [watchedClimb_guarded]
    rfl
  · -- The depth is that of a new parser, and so nothing is left in which the two could differ.
    obtain ⟨rest, -, hfinal⟩ := q.final_perform_of_isReading hstep
    have hsame : q' = { q with stream := q.stream.resume rest } := hfinal
    refine ⟨by rw [hsame], by rw [hsame], fun stream' limit' new hunread hnew => ?_⟩
    obtain ⟨-, rfl⟩ := Parser.ofStream_eq_ok_iff.1 hnew
    have halike : Parser.Alike q ⟨stream', q.tables, q.limit, 0⟩ :=
      ⟨hunread.symm, rfl, rfl, hdepth⟩
    exact halike.perform hstep

/-- The tokens of `(1`. -/
def unclosed : TokenStream where
  tokens := [⟨.lparen, "(", ⟨1, 1⟩⟩, ⟨.number, "1", ⟨1, 2⟩⟩, ⟨.eof, "", ⟨1, 3⟩⟩]
  position := 0
  endsWithEof := by decide
  position_le := by decide

/-- A session on `(1` in which every step but one fails: the group is not closed, the limit is set
to nothing, no new parser is made under it, and no expression is entered any more. A new parser on
the exhausted stream fails in the same way under the same limit. -/
theorem session_leaves_no_trace_unclosed :
    Parser.ofStream unclosed 2 = .ok ⟨unclosed, .standard, 2, 0⟩ ∧
      let q := Parser.after ⟨unclosed, .standard, 2, 0⟩ [.parse 0, .setLimit 0, .renew 0]
      (final (q.perform .parseExpression)).depth = 0 ∧
      (final (q.perform .parseExpression)).stream.tokens = unclosed.tokens ∧
      outcome (q.perform .parseExpression) =
        outcome (Parser.perform ⟨unclosed.skip 3, .standard, 0, 0⟩ .parseExpression) ∧
      outcome (q.perform .parseExpression) =
        .error (.failure (.parsing (.depthExceeded 0 none))) := by
  have hp : Parser.ofStream unclosed 2 = .ok ⟨unclosed, .standard, 2, 0⟩ := rfl
  have hnew : Parser.ofStream (unclosed.skip 3) 1 = .ok ⟨unclosed.skip 3, .standard, 1, 0⟩ := rfl
  obtain ⟨⟨hdepth, htokens, -⟩, -, hreading⟩ :=
    session_leaves_no_trace hp [.parse 0, .setLimit 0, .renew 0] .parseExpression
  obtain ⟨-, -, hsame⟩ := hreading trivial
  exact ⟨hp, hdepth, htokens, (hsame _ _ _ rfl hnew).1, rfl⟩

end ArithSyntax
