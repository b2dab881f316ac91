import ArithSyntax.Proofs.Climb.LastRead
import Mathlib.Data.List.Infix

/-!
# One token of lookahead

What a parser does is settled by the tokens that it reads and by the one that it looks at behind
them (`parse_looksAhead`). Tokens before its place and tokens further on may be replaced by any
others, or be left out.

The induction is over the rules of climbing (`Parses.lookahead`): a run goes on in the same way in
front of another rest, if that rest begins with the same token. A run that ends with a parse error
has read the token that the error names (`Parses.namesLast`) and has not looked further, so behind
it may stand any rest.
-/

set_option autoImplicit false

namespace ArithSyntax

/-! ## Readers -/

/-- The run ends with a parse error that names a token. -/
def NamesToken (out : Except Failure Expr) : Prop :=
  ∃ e t, out = .error (.parsing e) ∧ e.token? = some t

/-- The rest `rest'` does for a run with this outcome as well as `rest` does: it begins with the same
token, or the run has not looked at it. -/
def Suffices (out : Except Failure Expr) (rest rest' : List Token) : Prop :=
  rest'.head? = rest.head? ∨ NamesToken out

namespace Suffices

variable {out : Except Failure Expr} {rest rest' : List Token} {tree : Expr} {e : Failure}

theorem head?_eq_of_ok (h : Suffices (.ok tree) rest rest') : rest'.head? = rest.head? := by
  rcases h with h | ⟨e, t, hout, -⟩
  · exact h
  · cases hout

theorem head?_eq_of_applied {built : Except OperatorError Expr}
    (h : Suffices (applied built) rest rest') : rest'.head? = rest.head? := by
  rcases h with h | ⟨e, t, hout, -⟩
  · exact h
  · exact absurd hout (applied_ne_parsing built e)

/-- Where the tokens have run out and no token is named, nothing else does. -/
theorem eq_nil (h : Suffices (.error e) [] rest')
    (he : ∀ fault, e = .parsing fault → fault.token? = none) : rest' = [] := by
  rcases h with h | ⟨fault, t, hout, ht⟩
  · exact List.head?_eq_none_iff.1 h
  · rw [he fault (Except.error.inj hout)] at ht
    cases ht

end Suffices

variable {tables : Tables} {limit : Int}

/-- What was read in front of it does not tell the one rest from the other. -/
theorem Parses.head?_append {min : Int} {left : Expr} {d : Nat} {read rest rest' : List Token}
    {out : Except Failure Expr}
    (h : Parses tables limit (.operators min left) d (read ++ rest) out rest)
    (hrest : Suffices out rest rest') : (read ++ rest').head? = (read ++ rest).head? := by
  cases read with
  | cons t read => rfl
  | nil =>
    rcases hrest with hhead | ⟨e, t, rfl, ht⟩
    · exact hhead
    · -- The named token was read, so something was.
      cases h.namesLast rfl with
      | @read u he hsuffix hinner =>
        have hlen : (u :: rest).length ≤ rest.length := hsuffix.length_le
        rw [List.length_cons] at hlen
        omega
      | exhausted he hnil =>
        rw [he.token?_eq] at ht
        cases ht

/-- A task is done in the same way in front of every rest that suffices. -/
theorem Parses.lookahead {task : Task} {d : Nat} {ts rest rest' : List Token}
    {out : Except Failure Expr} (h : Parses tables limit task d ts out rest)
    (hrest : Suffices out rest rest') :
    ∃ read, ts = read ++ rest ∧ Parses tables limit task d (read ++ rest') out rest' := by
  induction h generalizing rest' with
  | @tooDeep min d ts h =>
    cases ts with
    | nil =>
      obtain rfl := hrest.eq_nil (by rintro fault ⟨⟩; rfl)
      exact ⟨[], rfl, .tooDeep h⟩
    | cons t ts =>
      have hrule : Parses tables limit (.expression min) d (t :: rest') _ _ := .tooDeep h
      exact ⟨[t], rfl, hrule⟩
  | exhausted h =>
    obtain rfl := hrest.eq_nil (by rintro fault ⟨⟩; rfl)
    exact ⟨[], rfl, .exhausted h⟩
  | @noOperand min d t ts h ht => exact ⟨[t], rfl, .noOperand h ht⟩
  | @operandFails min d t ts rest handler e h ht hop ih =>
    obtain ⟨read, rfl, hop'⟩ := ih hrest
    exact ⟨t :: read, rfl, .operandFails h ht hop'⟩
  | @expression min d t ts mid rest handler left out h ht hop hfold ihop ihfold =>
    obtain ⟨back, rfl, hfold'⟩ := ihfold hrest
    obtain ⟨front, rfl, hop'⟩ := ihop (Or.inl (hfold.head?_append hrest))
    refine ⟨t :: front ++ back, by simp, ?_⟩
    rw [List.append_assoc]
    exact .expression h ht hop' hfold'
  | number hn => exact ⟨[], rfl, .number hn⟩
  | badNumber hn => exact ⟨[], rfl, .badNumber hn⟩
  | signNoLexeme hl => exact ⟨[], rfl, .signNoLexeme hl⟩
  | signFails hl hx ih =>
    obtain ⟨read, rfl, hx'⟩ := ih hrest
    exact ⟨read, rfl, .signFails hl hx'⟩
  | sign hl hx ih =>
    obtain ⟨read, rfl, hx'⟩ := ih (Or.inl hrest.head?_eq_of_applied)
    exact ⟨read, rfl, .sign hl hx'⟩
  | groupFails hx ih =>
    obtain ⟨read, rfl, hx'⟩ := ih hrest
    exact ⟨read, rfl, .groupFails hx'⟩
  | @group d t close ts rest x hx hclose ih =>
    -- The closing parenthesis is the one token that the inner expression has looked at.
    have hclosed : Suffices (.ok x) (close :: rest) (close :: rest') := Or.inl rfl
    obtain ⟨read, rfl, hx'⟩ := ih hclosed
    refine ⟨read ++ [close], by simp, ?_⟩
    rw [List.append_assoc]
    exact .group hx' hclose
  | @groupOpen d t ts mid x hx hclose ih =>
    cases mid with
    | nil =>
      obtain rfl := hrest.eq_nil (by rintro fault ⟨⟩; rfl)
      obtain ⟨read, rfl, hx'⟩ := ih (Or.inl rfl)
      exact ⟨read, rfl, .groupOpen hx' hclose⟩
    | cons u mid =>
      have hopen : Suffices (.ok x) (u :: mid) (u :: rest') := Or.inl rfl
      obtain ⟨read, rfl, hx'⟩ := ih hopen
      have hrule : Parses tables limit (.operand .group t) d (read ++ u :: rest') _ rest' :=
        .groupOpen hx' hclose
      refine ⟨read ++ [u], by simp, ?_⟩
      rw [List.append_assoc]
      exact hrule
  | @stop min left d ts h =>
    have hpower : (nextPower rest' : Int) ≤ min := by
      rw [nextPower, hrest.head?_eq_of_ok]
      exact h
    exact ⟨[], rfl, .stop hpower⟩
  | noLookahead h =>
    obtain rfl := hrest.eq_nil (by rintro fault ⟨⟩)
    exact ⟨[], rfl, .noLookahead h⟩
  | @noOperator min left d t ts h ht => exact ⟨[t], rfl, .noOperator h ht⟩
  | @operatorFails min left d t ts rest handler e h ht hop ih =>
    obtain ⟨read, rfl, hop'⟩ := ih hrest
    exact ⟨t :: read, rfl, .operatorFails h ht hop'⟩
  | @operators min left tree d t ts mid rest handler out h ht hop hfold ihop ihfold =>
    obtain ⟨back, rfl, hfold'⟩ := ihfold hrest
    obtain ⟨front, rfl, hop'⟩ := ihop (Or.inl (hfold.head?_append hrest))
    refine ⟨t :: front ++ back, by simp, ?_⟩
    rw [List.append_assoc]
    exact .operators h ht hop' hfold'
  | operatorNoLexeme hl => exact ⟨[], rfl, .operatorNoLexeme hl⟩
  | infixFails hl hm hx ih =>
    obtain ⟨read, rfl, hx'⟩ := ih hrest
    exact ⟨read, rfl, .infixFails hl hm hx'⟩
  | infixed hl hm hx ih =>
    obtain ⟨read, rfl, hx'⟩ := ih (Or.inl hrest.head?_eq_of_applied)
    exact ⟨read, rfl, .infixed hl hm hx'⟩
  | postfixed hl => exact ⟨[], rfl, .postfixed hl⟩

/-! ## Streams that share tokens -/

namespace TokenStream

variable {s s' : TokenStream}

/-- From the place of the first stream on and before the place `stop`, both streams have the same
tokens at the same places. -/
def SharesBefore (s s' : TokenStream) (stop : Nat) : Prop :=
  ∀ i, s.position ≤ i → i < stop → s.tokens[i]? = s'.tokens[i]?

theorem SharesBefore.mono {stop stop' : Nat} (h : s.SharesBefore s' stop') (hle : stop ≤ stop') :
    s.SharesBefore s' stop :=
  fun i hi hlt => h i hi (Nat.lt_of_lt_of_le hlt hle)

theorem SharesBefore.succ {stop : Nat} (h : s.SharesBefore s' stop)
    (hlast : s.tokens[stop]? = s'.tokens[stop]?) : s.SharesBefore s' (stop + 1) := by
  intro i hi hlt
  rcases Nat.lt_succ_iff_lt_or_eq.1 hlt with hbefore | rfl
  · exact h i hi hbefore
  · exact hlast

theorem getElem?_unread (s : TokenStream) (i : Nat) :
    s.unread[i]? = s.tokens[s.position + i]? :=
  List.getElem?_drop

/-- Tokens that the first stream has unread at its front are there in the second stream, if they are
shared. -/
theorem SharesBefore.exists_unread_eq {read rest : List Token} {stop : Nat}
    (h : s.SharesBefore s' stop) (hread : s.unread = read ++ rest)
    (hstop : stop = s.position + read.length) (hposition : s'.position = s.position) :
    ∃ rest', s'.unread = read ++ rest' := by
  have hfront : read <+: s'.unread := by
    apply List.prefix_iff_getElem?.2
    intro i hi
    have hshared := h (s.position + i) (by omega) (by omega)
    rw [getElem?_unread, hposition, ← hshared, ← getElem?_unread, hread,
      List.getElem?_append_left hi, List.getElem?_eq_getElem hi]
  obtain ⟨rest', hrest'⟩ := hfront
  exact ⟨rest', hrest'.symm⟩

/-- Behind what was read stands the token at the place that was come to. -/
theorem getElem?_position_add {read rest : List Token} (hread : s.unread = read ++ rest) :
    s.tokens[s.position + read.length]? = rest.head? := by
  rw [← getElem?_unread, hread, List.getElem?_append_right (Nat.le_refl _), Nat.sub_self,
    List.head?_eq_getElem?]

end TokenStream

/-! ## Parsers -/

/-- Both runs have the same outcome, and leave their streams at the same place. -/
def SameEnd (r r' : Run Failure Parser Expr) : Prop :=
  outcome r' = outcome r ∧ (final r').stream.position = (final r).stream.position

section Parsers

variable {p : Parser} {s : TokenStream} {min : Int} {out : Except Failure Expr} {rest : List Token}

/-- On a stream that shares what was read, and the next token if that was looked at, the same is
read. -/
theorem Parses.exists_of_shared
    (h : Parses p.tables p.limit (.expression min) p.depth p.stream.unread out rest)
    (hposition : s.position = p.stream.position)
    (hshared : p.stream.SharesBefore s (p.stream.resume rest).position)
    (hnext : p.stream.SharesBefore s ((p.stream.resume rest).position + 1) ∨ NamesToken out) :
    ∃ rest', Parses p.tables p.limit (.expression min) p.depth s.unread out rest' ∧
      (s.resume rest').position = (p.stream.resume rest).position ∧
      (p.stream.SharesBefore s ((p.stream.resume rest).position + 1) →
        rest'.head? = rest.head?) := by
  obtain ⟨read, hread⟩ := h.suffix
  have hread : p.stream.unread = read ++ rest := hread.symm
  have hstop := TokenStream.position_resume hread
  obtain ⟨rest', hread'⟩ := hshared.exists_unread_eq hread hstop hposition
  have hhead : p.stream.SharesBefore s ((p.stream.resume rest).position + 1) →
      rest'.head? = rest.head? := by
    intro hthrough
    rw [← TokenStream.getElem?_position_add hread, ← TokenStream.getElem?_position_add hread',
      hposition]
    exact (hthrough _ (Nat.le_add_right _ _) (by omega)).symm
  obtain ⟨read₀, hread₀, h'⟩ := h.lookahead (hnext.imp_left hhead)
  -- What was read is what stands in front of the rest.
  obtain rfl : read = read₀ := List.append_cancel_right (hread.symm.trans hread₀)
  rw [← hread'] at h'
  refine ⟨rest', h', ?_, hhead⟩
  rw [TokenStream.position_resume hread', hposition, hstop]

theorem sameEnd_parse (hposition : s.position = p.stream.position)
    (hshared : p.stream.SharesBefore s (final (p.parse min)).stream.position)
    (hnext : p.stream.SharesBefore s ((final (p.parse min)).stream.position + 1) ∨
      NamesToken (outcome (p.parse min))) :
    SameEnd (p.parse min) ({ p with stream := s }.parse min) := by
  obtain ⟨out, rest, h, -⟩ :=
    exists_parses p.tables p.limit (.expression min) p.depth p.stream.unread
  rw [h.parse, final_endsWith] at hshared hnext
  rw [outcome_endsWith] at hnext
  obtain ⟨rest', h', hplace, -⟩ := h.exists_of_shared hposition hshared hnext
  have hp' := Parses.parse (p := { p with stream := s }) h'
  rw [SameEnd, h.parse, hp']
  simp only [outcome_endsWith, final_endsWith, hplace, and_self]

/-- Of what is left, only the first token decides whether an expression is the whole. -/
theorem finished_congr {rest' : List Token} (h : rest'.head? = rest.head?) :
    finished out rest' = finished out rest := by
  unfold finished
  rw [h]

theorem sameEnd_parseExpression (hposition : s.position = p.stream.position)
    (hthrough : p.stream.SharesBefore s ((final p.parseExpression).stream.position + 1)) :
    SameEnd p.parseExpression { p with stream := s }.parseExpression := by
  obtain ⟨out, rest, h, -⟩ := exists_parses p.tables p.limit (.expression 0) p.depth p.stream.unread
  rw [h.parseExpression, final_endsWith] at hthrough
  obtain ⟨rest', h', hplace, hhead⟩ :=
    h.exists_of_shared hposition (hthrough.mono (Nat.le_succ _)) (Or.inl hthrough)
  have hp' := Parses.parseExpression (p := { p with stream := s }) h'
  rw [SameEnd, h.parseExpression, hp', finished_congr (hhead hthrough)]
  simp only [outcome_endsWith, final_endsWith, hplace, and_self]

/-- A parse error that names a token is settled before the next one is looked at; one that names none
is settled by the end of the tokens. -/
theorem sameEnd_of_parseError {e : ParseError} {q : Parser}
    (h : p.parse min = .error (.parsing e) q) (hposition : s.position = p.stream.position)
    (hshared : p.stream.SharesBefore s q.stream.position)
    (hend : e.token? = none → s.tokens.length = q.stream.position) :
    SameEnd (p.parse min) ({ p with stream := s }.parse min) := by
  have hfinal : final (p.parse min) = q := by rw [h]; rfl
  apply sameEnd_parse hposition
  · rwa [hfinal]
  · rw [hfinal, h]
    rcases (namesRead_of_parse h).1 with ⟨t, ht, -, -⟩ | ⟨hnone, hlength, -⟩
    · exact Or.inr ⟨e, t, rfl, ht⟩
    · -- Both streams end where the parser stands, so they share that there is no token.
      apply Or.inl
      apply hshared.succ
      rw [List.getElem?_eq_none (Nat.le_of_eq hlength.symm),
        List.getElem?_eq_none (Nat.le_of_eq (hend hnone))]

end Parsers

/-- What a parser does is settled by the tokens from its place to the place that it comes to, that
place included. Whatever the tables, the minimum and the limit are: if the tokens of another stream
are the same at these places, or end there likewise, then an expression ends on that stream as it
does on the first, whether it is read or fails, and at the same place. So it is with a whole
expression; there the last of these tokens is the end token, if the expression is read before one.

If there is a parse error in an expression, the token at the place that was come to does not matter,
unless the error names no token: then what matters is that both streams end there. Tokens before the
place of a parser and tokens further behind never matter. -/
theorem parse_looksAhead (p : Parser) {s : TokenStream} (hposition : s.position = p.stream.position)
    (min : Int) :
    let p' := { p with stream := s }
    (p.stream.SharesBefore s ((final (p.parse min)).stream.position + 1) →
      SameEnd (p.parse min) (p'.parse min)) ∧
    (p.stream.SharesBefore s ((final p.parseExpression).stream.position + 1) →
      SameEnd p.parseExpression p'.parseExpression) ∧
    ∀ e q, p.parse min = .error (.parsing e) q → p.stream.SharesBefore s q.stream.position →
      (e.token? = none → s.tokens.length = q.stream.position) →
        SameEnd (p.parse min) (p'.parse min) := by
  exact ⟨fun h => sameEnd_parse hposition (h.mono (Nat.le_succ _)) (Or.inl h),
    fun h => sameEnd_parseExpression hposition h,
    fun e q hq hshared hend => sameEnd_of_parseError hq hposition hshared hend⟩

/-- A parser of `)1+2` that stands behind the parenthesis. -/
def sumBehindParenthesis : Parser where
  stream := {
    tokens := [⟨.rparen, ")", ⟨1, 1⟩⟩, ⟨.number, "1", ⟨1, 2⟩⟩, ⟨.plus, "+", ⟨1, 3⟩⟩,
      ⟨.number, "2", ⟨1, 4⟩⟩, ⟨.eof, "", ⟨1, 5⟩⟩]
    position := 1
    endsWithEof := by decide
    position_le := by decide }
  tables := .standard
  limit := 256
  depth := 0

/-- The same sum behind another token, with more tokens behind its end token. -/
def sumGoingOn : TokenStream where
  tokens := [⟨.star, "*", ⟨7, 7⟩⟩, ⟨.number, "1", ⟨1, 2⟩⟩, ⟨.plus, "+", ⟨1, 3⟩⟩,
    ⟨.number, "2", ⟨1, 4⟩⟩, ⟨.eof, "", ⟨1, 5⟩⟩, ⟨.lparen, "(", ⟨1, 6⟩⟩, ⟨.eof, "", ⟨1, 7⟩⟩]
  position := 1
  endsWithEof := by decide
  position_le := by decide

/-- The same sum with a product for its second operand. -/
def sumOfProduct : TokenStream where
  tokens := [⟨.star, "*", ⟨7, 7⟩⟩, ⟨.number, "1", ⟨1, 2⟩⟩, ⟨.plus, "+", ⟨1, 3⟩⟩,
    ⟨.number, "2", ⟨1, 4⟩⟩, ⟨.star, "*", ⟨1, 5⟩⟩, ⟨.number, "3", ⟨1, 6⟩⟩, ⟨.eof, "", ⟨1, 7⟩⟩]
  position := 1
  endsWithEof := by decide
  position_le := by decide

/-- The sum is read alike whatever stands before it and behind its end token. Under a limit that
admits no second operand, the error names the `2`, and then it does not matter either that a product
begins with it. -/
theorem parse_looksAhead_sum :
    let p := sumBehindParenthesis
    let p₁ := { p with limit := 1 }
    p.stream.SharesBefore sumGoingOn ((final p.parseExpression).stream.position + 1) ∧
      SameEnd p.parseExpression { p with stream := sumGoingOn }.parseExpression ∧
      outcome p.parseExpression = .ok (.binary .add (.literal 1) (.literal 2)) ∧
      (∃ q, p₁.parse 0 = .error (.parsing (.depthExceeded 1 (some ⟨.number, "2", ⟨1, 4⟩⟩))) q ∧
        p.stream.SharesBefore sumOfProduct q.stream.position) ∧
      SameEnd (p₁.parse 0) ({ p₁ with stream := sumOfProduct }.parse 0) := by
  intro p p₁
  have hgoingOn : p.stream.SharesBefore sumGoingOn 5 := by
    intro i hi hlt
    have hstart : 1 ≤ i := hi
    obtain rfl | rfl | rfl | rfl : i = 1 ∨ i = 2 ∨ i = 3 ∨ i = 4 := by omega
    all_goals rfl
  have hproduct : p.stream.SharesBefore sumOfProduct 4 := by
    intro i hi hlt
    have hstart : 1 ≤ i := hi
    obtain rfl | rfl | rfl : i = 1 ∨ i = 2 ∨ i = 3 := by omega
    all_goals rfl
  have hsum := (parse_looksAhead p (s := sumGoingOn) rfl 0).2.1 hgoingOn
  have herror := (parse_looksAhead p₁ (s := sumOfProduct) rfl 0).2.2 _ _ rfl hproduct nofun
  exact ⟨hgoingOn, hsum, rfl, ⟨_, rfl, hproduct⟩, herror⟩

end ArithSyntax
