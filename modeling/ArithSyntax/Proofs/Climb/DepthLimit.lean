import ArithSyntax.Proofs.Climb.Parsers
import Mathlib.Data.Nat.Find
import Mathlib.Logic.ExistsUnique

/-!
# The limit on nesting is a cut-off

A run under a small limit does what a run under a larger one does, until the small limit ends it
(`climb_cutsOff`). Every nested expression has read a token of its own, so a limit above the number
of tokens ends no run (`Parses.not_exceeds`). From both follows that every expression has one
threshold: below it all limits are exceeded, and from there on all limits give the same outcome
(`existsUnique_cutoff`).
-/

set_option autoImplicit false

namespace ArithSyntax

open ParseM

/-! ## Two runs under two limits -/

/-- The first run does what the second does, or it is ended by `limit` before it has read more than
the second reads. -/
def CutsOff {α : Type} (limit : Int) (m m' : ParseM α) : Prop :=
  LeavesSuffix m' ∧ ∀ s, m s = m' s ∨
    ∃ token? s', m s = .error (.parsing (.depthExceeded limit token?)) s' ∧
      (final (m' s)).unread <:+ s'.unread

theorem CutsOff.refl {α : Type} (limit : Int) {m : ParseM α} (h : LeavesSuffix m) :
    CutsOff limit m m :=
  ⟨h, fun _ => Or.inl rfl⟩

/-- A run that was ended stays ended, whatever would follow; the other run reads on from where it
is. -/
theorem CutsOff.bind {α β : Type} {limit : Int} {m m' : ParseM α} {f f' : α → ParseM β}
    (first : CutsOff limit m m') (second : ∀ a, CutsOff limit (f a) (f' a)) :
    CutsOff limit (m >>= f) (m' >>= f') := by
  refine ⟨first.1.bind fun a => (second a).1, fun s => ?_⟩
  rcases first.2 s with hsame | ⟨token?, s', hm, hsuffix⟩
  · cases hrun : m' s with
    | ok a s₁ =>
      rw [bind_of_ok (hsame.trans hrun), bind_of_ok hrun]
      exact (second a).2 s₁
    | error e s₁ =>
      rw [bind_of_error (hsame.trans hrun), bind_of_error hrun]
      exact Or.inl rfl
  · refine Or.inr ⟨token?, s', bind_of_error hm, ?_⟩
    cases hrun : m' s with
    | ok a s₁ =>
      rw [bind_of_ok hrun]
      rw [hrun] at hsuffix
      exact ((second a).1 s₁).trans hsuffix
    | error e s₁ =>
      rw [bind_of_error hrun]
      rwa [hrun] at hsuffix

/-- On one more level, the smaller limit ends the run first. -/
theorem CutsOff.nested {α : Type} {limit limit' : Int} {m m' : ParseM α} (hle : limit ≤ limit')
    (h : CutsOff limit m m') (first? : Option Token) :
    CutsOff limit (nested limit first? m) (nested limit' first? m') := by
  have hleaves : LeavesSuffix (ParseM.nested limit' first? m') := h.1.nested limit' first?
  refine ⟨hleaves, fun s => ?_⟩
  rcases Int.lt_or_le (s.depth : Int) limit with hlt | hdeep
  · have hlt' : ¬ limit' ≤ s.depth := by omega
    simp only [ParseM.nested, if_neg (Int.not_le.2 hlt), if_neg hlt']
    rcases h.2 { s with depth := s.depth + 1 } with hsame | ⟨token?, s', hm, hsuffix⟩
    · exact Or.inl (by rw [hsame])
    · refine Or.inr ⟨token?, { s' with depth := s'.depth - 1 }, by rw [hm], ?_⟩
      cases hrun : m' { s with depth := s.depth + 1 } with
      | ok a s₁ => rwa [hrun] at hsuffix
      | error e s₁ => rwa [hrun] at hsuffix
  · -- The smaller limit is reached; the larger one may have room left.
    exact Or.inr ⟨first?, s, nested_of_le first? m hdeep, hleaves s⟩

theorem cutsOff_congruence (limit : Int) : Congruence fun _ m m' => CutsOff limit m m' where
  pure a := .refl limit (.pure a)
  fail e _ := .refl limit (.throw e)
  bind := .bind
  next := .refl limit leavesSuffix_next
  peekPower := .refl limit leavesSuffix_peekPower

/-- A limit ends the reading of an expression or makes no difference to a larger one. The induction
is on the bound, which is the same for both runs. -/
theorem climb_cutsOff (tables : Tables) {limit limit' : Int} (hle : limit ≤ limit') (n : Nat)
    (min : Int) : CutsOff limit (climb tables limit n min) (climb tables limit' n min) := by
  induction n generalizing min with
  | zero =>
    -- With no token left, both runs fail in the same way unless a limit ends them.
    exact CutsOff.nested hle (.refl limit (.throw _)) none
  | succ n ih =>
    refine CutsOff.bind (.refl limit leavesSuffix_next) fun first? => CutsOff.nested hle ?_ first?
    exact (cutsOff_congruence limit).body tables ih min n first?

/-! ## Outcomes under two limits -/

/-- The outcome is that of one nested expression too many. -/
def Exceeds : Except Failure Expr → Prop
  | .ok _ => False
  | .error e => e.IsDepth

variable {tables : Tables} {limit limit' min : Int} {d : Nat} {ts rest rest' : List Token}
  {out out' : Except Failure Expr}

/-- Under a larger limit an expression ends in the same way, unless the smaller limit is exceeded;
then the larger limit leaves no more tokens. -/
theorem Parses.raise (h : Parses tables limit (.expression min) d ts out rest)
    (h' : Parses tables limit' (.expression min) d ts out' rest') (hle : limit ≤ limit') :
    (out = out' ∧ rest = rest') ∨
      ((∃ token?, out = .error (.parsing (.depthExceeded limit token?))) ∧ rest' <:+ rest) := by
  have hrun : climb tables limit ts.length min ⟨ts, d⟩ = endsWith out ⟨rest, d⟩ := h.run_eq
  have hrun' : climb tables limit' ts.length min ⟨ts, d⟩ = endsWith out' ⟨rest', d⟩ := h'.run_eq
  rcases (climb_cutsOff tables hle ts.length min).2 ⟨ts, d⟩ with hsame | ⟨token?, s', hm, hsuffix⟩
  · obtain ⟨rfl, hs⟩ := endsWith_inj (hrun.symm.trans (hsame.trans hrun'))
    cases hs
    exact Or.inl ⟨rfl, rfl⟩
  · have hend : endsWith (Except.error (Failure.parsing (.depthExceeded limit token?))) s' =
        endsWith out ⟨rest, d⟩ := hm.symm.trans hrun
    obtain ⟨rfl, rfl⟩ := endsWith_inj hend
    refine Or.inr ⟨⟨token?, rfl⟩, ?_⟩
    rw [hrun'] at hsuffix
    cases out' <;> exact hsuffix

/-! ## Limits that end no run -/

/-- The limit has room for an expression in each of the tokens that are left, and for `slack` more.
Without slack, an expression that would start after the last token needs room as well. -/
def Room (tables : Tables) (limit : Int) (slack : Nat) : Task → Nat → List Token → Prop
  | .expression _, d, ts => EofLast ts ∧ (d : Int) + (max (ts.length + slack) 1 : Nat) ≤ limit
  | .operand handler t, d, ts => EofLast (t :: ts) ∧ tables.operand t.kind = some handler ∧
      (d : Int) + ts.length + slack ≤ limit
  | .operators _ _, d, ts => EofLast ts ∧ (d : Int) + ts.length + slack ≤ limit
  | .operator handler _ t, d, ts => EofLast (t :: ts) ∧ tables.operator t.kind = some handler ∧
      (d : Int) + ts.length + slack ≤ limit

theorem not_exceeds_applied (tree : Except OperatorError Expr) : ¬ Exceeds (applied tree) := by
  cases tree <;> exact id

/-- A token that is no end token is not the last one. -/
theorem EofLast.ne_nil {t : Token} (h : EofLast (t :: ts)) (ht : t.kind ≠ .eof) : ts ≠ [] := by
  rintro rfl
  exact ht (h t rfl)

/-- Where an end token starts nothing, the expression after a token that starts something finds a
token, so it needs no room beyond the tokens. -/
theorem room_inner {t : Token} {slack : Nat} (hend : slack = 0 → t.kind ≠ .eof)
    (heof : EofLast (t :: ts)) (hroom : (d : Int) + ts.length + slack ≤ limit) (min : Int) :
    Room tables limit slack (.expression min) d ts := by
  refine ⟨heof.suffix (List.suffix_cons t ts), ?_⟩
  rcases Nat.eq_zero_or_pos slack with hzero | hpos
  · have hlen : 0 < ts.length := List.length_pos_iff.2 (heof.ne_nil (hend hzero))
    omega
  · omega

/-- A limit with room for every expression is not exceeded. -/
theorem Parses.not_exceeds {task : Task} {slack : Nat} (hslack : slack = 0 → tables = .standard)
    (h : Parses tables limit task d ts out rest) (hroom : Room tables limit slack task d ts) :
    ¬ Exceeds out := by
  have hoperand : ∀ {t : Token} {handler : OperandHandler},
      tables.operand t.kind = some handler → slack = 0 → t.kind ≠ .eof := by
    rintro t handler ht hzero heof
    rw [hslack hzero, heof] at ht
    cases ht
  have hoperator : ∀ {t : Token} {handler : OperatorHandler},
      tables.operator t.kind = some handler → slack = 0 → t.kind ≠ .eof := by
    rintro t handler ht hzero heof
    rw [hslack hzero, heof] at ht
    cases ht
  induction h with
  | tooDeep h =>
    obtain ⟨-, hroom⟩ := hroom
    omega
  | exhausted h => exact id
  | noOperand h ht => exact id
  | operandFails h ht hop ih =>
    obtain ⟨heof, hroom⟩ := hroom
    rw [List.length_cons] at hroom
    exact ih ⟨heof, ht, by push_cast; omega⟩
  | expression h ht hop hfold ihop ihfold =>
    obtain ⟨heof, hroom⟩ := hroom
    rw [List.length_cons] at hroom
    have hmid := hop.suffix
    have hlen := hmid.length_le
    -- The operand's own token has made room for the level that its operators are read on.
    exact ihfold ⟨heof.suffix (hmid.trans (List.suffix_cons _ _)), by push_cast; omega⟩
  | number hn => exact id
  | badNumber hn => exact id
  | signNoLexeme hl => exact id
  | signFails hl hx ih =>
    obtain ⟨heof, ht, hroom⟩ := hroom
    exact ih (room_inner (hoperand ht) heof hroom _)
  | sign hl hx ih => exact not_exceeds_applied _
  | groupFails hx ih =>
    obtain ⟨heof, ht, hroom⟩ := hroom
    exact ih (room_inner (hoperand ht) heof hroom _)
  | group hx hclose ih => exact id
  | groupOpen hx hclose ih => exact id
  | stop h => exact id
  | noLookahead h => exact id
  | noOperator h ht => exact id
  | operatorFails h ht hop ih =>
    obtain ⟨heof, hroom⟩ := hroom
    rw [List.length_cons] at hroom
    exact ih ⟨heof, ht, by push_cast at hroom; omega⟩
  | operators h ht hop hfold ihop ihfold =>
    obtain ⟨heof, hroom⟩ := hroom
    rw [List.length_cons] at hroom
    have hmid := hop.suffix
    have hlen := hmid.length_le
    exact ihfold ⟨heof.suffix (hmid.trans (List.suffix_cons _ _)), by push_cast at hroom; omega⟩
  | operatorNoLexeme hl => exact id
  | infixFails hl hm hx ih =>
    obtain ⟨heof, ht, hroom⟩ := hroom
    exact ih (room_inner (hoperator ht) heof hroom _)
  | infixed hl hm hx ih => exact not_exceeds_applied _
  | postfixed hl => exact not_exceeds_applied _

/-! ## The threshold -/

/-- Every limit below `r` is exceeded by an expression; from `r` on, it ends in the same way under
all limits, and exceeds none of them. -/
structure Threshold (tables : Tables) (min : Int) (d : Nat) (ts : List Token) (r : Int) :
    Prop where
  below : ∀ limit < r, ∃ token? rest, Parses tables limit (.expression min) d ts
    (.error (.parsing (.depthExceeded limit token?))) rest
  above : ∃ out rest, ¬ Exceeds out ∧
    ∀ limit, r ≤ limit → Parses tables limit (.expression min) d ts out rest

/-- The least limit that is not exceeded is the threshold. -/
theorem exists_threshold (tables : Tables) (min : Int) (ts : List Token) {bound : Nat}
    (hbound : ∀ out rest, Parses tables bound (.expression min) 0 ts out rest → ¬ Exceeds out) :
    ∃ r : Nat, 1 ≤ r ∧ r ≤ bound ∧ Threshold tables min 0 ts r := by
  classical
  have hsome : ∃ n : Nat, ∃ out rest,
      Parses tables n (.expression min) 0 ts out rest ∧ ¬ Exceeds out := by
    obtain ⟨out, rest, h, -⟩ := exists_parses tables bound (.expression min) 0 ts
    exact ⟨bound, out, rest, h, hbound out rest h⟩
  have hle : Nat.find hsome ≤ bound := by
    obtain ⟨out, rest, h, -⟩ := exists_parses tables bound (.expression min) 0 ts
    exact Nat.find_min' hsome ⟨out, rest, h, hbound out rest h⟩
  obtain ⟨out, rest, hr, hout⟩ := Nat.find_spec hsome
  have hpos : 1 ≤ Nat.find hsome := by
    -- The limit `0` admits no expression at all.
    by_contra hzero
    obtain ⟨rfl, -⟩ := hr.unique (.tooDeep (by omega))
    exact hout trivial
  refine ⟨Nat.find hsome, hpos, hle, ?_, out, rest, hout, ?_⟩
  · intro limit hlt
    rcases Int.lt_or_le 0 limit with hlimit | hlimit
    · obtain ⟨out', rest', h, -⟩ := exists_parses tables limit (.expression min) 0 ts
      rcases h.raise hr (by omega) with ⟨rfl, rfl⟩ | ⟨⟨token?, rfl⟩, -⟩
      · -- The search would have found the smaller limit.
        obtain ⟨n, rfl⟩ := Int.eq_ofNat_of_zero_le (Int.le_of_lt hlimit)
        exact absurd ⟨out', rest', h, hout⟩ (Nat.find_min hsome (by omega))
      · exact ⟨token?, rest', h⟩
    · exact ⟨_, _, .tooDeep (by omega)⟩
  · intro limit hlimit
    obtain ⟨out', rest', h, -⟩ := exists_parses tables limit (.expression min) 0 ts
    rcases hr.raise h hlimit with ⟨rfl, rfl⟩ | ⟨⟨token?, rfl⟩, -⟩
    · exact h
    · exact absurd trivial hout

/-- The tokens of a stream bound its threshold. -/
theorem TokenStream.exists_threshold (tables : Tables) (min : Int) (stream : TokenStream) :
    ∃ r : Nat, 1 ≤ r ∧ r ≤ stream.unread.length + 1 ∧
      (tables = .standard → r ≤ max stream.unread.length 1) ∧
      Threshold tables min 0 stream.unread r := by
  classical
  have hthreshold : ∀ slack : Nat, (slack = 0 → tables = .standard) →
      ∃ r : Nat, 1 ≤ r ∧ r ≤ max (stream.unread.length + slack) 1 ∧
        Threshold tables min 0 stream.unread r := by
    intro slack hslack
    refine ArithSyntax.exists_threshold tables min stream.unread fun out rest h => ?_
    exact h.not_exceeds hslack ⟨stream.eofLast_unread, by omega⟩
  by_cases hstandard : tables = .standard
  · obtain ⟨r, hpos, hle, h⟩ := hthreshold 0 fun _ => hstandard
    exact ⟨r, hpos, by omega, fun _ => hle, h⟩
  · obtain ⟨r, hpos, hle, h⟩ := hthreshold 1 fun hone => absurd hone (by decide)
    exact ⟨r, hpos, by omega, fun ht => absurd ht hstandard, h⟩

/-! ## Parsers under all limits -/

/-- The parser under another limit. -/
def Parser.withLimit (p : Parser) (limit : Int) : Parser :=
  { p with limit := limit }

/-- Every limit below the threshold is exceeded by a run. From the threshold on, the run ends in the
same way and at the same place under all limits, and exceeds none of them. -/
structure Cutoff (p : Parser) (run : Parser → Run Failure Parser Expr) (threshold : Int) :
    Prop where
  below : ∀ limit < threshold, ∃ token? stream,
    run (p.withLimit limit) =
      .error (.parsing (.depthExceeded limit token?)) { p with limit := limit, stream := stream }
  above : ∃ out stream, ¬ Exceeds out ∧ ∀ limit, threshold ≤ limit →
    run (p.withLimit limit) = endsWith out { p with limit := limit, stream := stream }

/-- A run has no second threshold. -/
theorem Cutoff.le {p : Parser} {run : Parser → Run Failure Parser Expr} {threshold threshold' : Int}
    (h : Cutoff p run threshold) (h' : Cutoff p run threshold') : threshold ≤ threshold' := by
  -- Otherwise the limit `threshold'` would be exceeded by the one and not by the other.
  by_contra hlt
  obtain ⟨token?, stream, hbelow⟩ := h.below threshold' (by omega)
  obtain ⟨out, stream', hout, habove⟩ := h'.above
  have hend : endsWith (Except.error (Failure.parsing (.depthExceeded threshold' token?)))
      { p with limit := threshold', stream := stream } =
      endsWith out { p with limit := threshold', stream := stream' } :=
    hbelow.symm.trans (habove threshold' (Int.le_refl _))
  obtain ⟨rfl, -⟩ := endsWith_inj hend
  exact hout trivial

theorem Threshold.parse {p : Parser} {r : Int}
    (h : Threshold p.tables min p.depth p.stream.unread r) : Cutoff p (Parser.parse · min) r where
  below limit hlt := by
    obtain ⟨token?, rest, h⟩ := h.below limit hlt
    exact ⟨token?, p.stream.resume rest, Parses.parse (p := p.withLimit limit) h⟩
  above := by
    obtain ⟨out, rest, hout, h⟩ := h.above
    exact ⟨out, p.stream.resume rest, hout,
      fun limit hle => Parses.parse (p := p.withLimit limit) (h limit hle)⟩

theorem not_exceeds_finished (h : ¬ Exceeds out) (rest : List Token) :
    ¬ Exceeds (finished out rest) := by
  cases out with
  | error e => exact h
  | ok tree =>
    cases rest with
    | nil => exact id
    | cons t rest =>
      rw [finished_cons]
      split <;> exact id

/-- What follows the expression has no part in the threshold. -/
theorem Threshold.parseExpression {p : Parser} {r : Int}
    (h : Threshold p.tables 0 p.depth p.stream.unread r) : Cutoff p Parser.parseExpression r where
  below limit hlt := by
    obtain ⟨token?, rest, h⟩ := h.below limit hlt
    exact ⟨token?, p.stream.resume rest, Parses.parseExpression (p := p.withLimit limit) h⟩
  above := by
    obtain ⟨out, rest, hout, h⟩ := h.above
    exact ⟨finished out rest, p.stream.resume rest, not_exceeds_finished hout rest,
      fun limit hle => Parses.parseExpression (p := p.withLimit limit) (h limit hle)⟩

/-- Under a larger limit no fewer tokens are read. -/
theorem Parser.position_parse_mono (p : Parser) (min : Int) (hle : limit ≤ limit') :
    (final ((p.withLimit limit).parse min)).stream.position ≤
      (final ((p.withLimit limit').parse min)).stream.position := by
  obtain ⟨out, rest, h, -⟩ :=
    exists_parses p.tables limit (.expression min) p.depth p.stream.unread
  obtain ⟨out', rest', h', -⟩ :=
    exists_parses p.tables limit' (.expression min) p.depth p.stream.unread
  have hlen : rest'.length ≤ rest.length := by
    rcases h.raise h' hle with ⟨-, rfl⟩ | ⟨-, hsuffix⟩
    · exact Nat.le_refl _
    · exact hsuffix.length_le
  rw [Parses.parse (p := p.withLimit limit) h, Parses.parse (p := p.withLimit limit') h',
    final_endsWith, final_endsWith]
  show p.stream.tokens.length - rest.length ≤ p.stream.tokens.length - rest'.length
  omega

/-- The limit is a pure cut-off. Whatever the tables and the tokens, there is one threshold at which
an expression, and a whole expression, stops to exceed the limit; it is at most one more than the
number of tokens, and with the standard tables no more than that number where there is one. -/
theorem existsUnique_cutoff (p : Parser) (hdepth : p.depth = 0) (min : Int) :
    (∃! threshold : Int, 1 ≤ threshold ∧ threshold ≤ p.size + 1 ∧
      (p.tables = .standard → threshold ≤ max (p.size : Int) 1) ∧
      Cutoff p (Parser.parse · min) threshold ∧
      (min = 0 → Cutoff p Parser.parseExpression threshold)) ∧
    ∀ limit limit', limit ≤ limit' →
      (final ((p.withLimit limit).parse min)).stream.position ≤
        (final ((p.withLimit limit').parse min)).stream.position := by
  obtain ⟨r, hpos, hle, hstandard, h⟩ := p.stream.exists_threshold p.tables min
  rw [← hdepth] at h
  have hsize : p.size = p.stream.unread.length := rfl
  have hcut : Cutoff p (Parser.parse · min) r := h.parse
  refine ⟨⟨r, ⟨by omega, by omega, ?_, hcut, ?_⟩, ?_⟩, ?_⟩
  · intro ht
    have := hstandard ht
    omega
  · rintro rfl
    exact h.parseExpression
  · rintro r' ⟨-, -, -, hcut', -⟩
    exact Int.le_antisymm (hcut'.le hcut) (hcut.le hcut')
  · intro limit limit' hle
    exact p.position_parse_mono min hle

/-- A parser of `(1)`. -/
def grouped : Parser where
  stream := {
    tokens := [⟨.lparen, "(", ⟨1, 1⟩⟩, ⟨.number, "1", ⟨1, 2⟩⟩, ⟨.rparen, ")", ⟨1, 3⟩⟩,
      ⟨.eof, "", ⟨1, 4⟩⟩]
    position := 0
    endsWithEof := by decide
    position_le := by decide }
  tables := .standard
  limit := 256
  depth := 0

/-- The four tokens of `(1)` admit no larger threshold than four. -/
theorem exists_cutoff_grouped :
    grouped.depth = 0 ∧ ∃ threshold : Int, 1 ≤ threshold ∧ threshold ≤ 4 ∧
      Cutoff grouped Parser.parseExpression threshold := by
  obtain ⟨⟨threshold, ⟨hpos, -, hle, -, hcut⟩, -⟩, -⟩ := existsUnique_cutoff grouped rfl 0
  exact ⟨rfl, threshold, hpos, hle rfl, hcut rfl⟩

end ArithSyntax
