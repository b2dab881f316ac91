import ArithSyntax.Proofs.Climb.Rules

/-!
# Parsers and derivations

What a parser answers is what a derivation on its unread tokens ends in, and what it leaves unread
is what the derivation leaves. The stream of a parser ends with an end token, so wherever it is not
exhausted, an end token is still to come.
-/

set_option autoImplicit false

namespace ArithSyntax

open ParseM

/-- Any number of tokens, of which the last is an end token. -/
def EofLast (ts : List Token) : Prop :=
  ∀ t ∈ ts.getLast?, t.kind = .eof

theorem EofLast.suffix {ts rest : List Token} (h : EofLast ts) (hr : rest <:+ ts) :
    EofLast rest := by
  intro t ht
  obtain ⟨front, rfl⟩ := hr
  refine h t ?_
  rw [Option.mem_def] at ht ⊢
  rw [List.getLast?_append, ht]
  rfl

/-- The unread tokens of a stream end with an end token, if any are left. -/
theorem TokenStream.eofLast_unread (s : TokenStream) : EofLast s.unread := by
  have htokens : EofLast s.tokens := by
    intro t ht
    have hend := s.endsWithEof
    rw [EndsWithEof, Option.mem_def.1 ht] at hend
    exact Option.some.inj hend
  exact htokens.suffix (List.drop_suffix _ _)

/-- A new parser of a stream is inside of no expression and has the standard tables. -/
theorem Parser.ofStream_eq_ok_iff {stream : TokenStream} {limit : Int} {p : Parser} :
    Parser.ofStream stream limit = .ok p ↔ 1 ≤ limit ∧ p = ⟨stream, .standard, limit, 0⟩ := by
  unfold Parser.ofStream
  split
  · next hlimit => exact ⟨(fun h => by cases h), fun h => absurd h.1 (Int.not_le.2 hlimit)⟩
  · next hlimit =>
    rw [Except.ok.injEq, eq_comm]
    exact ⟨fun h => ⟨Int.not_lt.1 hlimit, h⟩, fun h => h.2⟩

/-- A list of tokens is parsed from its first token on, with the standard tables. -/
theorem ofTokens_eq_ok_iff {ts : List Token} {limit : Int} {p : Parser} :
    Parser.ofTokens ts limit = .ok p ↔ ∃ heof : EndsWithEof ts,
      1 ≤ limit ∧ p = ⟨⟨ts, 0, heof, Nat.zero_le _⟩, .standard, limit, 0⟩ := by
  by_cases hlimit : limit < 1
  · simp [Parser.ofTokens, hlimit, Int.not_le.2 hlimit]
  · by_cases heof : EndsWithEof ts
    · simp [Parser.ofTokens, TokenStream.ofTokens?, hlimit, heof, Parser.ofStream_eq_ok_iff]
    · simp [Parser.ofTokens, TokenStream.ofTokens?, hlimit, heof]

/-- The outcome of a whole expression: the tokens have to end where it does. -/
def finished (out : Except Failure Expr) (rest : List Token) : Except Failure Expr :=
  match out, rest.head? with
  | .ok tree, some t => if t.kind = .eof then .ok tree else .error (.parsing (.trailing t))
  | out, _ => out

theorem finished_cons (tree : Expr) (t : Token) (rest : List Token) :
    finished (.ok tree) (t :: rest) =
      if t.kind = .eof then .ok tree else .error (.parsing (.trailing t)) :=
  rfl

theorem Parser.exec_of_eq {α : Type} (p : Parser) {m : ParseM α} {out : Except Failure α}
    {rest : List Token} (h : m ⟨p.stream.unread, p.depth⟩ = endsWith out ⟨rest, p.depth⟩) :
    p.exec m = endsWith out { p with stream := p.stream.resume rest } := by
  rw [Parser.exec, h]
  cases out <;> rfl

/-- A parser's expression ends as its derivation does; nothing but the stream has changed. -/
theorem Parses.parse {p : Parser} {min : Int} {out : Except Failure Expr} {rest : List Token}
    (h : Parses p.tables p.limit (.expression min) p.depth p.stream.unread out rest) :
    p.parse min = endsWith out { p with stream := p.stream.resume rest } :=
  p.exec_of_eq h.run_eq

theorem Parses.parseExpression {p : Parser} {out : Except Failure Expr} {rest : List Token}
    (h : Parses p.tables p.limit (.expression 0) p.depth p.stream.unread out rest) :
    p.parseExpression = endsWith (finished out rest) { p with stream := p.stream.resume rest } := by
  refine p.exec_of_eq ?_
  have hrun : climb p.tables p.limit p.size 0 ⟨p.stream.unread, p.depth⟩ =
      endsWith out ⟨rest, p.depth⟩ := h.run_eq
  cases out with
  | error e => exact bind_of_error hrun
  | ok tree =>
    refine (bind_of_ok hrun).trans ?_
    cases rest with
    | nil => rfl
    | cons t rest =>
      show (if t.kind = .eof then pure tree else refuse (.trailing t) : ParseM Expr) _ =
        endsWith (if t.kind = .eof then .ok tree else .error (.parsing (.trailing t))) _
      split <;> rfl

/-- The rest of a derivation is what its parser leaves unread. -/
theorem Parses.unread_resume {p : Parser} {task : Task} {out : Except Failure Expr}
    {rest : List Token} (h : Parses p.tables p.limit task p.depth p.stream.unread out rest) :
    (p.stream.resume rest).unread = rest :=
  TokenStream.unread_resume (h.suffix.trans (List.drop_suffix _ _))

/-- The first token that a derivation leaves is the one at the place to which its parser goes. -/
theorem Parses.getElem?_resume {p : Parser} {task : Task} {out : Except Failure Expr} {t : Token}
    {rest : List Token}
    (h : Parses p.tables p.limit task p.depth p.stream.unread out (t :: rest)) :
    p.stream.tokens[(p.stream.resume (t :: rest)).position]? = some t := by
  rw [← List.head?_drop]
  exact congrArg List.head? h.unread_resume

/-- A parser does what some derivation says. -/
theorem Parses.of_parse {p p' : Parser} {min : Int} {out : Except Failure Expr}
    (h : p.parse min = endsWith out p') :
    Parses p.tables p.limit (.expression min) p.depth p.stream.unread out p'.stream.unread := by
  obtain ⟨out', rest, hparses, -⟩ :=
    exists_parses p.tables p.limit (.expression min) p.depth p.stream.unread
  obtain ⟨rfl, rfl⟩ := endsWith_inj (h.symm.trans hparses.parse)
  rwa [hparses.unread_resume]

/-- A parser does what some derivation says, and goes to the tokens that the derivation leaves. -/
theorem Parses.exists_of_parse {p q : Parser} {min : Int} {out : Except Failure Expr}
    (h : p.parse min = endsWith out q) :
    ∃ rest, Parses p.tables p.limit (.expression min) p.depth p.stream.unread out rest ∧
      q = { p with stream := p.stream.resume rest } := by
  have hparses := Parses.of_parse h
  exact ⟨_, hparses, (endsWith_inj (h.symm.trans hparses.parse)).2⟩

/-- A parser's whole expression is that of some derivation, looked at with what is left after it. -/
theorem Parses.of_parseExpression {p p' : Parser} {out : Except Failure Expr}
    (h : p.parseExpression = endsWith out p') :
    ∃ out' rest, Parses p.tables p.limit (.expression 0) p.depth p.stream.unread out' rest ∧
      out = finished out' rest := by
  obtain ⟨out', rest, hparses, -⟩ :=
    exists_parses p.tables p.limit (.expression 0) p.depth p.stream.unread
  exact ⟨out', rest, hparses, (endsWith_inj (h.symm.trans hparses.parseExpression)).1⟩

/-- A parser returns a tree exactly where a derivation ends in it. -/
theorem Parser.parse_ok_iff (p : Parser) (min : Int) (tree : Expr) (rest : List Token) :
    (∃ p', p.parse min = .ok tree p' ∧ p'.stream.unread = rest) ↔
      Parses p.tables p.limit (.expression min) p.depth p.stream.unread (.ok tree) rest := by
  constructor
  · rintro ⟨p', hp, rfl⟩
    exact Parses.of_parse hp
  · intro h
    exact ⟨_, h.parse, h.unread_resume⟩

theorem finished_eq_ok_iff {out : Except Failure Expr} {rest : List Token} {tree : Expr} :
    finished out rest = .ok tree ↔ out = .ok tree ∧ ∀ t ∈ rest.head?, t.kind = .eof := by
  cases out with
  | error e => exact ⟨(fun h => by cases h), (fun h => by cases h.1)⟩
  | ok x =>
    cases rest with
    | nil => exact ⟨fun h => ⟨h, (fun t ht => by cases ht)⟩, fun h => h.1⟩
    | cons t rest =>
      simp only [finished_cons, List.head?_cons, Option.mem_some_iff, forall_eq']
      split
      · next heof => exact ⟨fun h => ⟨h, heof⟩, fun h => h.1⟩
      · next heof => exact ⟨(fun h => by cases h), fun h => absurd h.2 heof⟩

/-- A parser accepts a whole expression exactly where a derivation ends in it before an end token
or at the end of the tokens. -/
theorem Parser.parseExpression_ok_iff (p : Parser) (tree : Expr) :
    (∃ p', p.parseExpression = .ok tree p') ↔
      ∃ rest, Parses p.tables p.limit (.expression 0) p.depth p.stream.unread (.ok tree) rest ∧
        ∀ t ∈ rest.head?, t.kind = .eof := by
  constructor
  · rintro ⟨p', hp⟩
    have hend : p.parseExpression = endsWith (.ok tree) p' := hp
    obtain ⟨out, rest, h, hout⟩ := Parses.of_parseExpression hend
    obtain ⟨rfl, heof⟩ := finished_eq_ok_iff.1 hout.symm
    exact ⟨rest, h, heof⟩
  · rintro ⟨rest, h, heof⟩
    refine ⟨{ p with stream := p.stream.resume rest }, ?_⟩
    rw [h.parseExpression, finished_eq_ok_iff.2 ⟨rfl, heof⟩]
    rfl

end ArithSyntax
