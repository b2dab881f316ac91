import ArithSyntax.Proofs.Climb.DepthLimit
import ArithSyntax.Proofs.Grammar.Precedence

/-!
# The limit that a phrase needs

An expression that is accepted under some limit is accepted under just those limits that are not
below the nesting of its phrase. Under any other limit it is refused, and the refusal names the
token at which the first operand starts that lies one level deeper than the limit admits
(`parseExpression_nesting`).

The level of an operand is how many expressions it lies in, the whole phrase included. Groups, signs
and right operands hold an expression of their own, so what they hold lies one level deeper than
they do; left operands and operands of postfix operators lie on the level of the node that holds
them. Operands are read from left to right, and one that the limit admits is read to its end before
the next one is begun. So the refusal is that of the first operand that it does not admit
(`Phrase.refused`).
-/

set_option autoImplicit false

namespace ArithSyntax

/-! ## Levels -/

namespace Phrase

/-- `c.OperandAt n front x`: the phrase `x` is an operand in the phrase `c` on the level `n`, and
`front` are the tokens before it. The whole phrase counts as an operand, on the level `1`. -/
inductive OperandAt : Phrase → Nat → List Token → Phrase → Prop
  | whole (c : Phrase) : OperandAt c 1 [] c
  | group {o m : Mark} {c x : Phrase} {n : Nat} {front : List Token} (h : OperandAt c n front x) :
      OperandAt (.group o c m) (n + 1) (o.token .lparen :: front) x
  | prefixed {op : PrefixOp} {m : Mark} {c x : Phrase} {n : Nat} {front : List Token}
      (h : OperandAt c n front x) :
      OperandAt (.prefixed op m c) (n + 1) (m.token op.kind :: front) x
  | left {op : InfixOp} {m : Mark} {l r x : Phrase} {n : Nat} {front : List Token}
      (h : OperandAt l n front x) : OperandAt (.binary op l m r) n front x
  | right {op : InfixOp} {m : Mark} {l r x : Phrase} {n : Nat} {front : List Token}
      (h : OperandAt r n front x) :
      OperandAt (.binary op l m r) (n + 1) (l.yield ++ m.token op.kind :: front) x
  | postfixed {op : PostfixOp} {m : Mark} {c x : Phrase} {n : Nat} {front : List Token}
      (h : OperandAt c n front x) : OperandAt (.postfixed op c m) n front x

variable {c l r x : Phrase} {n : Nat} {front back : List Token} {t : Token}

theorem OperandAt.level_pos (h : OperandAt c n front x) : 0 < n := by
  induction h with
  | whole c => exact Nat.one_pos
  | group h ih => exact Nat.succ_pos _
  | prefixed h ih => exact Nat.succ_pos _
  | left h ih => exact ih
  | right h ih => exact Nat.succ_pos _
  | postfixed h ih => exact ih

/-- No operand lies deeper than the nesting. -/
theorem OperandAt.level_le (h : OperandAt c n front x) : n ≤ c.nesting := by
  induction h with
  | whole c => exact c.nesting_pos
  | group h ih =>
    rw [nesting]
    omega
  | prefixed h ih =>
    rw [nesting]
    omega
  | left h ih =>
    rw [nesting]
    omega
  | right h ih =>
    rw [nesting]
    omega
  | postfixed h ih => exact ih

/-- The first operand of the phrase on the level `n` starts with the token `t`: the tokens of the
phrase are `front`, then `t`, then `back`, and no operand on that level has fewer tokens before
it. -/
structure FirstOperand (c : Phrase) (n : Nat) (front : List Token) (t : Token)
    (back : List Token) : Prop where
  yield_eq : c.yield = front ++ t :: back
  operand : ∃ x, OperandAt c n front x ∧ x.yield.head? = some t
  first : ∀ front' x, OperandAt c n front' x → front.length ≤ front'.length

namespace FirstOperand

/-- On the first level the whole phrase is the first operand. -/
theorem whole (h : c.yield = t :: back) : c.FirstOperand 1 [] t back where
  yield_eq := h
  operand := ⟨c, .whole c, by rw [h, List.head?_cons]⟩
  first _ _ _ := Nat.zero_le _

theorem level_pos (h : c.FirstOperand n front t back) : 0 < n := by
  obtain ⟨x, hx, -⟩ := h.operand
  exact hx.level_pos

theorem group (h : c.FirstOperand n front t back) (o m : Mark) :
    (Phrase.group o c m).FirstOperand (n + 1) (o.token .lparen :: front) t
      (back ++ [m.token .rparen]) where
  yield_eq := by
    rw [yield, h.yield_eq]
    simp
  operand := by
    obtain ⟨x, hx, ht⟩ := h.operand
    exact ⟨x, .group hx, ht⟩
  first front' x h' := by
    have hpos := h.level_pos
    cases h' with
    | whole => omega
    | group h' => exact Nat.succ_le_succ (h.first _ _ h')

theorem prefixed (h : c.FirstOperand n front t back) (op : PrefixOp) (m : Mark) :
    (Phrase.prefixed op m c).FirstOperand (n + 1) (m.token op.kind :: front) t back where
  yield_eq := by
    rw [yield, h.yield_eq]
    simp
  operand := by
    obtain ⟨x, hx, ht⟩ := h.operand
    exact ⟨x, .prefixed hx, ht⟩
  first front' x h' := by
    have hpos := h.level_pos
    cases h' with
    | whole => omega
    | prefixed h' => exact Nat.succ_le_succ (h.first _ _ h')

/-- What the left operand holds comes before what the right one holds. -/
theorem left (h : l.FirstOperand n front t back) (op : InfixOp) (m : Mark) (r : Phrase) :
    (Phrase.binary op l m r).FirstOperand n front t (back ++ m.token op.kind :: r.yield) where
  yield_eq := by
    rw [yield, h.yield_eq]
    simp
  operand := by
    obtain ⟨x, hx, ht⟩ := h.operand
    exact ⟨x, .left hx, ht⟩
  first front' x h' := by
    cases h' with
    | whole => exact h.first _ _ (.whole l)
    | left h' => exact h.first _ _ h'
    | right h' =>
      -- All tokens of the left operand stand before what the right one holds.
      rw [h.yield_eq, List.append_assoc, List.length_append]
      exact Nat.le_add_right _ _

/-- If the left operand holds nothing on this level, it is the right one that matters. -/
theorem right (h : r.FirstOperand n front t back) (op : InfixOp) (m : Mark) (hl : l.nesting ≤ n) :
    (Phrase.binary op l m r).FirstOperand (n + 1) (l.yield ++ m.token op.kind :: front) t
      back where
  yield_eq := by
    rw [yield, h.yield_eq]
    simp
  operand := by
    obtain ⟨x, hx, ht⟩ := h.operand
    exact ⟨x, .right hx, ht⟩
  first front' x h' := by
    have hpos := h.level_pos
    cases h' with
    | whole => omega
    | left h' =>
      -- The level is deeper than the left operand reaches.
      have hle := h'.level_le
      omega
    | right h' =>
      have hfirst := h.first _ _ h'
      simp only [List.length_append, List.length_cons]
      omega

theorem postfixed (h : c.FirstOperand n front t back) (op : PostfixOp) (m : Mark) :
    (Phrase.postfixed op c m).FirstOperand n front t (back ++ [m.token op.kind]) where
  yield_eq := by
    rw [yield, h.yield_eq]
    simp
  operand := by
    obtain ⟨x, hx, ht⟩ := h.operand
    exact ⟨x, .postfixed hx, ht⟩
  first front' x h' := by
    cases h' with
    | whole => exact h.first _ _ (.whole c)
    | postfixed h' => exact h.first _ _ h'

end FirstOperand

end Phrase

/-! ## Failures inside of a phrase -/

section Rules

variable {limit min : Int} {d : Nat} {ts rest : List Token} {e : Failure}

theorem parses_group_fails (o : Mark) (h : (d : Int) < limit)
    (hx : Parses .standard limit (.expression 0) (d + 1) ts (.error e) rest) :
    Parses .standard limit (.expression min) d (o.token .lparen :: ts) (.error e) rest :=
  .operandFails h rfl (.groupFails hx)

theorem parses_sign_fails (op : PrefixOp) (m : Mark) (h : (d : Int) < limit)
    (hx : Parses .standard limit (.expression op.limit) (d + 1) ts (.error e) rest) :
    Parses .standard limit (.expression min) d (m.token op.kind :: ts) (.error e) rest := by
  rw [← op.bindingPower_symbol] at hx
  exact .operandFails h (Tables.standard_operand_sign op) (.signFails op.lexeme?_kind hx)

theorem parses_right_fails {x : Expr} (op : InfixOp) (m : Mark) (h : min < (op.power : Int))
    (hy : Parses .standard limit (.expression op.limit) d ts (.error e) rest) :
    Parses .standard limit (.operators min x) d (m.token op.kind :: ts) (.error e) rest := by
  obtain ⟨handler, ht, hm⟩ := Tables.standard_operator_binary op
  rw [← op.power_kind] at h
  exact .operatorFails h ht (.infixFails op.lexeme?_kind hm hy)

end Rules

namespace Phrase

/-- Inside of `d` expressions, the phrase before `rest` is refused at its first operand on the level
that the limit does not admit any more. -/
def Refused (c : Phrase) (limit min : Int) (d : Nat) (rest : List Token) : Prop :=
  ∃ (n : Nat) (front : List Token) (t : Token) (back : List Token),
    (n : Int) = max (limit - d) 0 + 1 ∧ c.FirstOperand n front t back ∧
    Parses .standard limit (.expression min) d (c.yield ++ rest)
      (.error (.parsing (.depthExceeded limit (some t)))) (back ++ rest)

namespace Refused

variable {c l r : Phrase} {limit min : Int} {d : Nat} {rest : List Token}

/-- An expression that starts where the limit is reached is refused at its first token. -/
theorem tooDeep (c : Phrase) (h : limit ≤ d) (min : Int) (rest : List Token) :
    c.Refused limit min d rest := by
  obtain ⟨t, back, hyield⟩ := c.exists_yield_cons
  refine ⟨1, [], t, back, by omega, .whole hyield, ?_⟩
  rw [hyield]
  exact .tooDeep h

theorem group {m : Mark} (h : c.Refused limit 0 (d + 1) (m.token .rparen :: rest)) (o : Mark)
    (hlt : (d : Int) < limit) (min : Int) : (Phrase.group o c m).Refused limit min d rest := by
  obtain ⟨n, front, t, back, hn, hfirst, hparses⟩ := h
  refine ⟨n + 1, o.token .lparen :: front, t, back ++ [m.token .rparen], by omega,
    hfirst.group o m, ?_⟩
  simp only [yield, List.cons_append, List.append_assoc, List.nil_append]
  exact parses_group_fails o hlt hparses

theorem prefixed {op : PrefixOp} (h : c.Refused limit op.limit (d + 1) rest) (m : Mark)
    (hlt : (d : Int) < limit) (min : Int) :
    (Phrase.prefixed op m c).Refused limit min d rest := by
  obtain ⟨n, front, t, back, hn, hfirst, hparses⟩ := h
  refine ⟨n + 1, m.token op.kind :: front, t, back, by omega, hfirst.prefixed op m, ?_⟩
  exact parses_sign_fails op m hlt hparses

theorem left {op : InfixOp} {m : Mark}
    (h : l.Refused limit min d (m.token op.kind :: (r.yield ++ rest))) :
    (Phrase.binary op l m r).Refused limit min d rest := by
  obtain ⟨n, front, t, back, hn, hfirst, hparses⟩ := h
  refine ⟨n, front, t, back ++ m.token op.kind :: r.yield, hn, hfirst.left op m r, ?_⟩
  simp only [yield, List.append_assoc, List.cons_append]
  exact hparses

/-- If the limit admits the left operand, that is read, and the operator goes on from its tree. -/
theorem right {op : InfixOp} (h : r.Refused limit op.limit (d + 1) rest) (m : Mark) {x : Expr}
    (hx : l.erase? = some x) (hw : l.WellBound) (hmin : ∀ p ∈ l.leftEdge, min < (p : Int))
    (hclosed : ∀ q ∈ l.rightEdge, op.power ≤ q) (hpower : min < (op.power : Int))
    (hwithin : (d : Int) + l.nesting ≤ limit) :
    (Phrase.binary op l m r).Refused limit min d rest := by
  obtain ⟨n, front, t, back, hn, hfirst, hparses⟩ := h
  have hpos := l.nesting_pos
  refine ⟨n + 1, l.yield ++ m.token op.kind :: front, t, back, by omega,
    hfirst.right op m (by omega), ?_⟩
  simp only [yield, List.append_assoc, List.cons_append]
  refine l.parses_spine hx hw hmin ?_ hwithin (parses_right_fails op m hpower hparses)
  intro q hq
  rw [nextPower_cons, Mark.token_kind, op.power_kind]
  exact hclosed q hq

theorem postfixed {op : PostfixOp} {m : Mark}
    (h : c.Refused limit min d (m.token op.kind :: rest)) :
    (Phrase.postfixed op c m).Refused limit min d rest := by
  obtain ⟨n, front, t, back, hn, hfirst, hparses⟩ := h
  refine ⟨n, front, t, back ++ [m.token op.kind], hn, hfirst.postfixed op m, ?_⟩
  simp only [yield, List.append_assoc, List.singleton_append]
  exact hparses

end Refused

/-- A phrase that is nested too deeply is read up to the first operand that the limit does not
admit. The induction is that of `Phrase.parses_spine`, which reads the left operands that the limit
admits. -/
theorem refused (c : Phrase) {tree : Expr} (he : c.erase? = some tree) (hw : c.WellBound)
    {limit min : Int} {d : Nat} (rest : List Token) (hmin : ∀ p ∈ c.leftEdge, min < (p : Int))
    (hd : limit < (d : Int) + c.nesting) : c.Refused limit min d rest := by
  induction c generalizing min d tree rest with
  | literal m =>
    simp only [nesting] at hd
    exact .tooDeep _ (by omega) min rest
  | group o c m ih =>
    simp only [nesting] at hd
    rcases Int.lt_or_le d limit with hlt | hdeep
    · -- A group reads its content under the minimum `0`, which every operator passes.
      apply Refused.group _ o hlt min
      apply ih he hw
      · intro p hp
        exact_mod_cast c.leftEdge_pos p hp
      · omega
    · exact .tooDeep _ hdeep min rest
  | prefixed op m c ih =>
    simp only [nesting] at hd
    obtain ⟨hw, hleft⟩ := hw
    obtain ⟨x, hx, rfl⟩ := Option.map_eq_some_iff.1 he
    rcases Int.lt_or_le d limit with hlt | hdeep
    · apply Refused.prefixed _ m hlt min
      apply ih hx hw
      · intro p hp
        exact_mod_cast hleft p hp
      · omega
    · exact .tooDeep _ hdeep min rest
  | binary op l m r ihl ihr =>
    simp only [nesting] at hd
    obtain ⟨hwl, hwr, hright, hleft⟩ := hw
    simp only [erase?] at he
    split at he
    · next x y hx hy =>
      have hminl : ∀ p ∈ l.leftEdge, min < (p : Int) := fun p hp =>
        hmin p (List.mem_cons_of_mem _ hp)
      rcases Int.lt_or_le limit ((d : Int) + l.nesting) with hover | hwithin
      · exact .left (ihl hx hwl _ hminl hover)
      · apply Refused.right _ m hx hwl hminl hright (hmin _ List.mem_cons_self) hwithin
        apply ihr hy hwr
        · intro p hp
          exact_mod_cast hleft p hp
        · -- The left operand is within the limit, so it is the right one that makes the nesting.
          omega
    · cases he
  | postfixed op c m ih =>
    obtain ⟨hw, -⟩ := hw
    obtain ⟨x, hx, rfl⟩ := Option.map_eq_some_iff.1 he
    apply Refused.postfixed
    apply ih hx hw _ _ hd
    intro p hp
    exact hmin p (List.mem_cons_of_mem _ hp)

end Phrase

/-! ## Parsers under all limits -/

/-- Under this limit the parser accepts the whole expression. -/
def Parser.AcceptsUnder (p : Parser) (limit : Int) (tree : Expr) : Prop :=
  ∃ q, (p.withLimit limit).parseExpression = .ok tree q

/-- The parser exceeds this limit at the token `t`, which is the last of the `n` tokens that it
reads. -/
def Parser.ExceedsAt (p : Parser) (limit : Int) (n : Nat) (t : Token) : Prop :=
  ∃ stream : TokenStream,
    (p.withLimit limit).parseExpression = .error (.parsing (.depthExceeded limit (some t)))
      { p with limit := limit, stream := stream } ∧
    stream.tokens = p.stream.tokens ∧ stream.position = p.stream.position + n

section Parsers

variable {p : Parser} {limit : Int} {tree : Expr}

/-- What is accepted is a phrase before an end token. -/
theorem Parser.AcceptsUnder.exists_reading (h : p.AcceptsUnder limit tree)
    (htables : p.tables = .standard) :
    ∃ (c : Phrase) (e : Token) (rest : List Token), e.kind = .eof ∧
      c.Reading 0 tree p.stream.unread (e :: rest) := by
  obtain ⟨rest, hparses, heof⟩ := ((p.withLimit limit).parseExpression_ok_iff tree).1 h
  have hparses : Parses p.tables limit (.expression 0) p.depth p.stream.unread (.ok tree) rest :=
    hparses
  rw [htables] at hparses
  obtain ⟨c, hc, -⟩ := parses_expression_iff.1 hparses
  obtain ⟨e, rest, he, rfl⟩ := TokenStream.exists_eof_of_yield hc.yield_eq heof
  exact ⟨c, e, rest, he, hc⟩

variable {c : Phrase} {e : Token} {rest : List Token}

/-- A limit that admits the nesting of the phrase lets it be read. -/
theorem Phrase.Reading.accepted (hc : c.Reading 0 tree p.stream.unread (e :: rest))
    (he : e.kind = .eof) (htables : p.tables = .standard) (hdepth : p.depth = 0)
    (hle : (c.nesting : Int) ≤ limit) : p.AcceptsUnder limit tree := by
  apply ((p.withLimit limit).parseExpression_ok_iff tree).2
  refine ⟨e :: rest, ?_, fun t ht => ?_⟩
  · show Parses p.tables limit (.expression 0) p.depth p.stream.unread (.ok tree) (e :: rest)
    rw [htables, hdepth]
    exact hc.parses (by simpa using hle)
  · cases ht
    exact he

/-- A smaller limit is exceeded, and the stream is left behind the token that is named. -/
theorem Phrase.Reading.refused (hc : c.Reading 0 tree p.stream.unread (e :: rest))
    (htables : p.tables = .standard) (hdepth : p.depth = 0) (hlt : limit < (c.nesting : Int)) :
    ∃ front t back, c.FirstOperand ((max limit 0).toNat + 1) front t back ∧
      p.ExceedsAt limit (front.length + 1) t := by
  have hd : limit < ((0 : Nat) : Int) + c.nesting := by simpa using hlt
  obtain ⟨n, front, t, back, hn, hfirst, hparses⟩ :=
    c.refused hc.erase_eq hc.wellBound (e :: rest) hc.tighter hd
  have hlevel : n = (max limit 0).toNat + 1 := by omega
  rw [hlevel] at hfirst
  refine ⟨front, t, back, hfirst, p.stream.resume (back ++ e :: rest), ?_, rfl, ?_⟩
  · rw [← hc.yield_eq, ← htables, ← hdepth] at hparses
    exact Parses.parseExpression (p := p.withLimit limit) hparses
  · have hunread : p.stream.unread = (front ++ [t]) ++ (back ++ e :: rest) := by
      rw [hc.yield_eq, hfirst.yield_eq]
      simp
    rw [TokenStream.position_resume hunread, List.length_append, List.length_singleton]

end Parsers

/-- The limit that an accepted expression needs is the nesting of its phrase. With the standard
tables, what a parser accepts under some limit is a phrase of the grammar, and no other phrase can
be read there. Every limit that is not below the nesting of the phrase lets the parser accept;
every other limit is exceeded, at the first operand that lies one level deeper than the limit
admits: the token that starts this operand is named, and it is the last that is read. So a chain of
factorial signs needs what its operand needs, and a chain to the left over literals needs the limit
`2`, however long it is. -/
theorem parseExpression_nesting (p : Parser) (htables : p.tables = .standard)
    (hdepth : p.depth = 0) {accepting : Int} {tree : Expr} (h : p.AcceptsUnder accepting tree) :
    ∃ (c : Phrase) (e : Token) (rest : List Token), e.kind = .eof ∧
      c.Reading 0 tree p.stream.unread (e :: rest) ∧
      (∀ c' tree' rest', c'.Reading 0 tree' p.stream.unread rest' → c' = c) ∧
      (∀ limit : Int, (p.AcceptsUnder limit tree ↔ (c.nesting : Int) ≤ limit) ∧
        (limit < (c.nesting : Int) →
          ∃ front t back, c.FirstOperand ((max limit 0).toNat + 1) front t back ∧
            p.ExceedsAt limit (front.length + 1) t)) ∧
      (∀ (x : Phrase) (ms : List Mark), c = x.factorials ms →
        ∀ limit : Int, p.AcceptsUnder limit tree ↔ (x.nesting : Int) ≤ limit) ∧
      ∀ m link links, c = (Phrase.literal m).leftChain (link :: links) →
        ∀ limit : Int, p.AcceptsUnder limit tree ↔ 2 ≤ limit := by
  obtain ⟨c, e, rest, he, hc⟩ := h.exists_reading htables
  have haccepts : ∀ limit : Int, p.AcceptsUnder limit tree ↔ (c.nesting : Int) ≤ limit := by
    intro limit
    refine ⟨fun ⟨q, hq⟩ => ?_, hc.accepted he htables hdepth⟩
    -- Under a limit below the nesting the outcome is a failure.
    by_contra hlt
    obtain ⟨front, t, back, -, stream, herror, -⟩ := hc.refused htables hdepth (Int.not_le.1 hlt)
    rw [herror] at hq
    cases hq
  refine ⟨c, e, rest, he, hc, fun c' tree' rest' h' => (h'.unique hc).1,
    fun limit => ⟨haccepts limit, hc.refused htables hdepth⟩, ?_, ?_⟩
  · rintro x ms rfl limit
    rw [haccepts, Phrase.nesting_factorials]
  · rintro m link links rfl limit
    rw [haccepts, Phrase.nesting_leftChain_cons]
    rfl

/-- `2^-3*4` needs the limit `4`. Under the limit `2` the operand of the sign, on the third level, is
refused. -/
theorem parseExpression_nesting_signedPower :
    ∃ c : Phrase, c.nesting = 4 ∧ ∃ front back,
      c.FirstOperand 3 front ⟨.number, "3", ⟨1, 4⟩⟩ back ∧ front.length = 3 := by
  have haccepted : signedPower.AcceptsUnder 256
      (.binary .pow (.literal 2) (.prefixed .neg (.binary .mul (.literal 3) (.literal 4)))) :=
    ⟨_, rfl⟩
  obtain ⟨c, e, rest, -, -, -, hlimit, -, -⟩ := parseExpression_nesting signedPower rfl rfl haccepted
  have hle : (c.nesting : Int) ≤ 4 := (hlimit 4).1.1 ⟨_, rfl⟩
  have hlt : ¬ (c.nesting : Int) ≤ 3 := by
    rw [← (hlimit 3).1]
    rintro ⟨q, hq⟩
    cases hq
  obtain ⟨front, t, back, hfirst, stream, herror, -, hposition⟩ := (hlimit 2).2 (by omega)
  have hrun : (signedPower.withLimit 2).parseExpression =
      .error (.parsing (.depthExceeded 2 (some ⟨.number, "3", ⟨1, 4⟩⟩)))
        { signedPower with limit := 2, stream := signedPower.stream.skip 4 } := rfl
  cases hrun.symm.trans herror
  have hfour : 4 = 0 + (front.length + 1) := hposition
  exact ⟨c, by omega, front, back, hfirst, by omega⟩

end ArithSyntax
