import ArithSyntax.Proofs.Climb.Rules
import ArithSyntax.Proofs.Grammar.Phrase

/-!
# Climbing reads the grammar

With the standard tables, an expression is read exactly where a phrase stands that the minimum and
the limit admit: the phrase's tree is returned and the tokens after the phrase are left
(`parses_expression_iff`).

A phrase is read from its left edge on. The operand at the bottom of that edge is read first and
each operator of the edge is folded into it, so what is proved by induction on phrases is that
reading a phrase amounts to having its tree as the left operand (`Phrase.parses_spine`). In the
other direction each rule that succeeds makes a phrase out of the phrases of its parts
(`Parses.covered`).
-/

set_option autoImplicit false

namespace ArithSyntax

/-! ## The standard tables -/

namespace Tables

theorem standard_operand_sign (op : PrefixOp) : standard.operand op.kind = some .sign := by
  cases op <;> rfl

theorem standard_operator_postfixed (op : PostfixOp) :
    standard.operator op.kind = some .postfixed := by
  cases op
  rfl

theorem standard_operator_binary (op : InfixOp) :
    ∃ handler, standard.operator op.kind = some handler ∧
      handler.rightMin? op.symbol = some (op.limit : Int) := by
  cases op with
  | pow => exact ⟨.rightInfix, rfl, rfl⟩
  | mul => exact ⟨.leftInfix, rfl, rfl⟩
  | add => exact ⟨.leftInfix, rfl, rfl⟩
  | sub => exact ⟨.leftInfix, rfl, rfl⟩
  | div => exact ⟨.leftInfix, rfl, rfl⟩

theorem kind_of_standard_number {k : Kind} (h : standard.operand k = some .number) :
    k = .number := by
  cases k <;> first | rfl | cases h

theorem kind_of_standard_sign {k : Kind} (h : standard.operand k = some .sign) :
    ∃ op : PrefixOp, k = op.kind := by
  cases k <;> first | exact ⟨.pos, rfl⟩ | exact ⟨.neg, rfl⟩ | cases h

theorem kind_of_standard_group {k : Kind} (h : standard.operand k = some .group) :
    k = .lparen := by
  cases k <;> first | rfl | cases h

/-- The kinds that bind are those that have a handler after an operand. -/
theorem standard_operator_isSome_iff (k : Kind) :
    (standard.operator k).isSome ↔ 0 < k.power := by
  cases k <;> decide

/-- Every kind that binds is an operator, and it has the handler of its place. -/
theorem standard_operator_cases {k : Kind} (h : 0 < k.power) :
    (∃ op : InfixOp, k = op.kind) ∨ ∃ op : PostfixOp, k = op.kind := by
  cases k with
  | plus => exact Or.inl ⟨.add, rfl⟩
  | minus => exact Or.inl ⟨.sub, rfl⟩
  | star => exact Or.inl ⟨.mul, rfl⟩
  | slash => exact Or.inl ⟨.div, rfl⟩
  | caret => exact Or.inl ⟨.pow, rfl⟩
  | bang => exact Or.inr ⟨.factorial, rfl⟩
  | number => exact absurd h (Nat.lt_irrefl 0)
  | lparen => exact absurd h (Nat.lt_irrefl 0)
  | rparen => exact absurd h (Nat.lt_irrefl 0)
  | eof => exact absurd h (Nat.lt_irrefl 0)

end Tables

theorem applied_eq_ok {tree : Except OperatorError Expr} {x : Expr}
    (h : applied tree = .ok x) : tree = .ok x := by
  cases tree with
  | ok y =>
    cases h
    rfl
  | error e => cases h

/-! ## The rules that the standard tables use -/

section Rules

variable {limit min : Int} {d : Nat} {ts mid rest : List Token} {out : Except Failure Expr}

theorem parses_literal {n : Nat} (m : Mark) (h : (d : Int) < limit)
    (hn : Literal.read m.text.toList = .ok n)
    (hfold : Parses .standard limit (.operators min (.literal n)) (d + 1) ts out rest) :
    Parses .standard limit (.expression min) d (m.token .number :: ts) out rest :=
  .expression h rfl (.number hn) hfold

theorem parses_group {x : Expr} (o m : Mark) (h : (d : Int) < limit)
    (hx : Parses .standard limit (.expression 0) (d + 1) ts (.ok x) (m.token .rparen :: mid))
    (hfold : Parses .standard limit (.operators min x) (d + 1) mid out rest) :
    Parses .standard limit (.expression min) d (o.token .lparen :: ts) out rest :=
  .expression h rfl (.group hx rfl) hfold

theorem parses_sign {x : Expr} (op : PrefixOp) (m : Mark) (h : (d : Int) < limit)
    (hx : Parses .standard limit (.expression op.limit) (d + 1) ts (.ok x) mid)
    (hfold : Parses .standard limit (.operators min (.prefixed op x)) (d + 1) mid out rest) :
    Parses .standard limit (.expression min) d (m.token op.kind :: ts) out rest := by
  rw [← op.bindingPower_symbol] at hx
  have hsign : Parses .standard limit (.operand .sign (m.token op.kind)) (d + 1) ts
      (applied (Expr.applyPrefix op.symbol x)) mid := .sign op.lexeme?_kind hx
  rw [Expr.applyPrefix_symbol] at hsign
  exact .expression h (Tables.standard_operand_sign op) hsign hfold

theorem parses_binary {x y : Expr} (op : InfixOp) (m : Mark) (h : min < (op.power : Int))
    (hy : Parses .standard limit (.expression op.limit) d ts (.ok y) mid)
    (hfold : Parses .standard limit (.operators min (.binary op x y)) d mid out rest) :
    Parses .standard limit (.operators min x) d (m.token op.kind :: ts) out rest := by
  obtain ⟨handler, ht, hm⟩ := Tables.standard_operator_binary op
  have hop : Parses .standard limit (.operator handler x (m.token op.kind)) d ts
      (applied (Expr.applyInfix op.symbol x y)) mid := .infixed op.lexeme?_kind hm hy
  rw [Expr.applyInfix_symbol] at hop
  rw [← op.power_kind] at h
  exact .operators h ht hop hfold

theorem parses_postfixed {x : Expr} (op : PostfixOp) (m : Mark) (h : min < (op.power : Int))
    (hfold : Parses .standard limit (.operators min (.postfixed op x)) d ts out rest) :
    Parses .standard limit (.operators min x) d (m.token op.kind :: ts) out rest := by
  have hop : Parses .standard limit (.operator .postfixed x (m.token op.kind)) d ts
      (applied (Expr.applyPostfix op.symbol x)) ts := .postfixed op.lexeme?_kind
  rw [Expr.applyPostfix_symbol] at hop
  rw [← op.power_kind] at h
  exact .operators h (Tables.standard_operator_postfixed op) hop hfold

end Rules

/-! ## Phrases are read -/

open Phrase

variable {limit : Int}

/-- To read the expression that starts with a phrase is to fold the operators after the phrase into
its tree. The induction follows the left edge; every other part of the phrase is an expression of
its own, which ends where the phrase's operators make it end. -/
theorem Phrase.parses_spine (c : Phrase) {tree : Expr} (he : c.erase? = some tree)
    (hw : c.WellBound) {min : Int} {d : Nat} {rest last : List Token} {out : Except Failure Expr}
    (hmin : ∀ p ∈ c.leftEdge, min < (p : Int)) (hclosed : ∀ q ∈ c.rightEdge, nextPower rest ≤ q)
    (hd : (d : Int) + c.nesting ≤ limit)
    (hfold : Parses .standard limit (.operators min tree) (d + 1) rest out last) :
    Parses .standard limit (.expression min) d (c.yield ++ rest) out last := by
  induction c generalizing min d tree rest last out with
  | literal m =>
    simp only [nesting] at hd
    simp only [erase?] at he
    split at he
    · next n hn =>
      cases he
      exact parses_literal m (by omega) hn hfold
    · cases he
  | group o c m ih =>
    simp only [nesting] at hd
    -- The parenthesis does not bind, so the inner expression is read up to it and no further.
    have hinner : Parses .standard limit (.expression 0) (d + 1)
        (c.yield ++ m.token .rparen :: rest) (.ok tree) (m.token .rparen :: rest) := by
      refine ih he hw (fun p hp => ?_) (fun q _ => Nat.zero_le q) (by omega) (.stop (Int.le_refl 0))
      exact_mod_cast c.leftEdge_pos p hp
    simp only [yield, List.cons_append, List.append_assoc, List.nil_append]
    exact parses_group o m (by omega) hinner hfold
  | prefixed op m c ih =>
    simp only [nesting] at hd
    obtain ⟨hw, hleft⟩ := hw
    obtain ⟨x, hx, rfl⟩ := Option.map_eq_some_iff.1 he
    have hstop : nextPower rest ≤ op.limit := hclosed _ List.mem_cons_self
    have hinner : Parses .standard limit (.expression op.limit) (d + 1) (c.yield ++ rest)
        (.ok x) rest := by
      refine ih hx hw (fun p hp => ?_) (fun q hq => hclosed q (List.mem_cons_of_mem _ hq))
        (by omega) (.stop (by exact_mod_cast hstop))
      exact_mod_cast hleft p hp
    exact parses_sign op m (by omega) hinner hfold
  | binary op l m r ihl ihr =>
    simp only [nesting] at hd
    obtain ⟨hwl, hwr, hright, hleft⟩ := hw
    simp only [erase?] at he
    split at he
    · next x y hx hy =>
      cases he
      have hstop : nextPower rest ≤ op.limit := hclosed _ List.mem_cons_self
      have hinner : Parses .standard limit (.expression op.limit) (d + 1) (r.yield ++ rest)
          (.ok y) rest := by
        refine ihr hy hwr (fun p hp => ?_) (fun q hq => hclosed q (List.mem_cons_of_mem _ hq))
          (by omega) (.stop (by exact_mod_cast hstop))
        exact_mod_cast hleft p hp
      -- The left operand is read first, and the operator is folded into it.
      simp only [yield, List.append_assoc, List.cons_append]
      refine ihl hx hwl (fun p hp => hmin p (List.mem_cons_of_mem _ hp)) (fun q hq => ?_)
        (by omega) (parses_binary op m (hmin _ List.mem_cons_self) hinner hfold)
      simpa using hright q hq
    · cases he
  | postfixed op c m ih =>
    obtain ⟨hw, hright⟩ := hw
    obtain ⟨x, hx, rfl⟩ := Option.map_eq_some_iff.1 he
    simp only [yield, List.append_assoc, List.cons_append, List.nil_append]
    refine ih hx hw (fun p hp => hmin p (List.mem_cons_of_mem _ hp)) (fun q hq => ?_) hd
      (parses_postfixed op m (hmin _ List.mem_cons_self) hfold)
    simpa using hright q hq

/-- A phrase that the limit admits is read, and what follows it is left. -/
theorem Phrase.Reading.parses {c : Phrase} {min : Int} {tree : Expr} {ts rest : List Token}
    (h : c.Reading min tree ts rest) {d : Nat} (hd : (d : Int) + c.nesting ≤ limit) :
    Parses .standard limit (.expression min) d ts (.ok tree) rest := by
  rw [h.yield_eq]
  exact c.parses_spine h.erase_eq h.wellBound h.tighter h.closed hd (.stop h.stops)

/-! ## What is read is a phrase -/

/-- What a derivation with the standard tables says about phrases, if it ends in a tree. An operand
and its operators are read one level inside of the expression that they make up, so their phrases
are counted from the level outside. -/
def Covered (limit : Int) : Task → Nat → List Token → Except Failure Expr → List Token → Prop
  | .expression min, d, ts, out, rest => ∀ tree, out = .ok tree →
      ∃ c : Phrase, c.Reading min tree ts rest ∧ (d : Int) + c.nesting ≤ limit
  | .operand handler t, d, ts, out, rest => Tables.standard.operand t.kind = some handler →
      (d : Int) ≤ limit → ∀ tree, out = .ok tree →
        ∃ c : Phrase, c.Covers tree (t :: ts) rest ∧ c.leftEdge = [] ∧
          (d : Int) + c.nesting ≤ limit + 1
  | .operators min left, d, ts, out, rest => ∀ (c₀ : Phrase) (front : List Token),
      c₀.Covers left front ts → (∀ p ∈ c₀.leftEdge, min < (p : Int)) →
        (d : Int) + c₀.nesting ≤ limit + 1 → ∀ tree, out = .ok tree →
          ∃ c : Phrase, c.Reading min tree front rest ∧ (d : Int) + c.nesting ≤ limit + 1
  | .operator handler left t, d, ts, out, rest => Tables.standard.operator t.kind = some handler →
      ∀ (c₀ : Phrase) (front : List Token), c₀.Covers left front (t :: ts) →
        (d : Int) + c₀.nesting ≤ limit + 1 → ∀ tree, out = .ok tree →
          ∃ c : Phrase, c.Covers tree front rest ∧ c.leftEdge = t.kind.power :: c₀.leftEdge ∧
            (d : Int) + c.nesting ≤ limit + 1

theorem literal_covers {t : Token} {ts : List Token} {n : Nat} (ht : t.kind = .number)
    (hn : Literal.read t.text.toList = .ok n) :
    (Phrase.literal t.mark).Covers (.literal n) (t :: ts) ts where
  wellBound := trivial
  yield_eq := by
    rw [yield, Token.mark_token ht]
    rfl
  erase_eq := erase?_literal hn
  closed q hq := absurd hq List.not_mem_nil

theorem group_covers {c : Phrase} {tree : Expr} {t close : Token} {ts rest : List Token}
    (ht : t.kind = .lparen) (hclose : close.kind = .rparen)
    (h : c.Covers tree ts (close :: rest)) :
    (Phrase.group t.mark c close.mark).Covers tree (t :: ts) rest where
  wellBound := h.wellBound
  yield_eq := by
    rw [yield, Token.mark_token ht, Token.mark_token hclose, h.yield_eq]
    simp
  erase_eq := h.erase_eq
  closed q hq := absurd hq List.not_mem_nil

theorem prefixed_covers {c : Phrase} {tree : Expr} {t : Token} {ts rest : List Token}
    {op : PrefixOp} (ht : t.kind = op.kind) (h : c.Reading op.limit tree ts rest) :
    (Phrase.prefixed op t.mark c).Covers (.prefixed op tree) (t :: ts) rest where
  wellBound := ⟨h.wellBound, fun p hp => by exact_mod_cast h.tighter p hp⟩
  yield_eq := by
    rw [yield, Token.mark_token ht, h.yield_eq]
    rfl
  erase_eq := by
    rw [erase?, h.erase_eq]
    rfl
  closed q hq := by
    rcases List.mem_cons.1 hq with rfl | hq
    · exact_mod_cast h.stops
    · exact h.closed q hq

theorem binary_covers {l r : Phrase} {x y : Expr} {t : Token} {front ts rest : List Token}
    {op : InfixOp} (ht : t.kind = op.kind) (hl : l.Covers x front (t :: ts))
    (hr : r.Reading op.limit y ts rest) :
    (Phrase.binary op l t.mark r).Covers (.binary op x y) front rest where
  wellBound := by
    refine ⟨hl.wellBound, hr.wellBound, fun q hq => ?_, fun p hp => ?_⟩
    · have hpower := hl.closed q hq
      rwa [nextPower_cons, ht, op.power_kind] at hpower
    · exact_mod_cast hr.tighter p hp
  yield_eq := by
    rw [yield, Token.mark_token ht, hl.yield_eq, hr.yield_eq]
    simp
  erase_eq := by rw [erase?, hl.erase_eq, hr.erase_eq]
  closed q hq := by
    rcases List.mem_cons.1 hq with rfl | hq
    · exact_mod_cast hr.stops
    · exact hr.closed q hq

theorem postfixed_covers {c : Phrase} {x : Expr} {t : Token} {front rest : List Token}
    {op : PostfixOp} (ht : t.kind = op.kind) (h : c.Covers x front (t :: rest)) :
    (Phrase.postfixed op c t.mark).Covers (.postfixed op x) front rest where
  wellBound := by
    refine ⟨h.wellBound, fun q hq => ?_⟩
    have hpower := h.closed q hq
    rwa [nextPower_cons, ht, op.power_kind] at hpower
  yield_eq := by
    rw [yield, Token.mark_token ht, h.yield_eq]
    simp
  erase_eq := by
    rw [erase?, h.erase_eq]
    rfl
  closed q hq := absurd hq List.not_mem_nil

/-- The handler that the standard tables give to an operator tells its place. -/
theorem standard_handler_cases {k : Kind} {handler : OperatorHandler} {op : String}
    (ht : Tables.standard.operator k = some handler) (hl : k.lexeme? = some op) :
    (∃ o : InfixOp, k = o.kind ∧ op = o.symbol ∧ handler.rightMin? op = some (o.limit : Int)) ∨
      ∃ o : PostfixOp, k = o.kind ∧ op = o.symbol ∧ handler = .postfixed := by
  have hpos : 0 < k.power := (Kind.power_pos_iff k).2 (by rw [hl]; rfl)
  rcases Tables.standard_operator_cases hpos with ⟨o, rfl⟩ | ⟨o, rfl⟩
  · obtain ⟨handler', ht', hm⟩ := Tables.standard_operator_binary o
    rw [o.lexeme?_kind] at hl
    rw [ht] at ht'
    cases hl
    cases ht'
    exact Or.inl ⟨o, rfl, rfl, hm⟩
  · rw [o.lexeme?_kind] at hl
    rw [Tables.standard_operator_postfixed o] at ht
    cases hl
    cases ht
    exact Or.inr ⟨o, rfl, rfl, rfl⟩

/-- Whatever is read with the standard tables is a phrase, and the limit admits its nesting. -/
theorem Parses.covered {task : Task} {d : Nat} {ts rest : List Token} {out : Except Failure Expr}
    (h : Parses .standard limit task d ts out rest) : Covered limit task d ts out rest := by
  induction h with
  | tooDeep h => exact fun tree ht => by cases ht
  | exhausted h => exact fun tree ht => by cases ht
  | noOperand h ht => exact fun tree ht => by cases ht
  | operandFails h ht hop ih => exact fun tree ht => by cases ht
  | expression h ht hop hfold ihop ihfold =>
    intro tree hout
    -- The operand has no operator on its left edge, so the minimum asks nothing of it.
    obtain ⟨c₀, hc₀, hedge, hn⟩ := ihop ht (by omega) _ rfl
    obtain ⟨c, hc, hn⟩ := ihfold c₀ _ hc₀ (fun p hp => by simp [hedge] at hp) hn tree hout
    exact ⟨c, hc, by omega⟩
  | number hn =>
    intro ht hd tree hout
    cases hout
    have hk := Tables.kind_of_standard_number ht
    exact ⟨_, literal_covers hk hn, rfl, by simp only [nesting]; omega⟩
  | badNumber hn => exact fun ht hd tree hout => by cases hout
  | signNoLexeme hl => exact fun ht hd tree hout => by cases hout
  | signFails hl hx ih => exact fun ht hd tree hout => by cases hout
  | sign hl hx ih =>
    intro ht hd tree hout
    obtain ⟨op, hk⟩ := Tables.kind_of_standard_sign ht
    rw [hk, op.lexeme?_kind] at hl
    cases hl
    have happ := applied_eq_ok hout
    rw [Expr.applyPrefix_symbol] at happ
    cases happ
    obtain ⟨c, hc, hn⟩ := ih _ rfl
    rw [op.bindingPower_symbol] at hc
    exact ⟨_, prefixed_covers hk hc, rfl, by simp only [nesting]; omega⟩
  | groupFails hx ih => exact fun ht hd tree hout => by cases hout
  | group hx hclose ih =>
    intro ht hd tree hout
    have hk := Tables.kind_of_standard_group ht
    obtain ⟨c, hc, hn⟩ := ih tree hout
    exact ⟨_, group_covers hk hclose hc.toCovers, rfl, by simp only [nesting]; omega⟩
  | groupOpen hx hclose ih => exact fun ht hd tree hout => by cases hout
  | stop h =>
    intro c₀ front hc₀ htighter hn tree hout
    cases hout
    exact ⟨c₀, ⟨hc₀, htighter, h⟩, hn⟩
  | noLookahead h => exact fun c₀ front hc₀ htighter hn tree hout => by cases hout
  | noOperator h ht => exact fun c₀ front hc₀ htighter hn tree hout => by cases hout
  | operatorFails h ht hop ih => exact fun c₀ front hc₀ htighter hn tree hout => by cases hout
  | operators h ht hop hfold ihop ihfold =>
    intro c₀ front hc₀ htighter hn tree hout
    obtain ⟨c₁, hc₁, hedge, hn₁⟩ := ihop ht c₀ front hc₀ hn _ rfl
    -- The operator joins the left edge, and it binds tighter than the minimum.
    refine ihfold c₁ front hc₁ ?_ hn₁ tree hout
    rw [hedge]
    intro p hp
    rcases List.mem_cons.1 hp with rfl | hp
    · exact h
    · exact htighter p hp
  | operatorNoLexeme hl => exact fun ht c₀ front hc₀ hn tree hout => by cases hout
  | infixFails hl hm hx ih => exact fun ht c₀ front hc₀ hn tree hout => by cases hout
  | infixed hl hm hx ih =>
    intro ht c₀ front hc₀ hn tree hout
    rcases standard_handler_cases ht hl with ⟨op, hk, rfl, hm'⟩ | ⟨op, hk, rfl, rfl⟩
    · -- The right operand was read under the limit of its operator.
      have happ := applied_eq_ok hout
      rw [Expr.applyInfix_symbol] at happ
      cases happ
      rw [hm] at hm'
      cases hm'
      obtain ⟨c, hc, hn'⟩ := ih _ rfl
      refine ⟨_, binary_covers hk hc₀ hc, ?_, by simp only [nesting]; omega⟩
      rw [hk, op.power_kind]
      rfl
    · cases hm
  | postfixed hl =>
    intro ht c₀ front hc₀ hn tree hout
    rcases standard_handler_cases ht hl with ⟨op, hk, rfl, hm⟩ | ⟨op, hk, rfl, -⟩
    · cases hm
    · have happ := applied_eq_ok hout
      rw [Expr.applyPostfix_symbol] at happ
      cases happ
      refine ⟨_, postfixed_covers hk hc₀, ?_, hn⟩
      rw [hk, op.power_kind]
      rfl

/-- With the standard tables, the expressions that are read are the phrases that the minimum, the
next token and the limit admit. -/
theorem parses_expression_iff {min : Int} {d : Nat} {ts rest : List Token} {tree : Expr} :
    Parses .standard limit (.expression min) d ts (.ok tree) rest ↔
      ∃ c : Phrase, c.Reading min tree ts rest ∧ (d : Int) + c.nesting ≤ limit :=
  ⟨fun h => h.covered tree rfl, fun ⟨_, hc, hn⟩ => hc.parses hn⟩

end ArithSyntax
