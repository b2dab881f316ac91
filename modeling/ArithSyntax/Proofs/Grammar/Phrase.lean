import ArithSyntax.Expr.Basic
import ArithSyntax.Expr.Literal
import ArithSyntax.Proofs.Climb.Unbounded

/-!
# Phrases

A phrase is an expression as it is written: unlike an `Expr` it keeps the parentheses, and every
node keeps the text and the location of its tokens. `Phrase.yield` lists the tokens of a phrase and
`Phrase.erase?` is the tree that it stands for, if its literals can be read.

The grammar of precedence is a condition on phrases. An operator on the left edge of a right operand
has to bind tighter than the limit of the operator before it, and an operator on the right edge of a
left operand has to have a limit that reaches the power of the operator after it
(`Phrase.WellBound`). Nothing in it refers to an order in which tokens are read.

`Phrase.Reading` is a well-bound phrase at the front of a list of tokens that ends where a minimum
and the next token tell it to.
-/

set_option autoImplicit false

namespace ArithSyntax

/-! ## Operators as tokens -/

/-- The kind of the token that spells a sign. -/
def PrefixOp.kind : PrefixOp → Kind
  | pos => .plus
  | neg => .minus

/-- The kind of the token that spells an infix operator. -/
def InfixOp.kind : InfixOp → Kind
  | mul => .star
  | add => .plus
  | sub => .minus
  | div => .slash
  | pow => .caret

/-- The kind of the token that spells a postfix operator. -/
def PostfixOp.kind : PostfixOp → Kind
  | factorial => .bang

/-- The binding power of an infix operator. -/
def InfixOp.power (op : InfixOp) : Nat :=
  bindingPower op.symbol

/-- The binding power of a postfix operator. -/
def PostfixOp.power (op : PostfixOp) : Nat :=
  bindingPower op.symbol

/-- The operand of a sign takes every operator that binds tighter than this. -/
def PrefixOp.limit (_ : PrefixOp) : Nat := 10

/-- The right operand of an infix operator takes every operator that binds tighter than this. Only
the power operator takes one of its own power. -/
def InfixOp.limit : InfixOp → Nat
  | pow => 29
  | op => op.power

theorem PrefixOp.lexeme?_kind (op : PrefixOp) : op.kind.lexeme? = some op.symbol := by
  cases op <;> rfl

theorem InfixOp.lexeme?_kind (op : InfixOp) : op.kind.lexeme? = some op.symbol := by
  cases op <;> rfl

theorem PostfixOp.lexeme?_kind (op : PostfixOp) : op.kind.lexeme? = some op.symbol := by
  cases op
  rfl

@[simp] theorem InfixOp.power_kind (op : InfixOp) : op.kind.power = op.power := by
  cases op <;> rfl

@[simp] theorem PostfixOp.power_kind (op : PostfixOp) : op.kind.power = op.power := by
  cases op
  rfl

theorem PrefixOp.bindingPower_symbol (op : PrefixOp) : bindingPower op.symbol = op.limit := by
  cases op <;> rfl

theorem InfixOp.power_pos (op : InfixOp) : 0 < op.power := by
  cases op <;> decide

theorem PostfixOp.power_pos (op : PostfixOp) : 0 < op.power := by
  cases op
  decide

theorem PrefixOp.kind_inj {op op' : PrefixOp} (h : op.kind = op'.kind) : op = op' := by
  cases op <;> cases op' <;> first | rfl | cases h

theorem InfixOp.kind_inj {op op' : InfixOp} (h : op.kind = op'.kind) : op = op' := by
  cases op <;> cases op' <;> first | rfl | cases h

theorem PostfixOp.eq (op op' : PostfixOp) : op = op' := by
  cases op
  cases op'
  rfl

theorem PrefixOp.kind_ne_number (op : PrefixOp) : op.kind ≠ .number := by
  cases op <;> decide

theorem InfixOp.kind_ne_number (op : InfixOp) : op.kind ≠ .number := by
  cases op <;> decide

theorem PostfixOp.kind_ne_number (op : PostfixOp) : op.kind ≠ .number := by
  cases op
  decide

theorem PrefixOp.kind_ne_lparen (op : PrefixOp) : op.kind ≠ .lparen := by
  cases op <;> decide

theorem InfixOp.kind_ne_postfixed (op : InfixOp) (op' : PostfixOp) : op.kind ≠ op'.kind := by
  cases op' with
  | factorial => cases op <;> decide

/-! ## Phrases -/

/-- What a token holds besides its kind. -/
structure Mark where
  text : String
  location : Location
deriving DecidableEq

/-- The token of this kind with this text and location. -/
def Mark.token (m : Mark) (k : Kind) : Token := ⟨k, m.text, m.location⟩

/-- The text and the location of a token. -/
def Token.mark (t : Token) : Mark := ⟨t.text, t.location⟩

@[simp] theorem Mark.token_kind (m : Mark) (k : Kind) : (m.token k).kind = k := rfl

theorem Token.mark_token {t : Token} {k : Kind} (h : t.kind = k) : t.mark.token k = t := by
  subst h
  rfl

theorem Mark.token_inj {m m' : Mark} {k k' : Kind} (h : m.token k = m'.token k') :
    k = k' ∧ m = m' := by
  cases m
  cases m'
  cases h
  exact ⟨rfl, rfl⟩

/-- Two lists of tokens that start with a token of a known kind agree in it and in what follows. -/
theorem Mark.token_cons_inj {m m' : Mark} {k k' : Kind} {ts ts' : List Token}
    (h : m.token k :: ts = m'.token k' :: ts') : k = k' ∧ m = m' ∧ ts = ts' := by
  obtain ⟨ht, rfl⟩ := List.cons.inj h
  obtain ⟨rfl, rfl⟩ := Mark.token_inj ht
  exact ⟨rfl, rfl, rfl⟩

/-- An expression as it is written. -/
inductive Phrase where
  | literal (m : Mark)
  | group (opening : Mark) (inner : Phrase) (closing : Mark)
  | prefixed (op : PrefixOp) (m : Mark) (operand : Phrase)
  | binary (op : InfixOp) (left : Phrase) (m : Mark) (right : Phrase)
  | postfixed (op : PostfixOp) (operand : Phrase) (m : Mark)
deriving DecidableEq

namespace Phrase

/-- The tokens of a phrase, in the order in which they are written. -/
def yield : Phrase → List Token
  | literal m => [m.token .number]
  | group o c m => o.token .lparen :: (c.yield ++ [m.token .rparen])
  | prefixed op m c => m.token op.kind :: c.yield
  | binary op l m r => l.yield ++ m.token op.kind :: r.yield
  | postfixed op c m => c.yield ++ [m.token op.kind]

/-- The tree of a phrase: parentheses are dropped and literals are read. -/
def erase? : Phrase → Option Expr
  | literal m =>
      match Literal.read m.text.toList with
      | .ok n => some (.literal n)
      | .error _ => none
  | group _ c _ => c.erase?
  | prefixed op _ c => c.erase?.map (.prefixed op)
  | binary op l _ r =>
      match l.erase?, r.erase? with
      | some x, some y => some (.binary op x y)
      | _, _ => none
  | postfixed op c _ => c.erase?.map (.postfixed op)

theorem erase?_literal {m : Mark} {n : Nat} (hn : Literal.read m.text.toList = .ok n) :
    (literal m).erase? = some (.literal n) := by
  rw [erase?, hn]

/-- The binding powers of the operators on the left edge: the infix and postfix operators that are
met on the way from the phrase through left operands. -/
def leftEdge : Phrase → List Nat
  | literal _ => []
  | group _ _ _ => []
  | prefixed _ _ _ => []
  | binary op l _ _ => op.power :: l.leftEdge
  | postfixed op c _ => op.power :: c.leftEdge

/-- The limits of the operators on the right edge: the infix operators and signs that are met on the
way from the phrase through right operands. -/
def rightEdge : Phrase → List Nat
  | literal _ => []
  | group _ _ _ => []
  | prefixed op _ c => op.limit :: c.rightEdge
  | binary op _ _ r => op.limit :: r.rightEdge
  | postfixed _ _ _ => []

/-- Every operand holds only what its operators leave to it. -/
def WellBound : Phrase → Prop
  | literal _ => True
  | group _ c _ => c.WellBound
  | prefixed op _ c => c.WellBound ∧ ∀ p ∈ c.leftEdge, op.limit < p
  | binary op l _ r =>
      l.WellBound ∧ r.WellBound ∧ (∀ q ∈ l.rightEdge, op.power ≤ q) ∧
        ∀ p ∈ r.leftEdge, op.limit < p
  | postfixed op c _ => c.WellBound ∧ ∀ q ∈ c.rightEdge, op.power ≤ q

/-- How deeply expressions are nested in a phrase. Groups, signs and right operands hold an
expression of their own; a left operand belongs to the expression that goes on with its operator. -/
def nesting : Phrase → Nat
  | literal _ => 1
  | group _ c _ => 1 + c.nesting
  | prefixed _ _ c => 1 + c.nesting
  | binary _ l _ r => max l.nesting (1 + r.nesting)
  | postfixed _ c _ => c.nesting

/-- A well-bound phrase that ends before `rest`: all its operators bind tighter than `min`, and the
next token goes on with none of the operators on its right edge, nor with the whole phrase. -/
structure Fits (c : Phrase) (min : Int) (rest : List Token) : Prop where
  wellBound : c.WellBound
  tighter : ∀ p ∈ c.leftEdge, min < (p : Int)
  closed : ∀ q ∈ c.rightEdge, nextPower rest ≤ q
  stops : (nextPower rest : Int) ≤ min

/-- A well-bound phrase at the front of `ts` that stands for `tree` and before whose rest no
operator of its right edge would go on. -/
structure Covers (c : Phrase) (tree : Expr) (ts rest : List Token) : Prop where
  wellBound : c.WellBound
  yield_eq : ts = c.yield ++ rest
  erase_eq : c.erase? = some tree
  closed : ∀ q ∈ c.rightEdge, nextPower rest ≤ q

/-- A phrase that covers the front of `ts`, holds only operators that bind tighter than `min`, and
is followed by none that does. -/
structure Reading (c : Phrase) (min : Int) (tree : Expr) (ts rest : List Token) : Prop
    extends Covers c tree ts rest where
  tighter : ∀ p ∈ c.leftEdge, min < (p : Int)
  stops : (nextPower rest : Int) ≤ min

theorem Reading.fits {c : Phrase} {min : Int} {tree : Expr} {ts rest : List Token}
    (h : c.Reading min tree ts rest) : c.Fits min rest :=
  ⟨h.wellBound, h.tighter, h.closed, h.stops⟩

/-! ## Sizes -/

theorem leftEdge_pos (c : Phrase) : ∀ p ∈ c.leftEdge, 0 < p := by
  induction c with
  | literal m => exact fun p h => absurd h List.not_mem_nil
  | group o c m _ => exact fun p h => absurd h List.not_mem_nil
  | prefixed op m c _ => exact fun p h => absurd h List.not_mem_nil
  | binary op l m r ihl _ =>
    intro p h
    rcases List.mem_cons.1 h with rfl | h
    · exact op.power_pos
    · exact ihl p h
  | postfixed op c m ih =>
    intro p h
    rcases List.mem_cons.1 h with rfl | h
    · exact op.power_pos
    · exact ih p h

theorem nesting_pos (c : Phrase) : 1 ≤ c.nesting := by
  induction c with
  | literal m => exact Nat.le_refl 1
  | group o c m _ => exact Nat.le_add_right 1 _
  | prefixed op m c _ => exact Nat.le_add_right 1 _
  | binary op l m r ihl _ => exact Nat.le_trans ihl (Nat.le_max_left _ _)
  | postfixed op c m ih => exact ih

/-- Every level of nesting takes a token. -/
theorem nesting_le_length (c : Phrase) : c.nesting ≤ c.yield.length := by
  induction c with
  | literal m => exact Nat.le_refl 1
  | group o c m ih =>
    simp only [nesting, yield, List.length_cons, List.length_append]
    omega
  | prefixed op m c ih =>
    simp only [nesting, yield, List.length_cons]
    omega
  | binary op l m r ihl ihr =>
    simp only [nesting, yield, List.length_cons, List.length_append]
    omega
  | postfixed op c m ih =>
    simp only [nesting, yield, List.length_append]
    omega

/-! ## Chains -/

/-- The phrase with a factorial sign behind it for each of the marks. -/
def factorials (c : Phrase) (ms : List Mark) : Phrase :=
  ms.foldl (fun c m => .postfixed .factorial c m) c

/-- Factorial signs add nothing to the nesting of a phrase. -/
theorem nesting_factorials (c : Phrase) (ms : List Mark) :
    (c.factorials ms).nesting = c.nesting := by
  induction ms generalizing c with
  | nil => rfl
  | cons m ms ih => exact ih (.postfixed .factorial c m)

/-- An infix operator and the literal after it. -/
structure Link where
  op : InfixOp
  mark : Mark
  operand : Mark

/-- The phrase as the left operand of a chain of infix operators: each has all that stands before it
on its left and a literal on its right. -/
def leftChain (c : Phrase) (links : List Link) : Phrase :=
  links.foldl (fun c link => .binary link.op c link.mark (.literal link.operand)) c

/-- However long it is, a chain to the left is nested as deeply as its first operand or as one of its
literals. -/
theorem nesting_leftChain_cons (c : Phrase) (link : Link) (links : List Link) :
    (c.leftChain (link :: links)).nesting = max c.nesting 2 := by
  induction links generalizing c link with
  | nil => rfl
  | cons link' links ih =>
    have hlinks := ih (.binary link.op c link.mark (.literal link.operand)) link'
    simp only [nesting] at hlinks
    refine Eq.trans hlinks ?_
    omega

/-! ## Tokens -/

/-- A phrase starts with a token. -/
theorem exists_yield_cons (c : Phrase) : ∃ t back, c.yield = t :: back := by
  cases h : c.yield with
  | nil =>
    have hpos := c.nesting_pos
    have hlen := c.nesting_le_length
    rw [h, List.length_nil] at hlen
    omega
  | cons t back => exact ⟨t, back, rfl⟩

/-- No token of a phrase is an end token. -/
theorem kind_ne_eof (c : Phrase) : ∀ t ∈ c.yield, t.kind ≠ .eof := by
  induction c with
  | literal m =>
    intro t h
    obtain rfl := List.mem_singleton.1 h
    exact Kind.noConfusion
  | group o c m ih =>
    intro t h
    simp only [yield, List.mem_cons, List.mem_append, List.not_mem_nil, or_false] at h
    rcases h with rfl | h | rfl
    · exact Kind.noConfusion
    · exact ih t h
    · exact Kind.noConfusion
  | prefixed op m c ih =>
    intro t h
    rcases List.mem_cons.1 h with rfl | h
    · cases op <;> exact Kind.noConfusion
    · exact ih t h
  | binary op l m r ihl ihr =>
    intro t h
    simp only [yield, List.mem_cons, List.mem_append] at h
    rcases h with h | rfl | h
    · exact ihl t h
    · cases op <;> exact Kind.noConfusion
    · exact ihr t h
  | postfixed op c m ih =>
    intro t h
    simp only [yield, List.mem_cons, List.mem_append, List.not_mem_nil, or_false] at h
    rcases h with h | rfl
    · exact ih t h
    · cases op
      exact Kind.noConfusion

end Phrase

end ArithSyntax
