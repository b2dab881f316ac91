import ArithSyntax.Proofs.Grammar.Precedence
import ArithSyntax.Proofs.RoundTrip.Render

/-!
# Groups are atoms

A number in an accepted list of tokens may be replaced by any accepted list in parentheses: the
result is accepted, and its tree is that of the first list with the tree of the second in place of
the number's leaf (`accepts_replaceLeaf`).

The argument is about phrases. A group has no operator on either edge, and neither has a literal, so
no condition of the grammar can tell the one from the other (`Phrase.WellBound.replace`). The limit
plays no part as soon as it reaches the number of tokens.
-/

set_option autoImplicit false

namespace ArithSyntax

/-! ## Leaves of trees -/

namespace Expr

/-- The tree with `new` in place of one leaf. Leaves are counted from `0`, from left to right. A
tree with fewer leaves stays as it is. -/
def replaceLeaf : Expr → Nat → Expr → Expr
  | literal _, 0, new => new
  | literal n, _ + 1, _ => literal n
  | prefixed op x, k, new => prefixed op (x.replaceLeaf k new)
  | binary op l r, k, new =>
      if k < l.values.length then binary op (l.replaceLeaf k new) r
      else binary op l (r.replaceLeaf (k - l.values.length) new)
  | postfixed op x, k, new => postfixed op (x.replaceLeaf k new)

end Expr

/-! ## Literals of phrases -/

namespace Phrase

/-- The number of literals in a phrase. -/
def literals : Phrase → Nat
  | literal _ => 1
  | group _ c _ => c.literals
  | prefixed _ _ c => c.literals
  | binary _ l _ r => l.literals + r.literals
  | postfixed _ c _ => c.literals

/-- The phrase with `new` in place of one literal. Literals are counted from `0`, from left to
right. -/
def replace : Phrase → Nat → Phrase → Phrase
  | literal _, 0, new => new
  | literal m, _ + 1, _ => literal m
  | group o c m, k, new => group o (c.replace k new) m
  | prefixed op m c, k, new => prefixed op m (c.replace k new)
  | binary op l m r, k, new =>
      if k < l.literals then binary op (l.replace k new) m r
      else binary op l m (r.replace (k - l.literals) new)
  | postfixed op c m, k, new => postfixed op (c.replace k new) m

end Phrase

/-- The number of number tokens. -/
def numbers (ts : List Token) : Nat :=
  ts.countP fun t => t.kind = .number

theorem numbers_append (ts ts' : List Token) :
    numbers (ts ++ ts') = numbers ts + numbers ts' :=
  List.countP_append

theorem numbers_cons_of_eq {t : Token} (h : t.kind = .number) (ts : List Token) :
    numbers (t :: ts) = numbers ts + 1 :=
  List.countP_cons_of_pos (by simpa using h)

theorem numbers_cons_of_ne {t : Token} (h : t.kind ≠ .number) (ts : List Token) :
    numbers (t :: ts) = numbers ts :=
  List.countP_cons_of_neg (by simpa using h)

/-- A number token is found again by the number of those before it. -/
theorem numbers_inj {front front' back back' : List Token} {t t' : Token}
    (ht : t.kind = .number) (ht' : t'.kind = .number)
    (h : front ++ t :: back = front' ++ t' :: back') (hn : numbers front = numbers front') :
    front = front' ∧ t = t' ∧ back = back' := by
  induction front generalizing front' with
  | nil =>
    cases front' with
    | nil =>
      cases h
      exact ⟨rfl, rfl, rfl⟩
    | cons s front' =>
      -- The other list already holds this number before its own.
      cases h
      rw [numbers_cons_of_eq ht] at hn
      cases hn
  | cons s front ih =>
    cases front' with
    | nil =>
      cases h
      rw [numbers_cons_of_eq ht'] at hn
      cases hn
    | cons s' front' =>
      obtain ⟨rfl, htail⟩ := List.cons.inj h
      -- The first token is the same in both lists, so it counts in both or in neither.
      have hrest : numbers front = numbers front' := by
        by_cases hs : s.kind = .number
        · rw [numbers_cons_of_eq hs, numbers_cons_of_eq hs] at hn
          exact Nat.succ.inj hn
        · rwa [numbers_cons_of_ne hs, numbers_cons_of_ne hs] at hn
      obtain ⟨rfl, hsame, hback⟩ := ih htail hrest
      exact ⟨rfl, hsame, hback⟩

namespace Phrase

variable {c new : Phrase}

/-- The literals of a phrase are its number tokens. -/
theorem numbers_yield (c : Phrase) : numbers c.yield = c.literals := by
  induction c with
  | literal m => rfl
  | group o c m ih =>
    rw [yield, numbers_cons_of_ne Kind.noConfusion, numbers_append, ih]
    rfl
  | prefixed op m c ih => rw [yield, numbers_cons_of_ne op.kind_ne_number, ih, literals]
  | binary op l m r ihl ihr =>
    rw [yield, numbers_append, numbers_cons_of_ne op.kind_ne_number, ihl, ihr, literals]
  | postfixed op c m ih =>
    rw [yield, numbers_append, numbers_cons_of_ne op.kind_ne_number, ih]
    rfl

/-- The literals of a phrase are the leaves of its tree. -/
theorem length_values {tree : Expr} (h : c.erase? = some tree) :
    tree.values.length = c.literals := by
  induction c generalizing tree with
  | literal m =>
    simp only [erase?] at h
    split at h
    · cases h
      rfl
    · cases h
  | group o c m ih => exact ih h
  | prefixed op m c ih =>
    obtain ⟨x, hx, rfl⟩ := Option.map_eq_some_iff.1 h
    rw [literals, ← ih hx, Expr.values]
  | binary op l m r ihl ihr =>
    simp only [erase?] at h
    split at h
    · next x y hx hy =>
      cases h
      rw [literals, ← ihl hx, ← ihr hy]
      exact List.length_append
    · cases h
  | postfixed op c m ih =>
    obtain ⟨x, hx, rfl⟩ := Option.map_eq_some_iff.1 h
    rw [literals, ← ih hx, Expr.values]

/-! ## Replacing a literal -/

/-- The tokens of the new phrase take the place of the literal's token, and the literal itself
would leave the phrase as it is. -/
theorem yield_replace (c : Phrase) {k : Nat} (hk : k < c.literals) :
    ∃ front m back, c.yield = front ++ Mark.token m .number :: back ∧ numbers front = k ∧
      c.replace k (literal m) = c ∧
      ∀ new, (c.replace k new).yield = front ++ (new.yield ++ back) := by
  induction c generalizing k with
  | literal m =>
    obtain rfl : k = 0 := Nat.lt_one_iff.1 hk
    exact ⟨[], m, [], rfl, rfl, rfl, fun new => by simp [replace]⟩
  | group o c m ih =>
    obtain ⟨front, n, back, heq, hn, hself, hnew⟩ := ih hk
    refine ⟨o.token .lparen :: front, n, back ++ [m.token .rparen], ?_, ?_, ?_, fun new => ?_⟩
    · simp [yield, heq]
    · rw [numbers_cons_of_ne Kind.noConfusion, hn]
    · rw [replace, hself]
    · simp [replace, yield, hnew]
  | prefixed op m c ih =>
    obtain ⟨front, n, back, heq, hn, hself, hnew⟩ := ih hk
    refine ⟨m.token op.kind :: front, n, back, ?_, ?_, ?_, fun new => ?_⟩
    · simp [yield, heq]
    · rw [numbers_cons_of_ne op.kind_ne_number, hn]
    · rw [replace, hself]
    · simp [replace, yield, hnew]
  | binary op l m r ihl ihr =>
    by_cases hl : k < l.literals
    · obtain ⟨front, n, back, heq, hn, hself, hnew⟩ := ihl hl
      refine ⟨front, n, back ++ m.token op.kind :: r.yield, ?_, hn, ?_, fun new => ?_⟩
      · simp [yield, heq]
      · rw [replace, if_pos hl, hself]
      · simp [replace, hl, yield, hnew]
    · -- All literals of the left operand come before this one.
      have hr : k - l.literals < r.literals := by
        simp only [literals] at hk
        omega
      obtain ⟨front, n, back, heq, hn, hself, hnew⟩ := ihr hr
      refine ⟨l.yield ++ m.token op.kind :: front, n, back, ?_, ?_, ?_, fun new => ?_⟩
      · simp [yield, heq]
      · rw [numbers_append, numbers_cons_of_ne op.kind_ne_number, numbers_yield, hn]
        omega
      · rw [replace, if_neg hl, hself]
      · simp [replace, hl, yield, hnew]
  | postfixed op c m ih =>
    obtain ⟨front, n, back, heq, hn, hself, hnew⟩ := ih hk
    refine ⟨front, n, back ++ [m.token op.kind], ?_, hn, ?_, fun new => ?_⟩
    · simp [yield, heq]
    · rw [replace, hself]
    · simp [replace, yield, hnew]

theorem leftEdge_replace (hnew : new.leftEdge = []) (c : Phrase) (k : Nat) :
    (c.replace k new).leftEdge = c.leftEdge := by
  induction c generalizing k with
  | literal m =>
    cases k with
    | zero => exact hnew
    | succ k => rfl
  | group o c m _ => rfl
  | prefixed op m c _ => rfl
  | binary op l m r ihl _ =>
    rw [replace]
    split
    · rw [leftEdge, leftEdge, ihl]
    · rfl
  | postfixed op c m ih => rw [replace, leftEdge, leftEdge, ih]

theorem rightEdge_replace (hnew : new.rightEdge = []) (c : Phrase) (k : Nat) :
    (c.replace k new).rightEdge = c.rightEdge := by
  induction c generalizing k with
  | literal m =>
    cases k with
    | zero => exact hnew
    | succ k => rfl
  | group o c m _ => rfl
  | prefixed op m c ih => rw [replace, rightEdge, rightEdge, ih]
  | binary op l m r _ ihr =>
    rw [replace]
    split
    · rfl
    · rw [rightEdge, rightEdge, ihr]
  | postfixed op c m _ => rfl

/-- A phrase without operators on its edges binds as a literal does: each operator around it sees
the same edges as before. -/
theorem WellBound.replace (hc : c.WellBound) (hnew : new.WellBound) (hleft : new.leftEdge = [])
    (hright : new.rightEdge = []) (k : Nat) : (c.replace k new).WellBound := by
  induction c generalizing k with
  | literal m =>
    cases k with
    | zero => exact hnew
    | succ k => exact hc
  | group o c m ih => exact ih hc k
  | prefixed op m c ih =>
    -- The sign looks at the left edge of its operand, and that is as it was.
    refine ⟨ih hc.1 k, ?_⟩
    rw [leftEdge_replace hleft]
    exact hc.2
  | binary op l m r ihl ihr =>
    obtain ⟨hl, hr, hledge, hredge⟩ := hc
    rw [Phrase.replace]
    split
    · refine ⟨ihl hl k, hr, ?_, hredge⟩
      rw [rightEdge_replace hright]
      exact hledge
    · refine ⟨hl, ihr hr _, hledge, ?_⟩
      rw [leftEdge_replace hleft]
      exact hredge
  | postfixed op c m ih =>
    refine ⟨ih hc.1 k, ?_⟩
    rw [rightEdge_replace hright]
    exact hc.2

/-- Replacing a literal replaces the leaf that it stands for. -/
theorem erase?_replace {tree x : Expr} (hc : c.erase? = some tree) (hnew : new.erase? = some x)
    (k : Nat) : (c.replace k new).erase? = some (tree.replaceLeaf k x) := by
  induction c generalizing tree k with
  | literal m =>
    simp only [erase?] at hc
    split at hc
    · next n hn =>
      cases hc
      cases k with
      | zero => exact hnew
      | succ k => exact erase?_literal hn
    · cases hc
  | group o c m ih => exact ih hc k
  | prefixed op m c ih =>
    obtain ⟨y, hy, rfl⟩ := Option.map_eq_some_iff.1 hc
    rw [replace, erase?, ih hy]
    rfl
  | binary op l m r ihl ihr =>
    simp only [erase?] at hc
    split at hc
    · next y z hy hz =>
      cases hc
      rw [replace, Expr.replaceLeaf, length_values hy]
      split
      · rw [erase?, ihl hy, hz]
      · rw [erase?, hy, ihr hz]
    · cases hc
  | postfixed op c m ih =>
    obtain ⟨y, hy, rfl⟩ := Option.map_eq_some_iff.1 hc
    rw [replace, erase?, ih hy]
    rfl

/-- Of the new phrase, the tree sees nothing but its tree. -/
theorem erase?_replace_congr {new' : Phrase} (h : new.erase? = new'.erase?) (c : Phrase) (k : Nat) :
    (c.replace k new).erase? = (c.replace k new').erase? := by
  induction c generalizing k with
  | literal m =>
    cases k with
    | zero => exact h
    | succ k => rfl
  | group o c m ih => exact ih k
  | prefixed op m c ih => rw [replace, replace, erase?, erase?, ih]
  | binary op l m r ihl ihr =>
    rw [replace, replace]
    split
    · rw [erase?, erase?, ihl]
    · rw [erase?, erase?, ihr]
  | postfixed op c m ih => rw [replace, replace, erase?, erase?, ih]

end Phrase

/-! ## Accepted lists of tokens -/

/-- Under this limit, a new parser reads the tokens as this tree. -/
def Accepts (limit : Int) (ts : List Token) (tree : Expr) : Prop :=
  ∃ p p', Parser.ofTokens ts limit = .ok p ∧ p.parseExpression = .ok tree p'

/-- Every limit that is not below the number of the tokens accepts them as this tree. -/
def Accepted (ts : List Token) (tree : Expr) : Prop :=
  ∀ limit : Int, (ts.length : Int) ≤ limit → Accepts limit ts tree

/-- The tokens before the first end token. -/
def beforeEof (ts : List Token) : List Token :=
  ts.takeWhile fun t => t.kind ≠ .eof

/-- The tokens before the first end token, in parentheses. -/
def parenthesised (opening : Mark) (ts : List Token) (closing : Mark) : List Token :=
  opening.token .lparen :: (beforeEof ts ++ [closing.token .rparen])

variable {limit : Int} {ts rest : List Token} {tree : Expr} {c : Phrase} {e : Token}

theorem endsWithEof_append (front : List Token) :
    EndsWithEof (front ++ e :: rest) ↔ EndsWithEof (e :: rest) := by
  simp [EndsWithEof, List.getLast?_append, List.getLast?_cons]

/-- What is accepted is a phrase before an end token. -/
theorem Accepts.exists_phrase (h : Accepts limit ts tree) :
    ∃ (c : Phrase) (e : Token) (rest : List Token), c.WellBound ∧ c.erase? = some tree ∧
      e.kind = .eof ∧ EndsWithEof (e :: rest) ∧ ts = c.yield ++ e :: rest := by
  obtain ⟨p, p', hp, hparse⟩ := h
  obtain ⟨heof, -, rfl⟩ := ofTokens_eq_ok_iff.1 hp
  obtain ⟨rest, hparses, hrest⟩ := (Parser.parseExpression_ok_iff _ _).1 ⟨p', hparse⟩
  obtain ⟨c, hc, -⟩ := parses_expression_iff.1 hparses
  obtain ⟨e, rest, he, rfl⟩ := TokenStream.exists_eof_of_yield hc.yield_eq hrest
  have hts : ts = c.yield ++ e :: rest := hc.yield_eq
  refine ⟨c, e, rest, hc.wellBound, hc.erase_eq, he, ?_, hts⟩
  rwa [← endsWithEof_append c.yield, ← hts]

/-- A phrase before an end token is accepted. No limit on the nesting matters that reaches the
number of the tokens. -/
theorem Phrase.accepted (hw : c.WellBound) (herase : c.erase? = some tree) (he : e.kind = .eof)
    (heof : EndsWithEof (e :: rest)) : Accepted (c.yield ++ e :: rest) tree := by
  intro limit hlimit
  -- Every level of nesting takes a token, so the limit admits the phrase.
  have hlen : c.yield.length + (rest.length + 1) = (c.yield ++ e :: rest).length := by simp
  have hnest := c.nesting_le_length
  have hpos := c.nesting_pos
  have hread : c.Reading 0 tree (c.yield ++ e :: rest) (e :: rest) :=
    Phrase.reading_zero hw herase rfl (by rw [nextPower_cons, he]; rfl)
  have hparses : Parses .standard limit (.expression 0) 0 (c.yield ++ e :: rest) (.ok tree)
      (e :: rest) := hread.parses (by omega)
  have heof' : EndsWithEof (c.yield ++ e :: rest) := (endsWithEof_append _).2 heof
  let p : Parser := ⟨⟨c.yield ++ e :: rest, 0, heof', Nat.zero_le _⟩, .standard, limit, 0⟩
  obtain ⟨p', hp'⟩ := (p.parseExpression_ok_iff tree).2
    ⟨e :: rest, hparses, fun t ht => by cases ht; exact he⟩
  exact ⟨p, p', ofTokens_eq_ok_iff.2 ⟨heof', by omega, rfl⟩, hp'⟩

theorem beforeEof_yield (c : Phrase) (he : e.kind = .eof) :
    beforeEof (c.yield ++ e :: rest) = c.yield := by
  rw [beforeEof, List.takeWhile_append_of_pos fun t ht => by simpa using c.kind_ne_eof t ht,
    List.takeWhile_cons_of_neg (by simpa using he), List.append_nil]

/-- Of an accepted list, the tokens in parentheses are a group. -/
theorem parenthesised_yield (c : Phrase) (he : e.kind = .eof) (opening closing : Mark) :
    parenthesised opening (c.yield ++ e :: rest) closing =
      (Phrase.group opening c closing).yield := by
  rw [parenthesised, beforeEof_yield c he]
  rfl

/-- A number before the first end token of an accepted list is a token of the phrase. -/
theorem exists_back_of_yield {front back : List Token} {t : Token}
    (h : front ++ t :: back = c.yield ++ e :: rest) (he : e.kind = .eof) (ht : t.kind ≠ .eof)
    (hfront : ∀ s ∈ front, s.kind ≠ .eof) :
    ∃ mid, c.yield = front ++ t :: mid ∧ back = mid ++ e :: rest := by
  rcases List.append_eq_append_iff.1 h with ⟨mid, hyield, hback⟩ | ⟨mid, rfl, hrest⟩
  · cases mid with
    | nil =>
      cases hback
      exact absurd he ht
    | cons s mid =>
      cases hback
      exact ⟨mid, hyield, rfl⟩
  · -- The end token would stand before the number.
    cases mid with
    | nil =>
      cases hrest
      exact absurd he ht
    | cons s mid =>
      cases hrest
      exact absurd he (hfront _ (by simp))

/-- Behind a number of an accepted list stands a literal of its phrase, and any phrase without
operators on its edges may take the place of the literal. -/
theorem Accepts.exists_replace {front back : List Token} {t : Token}
    (h : Accepts limit (front ++ t :: back) tree) (ht : t.kind = .number)
    (hfront : ∀ s ∈ front, s.kind ≠ .eof) :
    ∃ c : Phrase, c.erase? = some tree ∧ numbers front < c.literals ∧
      c.replace (numbers front) (.literal t.mark) = c ∧
      ∀ (new : Phrase) (x : Expr), new.WellBound → new.leftEdge = [] → new.rightEdge = [] →
        (c.replace (numbers front) new).erase? = some x →
          Accepted (front ++ (new.yield ++ back)) x := by
  obtain ⟨c, e, rest, hc, herase, he, heof, heq⟩ := h.exists_phrase
  have hteof : t.kind ≠ .eof := by
    rw [ht]
    exact Kind.noConfusion
  -- The number is a token of the phrase, and the literal it belongs to is found by counting.
  obtain ⟨mid, hyield, rfl⟩ := exists_back_of_yield heq he hteof hfront
  have hk : numbers front < c.literals := by
    rw [← c.numbers_yield, hyield, numbers_append, numbers_cons_of_eq ht]
    omega
  obtain ⟨front', m, mid', hyield', hn, hself, hnew⟩ := c.yield_replace hk
  obtain ⟨rfl, rfl, rfl⟩ := numbers_inj ht rfl (hyield.symm.trans hyield') hn.symm
  refine ⟨c, herase, hk, hself, fun new x hw hleft hright hx => ?_⟩
  have hreplaced := Phrase.accepted (hc.replace hw hleft hright (numbers front)) hx he heof
  simpa [hnew] using hreplaced

/-- A number of an accepted list may be replaced by the group of another list. -/
theorem Accepts.replace {limit' : Int} {front back w : List Token} {t : Token} {tree' : Expr}
    (h : Accepts limit (front ++ t :: back) tree) (ht : t.kind = .number)
    (hfront : ∀ s ∈ front, s.kind ≠ .eof) (hw : Accepts limit' w tree') (opening closing : Mark) :
    numbers front < tree.values.length ∧
      Accepted (front ++ (parenthesised opening w closing ++ back))
        (tree.replaceLeaf (numbers front) tree') := by
  obtain ⟨c, herase, hk, -, hreplace⟩ := h.exists_replace ht hfront
  obtain ⟨g, e, rest, hg, hgerase, he, -, rfl⟩ := hw.exists_phrase
  have hgroup : (Phrase.group opening g closing).erase? = some tree' := hgerase
  constructor
  · rwa [Phrase.length_values herase]
  · rw [parenthesised_yield g he]
    exact hreplace (.group opening g closing) _ hg rfl rfl
      (Phrase.erase?_replace herase hgroup (numbers front))

/-- Parentheses around a number of an accepted list change nothing. -/
theorem Accepts.parenthesise {front back : List Token} {t : Token}
    (h : Accepts limit (front ++ t :: back) tree) (ht : t.kind = .number)
    (hfront : ∀ s ∈ front, s.kind ≠ .eof) (opening closing : Mark) :
    Accepted (front ++ (parenthesised opening [t] closing ++ back)) tree := by
  obtain ⟨c, herase, -, hself, hreplace⟩ := h.exists_replace ht hfront
  have hyield : parenthesised opening [t] closing =
      (Phrase.group opening (.literal t.mark) closing).yield := by
    simp [parenthesised, beforeEof, Phrase.yield, ht, Token.mark_token ht]
  -- The group of the literal stands for what the literal stands for, whatever that is.
  have hsame : (Phrase.group opening (.literal t.mark) closing).erase? =
      (Phrase.literal t.mark).erase? := rfl
  rw [hyield]
  apply hreplace (.group opening (.literal t.mark) closing) tree trivial rfl rfl
  rw [Phrase.erase?_replace_congr hsame, hself]
  exact herase

/-! ## Groups under operators -/

section Operators

variable {limit' : Int} {u w : List Token} {tree' : Expr}

/-- Parentheses around a whole expression change nothing. -/
theorem Accepts.group (h : Accepts limit u tree) (he : e.kind = .eof)
    (heof : EndsWithEof (e :: rest)) (opening closing : Mark) :
    Accepted (parenthesised opening u closing ++ e :: rest) tree := by
  obtain ⟨c, e', rest', hc, herase, he', -, rfl⟩ := h.exists_phrase
  rw [parenthesised_yield c he']
  exact Phrase.accepted hc herase he heof

/-- A sign before a group applies to its whole tree. -/
theorem Accepts.prefixed (h : Accepts limit u tree) (he : e.kind = .eof)
    (heof : EndsWithEof (e :: rest)) (op : PrefixOp) (m opening closing : Mark) :
    Accepted (m.token op.kind :: (parenthesised opening u closing ++ e :: rest))
      (.prefixed op tree) := by
  obtain ⟨c, e', rest', hc, herase, he', -, rfl⟩ := h.exists_phrase
  rw [parenthesised_yield c he']
  have hw : (Phrase.prefixed op m (.group opening c closing)).WellBound :=
    ⟨hc, fun p hp => absurd hp List.not_mem_nil⟩
  exact Phrase.accepted hw (by simp [Phrase.erase?, herase]) he heof

/-- A postfix operator after a group applies to its whole tree. -/
theorem Accepts.postfixed (h : Accepts limit u tree) (he : e.kind = .eof)
    (heof : EndsWithEof (e :: rest)) (op : PostfixOp) (m opening closing : Mark) :
    Accepted (parenthesised opening u closing ++ m.token op.kind :: e :: rest)
      (.postfixed op tree) := by
  obtain ⟨c, e', rest', hc, herase, he', -, rfl⟩ := h.exists_phrase
  rw [parenthesised_yield c he']
  have hw : (Phrase.postfixed op (.group opening c closing) m).WellBound :=
    ⟨hc, fun q hq => absurd hq List.not_mem_nil⟩
  simpa [Phrase.yield] using Phrase.accepted hw (by simp [Phrase.erase?, herase]) he heof

/-- An infix operator between two groups applies to their whole trees. -/
theorem Accepts.binary (h : Accepts limit u tree) (h' : Accepts limit' w tree')
    (he : e.kind = .eof) (heof : EndsWithEof (e :: rest)) (op : InfixOp)
    (m opening closing opening' closing' : Mark) :
    Accepted (parenthesised opening u closing ++
      m.token op.kind :: (parenthesised opening' w closing' ++ e :: rest))
        (.binary op tree tree') := by
  obtain ⟨c, e₁, rest₁, hc, herase, he₁, -, rfl⟩ := h.exists_phrase
  obtain ⟨c', e₂, rest₂, hc', herase', he₂, -, rfl⟩ := h'.exists_phrase
  rw [parenthesised_yield c he₁, parenthesised_yield c' he₂]
  have hw : (Phrase.binary op (.group opening c closing) m
      (.group opening' c' closing')).WellBound :=
    ⟨hc, hc', fun q hq => absurd hq List.not_mem_nil, fun p hp => absurd hp List.not_mem_nil⟩
  simpa [Phrase.yield] using Phrase.accepted hw (by simp [Phrase.erase?, herase, herase']) he heof

end Operators

/-- A group is an atom. Let `u` be accepted as `tree` and `w` as `tree'`, each under some limit. A
number of `u`, before its first end token, may be replaced by what stands before the end token of
`w`, in parentheses: every limit that is not below the number of the tokens accepts the new list,
and its tree is `tree` with `tree'` in place of the leaf that has as many leaves to its left as the
number has numbers. So parentheses around a number or around a whole expression change nothing, and
an operator applies to what stands in parentheses as a whole. -/
theorem accepts_replaceLeaf {limit limit' : Int} {u w : List Token} {tree tree' : Expr}
    (hu : Accepts limit u tree) (hw : Accepts limit' w tree') :
    (∀ (front back : List Token) (t : Token), u = front ++ t :: back → t.kind = .number →
      (∀ s ∈ front, s.kind ≠ .eof) → ∀ o c : Mark,
        numbers front < tree.values.length ∧
        Accepted (front ++ (parenthesised o w c ++ back))
          (tree.replaceLeaf (numbers front) tree') ∧
        Accepted (front ++ (parenthesised o [t] c ++ back)) tree) ∧
    ∀ (e : Token) (rest : List Token), e.kind = .eof → EndsWithEof (e :: rest) → ∀ o c : Mark,
      Accepted (parenthesised o u c ++ e :: rest) tree ∧
      (∀ (op : PrefixOp) (m : Mark),
        Accepted (m.token op.kind :: (parenthesised o u c ++ e :: rest)) (.prefixed op tree)) ∧
      (∀ (op : PostfixOp) (m : Mark),
        Accepted (parenthesised o u c ++ m.token op.kind :: e :: rest) (.postfixed op tree)) ∧
      ∀ (op : InfixOp) (m o' c' : Mark),
        Accepted (parenthesised o u c ++ m.token op.kind :: (parenthesised o' w c' ++ e :: rest))
          (.binary op tree tree') := by
  constructor
  · rintro front back t rfl ht hfront o c
    obtain ⟨hleaf, hreplaced⟩ := hu.replace ht hfront hw o c
    exact ⟨hleaf, hreplaced, hu.parenthesise ht hfront o c⟩
  · intro e rest he heof o c
    refine ⟨hu.group he heof o c, fun op m => ?_, fun op m => ?_, fun op m o' c' => ?_⟩
    · exact hu.prefixed he heof op m o c
    · exact hu.postfixed he heof op m o c
    · exact hu.binary hw he heof op m o c o' c'

/-- The tokens of `2^3!` and of `1+4`, and the tree of `2^(1+4)!`: the sum takes the place of the
second leaf and stays together, although the power and the factorial bind tighter. -/
theorem accepted_powerOfSum :
    Accepts 256 [⟨.number, "2", ⟨1, 1⟩⟩, ⟨.caret, "^", ⟨1, 2⟩⟩, ⟨.number, "3", ⟨1, 3⟩⟩,
        ⟨.bang, "!", ⟨1, 4⟩⟩, ⟨.eof, "", ⟨1, 5⟩⟩]
      (.binary .pow (.literal 2) (.postfixed .factorial (.literal 3))) ∧
    Accepts 256 [⟨.number, "1", ⟨1, 1⟩⟩, ⟨.plus, "+", ⟨1, 2⟩⟩, ⟨.number, "4", ⟨1, 3⟩⟩,
        ⟨.eof, "", ⟨1, 4⟩⟩] (.binary .add (.literal 1) (.literal 4)) ∧
    Accepted [⟨.number, "2", ⟨1, 1⟩⟩, ⟨.caret, "^", ⟨1, 2⟩⟩, ⟨.lparen, "(", ⟨1, 3⟩⟩,
        ⟨.number, "1", ⟨1, 1⟩⟩, ⟨.plus, "+", ⟨1, 2⟩⟩, ⟨.number, "4", ⟨1, 3⟩⟩,
        ⟨.rparen, ")", ⟨1, 4⟩⟩, ⟨.bang, "!", ⟨1, 4⟩⟩, ⟨.eof, "", ⟨1, 5⟩⟩]
      (.binary .pow (.literal 2)
        (.postfixed .factorial (.binary .add (.literal 1) (.literal 4)))) := by
  have hu : Accepts 256 [⟨.number, "2", ⟨1, 1⟩⟩, ⟨.caret, "^", ⟨1, 2⟩⟩, ⟨.number, "3", ⟨1, 3⟩⟩,
      ⟨.bang, "!", ⟨1, 4⟩⟩, ⟨.eof, "", ⟨1, 5⟩⟩]
      (.binary .pow (.literal 2) (.postfixed .factorial (.literal 3))) := ⟨_, _, rfl, rfl⟩
  have hw : Accepts 256 [⟨.number, "1", ⟨1, 1⟩⟩, ⟨.plus, "+", ⟨1, 2⟩⟩, ⟨.number, "4", ⟨1, 3⟩⟩,
      ⟨.eof, "", ⟨1, 4⟩⟩] (.binary .add (.literal 1) (.literal 4)) := ⟨_, _, rfl, rfl⟩
  have hparts := (accepts_replaceLeaf hu hw).1 [⟨.number, "2", ⟨1, 1⟩⟩, ⟨.caret, "^", ⟨1, 2⟩⟩] _ _
    rfl rfl (by decide) ⟨"(", ⟨1, 3⟩⟩ ⟨")", ⟨1, 4⟩⟩
  exact ⟨hu, hw, hparts.2.1⟩

end ArithSyntax
