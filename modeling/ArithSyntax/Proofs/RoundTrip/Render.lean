import ArithSyntax.Proofs.Climb.DepthLimit
import ArithSyntax.Proofs.Climb.Texts
import ArithSyntax.Proofs.Grammar.Precedence
import ArithSyntax.Proofs.RoundTrip.Lexing

/-!
# Written trees are read back

The written form of a tree is read back as that tree exactly if no value in it is negative and the
limit admits the tree's cost; a smaller limit is exceeded. The trees that are read from any text are
just those whose values are literals (`parseSource_render`).

The written form is the text of a phrase that has a group around every operator, so nothing about
the order of operators matters: no operator is on an edge (`Writes`). What decides is the nesting of
that phrase, and since there is no other phrase with these tokens, a limit below it is exceeded.
-/

set_option autoImplicit false

namespace ArithSyntax

/-! ## Values and costs of trees -/

namespace Expr

/-- The integers in a tree, from left to right. -/
def values : Expr → List Int
  | literal n => [n]
  | prefixed _ x => x.values
  | binary _ l r => l.values ++ r.values
  | postfixed _ x => x.values

/-- What holds of the values of both operands holds of all values. -/
theorem forall_values_binary {p : Int → Prop} {op : InfixOp} {l r : Expr} :
    (∀ n ∈ (binary op l r).values, p n) ↔ (∀ n ∈ l.values, p n) ∧ ∀ n ∈ r.values, p n :=
  List.forall_mem_append

/-- How deeply expressions are nested in the written form of a tree. -/
def cost : Expr → Nat
  | literal _ => 1
  | prefixed _ x => 2 + x.cost
  | binary _ l r => max (1 + l.cost) (2 + r.cost)
  | postfixed _ x => 1 + x.cost

theorem cost_pos (t : Expr) : 1 ≤ t.cost := by
  cases t <;> simp only [cost] <;> omega

/-- No value is negative. -/
def NonNegative (t : Expr) : Prop :=
  ∀ n ∈ t.values, 0 ≤ n

/-- No value has more than 4300 decimal digits. -/
def Short (t : Expr) : Prop :=
  ∀ n ∈ t.values, (Nat.toDigits 10 n.natAbs).length ≤ 4300

end Expr

/-! ## Phrases of written trees -/

open Phrase

/-- A phrase that stands for a tree and holds a group around every operator. -/
structure Writes (c : Phrase) (t : Expr) : Prop where
  wellBound : c.WellBound
  erase_eq : c.erase? = some t
  leftEdge_eq : c.leftEdge = []
  rightEdge_eq : c.rightEdge = []
  nesting_eq : c.nesting = t.cost

namespace Writes

variable {c c' : Phrase} {x y : Expr}

theorem literal {m : Mark} {n : Nat} (hn : Literal.read m.text.toList = .ok n) :
    Writes (.literal m) (.literal n) :=
  ⟨trivial, erase?_literal hn, rfl, rfl, rfl⟩

theorem prefixed (h : Writes c x) (op : PrefixOp) (o m close : Mark) :
    Writes (.group o (.prefixed op m c) close) (.prefixed op x) where
  wellBound := ⟨h.wellBound, by simp [h.leftEdge_eq]⟩
  erase_eq := by simp [erase?, h.erase_eq]
  leftEdge_eq := rfl
  rightEdge_eq := rfl
  nesting_eq := by
    simp only [nesting, Expr.cost, h.nesting_eq]
    omega

theorem binary (h : Writes c x) (h' : Writes c' y) (op : InfixOp) (o m close : Mark) :
    Writes (.group o (.binary op c m c') close) (.binary op x y) where
  wellBound := ⟨h.wellBound, h'.wellBound, by simp [h.rightEdge_eq], by simp [h'.leftEdge_eq]⟩
  erase_eq := by simp [erase?, h.erase_eq, h'.erase_eq]
  leftEdge_eq := rfl
  rightEdge_eq := rfl
  nesting_eq := by
    simp only [nesting, Expr.cost, h.nesting_eq, h'.nesting_eq]
    omega

theorem postfixed (h : Writes c x) (op : PostfixOp) (o m close : Mark) :
    Writes (.group o (.postfixed op c m) close) (.postfixed op x) where
  wellBound := ⟨h.wellBound, by simp [h.rightEdge_eq]⟩
  erase_eq := by simp [erase?, h.erase_eq]
  leftEdge_eq := rfl
  rightEdge_eq := rfl
  nesting_eq := by simp only [nesting, Expr.cost, h.nesting_eq]

/-- Before an end token, the phrase is read under every minimum that is not negative. -/
theorem reading (h : Writes c x) {e : Token} (he : e.kind = .eof) :
    c.Reading 0 x (c.yield ++ [e]) [e] where
  wellBound := h.wellBound
  yield_eq := rfl
  erase_eq := h.erase_eq
  closed := by simp [h.rightEdge_eq]
  tighter := by simp [h.leftEdge_eq]
  stops := by
    rw [nextPower_cons, he]
    exact Int.le_refl 0

end Writes

/-! ## The tokens of a written tree -/

theorem PrefixOp.exists_spelling (op : PrefixOp) :
    ∃ ch, op.kind.spelling? = some ch ∧ op.symbol.toList = [ch] := by
  cases op <;> exact ⟨_, rfl, rfl⟩

theorem InfixOp.exists_spelling (op : InfixOp) :
    ∃ ch, op.kind.spelling? = some ch ∧ op.symbol.toList = [ch] := by
  cases op <;> exact ⟨_, rfl, rfl⟩

theorem PostfixOp.exists_spelling (op : PostfixOp) :
    ∃ ch, op.kind.spelling? = some ch ∧ op.symbol.toList = [ch] := by
  cases op
  exact ⟨_, rfl, rfl⟩

namespace Expr

/-- A number is written with its decimal digits. -/
theorem toList_render_ofNat (n : Nat) : (render (.literal n)).toList = Nat.toDigits 10 n :=
  Nat.toList_repr

/-- A sign and its operand are written between parentheses. -/
theorem exists_render_prefixed (op : PrefixOp) (x : Expr) :
    ∃ ch, op.kind.spelling? = some ch ∧ ∀ tail,
      (prefixed op x).render.toList ++ tail = '(' :: ch :: (x.render.toList ++ ')' :: tail) := by
  obtain ⟨ch, hch, hsymbol⟩ := op.exists_spelling
  exact ⟨ch, hch, fun tail => by simp [render, hsymbol]⟩

/-- An infix operator is written between its operands, with parentheses around them. -/
theorem exists_render_binary (op : InfixOp) (l r : Expr) :
    ∃ ch, op.kind.spelling? = some ch ∧ ∀ tail,
      (binary op l r).render.toList ++ tail =
        '(' :: (l.render.toList ++ ch :: (r.render.toList ++ ')' :: tail)) := by
  obtain ⟨ch, hch, hsymbol⟩ := op.exists_spelling
  exact ⟨ch, hch, fun tail => by simp [render, hsymbol]⟩

/-- A postfix operator is written behind its operand, with parentheses around both. -/
theorem exists_render_postfixed (op : PostfixOp) (x : Expr) :
    ∃ ch, op.kind.spelling? = some ch ∧ ∀ tail,
      (postfixed op x).render.toList ++ tail = '(' :: (x.render.toList ++ ch :: ')' :: tail) := by
  obtain ⟨ch, hch, hsymbol⟩ := op.exists_spelling
  exact ⟨ch, hch, fun tail => by simp [render, hsymbol]⟩

end Expr

/-- Wherever the written form of the tree stands, the tokens of a phrase are read that writes the
tree. A digit must not follow, since a number would go on with it. -/
def Expr.Legible (t : Expr) : Prop :=
  ∀ (c : Cursor) (tail : List Char), c.unread = t.render.toList ++ tail →
    (∀ ch ∈ tail.head?, ch.isDigit = false) →
      ∃ (ph : Phrase) (rest : Cursor), Writes ph t ∧ c.Reads ph.yield rest ∧ rest.unread = tail

namespace Expr

variable {x y : Expr}

theorem legible_literal {n : Nat} (h : (Nat.toDigits 10 n).length ≤ Literal.digitLimit) :
    Legible (.literal n) := by
  intro c tail hc htail
  rw [toList_render_ofNat] at hc
  obtain ⟨m, rest, hnext, hrest, htext⟩ := Cursor.nextToken_digits Nat.toDigits_ne_nil
    (fun ch hch => Nat.isDigit_of_mem_toDigits (by decide) (by decide) hch) htail hc
  have hn : Literal.read m.text.toList = .ok n := by rw [htext, Literal.read_toDigits h]
  exact ⟨.literal m, rest, .literal hn, .single hnext Kind.noConfusion, hrest⟩

theorem legible_prefixed (op : PrefixOp) (hx : x.Legible) : Legible (.prefixed op x) := by
  intro c tail hc _
  obtain ⟨ch, hch, hwritten⟩ := exists_render_prefixed op x
  rw [hwritten] at hc
  obtain ⟨o, c₁, hopen, h₁⟩ := Cursor.exists_reads_spelled (k := .lparen) rfl hc
  obtain ⟨m, c₂, hop, h₂⟩ := Cursor.exists_reads_spelled hch h₁
  obtain ⟨ph, c₃, hph, hreads, h₃⟩ := hx c₂ _ h₂ (by simp)
  obtain ⟨close, c₄, hclose, h₄⟩ := Cursor.exists_reads_spelled (k := .rparen) rfl h₃
  exact ⟨_, c₄, hph.prefixed op o m close, hopen.trans ((hop.trans hreads).trans hclose), h₄⟩

theorem legible_binary (op : InfixOp) (hx : x.Legible) (hy : y.Legible) :
    Legible (.binary op x y) := by
  intro c tail hc _
  obtain ⟨ch, hch, hwritten⟩ := exists_render_binary op x y
  rw [hwritten] at hc
  obtain ⟨o, c₁, hopen, h₁⟩ := Cursor.exists_reads_spelled (k := .lparen) rfl hc
  -- The operator is no digit, so a number before it ends there.
  obtain ⟨ph, c₂, hph, hreads, h₂⟩ := hx c₁ _ h₁ (by simp [(Kind.spelling?_cases hch).2])
  obtain ⟨m, c₃, hop, h₃⟩ := Cursor.exists_reads_spelled hch h₂
  obtain ⟨ph', c₄, hph', hreads', h₄⟩ := hy c₃ _ h₃ (by simp)
  obtain ⟨close, c₅, hclose, h₅⟩ := Cursor.exists_reads_spelled (k := .rparen) rfl h₄
  exact ⟨_, c₅, hph.binary hph' op o m close,
    hopen.trans ((hreads.trans (hop.trans hreads')).trans hclose), h₅⟩

theorem legible_postfixed (op : PostfixOp) (hx : x.Legible) : Legible (.postfixed op x) := by
  intro c tail hc _
  obtain ⟨ch, hch, hwritten⟩ := exists_render_postfixed op x
  rw [hwritten] at hc
  obtain ⟨o, c₁, hopen, h₁⟩ := Cursor.exists_reads_spelled (k := .lparen) rfl hc
  obtain ⟨ph, c₂, hph, hreads, h₂⟩ := hx c₁ _ h₁ (by simp [(Kind.spelling?_cases hch).2])
  obtain ⟨m, c₃, hop, h₃⟩ := Cursor.exists_reads_spelled hch h₂
  obtain ⟨close, c₄, hclose, h₄⟩ := Cursor.exists_reads_spelled (k := .rparen) rfl h₃
  exact ⟨_, c₄, hph.postfixed op o m close, hopen.trans ((hreads.trans hop).trans hclose), h₄⟩

/-- A tree of short values that are not negative can be read wherever it is written. -/
theorem legible (t : Expr) (hnn : t.NonNegative) (hshort : t.Short) : t.Legible := by
  induction t with
  | literal n =>
    obtain ⟨k, rfl⟩ := Int.eq_ofNat_of_zero_le (hnn n (by simp [values]))
    apply legible_literal
    exact hshort k (by simp [values])
  | prefixed op x ih => exact legible_prefixed op (ih hnn hshort)
  | binary op l r ihl ihr =>
    obtain ⟨hnnl, hnnr⟩ := forall_values_binary.1 hnn
    obtain ⟨hshortl, hshortr⟩ := forall_values_binary.1 hshort
    exact legible_binary op (ihl hnnl hshortl) (ihr hnnr hshortr)
  | postfixed op x ih => exact legible_postfixed op (ih hnn hshort)

end Expr

/-- The tokens of a written tree are those of a phrase that writes it, and an end token. -/
theorem tokenize_render {t : Expr} (h : t.Legible) :
    ∃ (ph : Phrase) (e : Token), Writes ph t ∧ e.kind = .eof ∧
      tokenize t.render = .ok (ph.yield ++ [e]) := by
  obtain ⟨ph, rest, hph, hreads, hrest⟩ :=
    h (Cursor.ofSource t.render) [] (by simp [Cursor.ofSource]) (by simp)
  obtain ⟨e, he, htokens⟩ := hreads.tokens hrest
  refine ⟨ph, e, hph, he, ?_⟩
  rw [tokenize, htokens]
  rfl

/-! ## Trees of texts -/

/-- A text that is read as a tree holds a phrase that stands for the tree, with an end token behind
it. -/
theorem exists_yield_of_parseSource {source : String} {limit : Int} {t : Expr}
    (h : parseSource source limit = .ok t) :
    ∃ (ts : List Token) (c : Phrase) (e : Token) (rest : List Token), tokenize source = .ok ts ∧
      ts = c.yield ++ e :: rest ∧ c.erase? = some t := by
  obtain ⟨ts, hts, htokens⟩ := exists_tokenize_of_parseSource h
  obtain ⟨heof, -, rest, hparses, hrest⟩ := parseTokens_eq_ok_iff.1 htokens
  obtain ⟨c, hc, -⟩ := parses_expression_iff.1 hparses
  let s : TokenStream := ⟨ts, 0, heof, Nat.zero_le _⟩
  obtain ⟨e, rest, -, rfl⟩ := s.exists_eof_of_yield hc.yield_eq hrest
  exact ⟨ts, c, e, rest, hts, hc.yield_eq, hc.erase_eq⟩

theorem exists_phrase_of_parseSource {source : String} {limit : Int} {t : Expr}
    (h : parseSource source limit = .ok t) : ∃ c : Phrase, c.erase? = some t := by
  obtain ⟨-, c, -, -, -, -, hc⟩ := exists_yield_of_parseSource h
  exact ⟨c, hc⟩

/-- The values of a tree that a phrase stands for are literals. -/
theorem Phrase.values_of_erase? (c : Phrase) {t : Expr} (h : c.erase? = some t) :
    t.NonNegative ∧ t.Short := by
  induction c generalizing t with
  | literal m =>
    simp only [erase?] at h
    split at h
    · next n hn =>
      cases h
      have hlen : (Nat.toDigits 10 n).length ≤ 4300 := Literal.length_toDigits_of_read hn
      simp [Expr.NonNegative, Expr.Short, Expr.values, hlen]
    · cases h
  | group o c m ih => exact ih h
  | prefixed op m c ih =>
    obtain ⟨x, hx, rfl⟩ := Option.map_eq_some_iff.1 h
    obtain ⟨hnn, hshort⟩ := ih hx
    exact ⟨hnn, hshort⟩
  | binary op l m r ihl ihr =>
    simp only [erase?] at h
    split at h
    · next x y hx hy =>
      cases h
      obtain ⟨hnnx, hshortx⟩ := ihl hx
      obtain ⟨hnny, hshorty⟩ := ihr hy
      exact ⟨Expr.forall_values_binary.2 ⟨hnnx, hnny⟩,
        Expr.forall_values_binary.2 ⟨hshortx, hshorty⟩⟩
    · cases h
  | postfixed op c m ih =>
    obtain ⟨x, hx, rfl⟩ := Option.map_eq_some_iff.1 h
    obtain ⟨hnn, hshort⟩ := ih hx
    exact ⟨hnn, hshort⟩

/-! ## Reading written trees -/

/-- A limit that admits the cost of a tree reads its written form as the tree; any other limit is
exceeded. -/
theorem Expr.Legible.reads_back {t : Expr} (h : t.Legible) {limit : Int}
    (hlimit : 1 ≤ limit) :
    ((t.cost : Int) ≤ limit → parseSource t.render limit = .ok t) ∧
      (limit < t.cost → ∃ token?, parseSource t.render limit =
        .error (.failure (.parsing (.depthExceeded limit token?)))) := by
  obtain ⟨ph, e, hph, he, htokens⟩ := tokenize_render h
  have heof : EndsWithEof (ph.yield ++ [e]) := by
    simp [EndsWithEof, he]
  have hread : ∀ limit : Int, (t.cost : Int) ≤ limit →
      Parses .standard limit (.expression 0) 0 (ph.yield ++ [e]) (.ok t) [e] := by
    intro limit hcost
    apply (hph.reading he).parses
    rw [hph.nesting_eq]
    omega
  constructor
  · intro hcost
    rw [parseSource_eq htokens heof hlimit (hread limit hcost), finished_cons, if_pos he]
    rfl
  · intro hcost
    obtain ⟨out, rest, hout, -⟩ :=
      exists_parses .standard limit (.expression 0) 0 (ph.yield ++ [e])
    rcases hout.raise (hread t.cost (Int.le_refl _)) (by omega) with
      ⟨rfl, rfl⟩ | ⟨⟨token?, rfl⟩, -⟩
    · -- The tree would be that of a phrase with less nesting, but there is only one phrase.
      obtain ⟨c, hc, hnesting⟩ := parses_expression_iff.1 hout
      obtain ⟨rfl, -⟩ := hc.unique (hph.reading he)
      rw [hph.nesting_eq] at hnesting
      omega
    · refine ⟨token?, ?_⟩
      rw [parseSource_eq htokens heof hlimit hout]
      rfl

/-- The round trip of trees through their written form. -/
theorem parseSource_render :
    (∀ t : Expr, t.Short → ∀ limit : Int, 1 ≤ limit →
      (parseSource t.render limit = .ok t ↔ t.NonNegative ∧ (t.cost : Int) ≤ limit) ∧
      (t.NonNegative → limit < t.cost → ∃ token?, parseSource t.render limit =
        .error (.failure (.parsing (.depthExceeded limit token?))))) ∧
    ∀ t : Expr, (∃ source limit, parseSource source limit = .ok t) ↔ t.NonNegative ∧ t.Short := by
  have himage : ∀ {t : Expr} {source : String} {limit : Int},
      parseSource source limit = .ok t → t.NonNegative ∧ t.Short := by
    intro t source limit h
    obtain ⟨c, hc⟩ := exists_phrase_of_parseSource h
    exact c.values_of_erase? hc
  refine ⟨fun t hshort limit hlimit => ⟨⟨fun h => ?_, ?_⟩, ?_⟩, fun t => ⟨?_, ?_⟩⟩
  · -- A negative value is written with a sign, which is never read as part of a number.
    have hnn := (himage h).1
    refine ⟨hnn, Int.not_lt.1 fun hcost => ?_⟩
    obtain ⟨token?, herror⟩ := ((t.legible hnn hshort).reads_back hlimit).2 hcost
    rw [h] at herror
    cases herror
  · rintro ⟨hnn, hcost⟩
    exact ((t.legible hnn hshort).reads_back hlimit).1 hcost
  · intro hnn hcost
    exact ((t.legible hnn hshort).reads_back hlimit).2 hcost
  · rintro ⟨source, limit, h⟩
    exact himage h
  · rintro ⟨hnn, hshort⟩
    have hpos : (1 : Int) ≤ t.cost := by exact_mod_cast t.cost_pos
    exact ⟨t.render, t.cost, ((t.legible hnn hshort).reads_back hpos).1 (Int.le_refl _)⟩

/-- The tree of `2!-3`. -/
def difference : Expr :=
  .binary .sub (.postfixed .factorial (.literal 2)) (.literal 3)

/-- `((2!)-3)` is read under the limit `3` and no smaller one. -/
theorem parseSource_render_difference :
    difference.Short ∧ difference.NonNegative ∧
      parseSource difference.render 3 = .ok difference ∧
      ∃ token?, parseSource difference.render 2 =
        .error (.failure (.parsing (.depthExceeded 2 token?))) := by
  have hshort : difference.Short := by
    show ∀ n ∈ [(2 : Int), 3], (Nat.toDigits 10 n.natAbs).length ≤ 4300
    decide
  have hnn : difference.NonNegative := by
    show ∀ n ∈ [(2 : Int), 3], 0 ≤ n
    decide
  obtain ⟨hread, -⟩ := parseSource_render.1 difference hshort 3 (by decide)
  obtain ⟨-, hdeep⟩ := parseSource_render.1 difference hshort 2 (by decide)
  exact ⟨hshort, hnn, hread.2 ⟨hnn, by decide⟩, hdeep hnn (by decide)⟩

end ArithSyntax
