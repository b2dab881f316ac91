import ArithSyntax.Proofs.Grammar.Climbing
import ArithSyntax.Proofs.Scanner.Agreement
import Mathlib.Data.List.Forall2

/-!
# Trees keep their tokens in order

A tree that is written out in order lists its values and operators: a left operand, the operator,
the right operand. These items are what was read, one token for each and in the same order. The only
tokens that leave no item are parentheses, an opening and a closing one at a time, and the pairs are
properly nested (`parse_keepsTokens`).

This holds for all tables, so a kind need not mean what it usually does: what opens a group is what
the tables say, while the closing parenthesis is a kind. With the standard tables the tokens that
leave no item are the parentheses and no others.

The tree is made bottom-up, with the left operand handed from one operator to the next. So what is
proved of a reader is how the items of the tree that it is given grow (`Grows`).
-/

set_option autoImplicit false

namespace ArithSyntax

/-! ## Items -/

/-- What a tree holds in one node. -/
inductive Item where
  | value (n : Int)
  | sign (op : PrefixOp)
  | infixed (op : InfixOp)
  | postfixed (op : PostfixOp)
deriving DecidableEq

/-- The items of a tree in the order in which they are written. -/
def Expr.items : Expr → List Item
  | literal n => [.value n]
  | prefixed op x => .sign op :: x.items
  | binary op l r => l.items ++ .infixed op :: r.items
  | postfixed op x => x.items ++ [.postfixed op]

theorem Expr.items_ne_nil (x : Expr) : x.items ≠ [] := by
  cases x <;> simp [items]

/-- The token is read as the item. A value is denoted by the token's text, and an operator has the
lexeme of the token's kind; each is read by a handler for its place. -/
def Item.ReadFrom (tables : Tables) (t : Token) : Item → Prop
  | value n => tables.operand t.kind = some .number ∧ Numeral t.text.toList ∧
      n = Nat.ofDigitChars 10 t.text.toList 0
  | sign op => tables.operand t.kind = some .sign ∧ t.kind.lexeme? = some op.symbol
  | infixed op => (∃ handler, tables.operator t.kind = some handler ∧ handler ≠ .postfixed) ∧
      t.kind.lexeme? = some op.symbol
  | postfixed op => tables.operator t.kind = some .postfixed ∧ t.kind.lexeme? = some op.symbol

variable {tables : Tables}

theorem Item.readFrom_value {t : Token} {n : Nat} (ht : tables.operand t.kind = some .number)
    (hn : Literal.read t.text.toList = .ok n) : (Item.value n).ReadFrom tables t := by
  obtain ⟨-, -, -, hvalue⟩ := Literal.read_eq_ok_iff.1 hn
  exact ⟨ht, numeral_iff_read.2 ⟨n, hn⟩, by rw [hvalue]⟩

/-! ## Deleting groups -/

/-- `kept` is left of the tokens when pairs are deleted from them that are properly nested. A pair is
a token that opens a group and a closing parenthesis. -/
inductive Ungrouped (tables : Tables) : List Token → List Token → Prop
  | nil : Ungrouped tables [] []
  | item (t : Token) {ts kept : List Token} (h : Ungrouped tables ts kept) :
      Ungrouped tables (t :: ts) (t :: kept)
  | pair {opening closing : Token} {inner ts kept kept' : List Token}
      (hopening : tables.operand opening.kind = some .group) (hclosing : closing.kind = .rparen)
      (hinner : Ungrouped tables inner kept) (h : Ungrouped tables ts kept') :
      Ungrouped tables (opening :: (inner ++ closing :: ts)) (kept ++ kept')

/-- Pairs may be deleted from two lists one after the other. -/
theorem Ungrouped.append {ts ts' kept kept' : List Token} (h : Ungrouped tables ts kept)
    (h' : Ungrouped tables ts' kept') : Ungrouped tables (ts ++ ts') (kept ++ kept') := by
  induction h with
  | nil => exact h'
  | item t _ ih => exact .item t ih
  | pair hopening hclosing hinner _ _ ih =>
    rw [List.cons_append, List.append_assoc, List.cons_append, List.append_assoc]
    exact .pair hopening hclosing hinner ih

/-- The tokens are read as the items, after properly nested pairs are deleted from them. -/
def Transcribes (tables : Tables) (items : List Item) (ts : List Token) : Prop :=
  ∃ kept, Ungrouped tables ts kept ∧
    List.Forall₂ (fun item t => Item.ReadFrom tables t item) items kept

theorem Transcribes.nil : Transcribes tables [] [] :=
  ⟨[], .nil, .nil⟩

theorem Transcribes.cons {item : Item} {items : List Item} {t : Token} {ts : List Token}
    (ht : item.ReadFrom tables t) (h : Transcribes tables items ts) :
    Transcribes tables (item :: items) (t :: ts) := by
  obtain ⟨kept, hkept, hread⟩ := h
  exact ⟨t :: kept, .item t hkept, .cons ht hread⟩

theorem Transcribes.append {items items' : List Item} {ts ts' : List Token}
    (h : Transcribes tables items ts) (h' : Transcribes tables items' ts') :
    Transcribes tables (items ++ items') (ts ++ ts') := by
  obtain ⟨kept, hkept, hread⟩ := h
  obtain ⟨kept', hkept', hread'⟩ := h'
  exact ⟨kept ++ kept', hkept.append hkept', List.rel_append hread hread'⟩

/-- A group has the items of what it holds. -/
theorem Transcribes.group {items : List Item} {opening closing : Token} {ts : List Token}
    (hopening : tables.operand opening.kind = some .group) (hclosing : closing.kind = .rparen)
    (h : Transcribes tables items ts) :
    Transcribes tables items (opening :: (ts ++ [closing])) := by
  obtain ⟨kept, hkept, hread⟩ := h
  refine ⟨kept, ?_, hread⟩
  have hpair := Ungrouped.pair hopening hclosing hkept .nil
  rwa [List.append_nil] at hpair

theorem Transcribes.ne_nil {items : List Item} {ts : List Token} (h : Transcribes tables items ts)
    (hitems : items ≠ []) : ts ≠ [] := by
  rintro rfl
  obtain ⟨kept, hkept, hread⟩ := h
  cases hkept
  cases hread
  exact hitems rfl

/-! ## Readers -/

/-- While the tokens `ts` are read down to `rest`, the items `old` grow to the items `new`: those
that are added are what was read. -/
def Grows (tables : Tables) (old new : List Item) (ts rest : List Token) : Prop :=
  ∃ items block, new = old ++ items ∧ ts = block ++ rest ∧ Transcribes tables items block

theorem Grows.refl (items : List Item) (ts : List Token) : Grows tables items items ts ts :=
  ⟨[], [], (List.append_nil items).symm, rfl, .nil⟩

theorem Grows.trans {old mid new : List Item} {ts ts' rest : List Token}
    (h : Grows tables old mid ts ts') (h' : Grows tables mid new ts' rest) :
    Grows tables old new ts rest := by
  obtain ⟨items, block, rfl, rfl, hread⟩ := h
  obtain ⟨items', block', rfl, rfl, hread'⟩ := h'
  exact ⟨items ++ items', block ++ block', by rw [List.append_assoc], by rw [List.append_assoc],
    hread.append hread'⟩

/-- Items in front that were there before make no difference. -/
theorem Grows.append_left {old new : List Item} {ts rest : List Token}
    (h : Grows tables old new ts rest) (front : List Item) :
    Grows tables (front ++ old) (front ++ new) ts rest := by
  obtain ⟨items, block, rfl, rfl, hread⟩ := h
  exact ⟨items, block, by rw [List.append_assoc], rfl, hread⟩

/-- A token that is read as an item adds the item. -/
theorem Grows.item {item : Item} {t : Token} (ht : item.ReadFrom tables t) (old : List Item)
    (ts : List Token) : Grows tables old (old ++ [item]) (t :: ts) ts :=
  ⟨[item], [t], rfl, rfl, Transcribes.nil.cons ht⟩

/-- An operator before its operand. -/
theorem Grows.operand {item : Item} {t : Token} {items : List Item} {ts rest : List Token}
    (ht : item.ReadFrom tables t) (h : Grows tables [] items ts rest) (old : List Item) :
    Grows tables old (old ++ item :: items) (t :: ts) rest := by
  have hbehind := h.append_left (old ++ [item])
  rw [List.append_nil, List.append_assoc, List.singleton_append] at hbehind
  exact (Grows.item ht old ts).trans hbehind

/-- A group adds what it holds. -/
theorem Grows.group {items : List Item} {opening closing : Token} {ts rest : List Token}
    (hopening : tables.operand opening.kind = some .group) (hclosing : closing.kind = .rparen)
    (h : Grows tables [] items ts (closing :: rest)) :
    Grows tables [] items (opening :: ts) rest := by
  obtain ⟨items', block, hitems, rfl, hread⟩ := h
  refine ⟨items', opening :: (block ++ [closing]), hitems, ?_, hread.group hopening hclosing⟩
  rw [List.cons_append, List.append_assoc, List.singleton_append]

/-- The items of the tree that a task goes on from. -/
def Task.items : Task → List Item
  | expression _ => []
  | operand _ _ => []
  | operators _ left => left.items
  | operator _ left _ => left.items

/-- The handler of a task is the one that the tables give to its token. -/
def Task.Assigned (tables : Tables) : Task → Prop
  | expression _ => True
  | operand handler t => tables.operand t.kind = some handler
  | operators _ _ => True
  | operator handler _ t => tables.operator t.kind = some handler

theorem OperatorHandler.ne_postfixed_of_rightMin? {handler : OperatorHandler} {op : String} {m : Int}
    (hm : handler.rightMin? op = some m) : handler ≠ .postfixed := by
  rintro rfl
  cases hm

/-- A reader that makes a tree adds to the items that it was given what it reads, and loses none. -/
theorem Parses.grows {limit : Int} {task : Task} {d : Nat} {ts rest : List Token}
    {out : Except Failure Expr} {tree : Expr} (h : Parses tables limit task d ts out rest)
    (hassigned : task.Assigned tables) (htree : out = .ok tree) :
    Grows tables task.items tree.items (task.tokens ts) rest := by
  induction h generalizing tree with
  | tooDeep h => cases htree
  | exhausted h => cases htree
  | noOperand h ht => cases htree
  | operandFails h ht hop ih => cases htree
  | expression h ht hop hfold ihop ihfold =>
    -- The operators go on from the tree of the operand.
    exact (ihop ht rfl).trans (ihfold trivial htree)
  | @number d n t ts hn =>
    cases htree
    exact Grows.item (Item.readFrom_value hassigned hn) [] ts
  | badNumber hn => cases htree
  | signNoLexeme hl => cases htree
  | signFails hl hx ih => cases htree
  | sign hl hx ih =>
    obtain ⟨op, rfl, rfl⟩ := Expr.eq_prefixed_of_applyPrefix (applied_eq_ok htree)
    have hsign : (Item.sign op).ReadFrom tables _ := ⟨hassigned, hl⟩
    exact Grows.operand hsign (ih trivial rfl) []
  | groupFails hx ih => cases htree
  | group hx hclose ih => exact Grows.group hassigned hclose (ih trivial htree)
  | groupOpen hx hclose ih => cases htree
  | stop h =>
    cases htree
    exact Grows.refl _ _
  | noLookahead h => cases htree
  | noOperator h ht => cases htree
  | operatorFails h ht hop ih => cases htree
  | operators h ht hop hfold ihop ihfold => exact (ihop ht rfl).trans (ihfold trivial htree)
  | operatorNoLexeme hl => cases htree
  | infixFails hl hm hx ih => cases htree
  | @infixed handler left right d t ts rest op m hl hm hx ih =>
    -- The items of the left operand are there already; the operator and the right one are added.
    obtain ⟨op, rfl, rfl⟩ := Expr.eq_binary_of_applyInfix (applied_eq_ok htree)
    have hinfix : (Item.infixed op).ReadFrom tables t :=
      ⟨⟨handler, hassigned, OperatorHandler.ne_postfixed_of_rightMin? hm⟩, hl⟩
    exact Grows.operand hinfix (ih trivial rfl) left.items
  | @postfixed left d t ts op hl =>
    obtain ⟨op, rfl, rfl⟩ := Expr.eq_postfixed_of_applyPostfix (applied_eq_ok htree)
    have hpostfix : (Item.postfixed op).ReadFrom tables t := ⟨hassigned, hl⟩
    exact Grows.item hpostfix left.items ts

/-! ## The standard tables -/

/-- With the standard tables no item is read from a parenthesis. -/
theorem Item.ReadFrom.not_parenthesis {item : Item} {t : Token} (h : item.ReadFrom .standard t) :
    t.kind ≠ .lparen ∧ t.kind ≠ .rparen := by
  have hlexeme : ∀ {op : String}, t.kind.lexeme? = some op →
      t.kind ≠ .lparen ∧ t.kind ≠ .rparen := by
    intro op hop
    constructor <;> intro hk <;> rw [hk] at hop <;> cases hop
  cases item with
  | value n =>
    rw [Tables.kind_of_standard_number h.1]
    exact ⟨Kind.noConfusion, Kind.noConfusion⟩
  | sign op => exact hlexeme h.2
  | infixed op => exact hlexeme h.2
  | postfixed op => exact hlexeme h.2

/-- With the standard tables the deleted tokens are parentheses, so if no parenthesis is kept, all
others are. -/
theorem Ungrouped.eq_filter {ts kept : List Token} (h : Ungrouped .standard ts kept)
    (hkept : ∀ t ∈ kept, t.kind ≠ .lparen ∧ t.kind ≠ .rparen) :
    kept = ts.filter fun t => t.kind ≠ .lparen ∧ t.kind ≠ .rparen := by
  induction h with
  | nil => rfl
  | item t _ ih =>
    have ht := hkept t List.mem_cons_self
    rw [List.filter_cons_of_pos (by simpa using ht)]
    rw [← ih fun u hu => hkept u (List.mem_cons_of_mem t hu)]
  | pair hopening hclosing _ _ ihinner ih =>
    -- The filter drops both tokens of the pair; what is between them is kept as it is outside.
    have hlparen := Tables.kind_of_standard_group hopening
    rw [List.filter_cons_of_neg (by simp [hlparen]), List.filter_append,
      List.filter_cons_of_neg (by simp [hclosing])]
    rw [← ihinner fun u hu => hkept u (List.mem_append_left _ hu)]
    rw [← ih fun u hu => hkept u (List.mem_append_right _ hu)]

theorem not_parenthesis_of_forall₂ {items : List Item} {kept : List Token}
    (h : List.Forall₂ (fun item t => Item.ReadFrom .standard t item) items kept) :
    ∀ t ∈ kept, t.kind ≠ .lparen ∧ t.kind ≠ .rparen := by
  induction h with
  | nil =>
    intro t ht
    cases ht
  | cons hread _ ih =>
    intro t ht
    rcases List.mem_cons.1 ht with rfl | ht
    · exact hread.not_parenthesis
    · exact ih t ht

/-! ## Parsers -/

/-- The tokens between two places of a stream. -/
theorem TokenStream.extract_resume {s : TokenStream} {block rest : List Token}
    (h : s.unread = block ++ rest) :
    s.tokens.extract s.position (s.resume rest).position = block := by
  rw [position_resume h, List.extract_eq_take_drop, Nat.add_sub_cancel_left]
  show s.unread.take block.length = block
  rw [h, List.take_left]

/-- No token is lost, doubled or put elsewhere. Whatever the tables, the tokens, the place in them,
the minimum and the limit are, a parser that returns a tree has read at least one token; and when
properly nested pairs of an opening token and a closing parenthesis are deleted from the tokens that
it has read, there are left, one by one and in order, the tokens that the items of the tree are read
from. With the standard tables the deleted tokens are all parentheses among the tokens read. -/
theorem parse_keepsTokens (p : Parser) {min : Int} {tree : Expr} {q : Parser}
    (h : p.parse min = .ok tree q) :
    let block := p.stream.tokens.extract p.stream.position q.stream.position
    p.stream.position < q.stream.position ∧
    ∃ kept, Ungrouped p.tables block kept ∧
      List.Forall₂ (fun item t => Item.ReadFrom p.tables t item) tree.items kept ∧
      (p.tables = .standard →
        kept = block.filter fun t => t.kind ≠ .lparen ∧ t.kind ≠ .rparen) := by
  have hend : p.parse min = endsWith (.ok tree) q := h
  obtain ⟨rest, hparses, rfl⟩ := Parses.exists_of_parse hend
  -- An expression starts from no items, so all items of the tree are from the tokens read.
  obtain ⟨items, block, hitems, hunread, hread⟩ := hparses.grows trivial rfl
  have hne : block ≠ [] := by
    apply hread.ne_nil
    rintro rfl
    exact tree.items_ne_nil hitems
  obtain ⟨kept, hkept, hread⟩ := hread
  have hitems : tree.items = items := hitems
  have hunread : p.stream.unread = block ++ rest := hunread
  intro block'
  have hblock : block' = block := TokenStream.extract_resume hunread
  rw [hblock]
  refine ⟨?_, kept, hkept, by rwa [hitems], ?_⟩
  · rw [TokenStream.position_resume hunread]
    exact Nat.lt_add_of_pos_right (List.length_pos_iff.2 hne)
  · intro htables
    rw [htables] at hkept hread
    exact hkept.eq_filter (not_parenthesis_of_forall₂ hread)

/-- A parser of `1+!2)+3` for which `!` opens a group and `+` associates to the right. -/
def bangOpensGroup : Parser where
  stream := {
    tokens := [⟨.number, "1", ⟨1, 1⟩⟩, ⟨.plus, "+", ⟨1, 2⟩⟩, ⟨.bang, "!", ⟨1, 3⟩⟩,
      ⟨.number, "2", ⟨1, 4⟩⟩, ⟨.rparen, ")", ⟨1, 5⟩⟩, ⟨.plus, "+", ⟨1, 6⟩⟩,
      ⟨.number, "3", ⟨1, 7⟩⟩, ⟨.eof, "", ⟨1, 8⟩⟩]
    position := 0
    endsWithEof := by decide
    position_le := by decide }
  tables := (Tables.standard.setOperand .bang (some .group)).setInfixed .plus (some .rightInfix)
  limit := 256
  depth := 0

/-- All but the end token is read by `bangOpensGroup`, and the tree has an item for each of five
tokens: the group leaves none, although it is opened by `!`. -/
theorem parse_keepsTokens_bangOpensGroup :
    ∃ q, bangOpensGroup.parse 0 = .ok (.binary .add (.literal 1)
        (.binary .add (.literal 2) (.literal 3))) q ∧ 0 < q.stream.position ∧
      ∃ kept, Ungrouped bangOpensGroup.tables (bangOpensGroup.stream.tokens.take 7) kept ∧
        List.Forall₂ (fun item t => Item.ReadFrom bangOpensGroup.tables t item)
          [.value 1, .infixed .add, .value 2, .infixed .add, .value 3] kept := by
  have hparse : bangOpensGroup.parse 0 = .ok (.binary .add (.literal 1)
      (.binary .add (.literal 2) (.literal 3))) _ := rfl
  obtain ⟨hread, kept, hkept, hitems, -⟩ := parse_keepsTokens bangOpensGroup hparse
  exact ⟨_, rfl, hread, kept, hkept, hitems⟩

end ArithSyntax
