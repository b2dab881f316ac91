import ArithSyntax.Expr.Record
import ArithSyntax.Proofs.RoundTrip.Render
import Mathlib.Tactic.TFAE

/-!
# Trees are told apart by what is written

Two trees are equal, have equal records and have equal written forms all at once
(`Expr.tfae_eq_toRecord_render`). This holds of every tree, and most trees with a negative value are
not read back from their written form, so it says nothing about parsing: a minus sign in a written
form may be an infix operator, a sign, or the beginning of a negative value.

The argument is that of a prefix code. Of two trees that are written at the front of one text, with
no digit behind either, neither can end before the other: every tree is `Expr.SelfDelimiting`. The
induction follows the one tree; the other is taken apart along with it. Only one pair of shapes
begins alike without being alike: the sign of `(-5)` and the negative value of `(-5!)`. Such a
negative value takes the sign and all digits of the operand and ends where the operand does, at a
parenthesis and not at an operator (`Expr.sign_append`).
-/

set_option autoImplicit false

namespace ArithSyntax

/-! ## Characters that spell operators -/

/-- A character spells no more than one kind. -/
theorem Kind.spelling?_inj {k k' : Kind} {ch : Char} (h : k.spelling? = some ch)
    (h' : k'.spelling? = some ch) : k = k' := by
  rw [← Kind.ofChar?_eq_some_iff] at h h'
  exact Option.some.inj (h.symm.trans h')

theorem InfixOp.kind_ne_rparen (op : InfixOp) : op.kind ≠ .rparen := by
  cases op <;> decide

theorem PostfixOp.kind_ne_rparen (op : PostfixOp) : op.kind ≠ .rparen := by
  cases op
  decide

/-! ## Numbers -/

theorem endsNumber_rparen (text : List Char) : EndsNumber (')' :: text) :=
  endsNumber_of_spelling (k := .rparen) rfl text

/-- Two numbers at the front of one text are the same. -/
theorem toDigits_append_inj {m n : Nat} {u v : List Char} (hu : EndsNumber u) (hv : EndsNumber v)
    (h : Nat.toDigits 10 m ++ u = Nat.toDigits 10 n ++ v) : m = n ∧ u = v := by
  have hdigits : ∀ k : Nat, ∀ ch ∈ Nat.toDigits 10 k, ch.isDigit = true :=
    fun k ch hch => Nat.isDigit_of_mem_toDigits (by decide) (by decide) hch
  have hrun : Nat.toDigits 10 m = Nat.toDigits 10 n := by
    rw [← takeWhile_isDigit_append (hdigits m) hu, h, takeWhile_isDigit_append (hdigits n) hv]
  have hvalue : m = n := by
    rw [← Nat.ofDigitChars_ten_toDigits (n := m), hrun, Nat.ofDigitChars_ten_toDigits]
  rw [hrun] at h
  exact ⟨hvalue, List.append_cancel_left h⟩

/-- A number does not begin with a character that spells a kind. -/
theorem toDigits_append_ne_cons {n : Nat} {k : Kind} {ch : Char} {u v : List Char}
    (h : k.spelling? = some ch) : Nat.toDigits 10 n ++ u ≠ ch :: v := by
  intro heq
  obtain ⟨d, digits, hd⟩ := List.exists_cons_of_ne_nil (Nat.toDigits_ne_nil (b := 10) (n := n))
  have hdigit : d.isDigit = true :=
    Nat.isDigit_of_mem_toDigits (b := 10) (n := n) (by decide) (by decide) (by simp [hd])
  rw [hd, List.cons_append] at heq
  obtain ⟨rfl, -⟩ := List.cons.inj heq
  rw [(Kind.spelling?_cases h).2] at hdigit
  cases hdigit

namespace Expr

/-! ## Written forms as lists -/

theorem toList_render_negSucc (n : Nat) :
    (render (.literal (.negSucc n))).toList = '-' :: Nat.toDigits 10 (n + 1) := by
  show ("-" ++ Nat.repr (n + 1)).toList = _
  rw [String.toList_append, Nat.toList_repr]
  rfl

/-- A tree is a value, or it is written between parentheses. -/
theorem literal_or_group (t : Expr) :
    (∃ n, t = .literal n) ∨ ∀ tail, ∃ text, t.render.toList ++ tail = '(' :: text := by
  cases t with
  | literal n => exact .inl ⟨n, rfl⟩
  | prefixed op x =>
    obtain ⟨ch, -, hwritten⟩ := exists_render_prefixed op x
    exact .inr fun tail => ⟨_, hwritten tail⟩
  | binary op l r =>
    obtain ⟨ch, -, hwritten⟩ := exists_render_binary op l r
    exact .inr fun tail => ⟨_, hwritten tail⟩
  | postfixed op x =>
    obtain ⟨ch, -, hwritten⟩ := exists_render_postfixed op x
    exact .inr fun tail => ⟨_, hwritten tail⟩

/-! ## Two trees at the front of one text -/

variable {b x y l r : Expr} {u v w : List Char} {ch ch' : Char} {op : PrefixOp} {k : Kind}

/-- What is written like a number at the front of a text is that number. -/
theorem eq_of_toDigits_append {n : Nat} (hu : EndsNumber u) (hv : EndsNumber v)
    (h : Nat.toDigits 10 n ++ u = b.render.toList ++ v) : .literal n = b ∧ u = v := by
  rcases b.literal_or_group with ⟨m, rfl⟩ | hb
  · cases m with
    | ofNat m =>
      rw [Int.ofNat_eq_natCast, toList_render_ofNat] at h
      obtain ⟨rfl, rfl⟩ := toDigits_append_inj hu hv h
      exact ⟨rfl, rfl⟩
    | negSucc m =>
      rw [toList_render_negSucc] at h
      exact absurd h (toDigits_append_ne_cons (k := .minus) rfl)
  · obtain ⟨text, htext⟩ := hb v
    rw [htext] at h
    exact absurd h (toDigits_append_ne_cons (k := .lparen) rfl)

/-- A tree that is written at the front of a sign, its operand and a closing parenthesis is a
negative value: it takes the sign and all digits of the operand, and ends where the operand does. -/
theorem sign_append (hch : op.kind.spelling? = some ch) (hw : EndsNumber w)
    (h : ch :: (x.render.toList ++ ')' :: u) = y.render.toList ++ w) : w = ')' :: u := by
  rcases y.literal_or_group with ⟨m, rfl⟩ | hy
  · cases m with
    | ofNat m =>
      rw [Int.ofNat_eq_natCast, toList_render_ofNat] at h
      exact absurd h.symm (toDigits_append_ne_cons hch)
    | negSucc m =>
      rw [toList_render_negSucc] at h
      have hdigits : Nat.toDigits 10 (m + 1) ++ w = x.render.toList ++ ')' :: u :=
        (List.cons.inj h).2.symm
      exact (eq_of_toDigits_append hw (endsNumber_rparen u) hdigits).2
  · obtain ⟨text, htext⟩ := hy w
    rw [htext] at h
    obtain ⟨rfl, -⟩ := List.cons.inj h
    exact absurd (Kind.spelling?_inj hch rfl) op.kind_ne_lparen

/-- A sign with its operand and a closing parenthesis is not written like an operator behind its
operand. -/
theorem sign_append_ne (hch : op.kind.spelling? = some ch) (hk : k.spelling? = some ch')
    (hclose : k ≠ .rparen) :
    ch :: (x.render.toList ++ ')' :: u) ≠ y.render.toList ++ ch' :: v := by
  intro h
  obtain ⟨rfl, -⟩ := List.cons.inj (sign_append hch (endsNumber_of_spelling hk v) h)
  exact hclose (Kind.spelling?_inj hk rfl)

/-- A tree that is written at the front of a text is the only one that is, if no number goes on
behind it. -/
def SelfDelimiting (a : Expr) : Prop :=
  ∀ (b : Expr) (u v : List Char), EndsNumber u → EndsNumber v →
    a.render.toList ++ u = b.render.toList ++ v → a = b ∧ u = v

theorem selfDelimiting_literal (n : Int) : SelfDelimiting (.literal n) := by
  intro b u v hu hv h
  cases n with
  | ofNat n =>
    rw [Int.ofNat_eq_natCast, toList_render_ofNat] at h
    exact eq_of_toDigits_append hu hv h
  | negSucc n =>
    rw [toList_render_negSucc] at h
    rcases b.literal_or_group with ⟨m, rfl⟩ | hb
    · cases m with
      | ofNat m =>
        rw [Int.ofNat_eq_natCast, toList_render_ofNat] at h
        exact absurd h.symm (toDigits_append_ne_cons (k := .minus) rfl)
      | negSucc m =>
        rw [toList_render_negSucc] at h
        obtain ⟨hm, rfl⟩ := toDigits_append_inj hu hv (List.cons.inj h).2
        obtain rfl : n = m := Nat.succ.inj hm
        exact ⟨rfl, rfl⟩
    · obtain ⟨text, htext⟩ := hb v
      rw [htext] at h
      exact absurd (List.cons.inj h).1 (by decide)

/-- A value is told apart from any tree, whichever of the two comes first. -/
theorem eq_literal_of_append {n : Int} {a : Expr} (hu : EndsNumber u) (hv : EndsNumber v)
    (h : a.render.toList ++ u = (render (.literal n)).toList ++ v) : a = .literal n ∧ u = v := by
  obtain ⟨heq, htail⟩ := selfDelimiting_literal n a v u hv hu h.symm
  exact ⟨heq.symm, htail.symm⟩

theorem selfDelimiting_prefixed (op : PrefixOp) (hx : x.SelfDelimiting) :
    SelfDelimiting (.prefixed op x) := by
  intro b u v hu hv h
  obtain ⟨ch, hch, ha⟩ := exists_render_prefixed op x
  cases b with
  | literal n => exact eq_literal_of_append hu hv h
  | prefixed op' y =>
    obtain ⟨ch', hch', hb⟩ := exists_render_prefixed op' y
    rw [ha, hb] at h
    obtain ⟨rfl, hrest⟩ := List.cons.inj (List.cons.inj h).2
    obtain rfl := PrefixOp.kind_inj (Kind.spelling?_inj hch hch')
    obtain ⟨rfl, htail⟩ := hx y _ _ (endsNumber_rparen u) (endsNumber_rparen v) hrest
    exact ⟨rfl, (List.cons.inj htail).2⟩
  | binary op' l r =>
    obtain ⟨ch', hch', hb⟩ := exists_render_binary op' l r
    rw [ha, hb] at h
    -- The left operand could only be a negative value that ends at the parenthesis behind `x`.
    exact absurd (List.cons.inj h).2 (sign_append_ne hch hch' op'.kind_ne_rparen)
  | postfixed op' y =>
    obtain ⟨ch', hch', hb⟩ := exists_render_postfixed op' y
    rw [ha, hb] at h
    exact absurd (List.cons.inj h).2 (sign_append_ne hch hch' op'.kind_ne_rparen)

theorem selfDelimiting_binary (op : InfixOp) (hl : l.SelfDelimiting) (hr : r.SelfDelimiting) :
    SelfDelimiting (.binary op l r) := by
  intro b u v hu hv h
  obtain ⟨ch, hch, ha⟩ := exists_render_binary op l r
  cases b with
  | literal n => exact eq_literal_of_append hu hv h
  | prefixed op' y =>
    obtain ⟨ch', hch', hb⟩ := exists_render_prefixed op' y
    rw [ha, hb] at h
    exact absurd (List.cons.inj h).2.symm (sign_append_ne hch' hch op.kind_ne_rparen)
  | binary op' l' r' =>
    obtain ⟨ch', hch', hb⟩ := exists_render_binary op' l' r'
    rw [ha, hb] at h
    -- The left operands end at the operators, which are no digits.
    obtain ⟨rfl, hrest⟩ := hl l' _ _ (endsNumber_of_spelling hch _) (endsNumber_of_spelling hch' _)
      (List.cons.inj h).2
    obtain ⟨rfl, hright⟩ := List.cons.inj hrest
    obtain rfl := InfixOp.kind_inj (Kind.spelling?_inj hch hch')
    obtain ⟨rfl, htail⟩ := hr r' _ _ (endsNumber_rparen u) (endsNumber_rparen v) hright
    exact ⟨rfl, (List.cons.inj htail).2⟩
  | postfixed op' y =>
    obtain ⟨ch', hch', hb⟩ := exists_render_postfixed op' y
    rw [ha, hb] at h
    -- The first operands are the same, and no character is an infix and a postfix operator.
    obtain ⟨-, hrest⟩ := hl y _ _ (endsNumber_of_spelling hch _) (endsNumber_of_spelling hch' _)
      (List.cons.inj h).2
    obtain ⟨rfl, -⟩ := List.cons.inj hrest
    exact absurd (Kind.spelling?_inj hch hch') (op.kind_ne_postfixed op')

theorem selfDelimiting_postfixed (op : PostfixOp) (hx : x.SelfDelimiting) :
    SelfDelimiting (.postfixed op x) := by
  intro b u v hu hv h
  obtain ⟨ch, hch, ha⟩ := exists_render_postfixed op x
  cases b with
  | literal n => exact eq_literal_of_append hu hv h
  | prefixed op' y =>
    obtain ⟨ch', hch', hb⟩ := exists_render_prefixed op' y
    rw [ha, hb] at h
    exact absurd (List.cons.inj h).2.symm (sign_append_ne hch' hch op.kind_ne_rparen)
  | binary op' l r =>
    obtain ⟨ch', hch', hb⟩ := exists_render_binary op' l r
    rw [ha, hb] at h
    obtain ⟨-, hrest⟩ := hx l _ _ (endsNumber_of_spelling hch _) (endsNumber_of_spelling hch' _)
      (List.cons.inj h).2
    obtain ⟨rfl, -⟩ := List.cons.inj hrest
    exact absurd (Kind.spelling?_inj hch' hch) (op'.kind_ne_postfixed op)
  | postfixed op' y =>
    obtain ⟨ch', hch', hb⟩ := exists_render_postfixed op' y
    rw [ha, hb] at h
    obtain ⟨rfl, hrest⟩ := hx y _ _ (endsNumber_of_spelling hch _) (endsNumber_of_spelling hch' _)
      (List.cons.inj h).2
    obtain rfl := op.eq op'
    exact ⟨rfl, (List.cons.inj (List.cons.inj hrest).2).2⟩

theorem selfDelimiting (t : Expr) : t.SelfDelimiting := by
  induction t with
  | literal n => exact selfDelimiting_literal n
  | prefixed op x ih => exact selfDelimiting_prefixed op ih
  | binary op l r ihl ihr => exact selfDelimiting_binary op ihl ihr
  | postfixed op x ih => exact selfDelimiting_postfixed op ih

/-! ## Whole texts -/

theorem render_injective : Function.Injective render := by
  intro a b h
  have hend : EndsNumber [] := fun ch hch => by cases hch
  have hlists : a.render.toList ++ [] = b.render.toList ++ [] := by rw [h]
  exact (a.selfDelimiting b [] [] hend hend hlists).1

theorem toRecord_injective : Function.Injective toRecord := by
  intro a b h
  have hbuilt : (.ok a : Except OperatorError Expr) = .ok b := by
    rw [← Record.toExpr_toRecord a, h, Record.toExpr_toRecord b]
  exact Except.ok.inj hbuilt

/-- Trees are equal exactly if their records are, and exactly if their written forms are, whatever
operators they hold and whatever their values are. -/
theorem tfae_eq_toRecord_render (a b : Expr) :
    [a = b, a.toRecord = b.toRecord, a.render = b.render].TFAE := by
  tfae_have 1 → 2 := fun h => congrArg toRecord h
  tfae_have 2 → 1 := fun h => toRecord_injective h
  tfae_have 1 → 3 := fun h => congrArg render h
  tfae_have 3 → 1 := fun h => render_injective h
  tfae_finish

end Expr

end ArithSyntax
