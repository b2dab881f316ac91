import ArithSyntax.Proofs.Grammar.Phrase

/-!
# The grammar is unambiguous

Two phrases that start on the same tokens and end where the same minimum makes them end are one
phrase (`Phrase.Fits.unique`).

The phrases along the left edge of a phrase are its left parts. Of two phrases on the same tokens,
of which the second ends where its minimum makes it end, the first is a left part of the second
(`Phrase.isFront`): their first operands agree, and operators that agree so far are
followed by the same operator and by the same right operand. A proper left part is followed by an
operator of the left edge, and so it cannot end where the minimum stops.
-/

set_option autoImplicit false

namespace ArithSyntax.Phrase

/-- The first phrase is the second, or is met on the way from it through left operands. -/
inductive LeftPart (a : Phrase) : Phrase → Prop
  | refl : LeftPart a a
  | binary {op : InfixOp} {l : Phrase} {m : Mark} {r : Phrase} (h : LeftPart a l) :
      LeftPart a (.binary op l m r)
  | postfixed {op : PostfixOp} {c : Phrase} {m : Mark} (h : LeftPart a c) :
      LeftPart a (.postfixed op c m)

variable {a c : Phrase}

theorem LeftPart.wellBound (h : LeftPart a c) (hw : c.WellBound) : a.WellBound := by
  induction h with
  | refl => exact hw
  | binary _ ih => exact ih hw.1
  | postfixed _ ih => exact ih hw.1

/-- The operators after a left part leave to it what its right edge leaves to them. -/
theorem LeftPart.closed (h : LeftPart a c) (hw : c.WellBound) {rest : List Token}
    (hc : ∀ q ∈ c.rightEdge, nextPower rest ≤ q) :
    ∃ rest', c.yield ++ rest = a.yield ++ rest' ∧ ∀ q ∈ a.rightEdge, nextPower rest' ≤ q := by
  induction h generalizing rest with
  | refl => exact ⟨rest, rfl, hc⟩
  | @binary op l m r _ ih =>
    obtain ⟨hwl, -, hright, -⟩ := hw
    have hl : ∀ q ∈ l.rightEdge, nextPower (m.token op.kind :: (r.yield ++ rest)) ≤ q := by
      simpa using hright
    obtain ⟨rest', heq, hclosed⟩ := ih hwl hl
    refine ⟨rest', ?_, hclosed⟩
    rw [← heq]
    simp [yield]
  | @postfixed op c m _ ih =>
    obtain ⟨hw, hright⟩ := hw
    have hl : ∀ q ∈ c.rightEdge, nextPower (m.token op.kind :: rest) ≤ q := by
      simpa using hright
    obtain ⟨rest', heq, hclosed⟩ := ih hw hl
    refine ⟨rest', ?_, hclosed⟩
    rw [← heq]
    simp [yield]

/-- The left parts of a phrase go down to an operand. -/
theorem exists_leftPart_operand (c : Phrase) : ∃ a, LeftPart a c ∧ a.leftEdge = [] := by
  induction c with
  | literal m => exact ⟨_, .refl, rfl⟩
  | group o c m _ => exact ⟨_, .refl, rfl⟩
  | prefixed op m c _ => exact ⟨_, .refl, rfl⟩
  | binary op l m r ihl _ =>
    obtain ⟨a, ha, hedge⟩ := ihl
    exact ⟨a, .binary ha, hedge⟩
  | postfixed op c m ih =>
    obtain ⟨a, ha, hedge⟩ := ih
    exact ⟨a, .postfixed ha, hedge⟩

/-- A proper left part is the left operand of another left part. -/
theorem LeftPart.eq_or_operand (h : LeftPart a c) :
    a = c ∨ (∃ op m r, LeftPart (.binary op a m r) c) ∨ ∃ op m, LeftPart (.postfixed op a m) c := by
  induction h with
  | refl => exact Or.inl rfl
  | binary _ ih =>
    rcases ih with rfl | ⟨op, m, r, h⟩ | ⟨op, m, h⟩
    · exact Or.inr (Or.inl ⟨_, _, _, .refl⟩)
    · exact Or.inr (Or.inl ⟨op, m, r, .binary h⟩)
    · exact Or.inr (Or.inr ⟨op, m, .binary h⟩)
  | postfixed _ ih =>
    rcases ih with rfl | ⟨op, m, r, h⟩ | ⟨op, m, h⟩
    · exact Or.inr (Or.inr ⟨_, _, .refl⟩)
    · exact Or.inr (Or.inl ⟨op, m, r, .postfixed h⟩)
    · exact Or.inr (Or.inr ⟨op, m, .postfixed h⟩)

/-- A proper left part is followed by an operator of the left edge. -/
theorem LeftPart.eq_or_edge (h : LeftPart a c) :
    a = c ∨ ∃ t more, c.yield = a.yield ++ t :: more ∧ t.kind.power ∈ c.leftEdge := by
  induction h with
  | refl => exact Or.inl rfl
  | @binary op l m r _ ih =>
    rcases ih with rfl | ⟨t, more, heq, hmem⟩
    · exact Or.inr ⟨m.token op.kind, r.yield, rfl, by simp [leftEdge]⟩
    · refine Or.inr ⟨t, more ++ m.token op.kind :: r.yield, ?_, List.mem_cons_of_mem _ hmem⟩
      simp [yield, heq]
  | @postfixed op c m _ ih =>
    rcases ih with rfl | ⟨t, more, heq, hmem⟩
    · exact Or.inr ⟨m.token op.kind, [], rfl, by simp [leftEdge]⟩
    · refine Or.inr ⟨t, more ++ [m.token op.kind], ?_, List.mem_cons_of_mem _ hmem⟩
      simp [yield, heq]

/-- A left part that is not followed by an operator that binds tighter than `min` is the whole. -/
theorem LeftPart.eq_of_stops (h : LeftPart a c) {min : Int} {rest rest' : List Token}
    (htighter : ∀ p ∈ c.leftEdge, min < (p : Int)) (heq : a.yield ++ rest = c.yield ++ rest')
    (hstops : (nextPower rest : Int) ≤ min) : a = c := by
  rcases h.eq_or_edge with hac | ⟨t, more, hc, hmem⟩
  · exact hac
  · rw [hc, List.append_assoc] at heq
    rw [List.append_cancel_left heq, List.cons_append, nextPower_cons] at hstops
    exact absurd (htighter _ hmem) (Int.not_lt.2 hstops)

/-! ## Operands and operators at the front -/

variable {min : Int} {rest : List Token}

/-- A phrase that fits starts with an operand, to which the tokens after it leave its right edge. -/
theorem Fits.exists_operand (h : c.Fits min rest) :
    ∃ a rest', LeftPart a c ∧ a.leftEdge = [] ∧ a.WellBound ∧
      (∀ q ∈ a.rightEdge, nextPower rest' ≤ q) ∧ c.yield ++ rest = a.yield ++ rest' := by
  obtain ⟨a, ha, hedge⟩ := exists_leftPart_operand c
  obtain ⟨rest', heq, hclosed⟩ := ha.closed h.wellBound h.closed
  exact ⟨a, rest', ha, hedge, ha.wellBound h.wellBound, hclosed, heq⟩

/-- The inner phrase of a group ends at the parenthesis, whatever it is. -/
theorem WellBound.group_fits {o m : Mark} {x : Phrase} (h : (group o x m).WellBound)
    (rest : List Token) : x.Fits 0 (m.token .rparen :: rest) where
  wellBound := h
  tighter p hp := by exact_mod_cast x.leftEdge_pos p hp
  closed q _ := Nat.zero_le q
  stops := Int.le_refl 0

/-- The operand of a sign ends where the whole phrase does. -/
theorem WellBound.prefixed_fits {op : PrefixOp} {m : Mark} {x : Phrase}
    (h : (prefixed op m x).WellBound)
    (hclosed : ∀ q ∈ (prefixed op m x).rightEdge, nextPower rest ≤ q) : x.Fits op.limit rest where
  wellBound := h.1
  tighter p hp := by exact_mod_cast h.2 p hp
  closed q hq := hclosed q (List.mem_cons_of_mem _ hq)
  stops := by exact_mod_cast hclosed _ List.mem_cons_self

/-- The right operand of an infix operator ends where the whole phrase does. -/
theorem WellBound.right_fits {op : InfixOp} {l : Phrase} {m : Mark} {r : Phrase}
    (h : (Phrase.binary op l m r).WellBound)
    (hclosed : ∀ q ∈ (Phrase.binary op l m r).rightEdge, nextPower rest ≤ q) :
    r.Fits op.limit rest where
  wellBound := h.2.1
  tighter p hp := by exact_mod_cast h.2.2.2 p hp
  closed q hq := hclosed q (List.mem_cons_of_mem _ hq)
  stops := by exact_mod_cast hclosed _ List.mem_cons_self

/-- Where a left part is followed by a token that binds tighter than the minimum, the phrase goes on
from the left part with that token as its operator. -/
theorem LeftPart.exists_operator (h : LeftPart a c) (hfits : c.Fits min rest) {t : Token}
    {ts : List Token} (ht : min < t.kind.power) (heq : a.yield ++ t :: ts = c.yield ++ rest) :
    (∃ (op : InfixOp) (m : Mark) (r : Phrase) (rest' : List Token),
      LeftPart (.binary op a m r) c ∧ t = m.token op.kind ∧ ts = r.yield ++ rest' ∧
        r.Fits op.limit rest') ∨
    ∃ (op : PostfixOp) (m : Mark), LeftPart (.postfixed op a m) c ∧ t = m.token op.kind := by
  rcases h.eq_or_operand with rfl | ⟨op, m, r, hn⟩ | ⟨op, m, hn⟩
  · -- The left part would be the whole, but the whole ends before a token that does not bind so.
    have hstops := hfits.stops
    rw [← List.append_cancel_left heq, nextPower_cons] at hstops
    exact absurd ht (Int.not_lt.2 hstops)
  · obtain ⟨rest', hrest, hclosed⟩ := hn.closed hfits.wellBound hfits.closed
    rw [hrest] at heq
    simp only [yield, List.append_assoc, List.cons_append] at heq
    obtain ⟨rfl, hts⟩ := List.cons.inj (List.append_cancel_left heq)
    exact Or.inl ⟨op, m, r, rest', hn, rfl, hts, (hn.wellBound hfits.wellBound).right_fits hclosed⟩
  · obtain ⟨rest', hrest, -⟩ := hn.closed hfits.wellBound hfits.closed
    rw [hrest] at heq
    simp only [yield, List.append_assoc, List.cons_append, List.nil_append] at heq
    obtain ⟨rfl, -⟩ := List.cons.inj (List.append_cancel_left heq)
    exact Or.inr ⟨op, m, hn, rfl⟩

/-! ## Phrases on the same tokens -/

/-- Of two phrases on the same tokens, this one is a left part of the other, if the other ends where
a minimum makes it end and this one holds only operators that bind tighter. -/
def IsFront (c : Phrase) : Prop :=
  ∀ ⦃c' : Phrase⦄ ⦃min : Int⦄ ⦃rest rest' : List Token⦄, c.WellBound →
    (∀ p ∈ c.leftEdge, min < (p : Int)) → (∀ q ∈ c.rightEdge, nextPower rest ≤ q) →
      c'.Fits min rest' → c.yield ++ rest = c'.yield ++ rest' → LeftPart c c'

/-- If both phrases end where the minimum makes them end, they are one. -/
theorem IsFront.eq {x x' : Phrase} {rest' : List Token} (hx : x.IsFront) (h : x.Fits min rest)
    (h' : x'.Fits min rest') (heq : x.yield ++ rest = x'.yield ++ rest') : x = x' := by
  have hpart : LeftPart x x' := hx h.wellBound h.tighter h.closed h' heq
  exact hpart.eq_of_stops h'.tighter heq h.stops

theorem isFront_literal (m : Mark) : (literal m).IsFront := by
  intro c' min rest rest' hw htighter hclosed hfits heq
  obtain ⟨a, rest'', ha, hedge, -, -, hrest⟩ := hfits.exists_operand
  rw [hrest] at heq
  cases a with
  | literal m' =>
    obtain ⟨-, rfl, -⟩ := Mark.token_cons_inj heq
    exact ha
  | group o i m' => cases (Mark.token_cons_inj heq).1
  | prefixed op m' x => exact absurd (Mark.token_cons_inj heq).1.symm op.kind_ne_number
  | binary op l m' r => cases hedge
  | postfixed op x m' => cases hedge

theorem isFront_group {x : Phrase} (o m : Mark) (hx : x.IsFront) : (group o x m).IsFront := by
  intro c' min rest rest' hw htighter hclosed hfits heq
  obtain ⟨a, rest'', ha, hedge, hw', -, hrest⟩ := hfits.exists_operand
  rw [hrest] at heq
  cases a with
  | group o' x' m' =>
    simp only [yield, List.cons_append, List.append_assoc, List.nil_append] at heq
    obtain ⟨-, rfl, hinner⟩ := Mark.token_cons_inj heq
    obtain rfl := hx.eq (hw.group_fits rest) (hw'.group_fits rest'') hinner
    -- What follows the one inner phrase is in both lists the parenthesis.
    obtain ⟨-, rfl, -⟩ := Mark.token_cons_inj (List.append_cancel_left hinner)
    exact ha
  | literal m' => cases (Mark.token_cons_inj heq).1
  | prefixed op m' x => exact absurd (Mark.token_cons_inj heq).1.symm op.kind_ne_lparen
  | binary op l m' r => cases hedge
  | postfixed op x m' => cases hedge

theorem isFront_prefixed {x : Phrase} (op : PrefixOp) (m : Mark) (hx : x.IsFront) :
    (prefixed op m x).IsFront := by
  intro c' min rest rest' hw htighter hclosed hfits heq
  obtain ⟨a, rest'', ha, hedge, hw', hclosed', hrest⟩ := hfits.exists_operand
  rw [hrest] at heq
  cases a with
  | prefixed op' m' x' =>
    obtain ⟨hk, rfl, hinner⟩ := Mark.token_cons_inj heq
    obtain rfl := PrefixOp.kind_inj hk
    obtain rfl := hx.eq (hw.prefixed_fits hclosed) (hw'.prefixed_fits hclosed') hinner
    exact ha
  | literal m' => exact absurd (Mark.token_cons_inj heq).1 op.kind_ne_number
  | group o i m' => exact absurd (Mark.token_cons_inj heq).1 op.kind_ne_lparen
  | binary op l m' r => cases hedge
  | postfixed op x m' => cases hedge

theorem isFront_binary {l r : Phrase} (op : InfixOp) (m : Mark) (hl : l.IsFront)
    (hr : r.IsFront) : (Phrase.binary op l m r).IsFront := by
  intro c' min rest rest' hw htighter hclosed hfits heq
  simp only [yield, List.append_assoc, List.cons_append] at heq
  have hpart : LeftPart l c' := hl hw.1 (fun p hp => htighter p (List.mem_cons_of_mem _ hp))
    (by simpa using hw.2.2.1) hfits heq
  have hpower : min < (m.token op.kind).kind.power := by simpa using htighter _ List.mem_cons_self
  rcases hpart.exists_operator hfits hpower heq with
    ⟨op', m', r', rest'', hn, ht, hinner, hfits'⟩ | ⟨op', m', -, ht⟩
  · obtain ⟨hk, rfl⟩ := Mark.token_inj ht
    obtain rfl := InfixOp.kind_inj hk
    obtain rfl := hr.eq (hw.right_fits hclosed) hfits' hinner
    exact hn
  · exact absurd (Mark.token_inj ht).1 (op.kind_ne_postfixed op')

theorem isFront_postfixed {x : Phrase} (op : PostfixOp) (m : Mark) (hx : x.IsFront) :
    (Phrase.postfixed op x m).IsFront := by
  intro c' min rest rest' hw htighter hclosed hfits heq
  simp only [yield, List.append_assoc, List.cons_append, List.nil_append] at heq
  have hpart : LeftPart x c' := hx hw.1 (fun p hp => htighter p (List.mem_cons_of_mem _ hp))
    (by simpa using hw.2) hfits heq
  have hpower : min < (m.token op.kind).kind.power := by simpa using htighter _ List.mem_cons_self
  rcases hpart.exists_operator hfits hpower heq with
    ⟨op', m', r', rest'', -, ht, -⟩ | ⟨op', m', hn, ht⟩
  · exact absurd (Mark.token_inj ht).1.symm (op'.kind_ne_postfixed op)
  · obtain ⟨-, rfl⟩ := Mark.token_inj ht
    obtain rfl := PostfixOp.eq op op'
    exact hn

/-- Every phrase is a left part of the phrases on its tokens that end where they must. The induction
is on the one phrase; the other is met anew at every operand. -/
theorem isFront (c : Phrase) : c.IsFront := by
  induction c with
  | literal m => exact isFront_literal m
  | group o x m ih => exact isFront_group o m ih
  | prefixed op m x ih => exact isFront_prefixed op m ih
  | binary op l m r ihl ihr => exact isFront_binary op m ihl ihr
  | postfixed op x m ih => exact isFront_postfixed op m ih

/-- Two phrases on the same tokens that end where the same minimum makes them end are one. -/
theorem Fits.unique {c c' : Phrase} {min : Int} {rest rest' : List Token} (h : c.Fits min rest)
    (h' : c'.Fits min rest') (heq : c.yield ++ rest = c'.yield ++ rest') :
    c = c' ∧ rest = rest' := by
  obtain rfl := c.isFront.eq h h' heq
  exact ⟨rfl, List.append_cancel_left heq⟩

/-- A minimum determines what stands at the front of the tokens: the phrase, its tree and where it
ends. -/
theorem Reading.unique {c c' : Phrase} {min : Int} {tree tree' : Expr}
    {ts rest rest' : List Token} (h : c.Reading min tree ts rest)
    (h' : c'.Reading min tree' ts rest') : c = c' ∧ tree = tree' ∧ rest = rest' := by
  obtain ⟨rfl, rfl⟩ := h.fits.unique h'.fits (h.yield_eq.symm.trans h'.yield_eq)
  exact ⟨rfl, Option.some.inj (h.erase_eq.symm.trans h'.erase_eq), rfl⟩

end ArithSyntax.Phrase
