import ArithSyntax.Proofs.Climb.Relabel
import ArithSyntax.Proofs.Climb.Texts
import ArithSyntax.Proofs.Tokens.NextToken
import Mathlib.Logic.Relation

/-!
# Layout does not matter

Blanks may be put into a text and taken out of it anywhere but between two digits: the text is then
read as the same tree, or refused for the same reason at the same token or character, and only
locations differ (`parseSource_layout`).

Two texts of which one has a blank more are read token by token, and `BlankInserted` is what the
unread texts keep to, until the blank has been skipped (`Cursor.nextToken_layout`). Between two
digits the blank would end a number that goes on without it, and there the argument fails, as does
the statement. The parser then sees the same tokens but for their locations, at which it does not
look (`Parses.relabel`).
-/

set_option autoImplicit false

namespace ArithSyntax

/-! ## What is left when locations are forgotten -/

/-- The token without its location. -/
def Token.unlocated (t : Token) : Token :=
  { t with location := .unknown }

/-- The refused character without its location. -/
def LexError.unlocated (e : LexError) : LexError :=
  { e with location := .unknown }

/-- The fault with every location in it forgotten. -/
def Fault.unlocated : Fault → Fault
  | lexical e => lexical e.unlocated
  | setup e => setup e
  | failure e => failure (e.relabel Token.unlocated)

/-! ## Texts with a blank more -/

/-- The two texts meet between two digits. -/
def BetweenDigits (before after : List Char) : Prop :=
  ∃ l ∈ before.getLast?, ∃ r ∈ after.head?, l ∈ Literal.digits ∧ r ∈ Literal.digits

/-- The second text is the first with one blank put in, at a place that is not between two
digits. -/
inductive BlankInserted : List Char → List Char → Prop
  | insert (before after : List Char) {b : Char} (hb : b ∈ blanks)
      (hplace : ¬ BetweenDigits before after) :
      BlankInserted (before ++ after) (before ++ b :: after)

/-- An edit of a text's layout puts one blank in or takes one out. -/
def LayoutEdit (source source' : String) : Prop :=
  BlankInserted source.toList source'.toList ∨ BlankInserted source'.toList source.toList

variable {before after text text' gap tail : List Char} {ch b : Char}

theorem BetweenDigits.append_left (h : BetweenDigits before after) (more : List Char) :
    BetweenDigits (more ++ before) after := by
  obtain ⟨l, hl, r, hr, hdigits⟩ := h
  refine ⟨l, ?_, r, hr, hdigits⟩
  rw [Option.mem_def] at hl ⊢
  rw [List.getLast?_append, hl]
  rfl

/-- One of the two texts has a blank more than the other, behind its first character. -/
inductive InsertedInside : List Char → List Char → Prop
  | insert (ch : Char) (before after : List Char) {b : Char} (hb : b ∈ blanks)
      (hplace : ¬ BetweenDigits (ch :: before) after) :
      InsertedInside (ch :: (before ++ after)) (ch :: (before ++ b :: after))

open Relation (ReflGen)

/-- Behind the blanks at their front, texts of which one has a blank more are the same, or the blank
stands inside of them. -/
theorem behind_blanks (h : ReflGen BlankInserted (gap ++ tail) text')
    (hgap : ∀ ch ∈ gap, ch ∈ blanks) :
    ∃ gap' tail', text' = gap' ++ tail' ∧ (∀ ch ∈ gap', ch ∈ blanks) ∧
      ReflGen InsertedInside tail tail' := by
  generalize htext : gap ++ tail = text at h
  cases h with
  | refl => exact ⟨gap, tail, htext.symm, hgap, .refl⟩
  | single h =>
    cases h with
    | @insert before after b hb hplace =>
      -- The place lies behind the gap, at its end, or within it.
      rcases List.append_eq_append_iff.1 htext with ⟨m, rfl, rfl⟩ | ⟨m, rfl, rfl⟩
      · cases m with
        | nil =>
          refine ⟨gap ++ [b], after, by simp, ?_, .refl⟩
          simpa [or_imp, forall_and, hb] using hgap
        | cons ch m =>
          refine ⟨gap, ch :: (m ++ b :: after), by simp, hgap, .single ?_⟩
          exact .insert ch m after hb fun h => hplace (h.append_left gap)
      · refine ⟨before ++ b :: m, tail, by simp, ?_, .refl⟩
        intro ch hch
        rcases List.mem_append.1 hch with hch | hch
        · exact hgap ch (List.mem_append_left m hch)
        · rcases List.mem_cons.1 hch with rfl | hch
          · exact hb
          · exact hgap ch (List.mem_append_right before hch)

/-- Nothing stands inside of an empty text. -/
theorem eq_nil_of_inside (h : ReflGen InsertedInside [] tail) : tail = [] := by
  cases h with
  | refl => rfl
  | single h => cases h

/-- Behind the first character, the blank stands anywhere. -/
theorem exists_cons_of_inside (h : ReflGen InsertedInside (ch :: tail) text') :
    ∃ tail', text' = ch :: tail' ∧ ReflGen BlankInserted tail tail' := by
  cases h with
  | refl => exact ⟨tail, rfl, .refl⟩
  | single h =>
    cases h with
    | @insert _ before after b hb hplace =>
      exact ⟨before ++ b :: after, rfl,
        .single (.insert before after hb fun h => hplace (h.append_left [ch]))⟩

/-- The blank does not stand inside of a number, nor does a number go on behind it. -/
theorem exists_append_of_inside {run : List Char}
    (h : ReflGen InsertedInside (run ++ tail) text') (hne : run ≠ [])
    (hrun : ∀ ch ∈ run, ch.isDigit = true) (htail : EndsNumber tail) :
    ∃ tail', text' = run ++ tail' ∧ EndsNumber tail' ∧ ReflGen BlankInserted tail tail' := by
  generalize htext : run ++ tail = text at h
  cases h with
  | refl => exact ⟨tail, htext.symm, htail, .refl⟩
  | single h =>
    cases h with
    | @insert ch before after b hb hplace =>
      -- A blank ends the run as well as what stood there before.
      have hends : EndsNumber (b :: after) := by
        intro c hc
        cases hc
        exact Bool.eq_false_iff.2 fun hdigit => notMem_blanks_of_isDigit hdigit hb
      have hsplit : run ++ tail = (ch :: before) ++ after := htext
      rcases List.append_eq_append_iff.1 hsplit with ⟨m, hm, rfl⟩ | ⟨m, rfl, rfl⟩
      · refine ⟨m ++ b :: after, ?_, ?_, .single (.insert m after hb fun h => ?_)⟩
        · rw [← List.append_assoc, ← hm, List.cons_append]
        · cases m with
          | nil => exact hends
          | cons c m => exact htail
        · rw [hm] at hplace
          exact hplace (h.append_left run)
      · cases m with
        | nil =>
          have hfree : ¬ BetweenDigits [] tail := by simp [BetweenDigits]
          exact ⟨b :: tail, by simp, hends, .single (.insert [] tail hb hfree)⟩
        | cons c m =>
          -- The blank would stand between two digits of the run.
          refine absurd ⟨(ch :: before).getLast (by simp), List.getLast?_eq_some_getLast _, c, rfl,
            ?_, ?_⟩ hplace
          · rw [← Literal.isDigit_iff_mem_digits]
            exact hrun _ (List.mem_append_left _ (List.getLast_mem _))
          · rw [← Literal.isDigit_iff_mem_digits]
            exact hrun c (by simp)

/-! ## Reading both texts -/

/-- Two answers with the same token or the same refused character, but for locations. Where a token
was read, one of the texts left may have a blank more. -/
inductive ScansAlike : Scanned Token → Scanned Token → Prop
  | ok {t t' : Token} {rest rest' : Cursor} (ht : t.unlocated = t'.unlocated)
      (hrest : ReflGen BlankInserted rest.unread rest'.unread) :
      ScansAlike (.ok t rest) (.ok t' rest')
  | error {e e' : LexError} {rest rest' : Cursor} (he : e.unlocated = e'.unlocated) :
      ScansAlike (.error e rest) (.error e' rest')

namespace Cursor

variable {c c' : Cursor}

/-- A blank more in the text, which is not between two digits, changes nothing of the next token but
its location. -/
theorem nextToken_layout (h : ReflGen BlankInserted c.unread c'.unread) :
    ScansAlike c.nextToken c'.nextToken := by
  obtain ⟨gap, tail, hgap, hblank, -, hscan⟩ := c.nextToken_scans
  rw [hgap] at h
  obtain ⟨gap', tail', hgap', hblank', hinside⟩ := behind_blanks h hblank
  have hunread := unread_past hgap
  have hunread' := unread_past hgap'
  generalize c.past gap = start at hscan hunread
  generalize hresult : c.nextToken = result at hscan
  subst hunread
  cases hscan with
  | atEnd hend =>
    rw [hend] at hinside
    obtain rfl := eq_nil_of_inside hinside
    rw [nextToken_eq_of_scans hgap' hblank' (.atEnd hunread')]
    refine .ok rfl ?_
    rw [hend, hunread']
  | @number run tail hrun hne hdigits htail =>
    rw [hrun] at hinside
    obtain ⟨rest', rfl, hends, hrest⟩ := exists_append_of_inside hinside hne hdigits htail
    rw [nextToken_eq_of_scans hgap' hblank' (.number hunread' hne hdigits hends)]
    refine .ok rfl ?_
    rw [unread_past hrun, unread_past hunread']
    exact hrest
  | @spelled ch tail k hch hk =>
    rw [hch] at hinside
    obtain ⟨rest', rfl, hrest⟩ := exists_cons_of_inside hinside
    rw [nextToken_eq_of_scans hgap' hblank' (.spelled hunread' hk)]
    refine .ok rfl ?_
    rw [past, past, hch, hunread']
    exact hrest
  | @refused ch tail hch hnotBlank hdigit hk =>
    rw [hch] at hinside
    obtain ⟨rest', rfl, hrest⟩ := exists_cons_of_inside hinside
    rw [nextToken_eq_of_scans hgap' hblank' (.refused hunread' hnotBlank hdigit hk)]
    exact .error rfl

/-- The tokens that were read without their locations, or the refused character without its own. -/
def lexemes : Scanned (List Token) → Except LexError (List Token)
  | .ok ts _ => .ok (ts.map Token.unlocated)
  | .error e _ => .error e.unlocated

/-- But for locations too, the tokens of a text are its next token and the tokens of the rest. -/
theorem lexemes_tokens (c : Cursor) : lexemes c.tokens =
    (match c.nextToken with
      | .error e _ => .error e.unlocated
      | .ok t rest =>
          if t.kind = .eof then .ok [t.unlocated]
          else (lexemes rest.tokens).map (t.unlocated :: ·)) := by
  rw [tokens_eq]
  cases c.nextToken with
  | error e rest => rfl
  | ok t rest =>
    by_cases hend : t.kind = .eof
    · simp only [if_pos hend]
      rfl
    · simp only [if_neg hend]
      cases rest.tokens <;> rfl

/-- A blank more in the text, which is not between two digits, changes nothing but locations. The
induction is on the number of unread characters of the text without the blank. -/
theorem tokens_layout (h : ReflGen BlankInserted c.unread c'.unread) :
    lexemes c.tokens = lexemes c'.tokens := by
  induction hn : c.unread.length using Nat.strong_induction_on generalizing c c' with
  | _ n ih =>
    subst hn
    have halike := nextToken_layout h
    rw [lexemes_tokens c, lexemes_tokens c']
    generalize hnext : c.nextToken = result at halike
    generalize c'.nextToken = result' at halike
    cases halike with
    | error he => exact congrArg Except.error he
    | @ok t t' rest rest' ht hrest =>
      have hkind : t.unlocated.kind = t'.unlocated.kind := by rw [ht]
      by_cases hend : t.kind = .eof
      · have hend' : t'.kind = .eof := hkind.symm.trans hend
        simp only [if_pos hend, if_pos hend', ht]
      · have hend' : t'.kind ≠ .eof := fun h => hend (hkind.trans h)
        simp only [if_neg hend, if_neg hend', ht,
          ih _ (nextToken_shortens hnext hend) hrest rfl]

end Cursor

/-! ## Parsing both texts -/

theorem Tables.ignores_unlocated (tables : Tables) : tables.Ignores Token.unlocated where
  kind_eq _ := rfl
  text_eq _ _ := rfl

/-- Tokens without their locations are parsed as they are with them. -/
theorem parseTokens_unlocated (ts : List Token) (limit : Int) :
    parseTokens (ts.map Token.unlocated) limit =
      (parseTokens ts limit).mapError Fault.unlocated := by
  have hf := Tables.standard.ignores_unlocated
  by_cases hlimit : 1 ≤ limit
  · by_cases heof : EndsWithEof ts
    · obtain ⟨out, rest, h, -⟩ := exists_parses .standard limit (.expression 0) 0 ts
      rw [parseTokens_eq heof hlimit h,
        parseTokens_eq ((EndsWithEof.relabel hf).2 heof) hlimit (h.relabel hf (by simp)),
        finished_relabel hf]
      cases finished out rest <;> rfl
    · have heof' : ¬ EndsWithEof (ts.map Token.unlocated) := (EndsWithEof.relabel hf).not.2 heof
      simp only [parseTokens, Parser.ofTokens, TokenStream.ofTokens?, heof, heof', dif_neg,
        not_false_eq_true]
      split <;> rfl
  · simp only [parseTokens, Parser.ofTokens, if_pos (Int.not_le.1 hlimit)]
    rfl

/-- What a text is read as depends, but for locations, on nothing but its tokens without theirs. -/
theorem parseSource_congr {source source' : String}
    (h : Cursor.lexemes (Cursor.ofSource source).tokens =
      Cursor.lexemes (Cursor.ofSource source').tokens) (limit : Int) :
    (parseSource source limit).mapError Fault.unlocated =
      (parseSource source' limit).mapError Fault.unlocated := by
  have hread : ∀ source : String, (parseSource source limit).mapError Fault.unlocated =
      match Cursor.lexemes (Cursor.ofSource source).tokens with
      | .error e => .error (.lexical e)
      | .ok ts => parseTokens ts limit := by
    intro source
    cases htokens : (Cursor.ofSource source).tokens with
    | error e rest =>
      have hts : tokenize source = .error e := by rw [tokenize, htokens]; rfl
      rw [parseSource_of_error hts]
      rfl
    | ok ts rest =>
      have hts : tokenize source = .ok ts := by rw [tokenize, htokens]; rfl
      rw [parseSource_of_tokenize hts]
      exact (parseTokens_unlocated ts limit).symm
  rw [hread, hread, h]

/-- Layout does not matter. Any number of edits, each of which puts one blank in or takes one out at
a place that is not between two digits, leaves a text that is read as the same tree under every
limit, or for which the same fault is reported: a fault of the same kind, with a token of the same
kind and text, and with the same character, limit and reason. -/
theorem parseSource_layout {source source' : String}
    (h : Relation.ReflTransGen LayoutEdit source source') (limit : Int) :
    (parseSource source' limit).mapError Fault.unlocated =
      (parseSource source limit).mapError Fault.unlocated := by
  induction h with
  | refl => rfl
  | tail _ hedit ih =>
    rw [← ih]
    rcases hedit with hinserted | hdeleted
    · exact (parseSource_congr (Cursor.tokens_layout (.single hinserted)) limit).symm
    · exact parseSource_congr (Cursor.tokens_layout (.single hdeleted)) limit

/-- `(1 +` and `( 1+` with a tab behind it lack the same operand, at different places. -/
theorem parseSource_layout_unfinished :
    Relation.ReflTransGen LayoutEdit "(1 +" "( 1+\t" ∧
      (parseSource "( 1+\t" 256).mapError Fault.unlocated =
        (parseSource "(1 +" 256).mapError Fault.unlocated ∧
      parseSource "(1 +" 256 =
        .error (.failure (.parsing (.unexpectedPrefix (some ⟨.eof, "", ⟨1, 5⟩⟩)))) ∧
      parseSource "( 1+\t" 256 =
        .error (.failure (.parsing (.unexpectedPrefix (some ⟨.eof, "", ⟨1, 6⟩⟩)))) := by
  have hfirst : LayoutEdit "(1 +" "( 1 +" :=
    .inl (.insert ['('] ['1', ' ', '+'] (by decide) (by simp [BetweenDigits, Literal.digits]))
  have hsecond : LayoutEdit "( 1 +" "( 1+" :=
    .inr (.insert ['(', ' ', '1'] ['+'] (by decide) (by simp [BetweenDigits, Literal.digits]))
  have hthird : LayoutEdit "( 1+" "( 1+\t" :=
    .inl (.insert ['(', ' ', '1', '+'] [] (by decide) (by simp [BetweenDigits]))
  have hedits : Relation.ReflTransGen LayoutEdit "(1 +" "( 1+\t" :=
    .tail (.tail (.single hfirst) hsecond) hthird
  exact ⟨hedits, parseSource_layout hedits 256, by decide +kernel, by decide +kernel⟩

/-- Between two digits a blank makes two numbers of one. -/
example : parseSource "12" 256 = .ok (.literal 12) ∧
    parseSource "1 2" 256 =
      .error (.failure (.parsing (.trailing ⟨.number, "2", ⟨1, 3⟩⟩))) := by
  decide +kernel

end ArithSyntax
