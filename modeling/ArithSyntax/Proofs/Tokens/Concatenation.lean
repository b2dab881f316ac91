import ArithSyntax.Proofs.Tokens.Layout
import ArithSyntax.Proofs.Tokens.Relocation
import Mathlib.Data.List.Basic

/-!
# Texts one behind the other

The tokens of two texts that are put together are the tokens of the one and then those of the
other, with their locations moved; only where the texts meet between two digits, the last number of
the one and the first of the other are one number. If a text has a refused character, that is
refused first, whatever stands behind the text (`tokenize_append`).

A cursor that has more text behind its own (`Cursor.followedBy`) reads what it reads without it, as
long as it does not come to the end of its own text within a number (`Cursor.Reads.followedBy`).
From the end of its own text on it reads the other text, which is then a text that stands behind
another. What remains is the number at which the texts meet (`Cursor.nextToken_merged`).
-/

set_option autoImplicit false

namespace ArithSyntax

namespace Cursor

variable {c mid rest : Cursor} {ts front : List Token} {t last : Token} {e : LexError}
  {more run gap tail : List Char}

/-- The cursor, if there is more text behind its own. -/
def followedBy (c : Cursor) (more : List Char) : Cursor :=
  { c with unread := c.unread ++ more }

theorem ofSource_append (a b : String) :
    ofSource (a ++ b) = (ofSource a).followedBy b.toList := by
  simp [ofSource, followedBy]

theorem unread_followedBy (h : c.unread = run ++ tail) (more : List Char) :
    (c.followedBy more).unread = run ++ (tail ++ more) := by
  rw [followedBy, h, List.append_assoc]

/-- What stands behind a text does not matter while a run of the text is passed. -/
theorem past_followedBy (h : c.unread = run ++ tail) (more : List Char) :
    (c.followedBy more).past run = (c.past run).followedBy more := by
  simp [followedBy, past, h]

/-- At the end of its own text, a cursor stands at the start of the text behind it. -/
theorem followedBy_of_end (h : c.unread = []) (b : String) :
    c.followedBy b.toList = (ofSource b).behind c := by
  simp [followedBy, behind, ofSource, h]

/-! ## What is read of the first text -/

/-- A number that ends before the text does goes on with nothing; at the end of the text it does not
go on either, if the texts do not meet between two digits. -/
theorem endsNumber_followedBy (h : c.nextToken = .ok t rest) (ht : t.kind = .number)
    (hplace : rest.unread = [] → ¬ BetweenDigits c.unread more) :
    EndsNumber (rest.unread ++ more) := by
  obtain ⟨gap, start, -, hgap, -, hscan⟩ := c.exists_start
  rw [h] at hscan
  cases hscan with
  | atEnd hend => cases ht
  | spelled hch hk => exact absurd ht (Kind.ne_of_ofChar? hk).1
  | @number run tail hrun hne hdigits htail =>
    have hunread := unread_past hrun
    rw [hunread] at hplace ⊢
    cases tail with
    | cons ch tail => exact htail
    | nil =>
      -- The number ends where its text does, so a digit behind it would be the second of two.
      intro ch hch
      apply Bool.eq_false_iff.2
      intro hdigit
      refine hplace rfl ⟨run.getLast hne, ?_, ch, hch, ?_, ?_⟩
      · rw [hgap, hrun, List.append_nil]
        exact List.mem_getLast?_append_of_mem_getLast? (List.getLast?_eq_some_getLast hne)
      · exact (Literal.isDigit_iff_mem_digits _).1 (hdigits _ (List.getLast_mem hne))
      · exact (Literal.isDigit_iff_mem_digits ch).1 hdigit

/-- A token before the end is read as it is without the text behind, unless it is a number that goes
on there. -/
theorem nextToken_followedBy (h : c.nextToken = .ok t rest) (ht : t.kind ≠ .eof)
    (hplace : rest.unread = [] → ¬ BetweenDigits c.unread more) :
    (c.followedBy more).nextToken = .ok t (rest.followedBy more) := by
  have hends : t.kind = .number → EndsNumber (rest.unread ++ more) :=
    fun hnumber => endsNumber_followedBy h hnumber hplace
  obtain ⟨gap, start, rfl, hgap, hblank, hscan⟩ := c.exists_start
  rw [h] at hscan
  apply nextToken_eq_of_scans (unread_followedBy hgap more) hblank
  rw [past_followedBy hgap]
  generalize c.past gap = start at hscan
  cases hscan with
  | atEnd hend => exact absurd rfl ht
  | @number run tail hrun hne hdigits htail =>
    have htail' := hends rfl
    rw [unread_past hrun] at htail'
    rw [← past_followedBy hrun]
    exact .number (unread_followedBy hrun more) hne hdigits htail'
  | @spelled ch tail k hch hk =>
    have hone : start.unread = [ch] ++ tail := hch
    rw [← past_followedBy hone]
    exact .spelled (unread_followedBy hone more) hk

/-- A character is refused whatever stands behind it. -/
theorem nextToken_followedBy_of_error (h : c.nextToken = .error e rest) (more : List Char) :
    (c.followedBy more).nextToken = .error e (rest.followedBy more) := by
  obtain ⟨gap, ch, tail, hgap, hblank, rfl, hch, -, hscan⟩ := nextToken_error h
  apply nextToken_eq_of_scans (unread_followedBy hgap more) hblank
  rw [past_followedBy hgap]
  cases hscan with
  | @refused ch' tail' hch' hnotBlank hdigit hk =>
    obtain ⟨rfl, -⟩ := List.cons.inj (hch'.symm.trans hch)
    have hone : (c.past gap).unread = [ch'] ++ tail := hch
    exact .refused (unread_followedBy hone more) hnotBlank hdigit hk

/-- Tokens are read one after the other as they are without the text behind, unless the last of them
is a number that goes on there. -/
theorem Reads.followedBy (h : Reads c ts mid)
    (hplace : mid.unread = [] → ¬ BetweenDigits c.unread more) :
    Reads (c.followedBy more) ts (mid.followedBy more) := by
  induction h with
  | nil c => exact .nil _
  | @cons c mid rest t ts h ht hrest ih =>
    refine .cons (nextToken_followedBy h ht ?_) ht (ih ?_)
    · -- Where the first token ends the text, there are no others.
      intro hend
      have hsuffix := hrest.unread_suffix
      rw [hend] at hsuffix
      exact hplace (List.suffix_nil.1 hsuffix)
    · intro hend hbetween
      obtain ⟨run, hrun, -⟩ := exists_run_of_nextToken h
      apply hplace hend
      rw [hrun]
      exact hbetween.append_left run

/-- A character that is refused in the first text is refused first. -/
theorem tokens_followedBy_of_error (h : c.tokens = .error e rest) (more : List Char) :
    (c.followedBy more).tokens = .error e (rest.followedBy more) := by
  obtain ⟨ts, mid, hreads, hlast⟩ := exists_reads_of_tokens_error h
  obtain ⟨gap, ch, tail, hmid, -⟩ := nextToken_error hlast
  have hplace : mid.unread = [] → ¬ BetweenDigits c.unread more := by
    intro hend
    simp [hend] at hmid
  exact tokens_eq_iff.2
    (.refused (hreads.followedBy hplace) (nextToken_followedBy_of_error hlast more))

/-! ## The place where the texts meet -/

/-- Blanks in front of the tokens do not matter. -/
theorem nextToken_past_blanks (hgap : c.unread = gap ++ tail) (hblank : ∀ ch ∈ gap, ch ∈ blanks) :
    (c.past gap).nextToken = c.nextToken := by
  obtain ⟨gap', start, rfl, hgap', hblank', hscan⟩ := (c.past gap).exists_start
  rw [unread_past hgap] at hgap'
  -- The blanks that were passed and those that are left are one gap.
  rw [← past_append] at hscan hgap'
  rw [hgap', ← List.append_assoc] at hgap
  refine (nextToken_eq_of_scans hgap ?_ hscan).symm
  intro ch hch
  rcases List.mem_append.1 hch with hch | hch
  · exact hblank ch hch
  · exact hblank' ch hch

theorem tokens_past_blanks (hgap : c.unread = gap ++ tail) (hblank : ∀ ch ∈ gap, ch ∈ blanks) :
    (c.past gap).tokens = c.tokens := by
  rw [tokens_eq, tokens_eq c, nextToken_past_blanks hgap hblank]

/-- Where nothing but the end of the first text is next, the second text is. -/
theorem tokens_followedBy_of_eof (h : c.nextToken = .ok t rest) (ht : t.kind = .eof) (b : String) :
    (c.followedBy b.toList).tokens = ((ofSource b).behind rest).tokens := by
  obtain ⟨hblank, rfl, hend, -⟩ := nextToken_eof h ht
  have hgap : c.unread = c.unread ++ [] := (List.append_nil _).symm
  have hgap' : (c.followedBy b.toList).unread = c.unread ++ b.toList := rfl
  rw [← tokens_past_blanks hgap' hblank, past_followedBy hgap, followedBy_of_end hend]

/-- If the texts do not meet between two digits, the tokens of the one come before all tokens of the
other. -/
theorem tokens_followedBy (h : Reads c front mid) (hlast : mid.nextToken = .ok last rest)
    (hkind : last.kind = .eof) (b : String) (hplace : ¬ BetweenDigits c.unread b.toList) :
    (c.followedBy b.toList).tokens = prepend front ((ofSource b).behind rest).tokens := by
  rw [(h.followedBy fun _ => hplace).tokens_prepend, tokens_followedBy_of_eof hlast hkind]

/-- The last token before the end is a number, if the text ends with it and with a digit. -/
theorem kind_eq_number_of_getLast? (h : c.nextToken = .ok t rest) (ht : t.kind ≠ .eof)
    (hend : rest.unread = []) {l : Char} (hl : l ∈ c.unread.getLast?) (hdigit : l.isDigit = true) :
    t.kind = .number := by
  obtain ⟨gap, start, -, hgap, -, hscan⟩ := c.exists_start
  rw [h] at hscan
  cases hscan with
  | atEnd hnil => exact absurd rfl ht
  | number hrun hne hdigits htail => rfl
  | @spelled ch tail k hch hk =>
    -- The one character that was read would be the digit.
    have hone : start.unread = [ch] ++ tail := hch
    rw [unread_past hone] at hend
    rw [hgap, hch, hend, List.getLast?_concat, Option.mem_def] at hl
    obtain rfl := Option.some.inj hl
    rw [(Kind.spelling?_cases (Kind.spelling?_of_ofChar? hk)).2] at hdigit
    cases hdigit

/-- A text that ends with a digit ends with a number, and there is nothing behind it. -/
theorem Reads.endsInNumber (h : Reads c front mid) (hlast : mid.nextToken = .ok last rest)
    (hkind : last.kind = .eof) {l : Char} (hl : l ∈ c.unread.getLast?) (hdigit : l.isDigit = true) :
    rest = mid ∧ mid.unread = [] ∧ ∃ before t start, front = before ++ [t] ∧ t.kind = .number ∧
      Reads c before start ∧ start.nextToken = .ok t mid ∧ start.unread ≠ [] := by
  obtain ⟨hblank, hrest, -, -⟩ := nextToken_eof hlast hkind
  have hlastOf : ∀ c' : Cursor, c'.unread <:+ c.unread → c'.unread ≠ [] →
      l ∈ c'.unread.getLast? := by
    rintro c' ⟨run, hrun⟩ hne
    rwa [← hrun, Option.mem_def, List.getLast?_append_of_ne_nil _ hne] at hl
  -- Behind the tokens stand only blanks, and the text does not end with one.
  have hmid : mid.unread = [] := by
    by_contra hne
    have hmem := List.mem_of_getLast? (hlastOf mid h.unread_suffix hne)
    exact notMem_blanks_of_isDigit hdigit (hblank l hmem)
  rw [hmid, past_nil] at hrest
  have hne : front ≠ [] := by
    rintro rfl
    cases h
    rw [hmid] at hl
    cases hl
  obtain ⟨before, t, start, rfl, hbefore, ht, hnotEnd⟩ := h.exists_last hne
  have hstart := unread_ne_nil_of_nextToken ht hnotEnd
  have hl' := hlastOf start hbefore.unread_suffix hstart
  exact ⟨hrest, hmid, before, t, start, rfl, kind_eq_number_of_getLast? ht hnotEnd hmid hl' hdigit,
    hbefore, ht, hstart⟩

/-- A text that starts with a digit starts with a longest run of digits. -/
theorem exists_digits_append {text : List Char} {r : Char} (hr : r ∈ text.head?)
    (hdigit : r.isDigit = true) :
    ∃ run tail, text = run ++ tail ∧ run ≠ [] ∧ (∀ ch ∈ run, ch.isDigit = true) ∧
      EndsNumber tail := by
  refine ⟨text.takeWhile Char.isDigit, text.dropWhile Char.isDigit,
    List.takeWhile_append_dropWhile.symm, ?_, fun ch hch => List.mem_takeWhile_imp hch,
    head?_dropWhile⟩
  obtain ⟨tail, rfl⟩ := List.head?_eq_some_iff.1 (Option.mem_def.1 hr)
  simp [hdigit]

/-- A number at the end of its text goes on with the number at the start of the text behind it. -/
theorem nextToken_merged (h : c.nextToken = .ok t rest) (ht : t.kind = .number)
    (hend : rest.unread = []) {b : String} {r : Char} (hr : r ∈ b.toList.head?)
    (hdigit : r.isDigit = true) :
    ∃ u run, u.kind = .number ∧ (ofSource b).nextToken = .ok u ((ofSource b).past run) ∧
      (c.followedBy b.toList).nextToken =
        .ok ⟨.number, t.text ++ u.text, t.location⟩ (((ofSource b).past run).behind rest) := by
  obtain ⟨run, tail, hb, hrunNe, hrunAll, hrunEnds⟩ := exists_digits_append hr hdigit
  have hrun : (ofSource b).unread = run ++ tail := hb
  obtain ⟨gap, start, rfl, hgap, hblank, hscan⟩ := c.exists_start
  rw [h] at hscan
  have hunread := unread_followedBy hgap b.toList
  have hstart := past_followedBy hgap b.toList
  generalize c.past gap = start at hscan hunread hstart
  cases hscan with
  | atEnd hend => cases ht
  | spelled hch hk => exact absurd ht (Kind.ne_of_ofChar? hk).1
  | @number digits nothing hdigits hne hall hnothing =>
    rw [unread_past hdigits] at hend
    subst hend
    refine ⟨_, run, rfl, nextToken_eq_of_scans_here (.number hrun hrunNe hrunAll hrunEnds), ?_⟩
    apply nextToken_eq_of_scans hunread hblank
    rw [hstart]
    -- Both runs together are a longest run of digits.
    have hmerged : (start.followedBy b.toList).unread = (digits ++ run) ++ tail := by
      rw [unread_followedBy hdigits, List.nil_append, hb, List.append_assoc]
    have hmergedAll : ∀ ch ∈ digits ++ run, ch.isDigit = true := by
      intro ch hch
      rcases List.mem_append.1 hch with hch | hch
      · exact hall ch hch
      · exact hrunAll ch hch
    have hscan := Scans.number hmerged (by simp [hne]) hmergedAll hrunEnds
    have hplace : (start.followedBy b.toList).past (digits ++ run) =
        ((ofSource b).past run).behind (start.past digits) := by
      rw [past_append, past_followedBy hdigits, followedBy_of_end (unread_past hdigits),
        past_behind (Int.le_refl 1)]
    rw [hplace, String.ofList_append] at hscan
    exact hscan

end Cursor

/-! ## Whole texts -/

section Texts

open Cursor

variable {a b : String} {ts us : List Token} {e : LexError}

/-- What is refused in a text is refused whatever stands behind the text. -/
theorem tokenize_append_of_error (h : tokenize a = .error e) (b : String) :
    tokenize (a ++ b) = .error e := by
  cases htokens : (ofSource a).tokens with
  | ok ts rest =>
    rw [tokenize, htokens] at h
    cases h
  | error e' rest =>
    rw [tokenize, htokens] at h
    cases h
    rw [tokenize, ofSource_append, tokens_followedBy_of_error htokens]
    rfl

/-- The tokens of a text are read one after the other, up to an end token that has the location of
the place where the reading ends. -/
theorem exists_reads_of_tokenize (h : tokenize a = .ok ts) :
    ∃ front last mid rest, ts = front ++ [last] ∧ Reads (ofSource a) front mid ∧
      mid.nextToken = .ok last rest ∧ last.kind = .eof ∧ last.location = rest.location := by
  cases htokens : (ofSource a).tokens with
  | error e rest =>
    rw [tokenize, htokens] at h
    cases h
  | ok ts' rest =>
    rw [tokenize, htokens] at h
    cases h
    obtain ⟨front, last, mid, rfl, hreads, hlast, hkind⟩ := exists_reads_of_tokens htokens
    obtain ⟨-, -, -, hend⟩ := nextToken_eof hlast hkind
    exact ⟨front, last, mid, rest, rfl, hreads, hlast, hkind, by rw [hend]⟩

section Meeting

variable {front : List Token} {last : Token} {mid rest : Cursor}

/-- Where the texts do not meet between two digits, the other text is read as a whole. -/
theorem tokenize_append_apart (h : Reads (ofSource a) front mid)
    (hlast : mid.nextToken = .ok last rest) (hkind : last.kind = .eof)
    (hplace : ¬ BetweenDigits a.toList b.toList) :
    tokenize (a ++ b) = (relocated rest.location (tokenize b)).map (front ++ ·) := by
  rw [tokenize, ofSource_append, tokens_followedBy h hlast hkind b hplace, outcome_prepend,
    outcome_tokens_behind (Int.le_refl 1), tokenize]

/-- Where the texts meet between two digits, the other text is read as a whole but for its first
token, which is a part of the last one of the first text. -/
theorem tokenize_append_merged (h : Reads (ofSource a) front mid)
    (hlast : mid.nextToken = .ok last rest) (hkind : last.kind = .eof)
    (hplace : BetweenDigits a.toList b.toList) :
    ∃ before t u result, front = before ++ [t] ∧ t.kind = .number ∧ u.kind = .number ∧
      tokenize b = result.map ([u] ++ ·) ∧
      tokenize (a ++ b) = (relocated rest.location result).map
        ((before ++ [⟨.number, t.text ++ u.text, t.location⟩]) ++ ·) := by
  obtain ⟨l, hl, r, hr, hdigits⟩ := hplace
  rw [← Literal.isDigit_iff_mem_digits, ← Literal.isDigit_iff_mem_digits] at hdigits
  obtain ⟨rfl, hend, before, t, start, rfl, ht, hbefore, hnext, hstart⟩ :=
    h.endsInNumber hlast hkind hl hdigits.1
  obtain ⟨u, run, hu, hfirst, hmerged⟩ := nextToken_merged hnext ht hend hr hdigits.2
  -- The tokens before the last one do not come to the place where the texts meet.
  have hreads := (hbefore.followedBy fun hnil => absurd hnil hstart).trans (.single hmerged nofun)
  have hline : 1 ≤ ((ofSource b).past run).location.line :=
    Location.one_le_line_after (Int.le_refl 1) run
  have hnotEnd : u.kind ≠ .eof := by
    rw [hu]
    nofun
  refine ⟨before, t, u, outcome ((ofSource b).past run).tokens, rfl, ht, hu, ?_, ?_⟩
  · rw [tokenize, (Reads.single hfirst hnotEnd).tokens_prepend, outcome_prepend]
  · rw [tokenize, ofSource_append, hreads.tokens_prepend, outcome_prepend,
      outcome_tokens_behind hline]

end Meeting

/-- The tokens of two texts that are put together. If the first text has a character that is refused,
it is refused there too, at the same location. Otherwise the first text ends at the location of its
end token, and the second text is relocated behind that: so is the character that is refused in it,
if there is one. If there is none, the tokens of the first text without the end token come before
the relocated tokens of the second; only if the texts meet between two digits, the last token of the
first and the first token of the second, which are numbers, are one number, at the location of the
former and with the text of both. -/
theorem tokenize_append (a b : String) :
    (∀ e, tokenize a = .error e → tokenize (a ++ b) = .error e) ∧
    ∀ ts, tokenize a = .ok ts → ∃ front last, ts = front ++ [last] ∧ last.kind = .eof ∧
      (∀ e, tokenize b = .error e → tokenize (a ++ b) = .error (e.behind last.location)) ∧
      ∀ us, tokenize b = .ok us →
        (¬ BetweenDigits a.toList b.toList →
          tokenize (a ++ b) = .ok (front ++ us.map fun u => u.behind last.location)) ∧
        (BetweenDigits a.toList b.toList → ∃ before t u behind,
          front = before ++ [t] ∧ t.kind = .number ∧ us = u :: behind ∧ u.kind = .number ∧
          tokenize (a ++ b) = .ok (before ++ ⟨.number, t.text ++ u.text, t.location⟩ ::
            behind.map fun u => u.behind last.location)) := by
  refine ⟨fun e h => tokenize_append_of_error h b, ?_⟩
  intro ts hts
  obtain ⟨front, last, mid, rest, rfl, hreads, hlast, hkind, hlocation⟩ :=
    exists_reads_of_tokenize hts
  refine ⟨front, last, rfl, hkind, ?_⟩
  rw [hlocation]
  by_cases hplace : BetweenDigits a.toList b.toList
  · obtain ⟨before, t, u, result, rfl, ht, hu, hb, hab⟩ :=
      tokenize_append_merged hreads hlast hkind hplace
    rw [hb, hab]
    cases result with
    | error e =>
      refine ⟨?_, nofun⟩
      intro e' he
      cases he
      rfl
    | ok behind =>
      refine ⟨nofun, ?_⟩
      intro us hus
      cases hus
      refine ⟨fun hapart => absurd hplace hapart, fun _ => ?_⟩
      refine ⟨before, t, u, behind, rfl, ht, rfl, hu, ?_⟩
      simp [relocated, Except.map]
  · rw [tokenize_append_apart hreads hlast hkind hplace]
    constructor
    · intro e he
      rw [he]
      rfl
    · intro us hus
      refine ⟨fun _ => ?_, fun hbetween => absurd hbetween hplace⟩
      rw [hus]
      rfl

/-- Behind a text that ends with `2` in its second line, `3 +` goes on with the number, and its end
token has a location in that line; a character that is refused in the second line of the other text
is refused in the third line of both. What is refused in the first text stays where it is. -/
theorem tokenize_append_cutNumber :
    let a := "1\n2"
    (tokenize a = .ok [⟨.number, "1", ⟨1, 1⟩⟩, ⟨.number, "2", ⟨2, 1⟩⟩, ⟨.eof, "", ⟨2, 2⟩⟩] ∧
      tokenize "3 +" = .ok [⟨.number, "3", ⟨1, 1⟩⟩, ⟨.plus, "+", ⟨1, 3⟩⟩, ⟨.eof, "", ⟨1, 4⟩⟩] ∧
      BetweenDigits a.toList "3 +".toList ∧
      tokenize (a ++ "3 +") = .ok [⟨.number, "1", ⟨1, 1⟩⟩, ⟨.number, "23", ⟨2, 1⟩⟩,
        ⟨.plus, "+", ⟨2, 4⟩⟩, ⟨.eof, "", ⟨2, 5⟩⟩]) ∧
    (tokenize "+\n ?" = .error ⟨"?", ⟨2, 2⟩⟩ ∧
      tokenize (a ++ "+\n ?") = .error ⟨"?", ⟨3, 2⟩⟩) ∧
    tokenize "+?" = .error ⟨"?", ⟨1, 2⟩⟩ ∧ tokenize ("+?" ++ a) = .error ⟨"?", ⟨1, 2⟩⟩ := by
  intro a
  have ha : tokenize a =
      .ok [⟨.number, "1", ⟨1, 1⟩⟩, ⟨.number, "2", ⟨2, 1⟩⟩, ⟨.eof, "", ⟨2, 2⟩⟩] := by
    decide +kernel
  have hb : tokenize "3 +" =
      .ok [⟨.number, "3", ⟨1, 1⟩⟩, ⟨.plus, "+", ⟨1, 3⟩⟩, ⟨.eof, "", ⟨1, 4⟩⟩] := by
    decide +kernel
  have hrefused : tokenize "+\n ?" = .error ⟨"?", ⟨2, 2⟩⟩ := by decide +kernel
  have hfirst : tokenize "+?" = .error ⟨"?", ⟨1, 2⟩⟩ := by decide +kernel
  have hplace : BetweenDigits a.toList "3 +".toList :=
    ⟨'2', by decide +kernel, '3', by decide +kernel, by decide, by decide⟩
  refine ⟨⟨ha, hb, hplace, ?_⟩, ⟨hrefused, ?_⟩, hfirst, (tokenize_append "+?" a).1 _ hfirst⟩
  · obtain ⟨front, last, hts, -, -, hjoin⟩ := (tokenize_append a "3 +").2 _ ha
    obtain ⟨before, t, u, behind, rfl, -, hus, -, hab⟩ := (hjoin _ hb).2 hplace
    cases hus
    change [_] ++ [_] ++ [_] = before ++ [t] ++ [last] at hts
    obtain ⟨hfront, hlast⟩ := List.append_inj' hts rfl
    cases hlast
    obtain ⟨hbefore, ht⟩ := List.append_inj' hfront rfl
    cases hbefore
    cases ht
    exact hab
  · obtain ⟨front, last, hts, -, herror, -⟩ := (tokenize_append a "+\n ?").2 _ ha
    change [_, _] ++ [_] = front ++ [last] at hts
    obtain ⟨-, hlast⟩ := List.append_inj' hts rfl
    cases hlast
    exact herror _ hrefused

end Texts

end ArithSyntax
