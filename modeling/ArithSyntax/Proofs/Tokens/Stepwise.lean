import ArithSyntax.Proofs.Tokens.NextToken

/-!
# Reading one token after the other

`Cursor.Reads` is the reading of some tokens, one after the other, before the end is read; two such
readings compose. It is how all tokens are read: they are the tokens of a reading and then the end
token, or they come to nothing because a reading meets a character that is refused
(`Cursor.tokens_eq_iff`). The end token and a refused character do not move the cursor that stands
at them, so both are met again from there.
-/

set_option autoImplicit false

namespace ArithSyntax

namespace Cursor

variable {c mid rest : Cursor} {ts ts' : List Token} {t : Token} {e : LexError}

/-! ## What is read again -/

/-- The next token is read by one of the rules, at a place behind blanks. -/
theorem exists_start (c : Cursor) :
    ∃ gap start, start = c.past gap ∧ c.unread = gap ++ start.unread ∧ (∀ ch ∈ gap, ch ∈ blanks) ∧
      Scans start c.nextToken := by
  obtain ⟨gap, tail, hgap, hblank, -, hscan⟩ := c.nextToken_scans
  have hunread := unread_past hgap
  exact ⟨gap, c.past gap, rfl, by rw [hunread, hgap], hblank, hscan⟩

/-- At the end of the text stands an end token. -/
theorem nextToken_end (h : c.unread = []) :
    c.nextToken = .ok ⟨.eof, "", c.location⟩ c :=
  nextToken_eq_of_scans_here (.atEnd h)

/-- The end is read behind nothing but blanks, and it is read at the end of the text. -/
theorem nextToken_eof (h : c.nextToken = .ok t rest) (ht : t.kind = .eof) :
    (∀ ch ∈ c.unread, ch ∈ blanks) ∧ rest = c.past c.unread ∧ rest.unread = [] ∧
      t = ⟨.eof, "", rest.location⟩ := by
  obtain ⟨gap, start, hstart, hgap, hblank, hscan⟩ := c.exists_start
  rw [h] at hscan
  cases hscan with
  | atEnd hend =>
    rw [hend, List.append_nil] at hgap
    rw [hgap]
    exact ⟨hblank, hstart, hend, rfl⟩
  | number hrun hne hdigits htail => cases ht
  | spelled hch hk => exact absurd ht (Kind.ne_of_ofChar? hk).2

/-- The end is read again and again. -/
theorem nextToken_again_of_eof (h : c.nextToken = .ok t rest) (ht : t.kind = .eof) :
    rest.nextToken = .ok t rest := by
  obtain ⟨-, -, hend, rfl⟩ := nextToken_eof h ht
  exact nextToken_end hend

/-- Where a character is refused, it stands behind blanks and is left unread. -/
theorem nextToken_error (h : c.nextToken = .error e rest) :
    ∃ gap ch tail, c.unread = gap ++ ch :: tail ∧ (∀ b ∈ gap, b ∈ blanks) ∧ rest = c.past gap ∧
      rest.unread = ch :: tail ∧ e = ⟨String.singleton ch, rest.location⟩ ∧
      Scans rest (.error e rest) := by
  obtain ⟨gap, start, hstart, hgap, hblank, hscan⟩ := c.exists_start
  rw [h] at hscan
  cases hscan with
  | @refused ch tail hch hnotBlank hdigit hk =>
    rw [hch] at hgap
    exact ⟨gap, ch, tail, hgap, hblank, hstart, hch, rfl, .refused hch hnotBlank hdigit hk⟩

/-- A character that is refused is refused again and again. -/
theorem nextToken_again_of_error (h : c.nextToken = .error e rest) :
    rest.nextToken = .error e rest := by
  obtain ⟨-, -, -, -, -, -, -, -, hscan⟩ := nextToken_error h
  exact nextToken_eq_of_scans_here hscan

/-- Reading the next token passes a run of the unread text. -/
theorem exists_run_of_nextToken (h : c.nextToken = .ok t rest) :
    ∃ run, c.unread = run ++ rest.unread ∧ rest = c.past run := by
  obtain ⟨gap, start, hstart, hgap, -, hscan⟩ := c.exists_start
  rw [h] at hscan
  have hpassed : ∀ {run tail}, start.unread = run ++ tail → rest = start.past run →
      ∃ run, c.unread = run ++ rest.unread ∧ rest = c.past run := by
    intro run tail hrun hrest
    refine ⟨gap ++ run, ?_, ?_⟩
    · rw [hrest, unread_past hrun, hgap, hrun, List.append_assoc]
    · rw [hrest, hstart, past_append]
  cases hscan with
  | atEnd hend => exact ⟨gap, hgap, hstart⟩
  | number hrun hne hdigits htail => exact hpassed hrun rfl
  | @spelled ch tail k hch hk =>
    have hone : start.unread = [ch] ++ tail := hch
    exact hpassed hone rfl

/-- A token that is not the end is read of something. -/
theorem unread_ne_nil_of_nextToken (h : c.nextToken = .ok t rest) (ht : t.kind ≠ .eof) :
    c.unread ≠ [] := by
  intro hnil
  have hshorter := nextToken_shortens h ht
  simp [hnil] at hshorter

/-! ## Successive tokens -/

/-- From the first cursor on, these tokens are read, none of them an end token, and then the second
cursor is reached. -/
inductive Reads : Cursor → List Token → Cursor → Prop
  | nil (c : Cursor) : Reads c [] c
  | cons {c mid rest : Cursor} {t : Token} {ts : List Token} (h : c.nextToken = .ok t mid)
      (ht : t.kind ≠ .eof) (hrest : Reads mid ts rest) : Reads c (t :: ts) rest

theorem Reads.trans (h : Reads c ts mid) (h' : Reads mid ts' rest) :
    Reads c (ts ++ ts') rest := by
  induction h with
  | nil c => exact h'
  | cons h ht _ ih => exact .cons h ht (ih h')

theorem Reads.single (h : c.nextToken = .ok t rest) (ht : t.kind ≠ .eof) :
    Reads c [t] rest :=
  .cons h ht (.nil rest)

/-- A reading leaves an end of the text unread. -/
theorem Reads.unread_suffix (h : Reads c ts rest) : rest.unread <:+ c.unread := by
  induction h with
  | nil c => exact List.suffix_refl _
  | cons h ht _ ih =>
    obtain ⟨run, hrun, -⟩ := exists_run_of_nextToken h
    rw [hrun]
    exact ih.trans (List.suffix_append _ _)

/-- The last of several tokens is read by itself. -/
theorem Reads.exists_last (h : Reads c ts rest) (hne : ts ≠ []) :
    ∃ front t mid, ts = front ++ [t] ∧ Reads c front mid ∧ mid.nextToken = .ok t rest ∧
      t.kind ≠ .eof := by
  induction h with
  | nil c => exact absurd rfl hne
  | @cons c mid rest t ts h ht hrest ih =>
    cases ts with
    | nil =>
      cases hrest
      exact ⟨[], t, c, rfl, .nil c, h, ht⟩
    | cons u ts =>
      obtain ⟨front, last, mid', heq, hfront, hlast, hkind⟩ := ih (List.cons_ne_nil u ts)
      exact ⟨t :: front, last, mid', by rw [heq, List.cons_append], .cons h ht hfront, hlast, hkind⟩

/-! ## All tokens -/

/-- What is read of all tokens, if the tokens `front` come before it. -/
def prepend (front : List Token) : Scanned (List Token) → Scanned (List Token)
  | .ok ts rest => .ok (front ++ ts) rest
  | .error e rest => .error e rest

theorem outcome_prepend (front : List Token) (result : Scanned (List Token)) :
    outcome (prepend front result) = (outcome result).map (front ++ ·) := by
  cases result <;> rfl

/-- The tokens of a reading come before all others. -/
theorem Reads.tokens_prepend (h : Reads c ts rest) : c.tokens = prepend ts rest.tokens := by
  induction h with
  | nil c => cases c.tokens <;> rfl
  | cons h ht _ ih =>
    rw [tokens_eq, h]
    simp only [if_neg ht, ih]
    generalize Cursor.tokens _ = behind
    cases behind <;> rfl

/-- Reading one token after the other, until the end is read or a character is refused, comes to
this. -/
inductive Drained (c : Cursor) : Scanned (List Token) → Prop
  | ending {ts : List Token} {mid rest : Cursor} {t : Token} (h : Reads c ts mid)
      (hlast : mid.nextToken = .ok t rest) (ht : t.kind = .eof) : Drained c (.ok (ts ++ [t]) rest)
  | refused {ts : List Token} {mid rest : Cursor} {e : LexError} (h : Reads c ts mid)
      (hlast : mid.nextToken = .error e rest) : Drained c (.error e rest)

theorem Drained.cons {result : Scanned (List Token)} (h : c.nextToken = .ok t mid)
    (ht : t.kind ≠ .eof) (hrest : Drained mid result) : Drained c (prepend [t] result) := by
  cases hrest with
  | ending hreads hlast heof => exact .ending (.cons h ht hreads) hlast heof
  | refused hreads hlast => exact .refused (.cons h ht hreads) hlast

/-- All tokens are read one after the other. The induction is on the number of unread characters, of
which every token but the end takes one. -/
theorem tokens_drained (c : Cursor) : Drained c c.tokens := by
  induction hn : c.unread.length using Nat.strong_induction_on generalizing c with
  | _ n ih =>
    subst hn
    cases hnext : c.nextToken with
    | error e rest =>
      rw [tokens_eq, hnext]
      exact .refused (.nil c) hnext
    | ok t rest =>
      by_cases ht : t.kind = .eof
      · rw [tokens_eq, hnext]
        simp only [if_pos ht]
        exact .ending (.nil c) hnext ht
      · rw [(Reads.single hnext ht).tokens_prepend]
        exact (ih _ (nextToken_shortens hnext ht) rest rfl).cons hnext ht

theorem Drained.tokens_eq {result : Scanned (List Token)} (h : Drained c result) :
    c.tokens = result := by
  cases h with
  | ending h hlast ht =>
    rw [h.tokens_prepend, Cursor.tokens_eq, hlast]
    simp only [if_pos ht, prepend]
  | refused h hlast => rw [h.tokens_prepend, Cursor.tokens_eq, hlast, prepend]

/-- To read all tokens is to read one after the other. -/
theorem tokens_eq_iff {result : Scanned (List Token)} : c.tokens = result ↔ Drained c result := by
  constructor
  · rintro rfl
    exact c.tokens_drained
  · exact Drained.tokens_eq

theorem tokens_of_eof (h : c.nextToken = .ok t rest) (ht : t.kind = .eof) :
    c.tokens = .ok [t] rest :=
  tokens_eq_iff.2 (.ending (.nil c) h ht)

theorem tokens_of_error (h : c.nextToken = .error e rest) : c.tokens = .error e rest :=
  tokens_eq_iff.2 (.refused (.nil c) h)

/-- Of all tokens the last one is the end token, and the others are read one after the other. -/
theorem exists_reads_of_tokens (h : c.tokens = .ok ts rest) :
    ∃ front last mid, ts = front ++ [last] ∧ Reads c front mid ∧ mid.nextToken = .ok last rest ∧
      last.kind = .eof := by
  have hdrained := tokens_eq_iff.1 h
  cases hdrained with
  | ending hreads hlast hend => exact ⟨_, _, _, rfl, hreads, hlast, hend⟩

theorem exists_reads_of_tokens_concat (h : c.tokens = .ok (ts ++ [t]) rest) :
    ∃ mid, Reads c ts mid ∧ mid.nextToken = .ok t rest ∧ t.kind = .eof := by
  obtain ⟨front, last, mid, hlist, hreads, hlast, hend⟩ := exists_reads_of_tokens h
  obtain ⟨rfl, hsingle⟩ := List.append_inj' hlist rfl
  obtain rfl := List.singleton_inj.1 hsingle
  exact ⟨mid, hreads, hlast, hend⟩

/-- Where all tokens cannot be read, a character is refused behind some of them. -/
theorem exists_reads_of_tokens_error (h : c.tokens = .error e rest) :
    ∃ ts mid, Reads c ts mid ∧ mid.nextToken = .error e rest := by
  have hdrained := tokens_eq_iff.1 h
  cases hdrained with
  | refused hreads hlast => exact ⟨_, _, hreads, hlast⟩

/-- What is read up to the end of the text are the tokens of the text. -/
theorem Reads.tokens (h : c.Reads ts rest) (hend : rest.unread = []) :
    ∃ e : Token, e.kind = .eof ∧ c.tokens = .ok (ts ++ [e]) rest :=
  ⟨_, rfl, tokens_eq_iff.2 (.ending h (nextToken_end hend) rfl)⟩

end Cursor

end ArithSyntax
