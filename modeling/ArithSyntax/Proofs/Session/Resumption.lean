import ArithSyntax.Proofs.Session.Offsets
import ArithSyntax.Proofs.Tokens.Relocation

/-!
# Reading on

A text may be read at once, one token after the other, or from anywhere in the middle, after any
requests: it comes to the same (`lexing_resumes`). What is read from a cursor on is what is read of
the text behind it, relocated. Calls for the next token answer with the tokens of one call for all
of them, one by one, and such a call may take over at any time.

Two cursors stay where they are. At the end of the text nothing moves a cursor any more
(`Cursor.final_perform_of_end`). At a character that is refused, only a request that takes this
character moves it (`Cursor.final_perform_of_refused`), and then reading goes on right behind the
character. Both facts are about one request, and a session of such requests is an induction
(`Cursor.after_eq_self`).
-/

set_option autoImplicit false

namespace ArithSyntax

/-- The request takes the character, if that is next. -/
def ReadStep.Takes (ch : Char) : ReadStep → Prop
  | .advance => True
  | .takeWhile set => ch ∈ set
  | _ => False

namespace Cursor

variable {c mid last rest : Cursor} {ts front : List Token} {t stop : Token} {e : LexError} {ch : Char}
  {tail : List Char} {k : Nat}

/-! ## So many calls for the next token -/

/-- Asks for the next token `k` times. The first call that fails is the last one. -/
def nextRepeatedly (c : Cursor) : Nat → Scanned (List Token)
  | 0 => .ok [] c
  | k + 1 =>
      match c.nextToken with
      | .error e rest => .error e rest
      | .ok t rest => prepend [t] (rest.nextRepeatedly k)

/-- Of several calls that succeed, the first one succeeds, and then the others do. -/
theorem nextRepeatedly_succ (h : c.nextRepeatedly (k + 1) = .ok ts rest) :
    ∃ t mid ts', ts = t :: ts' ∧ c.nextToken = .ok t mid ∧ mid.nextRepeatedly k = .ok ts' rest := by
  rw [nextRepeatedly] at h
  cases hnext : c.nextToken with
  | error e mid =>
    rw [hnext] at h
    cases h
  | ok t mid =>
    simp only [hnext] at h
    cases hrest : mid.nextRepeatedly k with
    | error e last =>
      rw [hrest] at h
      cases h
    | ok ts' last =>
      rw [hrest] at h
      cases h
      exact ⟨t, mid, ts', rfl, rfl, hrest⟩

/-- If all tokens can be read, `k` calls answer the first of them, and then the others are read at
once. The end token is never used up: it is what all calls answer that have no other token left, and
it is read again behind them. The induction is on `k`. -/
theorem Reads.nextRepeatedly (h : Reads c front last) (hlast : last.nextToken = .ok stop rest)
    (hstop : stop.kind = .eof) (k : Nat) :
    ∃ mid, c.nextRepeatedly k =
        .ok (front.take k ++ List.replicate (k - front.length) stop) mid ∧
      mid.tokens = .ok (front.drop k ++ [stop]) rest := by
  induction k generalizing c front last with
  | zero => exact ⟨c, by simp [Cursor.nextRepeatedly], tokens_eq_iff.2 (.ending h hlast hstop)⟩
  | succ k ih =>
    cases h with
    | nil =>
      -- The end is read now, and it is read by all calls that are left.
      obtain ⟨mid, hk, hmid⟩ := ih (.nil rest) (nextToken_again_of_eof hlast hstop)
      refine ⟨mid, ?_, by simpa using hmid⟩
      rw [Cursor.nextRepeatedly, hlast]
      simp [hk, prepend, List.replicate_succ]
    | cons hfirst ht hreads =>
      obtain ⟨mid, hk, hmid⟩ := ih hreads hlast
      refine ⟨mid, ?_, hmid⟩
      rw [Cursor.nextRepeatedly, hfirst]
      simp [hk, prepend]

/-- However many calls have succeeded, the character that is refused behind them is refused. -/
theorem Reads.nextRepeatedly_error (h : Reads c front last) (hlast : last.nextToken = .error e rest)
    (hk : c.nextRepeatedly k = .ok ts mid) : mid.tokens = .error e rest := by
  induction k generalizing c front ts with
  | zero =>
    cases hk
    exact tokens_eq_iff.2 (.refused h hlast)
  | succ k ih =>
    obtain ⟨t, c', ts', rfl, hnext, hk'⟩ := nextRepeatedly_succ hk
    cases h with
    | nil =>
      rw [hlast] at hnext
      cases hnext
    | cons hfirst ht hreads =>
      rw [hfirst] at hnext
      cases hnext
      exact ih hreads hk'

/-! ## Cursors that stay where they are -/

/-- If no request moves the cursor, a session of such requests does not. -/
theorem after_eq_self {more : List ReadStep} (h : ∀ step ∈ more, final (c.perform step) = c) :
    c.after more = c := by
  induction more with
  | nil => rfl
  | cons step more ih =>
    have hfirst := h step List.mem_cons_self
    rw [after, List.foldl_cons, hfirst]
    exact ih fun step hstep => h step (List.mem_cons_of_mem _ hstep)

/-- Where the end was read, alone or behind other tokens, it is next. -/
theorem nextToken_of_ending
    (h : c.nextToken = .ok stop rest ∨ ∃ front, c.tokens = .ok (front ++ [stop]) rest)
    (hstop : stop.kind = .eof) : rest.nextToken = .ok stop rest := by
  rcases h with h | ⟨front, h⟩
  · exact nextToken_again_of_eof h hstop
  · obtain ⟨mid, -, hlast, -⟩ := exists_reads_of_tokens_concat h
    exact nextToken_again_of_eof hlast hstop

/-- Where a character was refused, at once or behind tokens, it is next, and it is refused again. -/
theorem nextToken_of_refusal (h : c.nextToken = .error e rest ∨ c.tokens = .error e rest) :
    rest.nextToken = .error e rest ∧
      ∃ ch tail, e.char = String.singleton ch ∧ rest.unread = ch :: tail := by
  obtain ⟨mid, hmid⟩ : ∃ mid : Cursor, mid.nextToken = .error e rest := by
    rcases h with h | h
    · exact ⟨c, h⟩
    · obtain ⟨-, mid, -, hlast⟩ := exists_reads_of_tokens_error h
      exact ⟨mid, hlast⟩
  obtain ⟨gap, ch, tail, -, -, -, hch, rfl, -⟩ := nextToken_error hmid
  exact ⟨nextToken_again_of_error hmid, ch, tail, rfl, hch⟩

/-- At the end of the text, no request moves the cursor. -/
theorem final_perform_of_end (h : c.unread = []) (step : ReadStep) : final (c.perform step) = c := by
  have hnext := nextToken_end h
  cases step with
  | current => rfl
  | location => rfl
  | advance => simp [perform, advance?, h, final]
  | takeWhile set => simp [perform, takeWhile, h, final]
  | nextToken =>
    rw [perform, hnext]
    rfl
  | tokens =>
    rw [perform, tokens_of_eof hnext rfl]
    rfl

/-- At a character that is refused, a request that does not take it does not move the cursor. -/
theorem final_perform_of_refused (hch : c.unread = ch :: tail) (h : c.nextToken = .error e c)
    {step : ReadStep} (hstep : ¬ step.Takes ch) : final (c.perform step) = c := by
  cases step with
  | current => rfl
  | location => rfl
  | advance => exact absurd trivial hstep
  | takeWhile set =>
    have hset : ch ∉ set := hstep
    simp [perform, takeWhile, hch, hset, final]
  | nextToken =>
    rw [perform, h]
    rfl
  | tokens =>
    rw [perform, tokens_of_error h]
    rfl

/-! ## Cursors in a text -/

section Texts

variable {s : List Char}

/-- From a cursor on, the text behind its offset is read. -/
theorem InText.outcome_tokens (h : c.InText s) :
    outcome c.tokens = relocated c.location (tokenize (String.ofList (s.drop c.position))) := by
  rw [← h.unread_eq]
  exact c.outcome_tokens

/-- A refusal leaves the cursor in its text. -/
theorem InText.of_refusal (hc : c.InText s)
    (h : c.nextToken = .error e rest ∨ c.tokens = .error e rest) : rest.InText s := by
  rcases h with h | h
  · have hin := (hc.perform .nextToken).inText
    rw [Cursor.perform, h] at hin
    exact hin
  · have hin := (hc.perform .tokens).inText
    rw [Cursor.perform, h] at hin
    exact hin

/-- Behind the next character, the text that is left there is read. -/
theorem InText.exists_advanced (h : c.InText s) (hch : c.unread = ch :: tail) :
    ∃ c', c.advance? = some (ch, c') ∧ c'.position = c.position + 1 ∧
      outcome c'.tokens =
        relocated c'.location (tokenize (String.ofList (s.drop (c.position + 1)))) := by
  have hone : c.unread = [ch] ++ tail := hch
  refine ⟨c.past [ch], ?_, rfl, (h.past hone).outcome_tokens⟩
  rw [advance?, hch]
  rfl

end Texts

end Cursor

/-- Reading may be stopped and resumed anywhere. After any session, in which any request may have
failed, the tokens that are read at once are those of the text behind the offset, relocated behind
the place of the cursor, and so is a character that is refused. To ask for one token after the other
until the end is read or a character is refused comes to the same, with the same cursor left. After
`k` calls the rest of the tokens are read at once, and the end token is always among them, for it is
answered by every call that has no other token left. A character that is refused is refused behind
any number of calls that succeed.

Where the end was read, it is read again, and nothing moves the cursor any more. Where a character
was refused, it is refused again, and nothing moves the cursor but a request that takes this
character; once it was taken, the text behind it is read. -/
theorem lexing_resumes (source : String) (steps : List ReadStep) :
    let c := (Cursor.ofSource source).after steps
    let behind (offset : Nat) := String.ofList (source.toList.drop offset)
    outcome c.tokens = relocated c.location (tokenize (behind c.position)) ∧
    (∀ result, c.tokens = result ↔ Cursor.Drained c result) ∧
    (∀ front stop rest, c.tokens = .ok (front ++ [stop]) rest → ∀ k, ∃ mid,
      c.nextRepeatedly k = .ok (front.take k ++ List.replicate (k - front.length) stop) mid ∧
      mid.tokens = .ok (front.drop k ++ [stop]) rest) ∧
    (∀ e rest, c.tokens = .error e rest → ∀ k ts mid, c.nextRepeatedly k = .ok ts mid →
      mid.tokens = .error e rest) ∧
    (∀ stop rest, stop.kind = .eof →
      (c.nextToken = .ok stop rest ∨ ∃ front, c.tokens = .ok (front ++ [stop]) rest) →
        rest.nextToken = .ok stop rest ∧ rest.tokens = .ok [stop] rest ∧
        ∀ more, rest.after more = rest) ∧
    ∀ e rest, (c.nextToken = .error e rest ∨ c.tokens = .error e rest) →
      rest.nextToken = .error e rest ∧ rest.tokens = .error e rest ∧
      ∃ ch c', e.char = String.singleton ch ∧
        (∀ more, (∀ step ∈ more, ¬ step.Takes ch) → rest.after more = rest) ∧
        rest.advance? = some (ch, c') ∧ c'.position = rest.position + 1 ∧
        outcome c'.tokens = relocated c'.location (tokenize (behind (rest.position + 1))) := by
  intro c behind
  have hc : c.InText source.toList := (Cursor.inText_ofSource source).after steps
  refine ⟨hc.outcome_tokens, fun _ => Cursor.tokens_eq_iff, ?_, ?_, ?_, ?_⟩
  · intro front stop rest h k
    obtain ⟨last, hreads, hlast, hstop⟩ := Cursor.exists_reads_of_tokens_concat h
    exact hreads.nextRepeatedly hlast hstop k
  · intro e rest h k ts mid hk
    obtain ⟨front, last, hreads, hlast⟩ := Cursor.exists_reads_of_tokens_error h
    exact hreads.nextRepeatedly_error hlast hk
  · intro stop rest hstop h
    have hagain := Cursor.nextToken_of_ending h hstop
    obtain ⟨-, -, hend, -⟩ := Cursor.nextToken_eof hagain hstop
    refine ⟨hagain, Cursor.tokens_of_eof hagain hstop, ?_⟩
    intro more
    exact Cursor.after_eq_self fun step _ => Cursor.final_perform_of_end hend step
  · intro e rest h
    obtain ⟨hagain, ch, tail, hchar, hch⟩ := Cursor.nextToken_of_refusal h
    obtain ⟨c', hadvance, hposition, hread⟩ := (hc.of_refusal h).exists_advanced hch
    refine ⟨hagain, Cursor.tokens_of_error hagain, ch, c', hchar, ?_, hadvance, hposition, hread⟩
    intro more hmore
    exact Cursor.after_eq_self fun step hstep =>
      Cursor.final_perform_of_refused hch hagain (hmore step hstep)

/-- Behind the `1`, the `?` is refused as it is from the start on, and it is refused until it is
taken. Behind it stands the `2`, and then the text has ended, however often that is asked. -/
theorem lexing_resumes_behindRefused :
    let source := Cursor.ofSource "1\n?2"
    let c := source.after []
    let mid : Cursor := ⟨1, ⟨1, 2⟩, ['\n', '?', '2']⟩
    let refused : Cursor := ⟨2, ⟨2, 1⟩, ['?', '2']⟩
    let c' := source.after [.tokens, .advance]
    let ended : Cursor := ⟨4, ⟨2, 3⟩, []⟩
    let two : Token := ⟨.number, "2", ⟨2, 2⟩⟩
    let stop : Token := ⟨.eof, "", ⟨2, 3⟩⟩
    (c.nextRepeatedly 1 = .ok [⟨.number, "1", ⟨1, 1⟩⟩] mid ∧
      c.tokens = .error ⟨"?", ⟨2, 1⟩⟩ refused ∧ mid.tokens = .error ⟨"?", ⟨2, 1⟩⟩ refused ∧
      refused.after [.nextToken, .takeWhile ['2'], .tokens] = refused) ∧
    c'.tokens = .ok [two, stop] ended ∧ c'.nextRepeatedly 3 = .ok [two, stop, stop] ended ∧
      ended.tokens = .ok [stop] ended ∧ ended.after [.advance, .nextToken] = ended := by
  intro source c mid refused c' ended two stop
  have hc : c = ⟨0, ⟨1, 1⟩, ['1', '\n', '?', '2']⟩ := by decide +kernel
  have hc' : c' = ⟨3, ⟨2, 2⟩, ['2']⟩ := by decide +kernel
  obtain ⟨-, -, -, hcalls, -, hrefusal⟩ := lexing_resumes "1\n?2" []
  obtain ⟨-, -, hcalls', -, hending, -⟩ := lexing_resumes "1\n?2" [.tokens, .advance]
  have hfirst : c.nextRepeatedly 1 = .ok [⟨.number, "1", ⟨1, 1⟩⟩] mid := by
    rw [hc]
    rfl
  have hone : c.Reads [⟨.number, "1", ⟨1, 1⟩⟩] mid := by
    rw [hc]
    exact .single rfl nofun
  have hrefused : c.tokens = .error ⟨"?", ⟨2, 1⟩⟩ refused :=
    Cursor.tokens_eq_iff.2 (.refused hone rfl)
  have hbehind : c'.Reads [two] ended := by
    rw [hc']
    exact .single rfl nofun
  have htwo : c'.tokens = .ok [two, stop] ended :=
    Cursor.tokens_eq_iff.2 (.ending hbehind rfl rfl)
  have hthird : c'.nextRepeatedly 3 = .ok [two, stop, stop] ended := by
    rw [hc']
    rfl
  have hmid := hcalls _ refused hrefused 1 _ mid hfirst
  obtain ⟨last, hlast, hstop⟩ := hcalls' [two] stop ended htwo 3
  rw [hthird] at hlast
  cases hlast
  have hended := (hending stop ended rfl (Or.inr ⟨[two], htwo⟩)).2.2
  refine ⟨⟨hfirst, hrefused, hmid, ?_⟩, htwo, hthird, hstop, hended _⟩
  obtain ⟨-, -, ch, -, hchar, hheld, -⟩ := hrefusal _ refused (Or.inr hrefused)
  obtain rfl : ch = '?' := by
    have hlist := congrArg String.toList hchar
    simpa using hlist.symm
  apply hheld
  simp [ReadStep.Takes]

end ArithSyntax
