import ArithSyntax.Proofs.Tokens.MaximalMunch
import ArithSyntax.Source.Session

/-!
# Sessions at a text

Whatever is asked of a cursor, and whether it fails or not, the cursor stands in its text with the
location that is counted from the text, it has not gone back, and it has moved by exactly what it
has answered (`session_offsets`).

What may be answered is said by `Answers`, in terms of the text and of two offsets and without a
cursor: one rule for each kind of request and each way in which it may end. The runs in it are the
longest ones of the text (`LongestRun`). A session is then an induction with the step lemma
`Cursor.InText.perform`: the rules speak of the offset at which the cursor stands, wherever that is,
so it does not matter that earlier requests may have left it in the middle of a number.
-/

set_option autoImplicit false

namespace ArithSyntax

/-! ## What stands at an offset -/

/-- The characters from the offset `i` to the offset `j` are the longest run from `i` on of
characters that satisfy `p`. -/
structure LongestRun (s : List Char) (p : Char → Prop) (i j : Nat) : Prop where
  le : i ≤ j
  le_length : j ≤ s.length
  all : ∀ k ch, i ≤ k → k < j → s[k]? = some ch → p ch
  stops : ∀ ch, s[j]? = some ch → ¬ p ch

/-- The ways in which the text at the token's offset is that token, which takes all of it up to its
stop. -/
inductive Placed.Takes (s : List Char) (t : Placed) : Prop
  | ending (hkind : t.token.kind = .eof) (htext : t.token.text = "") (hoffset : t.offset = s.length)
  | number (hkind : t.token.kind = .number) (hlt : t.offset < t.stop)
      (hrun : LongestRun s (· ∈ Literal.digits) t.offset t.stop)
  | spelled (ch : Char) (hkind : Kind.ofChar? ch = some t.token.kind)
      (htext : t.token.text = String.singleton ch)

/-- The token is the next one from the offset `i` on: it stands behind the blanks from there on. -/
structure Placed.Next (s : List Char) (i : Nat) (t : Placed) : Prop where
  gap : LongestRun s (· ∈ blanks) i t.offset
  sound : t.Sound s
  takes : t.Takes s
  stop_le : t.stop ≤ s.length

/-- From the offset `i` on there is no next token: behind the blanks, at the offset `j`, stands a
character that begins none. -/
structure Refused (s : List Char) (i j : Nat) (ch : Char) : Prop where
  gap : LongestRun s (· ∈ blanks) i j
  getElem?_eq : s[j]? = some ch
  foreign : ch ∉ alphabet

/-- The error at a character of the text. -/
def LexError.ofOffset (s : List Char) (j : Nat) (ch : Char) : LexError :=
  ⟨String.singleton ch, .ofOffset s j⟩

/-- From the offset `i` to the offset `j`, these are the next tokens one after the other, none of
them an end token. -/
inductive NextTokens (s : List Char) : Nat → List Token → Nat → Prop
  | nil (i : Nat) : NextTokens s i [] i
  | cons {i j : Nat} {t : Placed} {ts : List Token} (h : t.Next s i) (hkind : t.token.kind ≠ .eof)
      (hrest : NextTokens s t.stop ts j) : NextTokens s i (t.token :: ts) j

/-- At the offset `i` of the text, the request may be answered so, and lead to the offset `j`. -/
inductive Answers (s : List Char) (i : Nat) : ReadStep → Except ReadError ReadReply → Nat → Prop
  | current {ch : Char} (h : s[i]? = some ch) : Answers s i .current (.ok (.text [ch])) i
  | currentEnd (h : i = s.length) : Answers s i .current (.ok (.text [])) i
  | location : Answers s i .location (.ok (.location (.ofOffset s i))) i
  | advance {ch : Char} (h : s[i]? = some ch) : Answers s i .advance (.ok (.text [ch])) (i + 1)
  | pastEnd (h : i = s.length) :
      Answers s i .advance (.error (.pastEnd (Location.ofOffset s i).line)) i
  | takeWhile {set : List Char} {j : Nat} (h : LongestRun s (· ∈ set) i j) :
      Answers s i (.takeWhile set) (.ok (.text ((s.drop i).take (j - i)))) j
  | nextToken {t : Placed} (h : t.Next s i) :
      Answers s i .nextToken (.ok (.token t.token)) t.stop
  | refused {j : Nat} {ch : Char} (h : Refused s i j ch) :
      Answers s i .nextToken (.error (.lexical (.ofOffset s j ch))) j
  | tokens {ts : List Token} {mid : Nat} {t : Placed} (h : NextTokens s i ts mid)
      (hlast : t.Next s mid) (hkind : t.token.kind = .eof) :
      Answers s i .tokens (.ok (.tokens (ts ++ [t.token]))) t.stop
  | tokensRefused {ts : List Token} {mid j : Nat} {ch : Char} (h : NextTokens s i ts mid)
      (hlast : Refused s mid j ch) : Answers s i .tokens (.error (.lexical (.ofOffset s j ch))) j

theorem Placed.Next.le_stop {s : List Char} {i : Nat} {t : Placed} (h : t.Next s i) : i ≤ t.stop :=
  Nat.le_trans h.gap.le (Nat.le_add_right _ _)

theorem NextTokens.le {s : List Char} {i j : Nat} {ts : List Token} (h : NextTokens s i ts j) :
    i ≤ j := by
  induction h with
  | nil i => exact Nat.le_refl i
  | cons ht _ _ ih => exact Nat.le_trans ht.le_stop ih

namespace Cursor

variable {s : List Char} {c : Cursor}

/-! ## Runs that a cursor passes -/

/-- A cursor passes a longest run if the run ends where it must. -/
theorem InText.longestRun (h : c.InText s) {p : Char → Prop} {run tail : List Char}
    (hrun : c.unread = run ++ tail) (hall : ∀ ch ∈ run, p ch) (hstops : ∀ ch ∈ tail.head?, ¬ p ch) :
    LongestRun s p c.position (c.past run).position where
  le := Nat.le_add_right _ _
  le_length := (h.past hrun).position_le
  all k ch hk hlt hch := hall ch (h.mem_run hrun hk hlt hch)
  stops ch hch := by
    rw [(h.past hrun).getElem?_position, unread_past hrun] at hch
    exact hstops ch hch

/-- A number that is passed as a whole is a longest run of digits. -/
theorem InText.longestRun_digits (h : c.InText s) {run tail : List Char}
    (hrun : c.unread = run ++ tail) (hall : ∀ ch ∈ run, ch.isDigit = true)
    (hends : EndsNumber tail) :
    LongestRun s (· ∈ Literal.digits) c.position (c.past run).position := by
  refine h.longestRun hrun (fun ch hch => ?_) (fun ch hch hdigit => ?_)
  · exact (Literal.isDigit_iff_mem_digits ch).1 (hall ch hch)
  · rw [← Literal.isDigit_iff_mem_digits, hends ch hch] at hdigit
    cases hdigit

/-- What the cursor passes is what stands between its offsets. -/
theorem InText.slice_eq (h : c.InText s) {run tail : List Char} (hrun : c.unread = run ++ tail) :
    (s.drop c.position).take ((c.past run).position - c.position) = run := by
  have hlen : (c.past run).position - c.position = run.length := Nat.add_sub_cancel_left _ _
  rw [hlen, ← h.unread_eq, hrun, List.take_left]

/-! ## Tokens -/

/-- What reading the next token may come to, and where it leaves the cursor. -/
inductive ReadsNext (s : List Char) (i : Nat) : Scanned Token → Prop
  | token {t : Placed} {rest : Cursor} (h : t.Next s i) (hrest : rest.InText s)
      (hstop : rest.position = t.stop) : ReadsNext s i (.ok t.token rest)
  | refused {ch : Char} {rest : Cursor} (h : Refused s i rest.position ch)
      (hrest : rest.InText s) : ReadsNext s i (.error (.ofOffset s rest.position ch) rest)

/-- Behind the blanks stands what the rule takes that is followed there. -/
theorem InText.readsNext (h : c.InText s) : ReadsNext s c.position c.nextToken := by
  obtain ⟨gap, tail, hgap, hblank, htail, hscan⟩ := c.nextToken_scans
  have hrun := h.longestRun hgap hblank htail
  have hmid := h.past hgap
  generalize c.past gap = mid at hscan hrun hmid
  generalize c.nextToken = result at hscan
  cases hscan with
  | atEnd hend =>
    have hpos := hmid.unread_eq_nil_iff.1 hend
    have hs : (Placed.mk mid.position ⟨.eof, "", mid.location⟩).Sound s :=
      hmid.sound (List.nil_append mid.unread).symm rfl .eof
    exact .token ⟨hrun, hs, .ending rfl rfl hpos, hmid.position_le⟩ hmid rfl
  | @number run tail hdigits hne hall hends =>
    have htext : (String.ofList run).toList = run := String.toList_ofList
    have hstop := mid.stop_eq_position_past htext .number
    have hlongest := hmid.longestRun_digits hdigits hall hends
    rw [← hstop] at hlongest
    have hlt : mid.position < (mid.past run).position :=
      Nat.lt_add_of_pos_right (List.length_pos_iff.2 hne)
    rw [← hstop] at hlt
    exact .token ⟨hrun, hmid.sound hdigits htext .number, .number rfl hlt hlongest,
      hlongest.le_length⟩ (hmid.past hdigits) hstop.symm
  | @spelled ch tail k hch hk =>
    have hone : mid.unread = [ch] ++ tail := hch
    have htext : (String.singleton ch).toList = [ch] := String.toList_singleton ch
    have hstop := mid.stop_eq_position_past htext k
    have hle := (hmid.past hone).position_le
    rw [← hstop] at hle
    exact .token ⟨hrun, hmid.sound hone htext k, .spelled ch hk rfl, hle⟩ (hmid.past hone)
      hstop.symm
  | @refused ch tail hch hblank hdigit hk =>
    have hget : s[mid.position]? = some ch := by rw [hmid.getElem?_position, hch]; rfl
    rw [hmid.location_eq]
    exact .refused ⟨hrun, hget, notMem_alphabet hblank hdigit hk⟩ hmid

/-- What reading all tokens may come to, and where it leaves the cursor. -/
inductive ReadsAll (s : List Char) (i : Nat) : Scanned (List Token) → Prop
  | tokens {ts : List Token} {mid : Nat} {t : Placed} {rest : Cursor} (h : NextTokens s i ts mid)
      (hlast : t.Next s mid) (hkind : t.token.kind = .eof) (hrest : rest.InText s)
      (hstop : rest.position = t.stop) : ReadsAll s i (.ok (ts ++ [t.token]) rest)
  | refused {ts : List Token} {mid : Nat} {ch : Char} {rest : Cursor} (h : NextTokens s i ts mid)
      (hlast : Refused s mid rest.position ch) (hrest : rest.InText s) :
      ReadsAll s i (.error (.ofOffset s rest.position ch) rest)

/-- All tokens are the next one and, unless that is the end, all tokens behind it. -/
theorem InText.readsAll (h : c.InText s) : ReadsAll s c.position c.tokens := by
  induction hn : c.unread.length using Nat.strong_induction_on generalizing c with
  | _ n ih =>
    subst hn
    have hreads := h.readsNext
    rw [tokens_eq]
    generalize hnext : c.nextToken = result at hreads
    cases hreads with
    | @refused ch rest hrefused hrest => exact .refused (.nil _) hrefused hrest
    | @token t rest ht hrest hstop =>
      by_cases hend : t.token.kind = .eof
      · simp only [if_pos hend]
        exact .tokens (.nil _) ht hend hrest hstop
      · -- The tokens behind this one are read from where it stops.
        have hbehind := ih _ (nextToken_shortens hnext hend) hrest rfl
        rw [hstop] at hbehind
        simp only [if_neg hend]
        generalize rest.tokens = behind at hbehind
        cases hbehind with
        | tokens hts hlast hkind hrest' hstop' =>
          exact .tokens (.cons ht hend hts) hlast hkind hrest' hstop'
        | refused hts hlast hrest' => exact .refused (.cons ht hend hts) hlast hrest'

/-! ## One request -/

/-- After a request the cursor stands in its text and has not gone back, and it has moved from
offset to offset as the answer says. -/
structure MovesTo (s : List Char) (c : Cursor) (step : ReadStep)
    (result : Run ReadError Cursor ReadReply) : Prop where
  inText : (final result).InText s
  le : c.position ≤ (final result).position
  answers : Answers s c.position step (outcome result) (final result).position

theorem InText.movesTo_current (h : c.InText s) : MovesTo s c .current (c.perform .current) := by
  have hget := h.getElem?_position
  have hperform : c.perform .current = .ok (.text c.unread.head?.toList) c := rfl
  rw [hperform]
  refine ⟨h, Nat.le_refl _, ?_⟩
  cases hc : c.unread with
  | nil => exact .currentEnd (h.unread_eq_nil_iff.1 hc)
  | cons ch tail =>
    rw [hc] at hget
    exact .current hget

theorem InText.movesTo_location (h : c.InText s) : MovesTo s c .location (c.perform .location) := by
  refine ⟨h, Nat.le_refl _, ?_⟩
  show Answers s c.position .location (.ok (.location c.location)) c.position
  rw [h.location_eq]
  exact .location

theorem InText.movesTo_advance (h : c.InText s) : MovesTo s c .advance (c.perform .advance) := by
  have hget := h.getElem?_position
  cases hc : c.unread with
  | nil =>
    have hperform : c.perform .advance = .error (.pastEnd c.location.line) c := by
      simp [Cursor.perform, advance?, hc]
    rw [hperform]
    refine ⟨h, Nat.le_refl _, ?_⟩
    rw [h.location_eq]
    exact .pastEnd (h.unread_eq_nil_iff.1 hc)
  | cons ch tail =>
    have hperform : c.perform .advance = .ok (.text [ch]) (c.past [ch]) := by
      simp [Cursor.perform, advance?, hc]
    have hone : c.unread = [ch] ++ tail := hc
    rw [hc] at hget
    rw [hperform]
    exact ⟨h.past hone, Nat.le_add_right _ _, .advance hget⟩

theorem InText.movesTo_takeWhile (h : c.InText s) (set : List Char) :
    MovesTo s c (.takeWhile set) (c.perform (.takeWhile set)) := by
  let inSet : Char → Bool := fun ch => ch ∈ set
  have hsplit : c.unread = c.unread.takeWhile inSet ++ c.unread.dropWhile inSet :=
    List.takeWhile_append_dropWhile.symm
  have hall : ∀ ch ∈ c.unread.takeWhile inSet, ch ∈ set :=
    fun ch hch => by simpa [inSet] using List.mem_takeWhile_imp hch
  have hstops : ∀ ch ∈ (c.unread.dropWhile inSet).head?, ch ∉ set :=
    fun ch hch => by simpa [inSet] using head?_dropWhile ch hch
  refine ⟨h.past hsplit, Nat.le_add_right _ _, ?_⟩
  have hanswer := Answers.takeWhile (h.longestRun hsplit hall hstops)
  rw [h.slice_eq hsplit] at hanswer
  exact hanswer

theorem InText.movesTo_nextToken (h : c.InText s) :
    MovesTo s c .nextToken (c.perform .nextToken) := by
  have hreads := h.readsNext
  show MovesTo s c .nextToken (Scanned.toReply .token c.nextToken)
  generalize c.nextToken = result at hreads
  cases hreads with
  | @token t rest ht hrest hstop =>
    -- The cursor is left where the token stops, which is what the rule says.
    have hanswer := Answers.nextToken ht
    have hle := ht.le_stop
    rw [← hstop] at hanswer hle
    exact ⟨hrest, hle, hanswer⟩
  | refused hrefused hrest => exact ⟨hrest, hrefused.gap.le, .refused hrefused⟩

theorem InText.movesTo_tokens (h : c.InText s) : MovesTo s c .tokens (c.perform .tokens) := by
  have hreads := h.readsAll
  show MovesTo s c .tokens (Scanned.toReply .tokens c.tokens)
  generalize c.tokens = result at hreads
  cases hreads with
  | @tokens ts mid t rest hts hlast hkind hrest hstop =>
    have hanswer := Answers.tokens hts hlast hkind
    have hle := Nat.le_trans hts.le hlast.le_stop
    rw [← hstop] at hanswer hle
    exact ⟨hrest, hle, hanswer⟩
  | refused hts hlast hrest =>
    exact ⟨hrest, Nat.le_trans hts.le hlast.gap.le, .tokensRefused hts hlast⟩

theorem InText.perform (h : c.InText s) (step : ReadStep) : MovesTo s c step (c.perform step) := by
  cases step with
  | current => exact h.movesTo_current
  | advance => exact h.movesTo_advance
  | location => exact h.movesTo_location
  | takeWhile set => exact h.movesTo_takeWhile set
  | nextToken => exact h.movesTo_nextToken
  | tokens => exact h.movesTo_tokens

/-! ## Sessions -/

/-- The cursor after a session, in which any request may have failed. -/
def after (c : Cursor) (steps : List ReadStep) : Cursor :=
  steps.foldl (fun c step => final (c.perform step)) c

/-- What one request keeps, a session keeps. -/
theorem InText.after (h : c.InText s) (steps : List ReadStep) : (c.after steps).InText s := by
  induction steps generalizing c with
  | nil => exact h
  | cons step steps ih => exact ih (h.perform step).inText

/-- There is no character to take exactly at the end of the text. -/
theorem InText.pastEnd_iff (h : c.InText s) :
    (∃ line, outcome (c.perform .advance) = .error (.pastEnd line)) ↔ c.position = s.length := by
  rw [← h.unread_eq_nil_iff]
  cases hc : c.unread with
  | nil => simp [Cursor.perform, advance?, hc, outcome]
  | cons ch tail => simp [Cursor.perform, advance?, hc, outcome]

end Cursor

/-- The offsets of a cursor are exact over whole sessions. The session may consist of any requests,
and any of them may have failed. After one request more, the cursor is within its text and has not
gone back, its location is the one that the text has at its offset, and all behind its offset is
unread; and it has come to that offset by what it has answered. In particular, it fails to take a
character exactly at the end of the text. -/
theorem session_offsets (source : String) (steps : List ReadStep) (step : ReadStep) :
    let s := source.toList
    let c := (Cursor.ofSource source).after steps
    let c' := final (c.perform step)
    (c.position ≤ c'.position ∧ c'.position ≤ s.length) ∧
    c'.location = .ofOffset s c'.position ∧ c'.unread = s.drop c'.position ∧
    Answers s c.position step (outcome (c.perform step)) c'.position ∧
    ((∃ line, outcome (c.perform .advance) = .error (.pastEnd line)) ↔ c.position = s.length) := by
  intro s c c'
  have hc : c.InText s := (Cursor.inText_ofSource source).after steps
  obtain ⟨hin, hle, hanswers⟩ := hc.perform step
  exact ⟨⟨hle, hin.position_le⟩, hin.location_eq, hin.unread_eq, hanswers, hc.pastEnd_iff⟩

/-- A character that is refused stays unread, and what is read behind it has its own location. -/
example : (Cursor.ofSource "1\n?2").after [.tokens] = ⟨2, ⟨2, 1⟩, ['?', '2']⟩ ∧
    outcome (((Cursor.ofSource "1\n?2").after [.tokens, .advance]).perform .nextToken) =
      .ok (.token ⟨.number, "2", ⟨2, 2⟩⟩) := by
  decide +kernel

end ArithSyntax
