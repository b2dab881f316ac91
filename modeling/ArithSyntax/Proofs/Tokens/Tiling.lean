import ArithSyntax.Expr.Literal
import ArithSyntax.Proofs.Tokens.NextToken

/-!
# Texts cut into tokens

A `Tiling` of a text from an offset on is a list of tokens with the offsets at which they stand:
each is a slice of the text and carries the location of its first character, they stand in order and
do not overlap, everything between them is blank, and behind them stands the one end token. Every
other token is a lexeme: a run of digits that no digit goes on with on either side, or a single
character that spells the token's kind. Nothing in it refers to an order in which a text is read.

A tiling is put together from its first token and a tiling from there on (`Tiling.cons`), and taken
apart in the same way (`Tiling.head`, `Tiling.tail`). From this follow, by induction on the tokens,
that a text has no two tilings (`Tiling.unique`), and that the texts of the tokens are the text
without its blanks (`Tiling.flatMap_text`).
-/

set_option autoImplicit false

namespace ArithSyntax

/-- A token and the offset at which it stands in a text. -/
structure Placed where
  offset : Nat
  token : Token

namespace Placed

/-- The offset behind the token's text. -/
def stop (t : Placed) : Nat :=
  t.offset + t.token.text.length

/-- The text at the token's offset is that of the token, and the token carries the location of that
offset. -/
structure Sound (s : List Char) (t : Placed) : Prop where
  slice_eq : (s.drop t.offset).take t.token.text.length = t.token.text.toList
  location_eq : t.token.location = .ofOffset s t.offset

/-- The token is a number that takes all the digits there are, or is spelled by one character. -/
inductive Lexeme (s : List Char) (t : Placed) : Prop
  | number (hkind : t.token.kind = .number) (hne : t.token.text ≠ "")
      (hdigits : ∀ ch ∈ t.token.text.toList, ch ∈ Literal.digits)
      (hleft : ∀ i ch, i + 1 = t.offset → s[i]? = some ch → ch ∉ Literal.digits)
      (hright : ∀ ch, s[t.stop]? = some ch → ch ∉ Literal.digits)
  | spelled (ch : Char) (htext : t.token.text = String.singleton ch)
      (hkind : Kind.ofChar? ch = some t.token.kind)

end Placed

/-- The tokens of the text `s` from the offset `start` on. -/
structure Tiling (s : List Char) (start : Nat) (ts : List Placed) : Prop where
  /-- Every token is a slice of the text. -/
  sound : ∀ t ∈ ts, t.Sound s
  le_offset : ∀ t ∈ ts, start ≤ t.offset
  /-- Offsets ascend, and no two slices share a character. -/
  ordered : ts.Pairwise fun t u => t.offset < u.offset ∧ t.stop ≤ u.offset
  /-- Outside of the slices all is blank. -/
  blank : ∀ i ch, start ≤ i → s[i]? = some ch →
    (∀ t ∈ ts, ¬(t.offset ≤ i ∧ i < t.stop)) → ch ∈ blanks
  /-- Behind the text stands an end token. -/
  ending : ∃ t, ts.getLast? = some t ∧ t.offset = s.length ∧ t.token.kind = .eof ∧
    t.token.text = ""
  /-- All other tokens are lexemes, and no end tokens. -/
  lexeme : ∀ t ∈ ts.dropLast, t.Lexeme s ∧ t.token.kind ≠ .eof

/-! ## Single tokens -/

namespace Placed

variable {s : List Char} {t u : Placed}

theorem eq_of_fields (hoffset : t.offset = u.offset) (hkind : t.token.kind = u.token.kind)
    (htext : t.token.text = u.token.text) (hlocation : t.token.location = u.token.location) :
    t = u := by
  rcases t with ⟨i, k, text, location⟩
  rcases u with ⟨j, k', text', location'⟩
  cases hoffset
  cases hkind
  cases htext
  cases hlocation
  rfl

theorem Lexeme.kind_ne_eof (h : t.Lexeme s) : t.token.kind ≠ .eof := by
  cases h with
  | number hkind =>
    rw [hkind]
    exact Kind.noConfusion
  | spelled ch htext hkind => exact (Kind.ne_of_ofChar? hkind).2

/-- A token that is a slice holds the characters of the text at its offsets. -/
theorem Sound.getElem?_text (h : t.Sound s) {i : Nat} (hi : i < t.token.text.length) :
    s[t.offset + i]? = t.token.text.toList[i]? := by
  rw [← h.slice_eq, List.getElem?_take_of_lt hi, List.getElem?_drop]

/-- A digit is neither blank nor the spelling of a kind. -/
theorem digit_cases {ch : Char} (h : ch ∈ Literal.digits) :
    ch ∉ blanks ∧ Kind.ofChar? ch = none := by
  have hdigit := (Literal.isDigit_iff_mem_digits ch).2 h
  refine ⟨notMem_blanks_of_isDigit hdigit, ?_⟩
  cases hk : Kind.ofChar? ch with
  | none => rfl
  | some k =>
    rw [(Kind.spelling?_cases (Kind.spelling?_of_ofChar? hk)).2] at hdigit
    cases hdigit

/-- No character of a lexeme is blank. -/
theorem Lexeme.notMem_blanks (h : t.Lexeme s) : ∀ ch ∈ t.token.text.toList, ch ∉ blanks := by
  intro ch hch
  cases h with
  | number hkind hne hdigits => exact (digit_cases (hdigits ch hch)).1
  | spelled d htext hkind =>
    obtain rfl : ch = d := by simpa [htext] using hch
    exact (Kind.spelling?_cases (Kind.spelling?_of_ofChar? hkind)).1

/-- The first character of a lexeme tells its kind. -/
theorem Lexeme.exists_head (h : t.Lexeme s) (hs : t.Sound s) :
    ∃ ch, ch ∈ t.token.text.toList ∧ s[t.offset]? = some ch ∧
      (ch ∈ Literal.digits ∧ t.token.kind = .number ∨ Kind.ofChar? ch = some t.token.kind) := by
  have hfirst : ∀ ch tail, t.token.text.toList = ch :: tail → s[t.offset]? = some ch := by
    intro ch tail htext
    have hget := hs.getElem?_text (i := 0) (by rw [← String.length_toList, htext]; simp)
    rwa [htext] at hget
  cases h with
  | number hkind hne hdigits =>
    obtain ⟨ch, tail, htext⟩ : ∃ ch tail, t.token.text.toList = ch :: tail := by
      apply List.exists_cons_of_ne_nil
      simpa using hne
    have hmem : ch ∈ t.token.text.toList := by simp [htext]
    exact ⟨ch, hmem, hfirst ch tail htext, Or.inl ⟨hdigits ch hmem, hkind⟩⟩
  | spelled ch htext hkind =>
    exact ⟨ch, by simp [htext], hfirst ch [] (by simp [htext]), Or.inr hkind⟩

theorem Lexeme.offset_lt_stop (h : t.Lexeme s) (hs : t.Sound s) : t.offset < t.stop := by
  obtain ⟨ch, hmem, -⟩ := h.exists_head hs
  have hlen := List.length_pos_of_mem hmem
  rw [String.length_toList] at hlen
  rw [stop]
  omega

/-- Two lexemes at the same offset are of one kind. -/
theorem Lexeme.kind_eq (h : t.Lexeme s) (ht : t.Sound s) (h' : u.Lexeme s) (hu : u.Sound s)
    (hoffset : t.offset = u.offset) : t.token.kind = u.token.kind := by
  obtain ⟨ch, -, hch, hkind⟩ := h.exists_head ht
  obtain ⟨ch', -, hch', hkind'⟩ := h'.exists_head hu
  rw [hoffset, hch'] at hch
  cases hch
  -- The character is a digit or spells a kind, and never both.
  rcases hkind with ⟨hdigit, hk⟩ | hk
  · rcases hkind' with ⟨-, hk'⟩ | hk'
    · rw [hk, hk']
    · rw [(digit_cases hdigit).2] at hk'
      cases hk'
  · rcases hkind' with ⟨hdigit, -⟩ | hk'
    · rw [(digit_cases hdigit).2] at hk
      cases hk
    · exact Option.some.inj (hk.symm.trans hk')

/-- A lexeme is no longer than another one at the same offset. -/
theorem Lexeme.stop_le (h : t.Lexeme s) (ht : t.Sound s) (h' : u.Lexeme s) (hu : u.Sound s)
    (hoffset : t.offset = u.offset) : t.stop ≤ u.stop := by
  have hkinds := h.kind_eq ht h' hu hoffset
  have hpos := h'.offset_lt_stop hu
  cases h with
  | spelled ch htext hkind =>
    have hstop : t.stop = t.offset + 1 := by simp [stop, htext]
    omega
  | number hkind hne hdigits hleft hright =>
    cases h' with
    | spelled ch htext hk =>
      rw [← hkinds] at hk
      exact absurd hkind (Kind.ne_of_ofChar? hk).1
    | number hkind' hne' hdigits' hleft' hright' =>
      -- Otherwise a digit of the longer run would stand right behind the shorter one.
      by_contra hlt
      have hin : u.token.text.length < t.token.text.length := by
        simp only [stop] at hlt
        omega
      have hget := ht.getElem?_text hin
      have hlist : u.token.text.length < t.token.text.toList.length := by
        rwa [String.length_toList]
      rw [hoffset, List.getElem?_eq_getElem hlist] at hget
      exact hright' _ hget (hdigits _ (List.getElem_mem hlist))

/-- Two lexemes at the same offset are one. -/
theorem Lexeme.unique (h : t.Lexeme s) (ht : t.Sound s) (h' : u.Lexeme s) (hu : u.Sound s)
    (hoffset : t.offset = u.offset) : t = u := by
  have hstop : t.stop = u.stop :=
    Nat.le_antisymm (h.stop_le ht h' hu hoffset) (h'.stop_le hu h ht hoffset.symm)
  have hlen : t.token.text.length = u.token.text.length := by
    simp only [stop] at hstop
    omega
  have htext : t.token.text = u.token.text := by
    apply String.toList_inj.1
    rw [← ht.slice_eq, ← hu.slice_eq, hoffset, hlen]
  have hlocation : t.token.location = u.token.location := by
    rw [ht.location_eq, hu.location_eq, hoffset]
  exact eq_of_fields hoffset (h.kind_eq ht h' hu hoffset) htext hlocation

end Placed

/-! ## Tilings and their first tokens -/

namespace Tiling

variable {s : List Char} {start : Nat} {t u v : Placed} {ts us : List Placed}

/-- Where nothing but blanks is left, the end token alone is a tiling. -/
theorem finish (hle : start ≤ s.length) (hs : t.Sound s) (hoffset : t.offset = s.length)
    (hkind : t.token.kind = .eof) (htext : t.token.text = "")
    (hblank : ∀ i ch, start ≤ i → s[i]? = some ch → ch ∈ blanks) : Tiling s start [t] where
  sound := by simpa using hs
  le_offset := by simpa [hoffset] using hle
  ordered := List.pairwise_singleton _ _
  blank i ch hi hch _ := hblank i ch hi hch
  ending := ⟨t, rfl, hoffset, hkind, htext⟩
  lexeme := by simp

/-- A lexeme behind blanks goes before a tiling that starts where it stops. -/
theorem cons (h : Tiling s t.stop ts) (hs : t.Sound s) (hl : t.Lexeme s) (hle : start ≤ t.offset)
    (hgap : ∀ i ch, start ≤ i → i < t.offset → s[i]? = some ch → ch ∈ blanks) :
    Tiling s start (t :: ts) := by
  have hpos := hl.offset_lt_stop hs
  obtain ⟨e, hlast, hend⟩ := h.ending
  have hne : ts ≠ [] := by
    rintro rfl
    cases hlast
  constructor
  · intro u hu
    rcases List.mem_cons.1 hu with rfl | hu
    · exact hs
    · exact h.sound u hu
  · intro u hu
    rcases List.mem_cons.1 hu with rfl | hu
    · exact hle
    · have := h.le_offset u hu
      omega
  · refine List.pairwise_cons.2 ⟨fun u hu => ?_, h.ordered⟩
    have := h.le_offset u hu
    exact ⟨by omega, this⟩
  · -- A character outside of all tokens is before the first one or behind it.
    intro i ch hi hch hfree
    by_cases hbefore : i < t.offset
    · exact hgap i ch hi hbefore hch
    · have hbehind : t.stop ≤ i := by
        have := hfree t List.mem_cons_self
        omega
      exact h.blank i ch hbehind hch fun u hu => hfree u (List.mem_cons_of_mem t hu)
  · exact ⟨e, by rw [List.getLast?_cons, hlast]; rfl, hend⟩
  · intro u hu
    rw [List.dropLast_cons_of_ne_nil hne] at hu
    rcases List.mem_cons.1 hu with rfl | hu
    · exact ⟨hl, hl.kind_ne_eof⟩
    · exact h.lexeme u hu

theorem ne_nil (h : Tiling s start ts) : ts ≠ [] := by
  obtain ⟨t, hlast, -⟩ := h.ending
  rintro rfl
  cases hlast

/-- Before the first token all is blank. -/
theorem gap (h : Tiling s start (t :: ts)) {i : Nat} {ch : Char} (hi : start ≤ i)
    (hlt : i < t.offset) (hch : s[i]? = some ch) : ch ∈ blanks := by
  apply h.blank i ch hi hch
  intro u hu
  rcases List.mem_cons.1 hu with rfl | hu
  · omega
  · have := (List.rel_of_pairwise_cons h.ordered hu).1
    omega

theorem head_sound (h : Tiling s start (t :: ts)) : t.Sound s :=
  h.sound t List.mem_cons_self

/-- The first of several tokens is a lexeme. -/
theorem head_lexeme (h : Tiling s start (t :: u :: ts)) : t.Lexeme s :=
  (h.lexeme t (by simp)).1

/-- A single token is the end token. -/
theorem last_ends (h : Tiling s start [t]) :
    t.offset = s.length ∧ t.token.kind = .eof ∧ t.token.text = "" := by
  obtain ⟨e, hlast, hend⟩ := h.ending
  cases hlast
  exact hend

/-- Behind the first of several tokens starts a tiling. -/
theorem tail (h : Tiling s start (t :: u :: ts)) : Tiling s t.stop (u :: ts) := by
  have hpos := h.head_lexeme.offset_lt_stop h.head_sound
  have hstart := h.le_offset t List.mem_cons_self
  constructor
  · exact fun v hv => h.sound v (List.mem_cons_of_mem t hv)
  · exact fun v hv => (List.rel_of_pairwise_cons h.ordered hv).2
  · exact h.ordered.of_cons
  · intro i ch hi hch hfree
    apply h.blank i ch (by omega) hch
    intro v hv
    rcases List.mem_cons.1 hv with rfl | hv
    · omega
    · exact hfree v hv
  · simpa using h.ending
  · intro v hv
    exact h.lexeme v (by simp [hv])

/-! ## The tiling of a text -/

/-- A character that is not blank stands nowhere before the first token. -/
theorem offset_le (h : Tiling s start (t :: ts)) {i : Nat} {ch : Char} (hi : start ≤ i)
    (hch : s[i]? = some ch) (hblank : ch ∉ blanks) : t.offset ≤ i := by
  by_contra hlt
  exact hblank (h.gap hi (Nat.not_le.1 hlt) hch)

/-- The first of several tokens is not behind the first token of another tiling. -/
theorem head_offset_le (h : Tiling s start (t :: v :: ts)) (h' : Tiling s start (u :: us)) :
    u.offset ≤ t.offset := by
  -- A lexeme does not begin with a blank, so the other tiling has begun there.
  obtain ⟨ch, -, hch, hkind⟩ := h.head_lexeme.exists_head h.head_sound
  refine h'.offset_le (h.le_offset t List.mem_cons_self) hch ?_
  rcases hkind with ⟨hdigit, -⟩ | hk
  · exact (Placed.digit_cases hdigit).1
  · exact (Kind.spelling?_cases (Kind.spelling?_of_ofChar? hk)).1

/-- An end token at the end of the text leaves no room for a lexeme. -/
theorem not_several (h : Tiling s start [t]) (h' : Tiling s start (u :: v :: us)) : False := by
  obtain ⟨ch, -, hch, -⟩ := h'.head_lexeme.exists_head h'.head_sound
  have hin : u.offset < s.length := (List.getElem?_eq_some_iff.1 hch).1
  have hle := h'.head_offset_le h
  rw [h.last_ends.1] at hle
  omega

/-- A text has no two tilings. The induction is on the one; the other is taken apart along with
it. -/
theorem unique (h : Tiling s start ts) (h' : Tiling s start us) : ts = us := by
  induction ts generalizing start us with
  | nil => exact absurd rfl h.ne_nil
  | cons t ts ih =>
    obtain ⟨u, us, rfl⟩ := List.exists_cons_of_ne_nil h'.ne_nil
    cases ts with
    | nil =>
      cases us with
      | nil =>
        obtain ⟨hoffset, hkind, htext⟩ := h.last_ends
        obtain ⟨hoffset', hkind', htext'⟩ := h'.last_ends
        have heq : t.offset = u.offset := hoffset.trans hoffset'.symm
        have hlocation : t.token.location = u.token.location := by
          rw [h.head_sound.location_eq, h'.head_sound.location_eq, heq]
        rw [Placed.eq_of_fields heq (hkind.trans hkind'.symm) (htext.trans htext'.symm) hlocation]
      | cons u' us => exact (h.not_several h').elim
    | cons t' ts =>
      cases us with
      | nil => exact (h'.not_several h).elim
      | cons u' us =>
        -- Neither first token is behind the other, and at one offset there is only one lexeme.
        have hoffset : t.offset = u.offset :=
          Nat.le_antisymm (h'.head_offset_le h) (h.head_offset_le h')
        obtain rfl := h.head_lexeme.unique h.head_sound h'.head_lexeme h'.head_sound hoffset
        rw [ih h.tail h'.tail]

/-- From the start of a tiling, the text goes on with blanks and the first token. -/
theorem exists_drop_eq (h : Tiling s start (t :: ts)) :
    ∃ gap, s.drop start = gap ++ (t.token.text.toList ++ s.drop t.stop) ∧
      ∀ ch ∈ gap, ch ∈ blanks := by
  have hstart := h.le_offset t List.mem_cons_self
  refine ⟨(s.drop start).take (t.offset - start), ?_, ?_⟩
  · have hbehind : (s.drop start).drop (t.offset - start) = s.drop t.offset := by
      rw [List.drop_drop, Nat.add_sub_cancel' hstart]
    rw [← h.head_sound.slice_eq, Placed.stop, ← List.drop_drop, List.take_append_drop, ← hbehind,
      List.take_append_drop]
  · intro ch hch
    obtain ⟨i, hi⟩ := List.mem_iff_getElem?.1 hch
    rw [List.getElem?_take, List.getElem?_drop] at hi
    split at hi
    · next hlt => exact h.gap (Nat.le_add_right start i) (by omega) hi
    · cases hi

/-- The texts of the tokens, one after the other, are the text without its blanks. -/
theorem flatMap_text (h : Tiling s start ts) :
    (ts.flatMap fun t => t.token.text.toList) = (s.drop start).filter fun ch => ch ∉ blanks := by
  induction ts generalizing start with
  | nil => exact absurd rfl h.ne_nil
  | cons t ts ih =>
    obtain ⟨gap, hdrop, hgap⟩ := h.exists_drop_eq
    -- Of what comes before the second token, the gap is left out and the first token is kept.
    have hskip : gap.filter (fun ch => decide (ch ∉ blanks)) = [] := by
      simpa using hgap
    rw [List.flatMap_cons, hdrop, List.filter_append, List.filter_append, hskip, List.nil_append]
    cases ts with
    | nil =>
      obtain ⟨hoffset, -, htext⟩ := h.last_ends
      simp [htext, Placed.stop, hoffset]
    | cons u ts =>
      have hkeep : t.token.text.toList.filter (fun ch => decide (ch ∉ blanks)) =
          t.token.text.toList := by
        simpa using h.head_lexeme.notMem_blanks
      rw [ih h.tail, hkeep]

end Tiling

end ArithSyntax
