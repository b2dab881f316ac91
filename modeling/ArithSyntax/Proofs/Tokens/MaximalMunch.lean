import ArithSyntax.Proofs.Tokens.Tiling

/-!
# Reading tokens is maximal munch

A text whose characters all belong to the alphabet is read into the tokens of its one tiling; any
other text is refused at the first character that does not belong, with the location of that
character (`tokenize_maximalMunch`).

The induction is over the reading of one token after the other. What it carries is that the cursor
stands in the text and at an edge: not between two digits, so that the next number cannot be the end
of a longer one.
-/

set_option autoImplicit false

namespace ArithSyntax

/-- The characters that texts of expressions are made of. -/
def alphabet : List Char :=
  Literal.digits ++ blanks ++ ['+', '-', '*', '/', '^', '!', '(', ')']

/-- The alphabet are the digits, the blanks, and the characters that spell a kind. -/
theorem mem_alphabet_iff {ch : Char} :
    ch ∈ alphabet ↔ ch ∈ Literal.digits ∨ ch ∈ blanks ∨ ∃ k, Kind.ofChar? ch = some k := by
  have hspelled : ch ∈ ['+', '-', '*', '/', '^', '!', '(', ')'] ↔
      ∃ k, Kind.ofChar? ch = some k := by
    constructor
    · intro h
      simp only [List.mem_cons, List.not_mem_nil, or_false] at h
      rcases h with rfl | rfl | rfl | rfl | rfl | rfl | rfl | rfl <;> exact ⟨_, rfl⟩
    · rintro ⟨k, hk⟩
      have hspell := Kind.spelling?_of_ofChar? hk
      cases k <;> cases hspell <;> decide
  simp only [alphabet, List.mem_append, hspelled, or_assoc]

/-- A character that begins no token does not belong to the alphabet. -/
theorem notMem_alphabet {ch : Char} (hblank : ch ∉ blanks) (hdigit : ch.isDigit = false)
    (hk : Kind.ofChar? ch = none) : ch ∉ alphabet := by
  rw [mem_alphabet_iff, ← Literal.isDigit_iff_mem_digits, hdigit, hk]
  simp [hblank]

/-- The first character from the offset `start` on that does not belong to the alphabet. -/
structure FirstForeign (s : List Char) (start i : Nat) (ch : Char) : Prop where
  le : start ≤ i
  getElem?_eq : s[i]? = some ch
  foreign : ch ∉ alphabet
  first : ∀ j ch', start ≤ j → j < i → s[j]? = some ch' → ch' ∈ alphabet

/-- What the text holds from the offset `start` on: a tiling, whose tokens are read, or a character
that is refused. -/
inductive Lexed (s : List Char) (start : Nat) : Scanned (List Token) → Prop
  | tiled {ts : List Placed} (h : Tiling s start ts) (rest : Cursor) :
      Lexed s start (.ok (ts.map Placed.token) rest)
  | foreign {i : Nat} {ch : Char} (h : FirstForeign s start i ch) (rest : Cursor) :
      Lexed s start (.error ⟨String.singleton ch, .ofOffset s i⟩ rest)

namespace Placed

variable {s : List Char} {t : Placed}

/-- Every character of a lexeme belongs to the alphabet. -/
theorem Lexeme.mem_alphabet (h : t.Lexeme s) : ∀ ch ∈ t.token.text.toList, ch ∈ alphabet := by
  intro ch hch
  cases h with
  | number hkind hne hdigits => exact mem_alphabet_iff.2 (Or.inl (hdigits ch hch))
  | spelled d htext hkind =>
    obtain rfl : ch = d := by simpa [htext] using hch
    exact mem_alphabet_iff.2 (Or.inr (Or.inr ⟨_, hkind⟩))

/-- The characters between the offset of a token and its stop are those of its text. -/
theorem Sound.mem_text (h : t.Sound s) {i : Nat} {ch : Char} (hi : t.offset ≤ i)
    (hlt : i < t.stop) (hch : s[i]? = some ch) : ch ∈ t.token.text.toList := by
  obtain ⟨j, rfl⟩ := Nat.exists_eq_add_of_le hi
  rw [h.getElem?_text (by rw [stop] at hlt; omega)] at hch
  exact List.mem_of_getElem? hch

end Placed

variable {s : List Char} {start : Nat}

/-- A text that has a tiling holds no foreign character. -/
theorem Tiling.mem_alphabet {ts : List Placed} (h : Tiling s start ts) {i : Nat} {ch : Char}
    (hi : start ≤ i) (hch : s[i]? = some ch) : ch ∈ alphabet := by
  by_cases hfree : ∀ t ∈ ts, ¬(t.offset ≤ i ∧ i < t.stop)
  · exact mem_alphabet_iff.2 (Or.inr (Or.inl (h.blank i ch hi hch hfree)))
  · -- A token that takes a character is no end token, which takes none.
    simp only [not_forall, Classical.not_not] at hfree
    obtain ⟨t, ht, hle, hlt⟩ := hfree
    obtain ⟨e, hlast, -, -, htext⟩ := h.ending
    obtain ⟨front, rfl⟩ := List.getLast?_eq_some_iff.1 hlast
    have hs := h.sound t ht
    rcases List.mem_append.1 ht with ht | ht
    · have hl := (h.lexeme t (by simpa using ht)).1
      exact hl.mem_alphabet ch (hs.mem_text hle hlt hch)
    · obtain rfl := List.mem_singleton.1 ht
      simp only [Placed.stop, htext, String.length_empty] at hlt
      omega

/-- A lexeme behind blanks goes before what the text holds from its stop on. -/
theorem Lexed.cons {t : Placed} {rest : Cursor} {c : Cursor} (h : Lexed s t.stop rest.tokens)
    (hnext : c.nextToken = .ok t.token rest) (hs : t.Sound s) (hl : t.Lexeme s)
    (hle : start ≤ t.offset)
    (hgap : ∀ i ch, start ≤ i → i < t.offset → s[i]? = some ch → ch ∈ blanks) :
    Lexed s start c.tokens := by
  rw [Cursor.tokens_eq, hnext]
  simp only [hl.kind_ne_eof, if_false]
  have hpos := hl.offset_lt_stop hs
  generalize rest.tokens = result at h
  cases h with
  | tiled h last => exact .tiled (h.cons hs hl hle hgap) last
  | @foreign i ch h last =>
    refine .foreign ⟨?_, h.getElem?_eq, h.foreign, ?_⟩ last
    · have := h.le
      omega
    · -- What comes before it is a blank, a character of the token, or behind the token.
      intro j ch' hj hlt hch'
      by_cases hbefore : j < t.offset
      · exact mem_alphabet_iff.2 (Or.inr (Or.inl (hgap j ch' hj hbefore hch')))
      · by_cases hin : j < t.stop
        · exact hl.mem_alphabet ch' (hs.mem_text (Nat.not_lt.1 hbefore) hin hch')
        · exact h.first j ch' (Nat.not_lt.1 hin) hlt hch'

namespace Cursor

variable {c : Cursor}

/-- The cursor does not stand between two digits. -/
def AtEdge (s : List Char) (c : Cursor) : Prop :=
  ∀ i ch ch', i + 1 = c.position → s[i]? = some ch → s[c.position]? = some ch' →
    ¬(ch ∈ Literal.digits ∧ ch' ∈ Literal.digits)

/-- The characters that a run takes are those at the offsets from the cursor on. -/
theorem InText.mem_run (h : c.InText s) {run tail : List Char} (hrun : c.unread = run ++ tail)
    {i : Nat} {ch : Char} (hi : c.position ≤ i) (hlt : i < c.position + run.length)
    (hch : s[i]? = some ch) : ch ∈ run := by
  obtain ⟨j, rfl⟩ := Nat.exists_eq_add_of_le hi
  rw [← h.getElem?_unread, hrun, List.getElem?_append_left (by omega)] at hch
  exact List.mem_of_getElem? hch

/-- Behind characters that are no digits is an edge; where nothing is passed, the edge is where it
was. -/
theorem InText.atEdge_past (h : c.InText s) (hedge : c.AtEdge s) {run tail : List Char}
    (hrun : c.unread = run ++ tail) (hnone : ∀ ch ∈ run, ch ∉ Literal.digits) :
    (c.past run).AtEdge s := by
  cases run with
  | nil => exact hedge
  | cons b run =>
    intro i ch ch' hi hch _ hdigits
    have hpos : (c.past (b :: run)).position = c.position + (run.length + 1) := rfl
    have hmem : ch ∈ b :: run :=
      h.mem_run hrun (by omega) (by rw [List.length_cons]; omega) hch
    exact hnone ch hmem hdigits.1

/-- Before a character that is no digit is an edge. -/
theorem InText.atEdge_of_head (h : c.InText s)
    (hhead : ∀ ch ∈ c.unread.head?, ch ∉ Literal.digits) : c.AtEdge s := by
  intro i ch ch' _ _ hch' hdigits
  rw [h.getElem?_position] at hch'
  exact hhead ch' hch' hdigits.2

/-- A token whose text is read from a cursor is a slice of the text at the cursor's position. -/
theorem InText.sound (h : c.InText s) {run tail : List Char} (hrun : c.unread = run ++ tail)
    {text : String} (htext : text.toList = run) (k : Kind) :
    (Placed.mk c.position ⟨k, text, c.location⟩).Sound s where
  slice_eq := by
    show (s.drop c.position).take text.length = text.toList
    rw [← h.unread_eq, hrun, htext, ← String.length_toList, htext, List.take_left]
  location_eq := h.location_eq

/-- The token stops where the cursor comes to by passing its text. -/
theorem stop_eq_position_past (c : Cursor) {run : List Char} {text : String}
    (htext : text.toList = run) (k : Kind) :
    (Placed.mk c.position ⟨k, text, c.location⟩).stop = (c.past run).position := by
  show c.position + text.length = c.position + run.length
  rw [← String.length_toList, htext]

/-- A longest run of digits at an edge is a lexeme. -/
theorem InText.lexeme_number (h : c.InText s) (hedge : c.AtEdge s) {run tail : List Char}
    (hrun : c.unread = run ++ tail) (hne : run ≠ [])
    (hdigits : ∀ ch ∈ run, ch.isDigit = true) (htail : ∀ ch ∈ tail.head?, ch.isDigit = false) :
    (Placed.mk c.position ⟨.number, String.ofList run, c.location⟩).Lexeme s := by
  have hmem : ∀ ch ∈ run, ch ∈ Literal.digits :=
    fun ch hch => (Literal.isDigit_iff_mem_digits ch).1 (hdigits ch hch)
  have hget : ∀ i, s[c.position + i]? = (run ++ tail)[i]? := by
    intro i
    rw [← h.getElem?_unread, hrun]
  apply Placed.Lexeme.number rfl
  · simpa using hne
  · simpa using hmem
  · intro i ch hi hch hdigit
    obtain ⟨d, run, rfl⟩ := List.exists_cons_of_ne_nil hne
    exact hedge i ch d hi hch (hget 0) ⟨hdigit, hmem d List.mem_cons_self⟩
  · intro ch hch hdigit
    have hstop : (Placed.mk c.position ⟨.number, String.ofList run, c.location⟩).stop =
        c.position + run.length := c.stop_eq_position_past String.toList_ofList .number
    rw [hstop, hget, List.getElem?_append_right (Nat.le_refl _), Nat.sub_self,
      ← List.head?_eq_getElem?] at hch
    rw [← Literal.isDigit_iff_mem_digits, htail ch hch] at hdigit
    cases hdigit

end Cursor

/-! ## One token after the other -/

/-- The cursor `mid` stands at an edge of the text, behind nothing but blanks from `start` on. -/
structure Approach (s : List Char) (start : Nat) (mid : Cursor) : Prop where
  inText : mid.InText s
  atEdge : mid.AtEdge s
  le : start ≤ mid.position
  blank : ∀ i ch, start ≤ i → i < mid.position → s[i]? = some ch → ch ∈ blanks

/-- The next token is read by one of the rules, behind blanks. -/
theorem Cursor.InText.exists_approach {c : Cursor} (h : c.InText s) (hedge : c.AtEdge s) :
    ∃ mid, Approach s c.position mid ∧ Scans mid c.nextToken := by
  obtain ⟨gap, tail, hgap, hblank, -, hscan⟩ := c.nextToken_scans
  refine ⟨c.past gap, ⟨h.past hgap, ?_, Nat.le_add_right _ _, ?_⟩, hscan⟩
  · apply h.atEdge_past hedge hgap
    intro ch hch hdigit
    exact (Placed.digit_cases hdigit).1 (hblank ch hch)
  · intro i ch hi hlt hch
    exact hblank ch (h.mem_run hgap hi hlt hch)

namespace Approach

variable {c mid : Cursor} {ch : Char} {tail : List Char}

/-- At the end of the text, an end token is all that is read. -/
theorem lexed_atEnd (h : Approach s start mid) (hend : mid.unread = [])
    (hnext : c.nextToken = .ok ⟨.eof, "", mid.location⟩ mid) : Lexed s start c.tokens := by
  have hlen : mid.position = s.length := h.inText.unread_eq_nil_iff.1 hend
  have hstart := h.le
  have hsound : (Placed.mk mid.position ⟨.eof, "", mid.location⟩).Sound s :=
    h.inText.sound (List.nil_append mid.unread).symm rfl .eof
  have htiling : Tiling s start [⟨mid.position, ⟨.eof, "", mid.location⟩⟩] := by
    apply Tiling.finish (by omega) hsound hlen rfl rfl
    intro i ch hi hch
    have hin : i < s.length := (List.getElem?_eq_some_iff.1 hch).1
    exact h.blank i ch hi (by omega) hch
  rw [Cursor.tokens_eq, hnext]
  exact .tiled htiling mid

/-- A foreign character is refused where it stands. -/
theorem lexed_refused (h : Approach s start mid) (hch : mid.unread = ch :: tail)
    (hblank : ch ∉ blanks) (hdigit : ch.isDigit = false) (hk : Kind.ofChar? ch = none)
    (hnext : c.nextToken = .error ⟨String.singleton ch, mid.location⟩ mid) :
    Lexed s start c.tokens := by
  have hget : s[mid.position]? = some ch := by
    rw [h.inText.getElem?_position, hch]
    rfl
  rw [Cursor.tokens_eq, hnext, h.inText.location_eq]
  refine .foreign ⟨h.le, hget, notMem_alphabet hblank hdigit hk, ?_⟩ mid
  intro j ch' hj hlt hch'
  exact mem_alphabet_iff.2 (Or.inr (Or.inl (h.blank j ch' hj hlt hch')))

/-- Behind a longest run of digits is an edge. -/
theorem atEdge_past_digits (h : Approach s start mid) {run : List Char}
    (hrun : mid.unread = run ++ tail) (htail : ∀ ch ∈ tail.head?, ch.isDigit = false) :
    (mid.past run).AtEdge s := by
  apply (h.inText.past hrun).atEdge_of_head
  intro ch hch
  rw [Cursor.unread_past hrun] at hch
  rw [← Literal.isDigit_iff_mem_digits, htail ch hch]
  exact Bool.false_ne_true

/-- Behind a character that spells a kind is an edge. -/
theorem atEdge_past_spelled (h : Approach s start mid) {k : Kind} (hch : mid.unread = ch :: tail)
    (hk : Kind.ofChar? ch = some k) : (mid.past [ch]).AtEdge s := by
  have hrun : mid.unread = [ch] ++ tail := hch
  apply h.inText.atEdge_past h.atEdge hrun
  intro d hd hdigit
  obtain rfl := List.mem_singleton.1 hd
  rw [(Placed.digit_cases hdigit).2] at hk
  cases hk

/-- A token goes before what is read behind it. -/
theorem lexed_token (h : Approach s start mid) {run : List Char} {text : String} {k : Kind}
    (hrun : mid.unread = run ++ tail) (htext : text.toList = run)
    (hl : (Placed.mk mid.position ⟨k, text, mid.location⟩).Lexeme s)
    (hnext : c.nextToken = .ok ⟨k, text, mid.location⟩ (mid.past run))
    (hrest : Lexed s (mid.past run).position (mid.past run).tokens) : Lexed s start c.tokens := by
  rw [← mid.stop_eq_position_past htext k] at hrest
  exact hrest.cons hnext (h.inText.sound hrun htext k) hl h.le h.blank

end Approach

/-- From a cursor at an edge, the tokens of the text's tiling are read, or its first foreign
character is refused. The induction is on the number of unread characters, of which every token but
the end takes one. -/
theorem Cursor.tokens_lexed {c : Cursor} (h : c.InText s) (hedge : c.AtEdge s) :
    Lexed s c.position c.tokens := by
  induction hn : c.unread.length using Nat.strong_induction_on generalizing c with
  | _ n ih =>
    subst hn
    obtain ⟨mid, happroach, hscan⟩ := h.exists_approach hedge
    generalize hnext : c.nextToken = result at hscan
    cases hscan with
    | atEnd hend => exact happroach.lexed_atEnd hend hnext
    | refused hch hblank hdigit hk => exact happroach.lexed_refused hch hblank hdigit hk hnext
    | @number run tail hrun hne hdigits htail =>
      -- The edge says that no digit stands before the run, and the rule that none stands behind.
      have hl := happroach.inText.lexeme_number happroach.atEdge hrun hne hdigits htail
      apply happroach.lexed_token hrun String.toList_ofList hl hnext
      exact ih _ (nextToken_shortens hnext Kind.noConfusion) (happroach.inText.past hrun)
        (happroach.atEdge_past_digits hrun htail) rfl
    | @spelled ch tail k hch hk =>
      have hrun : mid.unread = [ch] ++ tail := hch
      apply happroach.lexed_token hrun (String.toList_singleton ch) (.spelled ch rfl hk) hnext
      exact ih _ (nextToken_shortens hnext (Kind.ne_of_ofChar? hk).2)
        (happroach.inText.past hrun) (happroach.atEdge_past_spelled hch hk) rfl

/-! ## Whole texts -/

/-- A text from its start on. -/
theorem tokenize_lexed (source : String) :
    Lexed source.toList 0 (Cursor.ofSource source).tokens := by
  apply Cursor.tokens_lexed (Cursor.inText_ofSource source)
  intro i ch ch' hi
  cases hi

/-- No two characters are the first foreign one. -/
theorem FirstForeign.unique {i j : Nat} {ch ch' : Char} (h : FirstForeign s start i ch)
    (h' : FirstForeign s start j ch') : i = j ∧ ch = ch' := by
  have hij : i = j := by
    apply Nat.le_antisymm
    · by_contra hlt
      exact h'.foreign (h.first j ch' h'.le (Nat.not_le.1 hlt) h'.getElem?_eq)
    · by_contra hlt
      exact h.foreign (h'.first i ch h.le (Nat.not_le.1 hlt) h.getElem?_eq)
  subst hij
  exact ⟨rfl, Option.some.inj (h.getElem?_eq.symm.trans h'.getElem?_eq)⟩

/-- The tokens of a text are those of its one tiling, and a text that has none is refused at its
first foreign character. -/
theorem tokenize_maximalMunch (source : String) :
    (∀ i ch, source.toList[i]? = some ch → ch ∉ alphabet →
      (∀ j ch', j < i → source.toList[j]? = some ch' → ch' ∈ alphabet) →
        tokenize source = .error ⟨String.singleton ch, .ofOffset source.toList i⟩) ∧
    ((∀ ch ∈ source.toList, ch ∈ alphabet) →
      ∃ ts, tokenize source = .ok (ts.map Placed.token) ∧ Tiling source.toList 0 ts ∧
        (∀ ts', Tiling source.toList 0 ts' → ts' = ts) ∧
        (ts.flatMap fun t => t.token.text.toList) =
          source.toList.filter fun ch => ch ∉ blanks) := by
  have hlexed := tokenize_lexed source
  rw [tokenize]
  generalize (Cursor.ofSource source).tokens = result at hlexed
  constructor
  · intro i ch hch hforeign hfirst
    cases hlexed with
    | tiled h rest => exact absurd (h.mem_alphabet (Nat.zero_le i) hch) hforeign
    | @foreign j ch' h rest =>
      obtain ⟨rfl, rfl⟩ := h.unique ⟨Nat.zero_le i, hch, hforeign, fun j ch' _ => hfirst j ch'⟩
      rfl
  · intro hall
    cases hlexed with
    | @tiled ts h rest => exact ⟨ts, rfl, h, fun ts' h' => h'.unique h, h.flatMap_text⟩
    | foreign h rest => exact absurd (hall _ (List.mem_of_getElem? h.getElem?_eq)) h.foreign

/-- `12` and `(3` on two lines have one tiling, and the first foreign character of `12`, `$3%` on
two lines begins the second line. -/
theorem tokenize_twoLines :
    (∀ ch ∈ "12\n (3".toList, ch ∈ alphabet) ∧
      (∃ ts, tokenize "12\n (3" = .ok (ts.map Placed.token) ∧ Tiling "12\n (3".toList 0 ts) ∧
      "12\n$3%".toList[3]? = some '$' ∧ '$' ∉ alphabet ∧
      tokenize "12\n$3%" = .error ⟨"$", ⟨2, 1⟩⟩ := by
  have hall : ∀ ch ∈ "12\n (3".toList, ch ∈ alphabet := by
    intro ch hch
    have hcases : ch ∈ ['1', '2', '\n', ' ', '(', '3'] := hch
    simp only [List.mem_cons, List.not_mem_nil, or_false] at hcases
    rcases hcases with rfl | rfl | rfl | rfl | rfl | rfl <;> decide
  have hforeign : '$' ∉ alphabet := by decide
  have hfirst : ∀ j ch, j < 3 → "12\n$3%".toList[j]? = some ch → ch ∈ alphabet := by
    intro j ch hj hch
    obtain rfl | rfl | rfl : j = 0 ∨ j = 1 ∨ j = 2 := by omega
    all_goals
      cases hch
      decide
  obtain ⟨ts, htokens, htiling, -⟩ := (tokenize_maximalMunch "12\n (3").2 hall
  have herror := (tokenize_maximalMunch "12\n$3%").1 3 '$' (by decide) hforeign hfirst
  exact ⟨hall, ⟨ts, htokens, htiling⟩, by decide, hforeign, herror⟩

end ArithSyntax
