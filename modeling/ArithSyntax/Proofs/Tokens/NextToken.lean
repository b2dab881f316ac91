import ArithSyntax.Proofs.Tokens.Offset
import Mathlib.Data.List.TakeWhile

/-!
# The rules of scanning

`Scans` says what is read from a cursor at which no blank is next, with one rule for each way to go
on: the end of the text, a longest run of digits, a character that spells a kind, or a character
that begins no token. `Cursor.nextToken_scans` says that reading the next token passes the blanks
before it and then follows one of these rules, and `Cursor.nextToken_eq_of_scans` that every rule
behind blanks is followed, so nothing else has to look into `Cursor.nextToken`.
-/

set_option autoImplicit false

namespace ArithSyntax

/-- A kind that is spelled by a character is neither the kind of numbers nor that of the end. -/
theorem Kind.ne_of_ofChar? {ch : Char} {k : Kind} (h : Kind.ofChar? ch = some k) :
    k ≠ .number ∧ k ≠ .eof := by
  have hspell := Kind.spelling?_of_ofChar? h
  constructor
  · rintro rfl
    cases hspell
  · rintro rfl
    cases hspell

/-- What spells a kind is neither blank nor a digit. -/
theorem Kind.spelling?_cases {k : Kind} {ch : Char} (h : k.spelling? = some ch) :
    ch ∉ blanks ∧ ch.isDigit = false := by
  cases k <;> cases h <;> decide

theorem notMem_blanks_of_isDigit {ch : Char} (h : ch.isDigit = true) : ch ∉ blanks := by
  intro hblank
  simp only [blanks, List.mem_cons, List.not_mem_nil, or_false] at hblank
  rcases hblank with rfl | rfl | rfl | rfl <;> cases h

/-- No number goes on with the first character of the text. -/
def EndsNumber (text : List Char) : Prop :=
  ∀ ch ∈ text.head?, ch.isDigit = false

theorem endsNumber_of_spelling {k : Kind} {ch : Char} (h : k.spelling? = some ch)
    (text : List Char) : EndsNumber (ch :: text) := by
  intro c hc
  cases hc
  exact (Kind.spelling?_cases h).2

/-- Where no number goes on behind them, the digits at the front of a text are found again. -/
theorem takeWhile_isDigit_append {digits text : List Char}
    (hdigits : ∀ ch ∈ digits, ch.isDigit = true) (htext : EndsNumber text) :
    (digits ++ text).takeWhile Char.isDigit = digits := by
  rw [List.takeWhile_append_of_pos hdigits]
  cases text with
  | nil => rw [List.takeWhile_nil, List.append_nil]
  | cons ch text =>
    rw [List.takeWhile_cons_of_neg (by simp [htext ch rfl]), List.append_nil]

/-- What is read from a cursor that stands before no blank. -/
inductive Scans (c : Cursor) : Scanned Token → Prop
  /-- Nothing is left. The end is read without moving. -/
  | atEnd (h : c.unread = []) : Scans c (.ok ⟨.eof, "", c.location⟩ c)
  /-- A run of digits, as long as it can be. -/
  | number {run tail : List Char} (h : c.unread = run ++ tail) (hne : run ≠ [])
      (hrun : ∀ ch ∈ run, ch.isDigit = true) (htail : ∀ ch ∈ tail.head?, ch.isDigit = false) :
      Scans c (.ok ⟨.number, String.ofList run, c.location⟩ (c.past run))
  /-- A character that spells a kind. -/
  | spelled {ch : Char} {tail : List Char} {k : Kind} (h : c.unread = ch :: tail)
      (hk : Kind.ofChar? ch = some k) :
      Scans c (.ok ⟨k, String.singleton ch, c.location⟩ (c.past [ch]))
  /-- A character that begins no token. It stays unread. -/
  | refused {ch : Char} {tail : List Char} (h : c.unread = ch :: tail) (hblank : ch ∉ blanks)
      (hdigit : ch.isDigit = false) (hk : Kind.ofChar? ch = none) :
      Scans c (.error ⟨String.singleton ch, c.location⟩ c)

namespace Cursor

/-- The first character after the longest run that satisfies `p` does not satisfy it. -/
theorem head?_dropWhile {p : Char → Bool} {cs : List Char} :
    ∀ ch ∈ (cs.dropWhile p).head?, p ch = false := by
  intro ch hch
  have h := List.head?_dropWhile_not p cs
  rw [Option.mem_def.1 hch] at h
  simpa using h

/-- Reading the next token passes a run of blanks, and then follows one of the rules. -/
theorem nextToken_scans (c : Cursor) :
    ∃ gap tail, c.unread = gap ++ tail ∧ (∀ ch ∈ gap, ch ∈ blanks) ∧
      (∀ ch ∈ tail.head?, ch ∉ blanks) ∧ Scans (c.past gap) c.nextToken := by
  let blank : Char → Bool := fun ch => ch ∈ blanks
  have hrest : ∀ ch ∈ (c.unread.dropWhile blank).head?, ch ∉ blanks := by
    intro ch hch
    simpa [blank] using head?_dropWhile ch hch
  have hunread : (c.past (c.unread.takeWhile blank)).unread = c.unread.dropWhile blank :=
    unread_past_takeWhile blank c
  refine ⟨c.unread.takeWhile blank, c.unread.dropWhile blank,
    List.takeWhile_append_dropWhile.symm, ?_, hrest, ?_⟩
  · intro ch hch
    simpa [blank] using List.mem_takeWhile_imp hch
  -- All that matters of the cursor behind the blanks is that no blank is next.
  rw [← hunread] at hrest
  have hstart : (c.takeWhile blank).2 = c.past (c.unread.takeWhile blank) := rfl
  rw [nextToken]
  generalize c.past (c.unread.takeWhile blank) = start at hstart hrest
  rw [hstart]
  cases hc : start.unread with
  | nil =>
    simp only [current?, hc, List.head?_nil]
    exact .atEnd hc
  | cons ch tail =>
    rw [hc] at hrest
    simp only [current?, hc, List.head?_cons]
    by_cases hdigit : ch.isDigit = true
    · rw [if_pos hdigit]
      have hsplit : start.unread = start.unread.takeWhile Char.isDigit ++
          start.unread.dropWhile Char.isDigit := List.takeWhile_append_dropWhile.symm
      apply Scans.number hsplit
      · simp [hc, hdigit]
      · intro d hd
        exact List.mem_takeWhile_imp hd
      · exact head?_dropWhile
    · rw [if_neg hdigit]
      cases hk : Kind.ofChar? ch with
      | some k => exact .spelled hc hk
      | none => exact .refused hc (hrest ch rfl) (Bool.eq_false_iff.2 hdigit) hk

/-- Blanks are skipped up to a character that is not blank. -/
theorem takeWhile_blanks {c : Cursor} {gap tail : List Char} (hgap : c.unread = gap ++ tail)
    (hblank : ∀ ch ∈ gap, ch ∈ blanks) (htail : ∀ ch ∈ tail.head?, ch ∉ blanks) :
    (c.takeWhile fun ch => ch ∈ blanks).2 = c.past gap := by
  have hrun : c.unread.takeWhile (fun ch => decide (ch ∈ blanks)) = gap := by
    rw [hgap, List.takeWhile_append_of_pos (by simpa using hblank)]
    cases tail with
    | nil => rw [List.takeWhile_nil, List.append_nil]
    | cons ch tail =>
      rw [List.takeWhile_cons_of_neg (by simpa using htail ch rfl), List.append_nil]
  rw [takeWhile, hrun]

/-- Behind blanks, the rule that applies is followed. -/
theorem nextToken_eq_of_scans {c : Cursor} {gap tail : List Char} {result : Scanned Token}
    (hgap : c.unread = gap ++ tail) (hblank : ∀ ch ∈ gap, ch ∈ blanks)
    (h : Scans (c.past gap) result) : c.nextToken = result := by
  have hunread := unread_past hgap
  have hskip := takeWhile_blanks hgap hblank
  rw [nextToken]
  generalize c.past gap = start at h hunread hskip
  cases h with
  | atEnd hend =>
    rw [hskip (by simp [← hunread, hend])]
    simp [current?, hend]
  | @number run rest hrun hne hdigits htail =>
    obtain ⟨ch, run, rfl⟩ := List.exists_cons_of_ne_nil hne
    have hdigit : ch.isDigit = true := hdigits ch List.mem_cons_self
    have htaken : start.takeWhile Char.isDigit = (ch :: run, start.past (ch :: run)) := by
      rw [takeWhile, hrun, takeWhile_isDigit_append hdigits htail]
    rw [hskip (by simp [← hunread, hrun, notMem_blanks_of_isDigit hdigit])]
    simp [current?, hrun, hdigit, htaken]
  | @spelled ch rest k hch hk =>
    obtain ⟨hnotBlank, hdigit⟩ := Kind.spelling?_cases (Kind.spelling?_of_ofChar? hk)
    rw [hskip (by simp [← hunread, hch, hnotBlank])]
    simp [current?, hch, hdigit, hk]
  | @refused ch rest hch hnotBlank hdigit hk =>
    rw [hskip (by simp [← hunread, hch, hnotBlank])]
    simp [current?, hch, hdigit, hk]

/-- Where no blank is next, the rule that applies is followed. -/
theorem nextToken_eq_of_scans_here {c : Cursor} {result : Scanned Token} (h : Scans c result) :
    c.nextToken = result := by
  have hgap : c.unread = [] ++ c.unread := rfl
  exact nextToken_eq_of_scans hgap (by simp) h

end Cursor

end ArithSyntax
