import ArithSyntax.Proofs.Tokens.Stepwise

/-!
# Texts that stand behind others

The tokens of a text are the same wherever the text stands. Behind another text that ends at the
location `origin`, its first line goes on in the line of `origin`, and its other lines are counted
on from there; that is all that changes of a location (`Location.behind`).

Every movement of a cursor can be made behind another text (`Cursor.past_behind`), so every rule of
scanning can, and all tokens are read there with their locations moved (`Cursor.tokens_behind`). A
cursor may stand in the middle of its text: what it has not read is a text that stands behind what
it has read (`Cursor.outcome_tokens`).
-/

set_option autoImplicit false

namespace ArithSyntax

/-! ## Locations -/

/-- The location behind a text that ends at `origin`, if it is `here` in a text of its own. -/
def Location.behind (here origin : Location) : Location :=
  if here.line = 1 then ⟨origin.line, origin.column + here.column - 1⟩
  else ⟨origin.line + here.line - 1, here.column⟩

/-- The token with its location moved behind a text that ends at `origin`. -/
def Token.behind (t : Token) (origin : Location) : Token :=
  { t with location := t.location.behind origin }

/-- The error with its location moved behind a text that ends at `origin`. -/
def LexError.behind (e : LexError) (origin : Location) : LexError :=
  { e with location := e.location.behind origin }

/-- The tokens of a text, or its first refused character, with locations moved behind a text that
ends at `origin`. -/
def relocated (origin : Location) : Except LexError (List Token) → Except LexError (List Token)
  | .ok ts => .ok (ts.map fun t => t.behind origin)
  | .error e => .error (e.behind origin)

namespace Location

@[simp] theorem start_behind (origin : Location) : start.behind origin = origin := by
  simp [behind, start]

theorem one_le_line_next {here : Location} (h : 1 ≤ here.line) (ch : Char) :
    1 ≤ (here.next ch).line := by
  unfold next
  split
  · show 1 ≤ here.line + 1
    omega
  · exact h

theorem one_le_line_after {here : Location} (h : 1 ≤ here.line) (run : List Char) :
    1 ≤ (here.after run).line := by
  induction run generalizing here with
  | nil => exact h
  | cons ch run ih => exact ih (one_le_line_next h ch)

/-- A line feed begins a line wherever it stands, and any other character takes a column. -/
theorem next_behind {here : Location} (h : 1 ≤ here.line) (origin : Location) (ch : Char) :
    (here.next ch).behind origin = (here.behind origin).next ch := by
  by_cases hfeed : ch = '\n'
  · -- The line behind the feed is never the first one.
    have hline : here.line + 1 ≠ 1 := by omega
    by_cases hfirst : here.line = 1
    · simp [next, behind, hfeed, hfirst]
      omega
    · simp [next, behind, hfeed, hfirst, hline]
      omega
  · by_cases hfirst : here.line = 1
    · simp [next, behind, hfeed, hfirst]
      omega
    · simp [next, behind, hfeed, hfirst]

theorem after_behind {here : Location} (h : 1 ≤ here.line) (origin : Location) (run : List Char) :
    (here.after run).behind origin = (here.behind origin).after run := by
  induction run generalizing here with
  | nil => rfl
  | cons ch run ih =>
    rw [after_cons, after_cons, ih (one_le_line_next h ch), next_behind h]

end Location

/-! ## Cursors -/

namespace Cursor

/-- The cursor, if its text stands behind what `origin` has read. -/
def behind (c origin : Cursor) : Cursor where
  position := origin.position + c.position
  location := c.location.behind origin.location
  unread := c.unread

/-- What is read, if the text stands behind what `origin` has read. -/
def readBehind {α : Type} (move : α → Location → α) (origin : Cursor) : Scanned α → Scanned α
  | .ok a rest => .ok (move a origin.location) (rest.behind origin)
  | .error e rest => .error (e.behind origin.location) (rest.behind origin)

variable {c : Cursor}

/-- A run is passed behind another text as it is passed in a text of its own. -/
theorem past_behind (h : 1 ≤ c.location.line) (origin : Cursor) (run : List Char) :
    (c.past run).behind origin = (c.behind origin).past run := by
  simp only [behind, past, Location.after_behind h, Nat.add_assoc]

/-- The rules of scanning do not know what stands before the text. -/
theorem scans_behind {result : Scanned Token} (h : 1 ≤ c.location.line) (origin : Cursor)
    (hscan : Scans c result) : Scans (c.behind origin) (readBehind Token.behind origin result) := by
  cases hscan with
  | atEnd hend => exact .atEnd hend
  | @number run tail hrun hne hdigits htail =>
    rw [readBehind, past_behind h]
    exact .number hrun hne hdigits htail
  | @spelled ch tail k hch hk =>
    rw [readBehind, past_behind h]
    exact .spelled hch hk
  | refused hch hblank hdigit hk => exact .refused hch hblank hdigit hk

theorem nextToken_behind (h : 1 ≤ c.location.line) (origin : Cursor) :
    (c.behind origin).nextToken = readBehind Token.behind origin c.nextToken := by
  obtain ⟨gap, start, rfl, hgap, hblank, hscan⟩ := c.exists_start
  have hline : 1 ≤ (c.past gap).location.line := Location.one_le_line_after h gap
  have hbehind := scans_behind hline origin hscan
  rw [past_behind h] at hbehind
  exact nextToken_eq_of_scans (c := c.behind origin) hgap hblank hbehind

/-- All tokens are read behind another text as they are read in a text of its own. The induction is
on the number of unread characters. -/
theorem tokens_behind (h : 1 ≤ c.location.line) (origin : Cursor) :
    (c.behind origin).tokens =
      readBehind (fun ts here => ts.map fun t => t.behind here) origin c.tokens := by
  induction hn : c.unread.length using Nat.strong_induction_on generalizing c with
  | _ n ih =>
    subst hn
    rw [tokens_eq c, tokens_eq (c.behind origin), nextToken_behind h]
    cases hnext : c.nextToken with
    | error e rest => rfl
    | ok t rest =>
      by_cases ht : t.kind = .eof
      · simp [readBehind, Token.behind, ht]
      · -- Passing a run does not lead back before the first line.
        obtain ⟨run, -, rfl⟩ := exists_run_of_nextToken hnext
        have hline : 1 ≤ (c.past run).location.line := Location.one_le_line_after h run
        have hrest := ih _ (nextToken_shortens hnext ht) hline rfl
        simp only [readBehind, Token.behind, if_neg ht, hrest]
        cases (c.past run).tokens <;> rfl

/-- Behind another text there are the same tokens, or the same character is refused, with locations
moved. -/
theorem outcome_tokens_behind (h : 1 ≤ c.location.line) (origin : Cursor) :
    outcome (c.behind origin).tokens = relocated origin.location (outcome c.tokens) := by
  rw [tokens_behind h]
  cases c.tokens <;> rfl

/-- A cursor reads on as in a text of its own that stands behind what it has read. -/
theorem ofSource_behind (c : Cursor) : (ofSource (String.ofList c.unread)).behind c = c := by
  simp [behind, ofSource]

/-- The tokens from a cursor on are those of the unread text, with locations moved behind what was
read. -/
theorem outcome_tokens (c : Cursor) :
    outcome c.tokens = relocated c.location (tokenize (String.ofList c.unread)) := by
  have hbehind := outcome_tokens_behind (c := ofSource (String.ofList c.unread)) (Int.le_refl 1) c
  rwa [ofSource_behind] at hbehind

end Cursor

end ArithSyntax
