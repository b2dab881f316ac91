import ArithSyntax.Token.Basic
import ArithSyntax.Source.Cursor
import ArithSyntax.Run

/-!
# From text to tokens

Blanks are skipped; a digit starts the longest run of digits, which is one number; every operator
and parenthesis is a token of its own; any other character is refused. At the end of the text stands
a token of kind `Kind.eof`, however often it is asked for.

A refused character stays unread, so that reading may go on behind it.

## Main statements

* `Cursor.nextToken_shortens`: every token but the end takes at least one character.
* `Cursor.tokens_eq`: the tokens of a text are its next token and, unless that is the end, the
  tokens of the rest.
-/

set_option autoImplicit false

namespace ArithSyntax

/-- The characters between tokens, ascending. -/
def blanks : List Char := ['\t', '\n', '\r', ' ']

/-- A character that no token begins with. -/
structure LexError where
  char : String
  location : Location
deriving DecidableEq

/-- The wording names the character and its location. -/
def LexError.message (e : LexError) : String :=
  "Unexpected character " ++ Text.quote e.char ++ " at line " ++ toString e.location.line ++
    ", col " ++ toString e.location.column

/-- What is read from a cursor, or why it is refused, and the cursor after it. -/
abbrev Scanned := Run LexError Cursor

namespace Cursor

/-- The next token of the text. -/
def nextToken (c : Cursor) : Scanned Token :=
  let start := (c.takeWhile fun ch => ch ∈ blanks).2
  match start.current? with
  | none => .ok ⟨.eof, "", start.location⟩ start
  | some ch =>
      if ch.isDigit then
        let (run, rest) := start.takeWhile Char.isDigit
        .ok ⟨.number, String.ofList run, start.location⟩ rest
      else
        match Kind.ofChar? ch with
        | some kind => .ok ⟨kind, String.singleton ch, start.location⟩ (start.past [ch])
        | none => .error ⟨String.singleton ch, start.location⟩ start

/-- Every token but the end token takes at least one character of the text. -/
theorem nextToken_shortens {c rest : Cursor} {t : Token} (h : c.nextToken = .ok t rest)
    (notEnd : t.kind ≠ .eof) : rest.unread.length < c.unread.length := by
  have skipped : ((c.takeWhile fun ch => ch ∈ blanks).2).unread.length ≤ c.unread.length := by
    rw [unread_past_takeWhile]
    exact (List.dropWhile_sublist _).length_le
  unfold nextToken at h
  generalize (c.takeWhile fun ch => ch ∈ blanks).2 = start at h skipped
  refine Nat.lt_of_lt_of_le ?_ skipped
  rcases start with ⟨position, location, unread⟩
  cases unread with
  | nil =>
      cases h
      exact absurd rfl notEnd
  | cons ch unread =>
      simp only [current?, List.head?_cons] at h
      split at h
      · next digit =>
          cases h
          show ((Cursor.mk position location (ch :: unread)).takeWhile _).2.unread.length < _
          rw [unread_past_takeWhile, List.dropWhile_cons_of_pos digit]
          exact Nat.lt_succ_of_le (List.dropWhile_sublist _).length_le
      · split at h
        · cases h
          simp [past]
        · cases h

/-- The tokens from the cursor on, after those already seen, which are given last first. -/
def collect (seen : List Token) (c : Cursor) : Scanned (List Token) :=
  match h : c.nextToken with
  | .error e rest => .error e rest
  | .ok t rest =>
      if notEnd : t.kind ≠ .eof then
        have := nextToken_shortens h notEnd
        collect (t :: seen) rest
      else .ok (t :: seen).reverse rest
termination_by c.unread.length

/-- The tokens from the cursor to the end of the text, the end included. -/
def tokens (c : Cursor) : Scanned (List Token) :=
  collect [] c

/-- Tokens that were seen earlier do not change what is read. -/
theorem collect_append (seen more : List Token) (c : Cursor) :
    collect (seen ++ more) c = (match collect seen c with
      | .ok ts rest => .ok (more.reverse ++ ts) rest
      | .error e rest => .error e rest) := by
  fun_induction collect seen c with
  | case1 seen c e rest h =>
      rw [collect]
      split <;> simp_all
  | case2 seen c t rest h notEnd shorter ih =>
      rw [collect]
      split <;> simp_all
  | case3 seen c t rest h atEnd =>
      rw [collect]
      split <;> simp_all

/-- The tokens of a text are its next token and, unless that is the end, the tokens of the rest. -/
theorem tokens_eq (c : Cursor) : c.tokens =
    (match c.nextToken with
      | .error e rest => .error e rest
      | .ok t rest =>
          if t.kind = .eof then .ok [t] rest else
            match rest.tokens with
            | .ok ts last => .ok (t :: ts) last
            | .error e last => .error e last) := by
  rw [tokens, collect]
  split
  · next h => simp [h]
  · next t rest h =>
      have moved := collect_append [] [t] rest
      simp only [List.nil_append, List.reverse_singleton, List.singleton_append] at moved
      simp only [h]
      by_cases atEnd : t.kind = .eof
      · simp [atEnd]
      · simp [atEnd, moved, tokens]

end Cursor

/-- The tokens of a text, or the first character that begins none. -/
def tokenize (source : String) : Except LexError (List Token) :=
  outcome (Cursor.ofSource source).tokens

end ArithSyntax
