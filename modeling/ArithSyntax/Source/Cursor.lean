import ArithSyntax.Source.Location

/-!
# Cursors over source text

A cursor is a place in a text: the number of characters before it, its location, and the characters
still unread. Every movement goes past a run that begins the unread text, so the three parts keep
step with each other.

## Main statements

* `Cursor.past_append`: to pass two runs is to pass the one and then the other.
* `Cursor.unread_past_takeWhile`: `takeWhile` leaves what follows the run that it returns.
-/

set_option autoImplicit false

namespace ArithSyntax

/-- A place in a text. -/
structure Cursor where
  position : Nat
  location : Location
  unread : List Char
deriving DecidableEq

namespace Cursor

/-- The cursor at the first character of a text. -/
def ofSource (source : String) : Cursor :=
  ⟨0, Location.start, source.toList⟩

/-- The next unread character. -/
def current? (c : Cursor) : Option Char :=
  c.unread.head?

/-- The cursor after `run`, where the unread text begins with `run`. -/
def past (c : Cursor) (run : List Char) : Cursor where
  position := c.position + run.length
  location := c.location.after run
  unread := c.unread.drop run.length

/-- Passes one character, if there is one, and returns it. -/
def advance? (c : Cursor) : Option (Char × Cursor) :=
  c.unread.head?.map fun ch => (ch, c.past [ch])

/-- Passes the longest run of characters that satisfy `p`, and returns it. -/
def takeWhile (p : Char → Bool) (c : Cursor) : List Char × Cursor :=
  let run := c.unread.takeWhile p
  (run, c.past run)

@[simp] theorem past_nil (c : Cursor) : c.past [] = c := rfl

/-- To pass two runs at once is to pass the one and then the other. -/
theorem past_append (c : Cursor) (first second : List Char) :
    c.past (first ++ second) = (c.past first).past second := by
  simp [past, Location.after_append, Nat.add_assoc]

/-- A cursor that passes a run of its unread text leaves the rest unread. -/
theorem unread_past {c : Cursor} {run tail : List Char} (h : c.unread = run ++ tail) :
    (c.past run).unread = tail := by
  rw [past, h, List.drop_left]

/-- After the longest run of characters that satisfy `p` stands one that does not, or nothing. -/
theorem unread_past_takeWhile (p : Char → Bool) (c : Cursor) :
    (c.takeWhile p).2.unread = c.unread.dropWhile p :=
  unread_past List.takeWhile_append_dropWhile.symm

end Cursor

end ArithSyntax
