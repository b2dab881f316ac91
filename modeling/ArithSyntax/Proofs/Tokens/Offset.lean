import ArithSyntax.Source.Cursor
import ArithSyntax.Token.Scan
import Mathlib.Data.List.Induction

/-!
# Offsets and locations

An offset counts the characters before a place in a text. `Location.ofOffset` finds the line and the
column of that place from the text alone: line feeds begin lines, and the column counts from the
last of them. A cursor never looks back at the text; it moves its location on with every character.
`Cursor.InText` says that both agree, and that what the cursor holds unread is the text from its
offset on. A cursor comes to stand so at the start of a text (`Cursor.inText_ofSource`), and every
movement keeps it so (`Cursor.InText.past`).
-/

set_option autoImplicit false

namespace ArithSyntax

/-- The location at an offset of a text: one line more than there are line feeds before it, and one
column more than there are characters after the last of them. -/
def Location.ofOffset (s : List Char) (i : Nat) : Location where
  line := 1 + (s.take i).count '\n'
  column := 1 + ((s.take i).reverse.takeWhile fun ch => ch ≠ '\n').length

/-- The location that is moved on character by character is the one that is counted. The induction
takes the last character off, since that is the one that the location was moved by last. -/
theorem Location.start_after (run : List Char) :
    Location.start.after run =
      ⟨1 + run.count '\n', 1 + (run.reverse.takeWhile fun ch => ch ≠ '\n').length⟩ := by
  induction run using List.reverseRecOn with
  | nil => rfl
  | append_singleton run ch ih =>
    rw [Location.after_append, ih, Location.after_cons, Location.after_nil, Location.next]
    by_cases hch : ch = '\n'
    · subst hch
      simp [List.count_append, Int.add_assoc]
    · simp [List.count_append, hch, Int.add_assoc]

theorem Location.ofOffset_eq (s : List Char) (i : Nat) :
    Location.ofOffset s i = Location.start.after (s.take i) :=
  (Location.start_after (s.take i)).symm

namespace Cursor

/-- The cursor stands at its position in the text `s`, with the location of that offset and the rest
of the text unread. -/
structure InText (s : List Char) (c : Cursor) : Prop where
  unread_eq : c.unread = s.drop c.position
  location_eq : c.location = .ofOffset s c.position
  position_le : c.position ≤ s.length

/-- A text is read from its first character. -/
theorem inText_ofSource (source : String) : (ofSource source).InText source.toList where
  unread_eq := rfl
  location_eq := rfl
  position_le := Nat.zero_le _

variable {s : List Char} {c : Cursor}

/-- A cursor that passes a run of its unread text stands in the same text. -/
theorem InText.past (h : c.InText s) {run tail : List Char} (hrun : c.unread = run ++ tail) :
    (c.past run).InText s := by
  have hdrop : s.drop c.position = run ++ tail := h.unread_eq.symm.trans hrun
  have hlen : s.length - c.position = run.length + tail.length := by
    rw [← List.length_drop, hdrop, List.length_append]
  have hpos := h.position_le
  constructor
  · show c.unread.drop run.length = s.drop (c.position + run.length)
    rw [h.unread_eq, List.drop_drop]
  · show c.location.after run = .ofOffset s (c.position + run.length)
    rw [h.location_eq, Location.ofOffset_eq, Location.ofOffset_eq, List.take_add, hdrop,
      List.take_left, Location.after_append]
  · show c.position + run.length ≤ s.length
    omega

/-- The characters that a cursor has not read yet, by their offsets. -/
theorem InText.getElem?_unread (h : c.InText s) (i : Nat) :
    c.unread[i]? = s[c.position + i]? := by
  rw [h.unread_eq, List.getElem?_drop]

/-- The character at the cursor's offset is the next one that is unread. -/
theorem InText.getElem?_position (h : c.InText s) : s[c.position]? = c.unread.head? := by
  rw [List.head?_eq_getElem?, h.getElem?_unread, Nat.add_zero]

/-- The cursor stands at the end of its text exactly if nothing is unread. -/
theorem InText.unread_eq_nil_iff (h : c.InText s) : c.unread = [] ↔ c.position = s.length := by
  have hle := h.position_le
  rw [h.unread_eq, List.drop_eq_nil_iff]
  omega

end Cursor

end ArithSyntax
