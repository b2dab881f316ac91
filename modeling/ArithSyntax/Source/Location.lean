/-!
# Locations in source text

A location is a line and a column, both counted from one; a column counts code points. Only a line
feed ends a line, so a carriage return or a tab takes one column like any other character.

Locations that a caller makes up may hold any two integers.
-/

set_option autoImplicit false

namespace ArithSyntax

/-- A line and a column of a text. -/
structure Location where
  line : Int
  column : Int
deriving DecidableEq

namespace Location

/-- The first character of a text. -/
def start : Location := ⟨1, 1⟩

/-- The location of a token that comes from no text. -/
def unknown : Location := ⟨0, 0⟩

/-- The location of the character after `c`. -/
def next (here : Location) (c : Char) : Location :=
  if c = '\n' then ⟨here.line + 1, 1⟩ else ⟨here.line, here.column + 1⟩

/-- The location after a run of characters. -/
def after (here : Location) (run : List Char) : Location :=
  run.foldl next here

@[simp] theorem after_nil (here : Location) : here.after [] = here := rfl

@[simp] theorem after_cons (here : Location) (c : Char) (run : List Char) :
    here.after (c :: run) = (here.next c).after run := rfl

/-- The location after two runs is found one run at a time. -/
theorem after_append (here : Location) (first second : List Char) :
    here.after (first ++ second) = (here.after first).after second :=
  List.foldl_append

end Location

end ArithSyntax
