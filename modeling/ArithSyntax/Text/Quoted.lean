import ArithSyntax.Text.Printable

/-!
# Quoted text

Messages show a piece of text between quotation marks, written so that it can be read back.

The mark is the apostrophe, unless the text holds an apostrophe and no double quote. Inside, the
backslash and the mark follow a backslash; line feed, carriage return and tab are written with
their letters; any other character that is not printable is written by its code point in two, four
or eight lower-case hexadecimal digits, whichever is the first to suffice. All other characters
stand for themselves.
-/

set_option autoImplicit false

namespace ArithSyntax.Text

/-- The lower-case hexadecimal digits of `n`, filled up with zeros on the left to `width`. -/
def hexDigits (width n : Nat) : List Char :=
  let digits := Nat.toDigits 16 n
  List.replicate (width - digits.length) '0' ++ digits

/-- How `c` is written between two quotation marks `mark`. -/
def escape (mark c : Char) : List Char :=
  if c = '\\' ∨ c = mark then ['\\', c]
  else if c = '\n' then ['\\', 'n']
  else if c = '\r' then ['\\', 'r']
  else if c = '\t' then ['\\', 't']
  else if isPrintable c then [c]
  else if c.toNat < 0x100 then '\\' :: 'x' :: hexDigits 2 c.toNat
  else if c.toNat < 0x10000 then '\\' :: 'u' :: hexDigits 4 c.toNat
  else '\\' :: 'U' :: hexDigits 8 c.toNat

/-- The quotation mark for `s`: an apostrophe where it needs no escape, or where a double quote
would need one too. -/
def quotationMark (s : List Char) : Char :=
  if '\'' ∈ s ∧ '"' ∉ s then '"' else '\''

/-- The text between quotation marks. -/
def quote (s : String) : String :=
  let mark := quotationMark s.toList
  String.ofList (mark :: s.toList.flatMap (escape mark) ++ [mark])

end ArithSyntax.Text
