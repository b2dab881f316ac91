import ArithSyntax.Text.Quoted

/-!
# Token kinds

The closed set of token kinds, their names, the characters that spell them, and the binding powers
of the operators among them.

An operator kind has one lexeme, and all that the parser asks of an operator token it asks of that
lexeme and never of the token's own text. A lexeme that is no operator binds with power `0`.

## Main statements

* `Kind.ofName?_name`, `Kind.name_of_ofName?`: a kind is read from its name, and from no other text.
* `Kind.ofChar?_eq_some_iff`: the characters that spell a kind are those of `Kind.spelling?`.
* `Kind.power_pos_iff`: exactly the operator kinds have a positive power.
-/

set_option autoImplicit false

namespace ArithSyntax

/-- The kinds of tokens. -/
inductive Kind where
  | number
  | plus
  | minus
  | star
  | slash
  | caret
  | bang
  | lparen
  | rparen
  | eof
deriving DecidableEq

namespace Kind

/-- All kinds, in the order in which tables list them. -/
def all : List Kind :=
  [number, plus, minus, star, slash, caret, bang, lparen, rparen, eof]

/-- The name of a kind, as it is shown in messages and read from token lists. -/
def name : Kind → String
  | number => "NUMBER"
  | plus => "PLUS"
  | minus => "MINUS"
  | star => "STAR"
  | slash => "SLASH"
  | caret => "CARET"
  | bang => "BANG"
  | lparen => "LPAREN"
  | rparen => "RPAREN"
  | eof => "EOF"

/-- The kind of that name. -/
def ofName? (s : String) : Option Kind :=
  all.find? fun k => k.name = s

/-- A kind is read from its name. -/
theorem ofName?_name (k : Kind) : ofName? k.name = some k := by
  cases k <;> decide

/-- A text that is read as a kind is the name of that kind. -/
theorem name_of_ofName? {s : String} {k : Kind} (h : ofName? s = some k) : k.name = s := by
  simpa using List.find?_some h

/-- The character that spells a token of this kind, where there is just one such text. -/
def spelling? : Kind → Option Char
  | plus => some '+'
  | minus => some '-'
  | star => some '*'
  | slash => some '/'
  | caret => some '^'
  | bang => some '!'
  | lparen => some '('
  | rparen => some ')'
  | number => none
  | eof => none

/-- The kind that a single character spells. -/
def ofChar? (c : Char) : Option Kind :=
  all.find? fun k => k.spelling? = some c

/-- A character that is read as a kind is the spelling of that kind. -/
theorem spelling?_of_ofChar? {c : Char} {k : Kind} (h : ofChar? c = some k) :
    k.spelling? = some c := by
  simpa using List.find?_some h

/-- A character spells a kind if and only if it is that kind's spelling. -/
theorem ofChar?_eq_some_iff {c : Char} {k : Kind} :
    ofChar? c = some k ↔ k.spelling? = some c := by
  refine ⟨spelling?_of_ofChar?, fun h => ?_⟩
  cases k <;> simp only [spelling?, Option.some.injEq, reduceCtorEq] at h <;> subst h <;> decide

/-- The lexeme of an operator kind. Operands, parentheses and the end have none. -/
def lexeme? : Kind → Option String
  | plus => some "+"
  | minus => some "-"
  | star => some "*"
  | slash => some "/"
  | caret => some "^"
  | bang => some "!"
  | number => none
  | lparen => none
  | rparen => none
  | eof => none

end Kind

/-- The binding power of a lexeme. Higher binds tighter; what is no operator binds with `0`. -/
def bindingPower (lexeme : String) : Nat :=
  if lexeme = "+" ∨ lexeme = "-" then 10
  else if lexeme = "*" ∨ lexeme = "/" then 20
  else if lexeme = "^" then 30
  else if lexeme = "!" then 40
  else 0

namespace Kind

/-- The binding power of a kind is that of its lexeme. -/
def power (k : Kind) : Nat :=
  k.lexeme?.elim 0 bindingPower

/-- The kinds that bind are the operators. -/
theorem power_pos_iff (k : Kind) : 0 < k.power ↔ k.lexeme?.isSome := by
  cases k <;> decide

end Kind

/-- A text that names no token kind. -/
structure UnknownKind where
  given : String
deriving DecidableEq

/-- The wording of the refusal. -/
def UnknownKind.message (e : UnknownKind) : String :=
  Text.quote e.given ++ " is not a valid TokenKind"

/-- Reads the name of a kind. -/
def Kind.ofName (s : String) : Except UnknownKind Kind :=
  match ofName? s with
  | some k => .ok k
  | none => .error ⟨s⟩

end ArithSyntax
