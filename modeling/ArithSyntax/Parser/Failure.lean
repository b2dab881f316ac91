import ArithSyntax.Display
import ArithSyntax.Expr.Literal

/-!
# Why parsing fails

A `ParseError` says that the tokens form no expression, or one that is nested too deeply; it carries
the token at which that was found, or none where the tokens had run out. A `Failure` is a parse
error or a fault in how the parser was set up: a handler for a kind that it cannot serve, or a
minimum power below zero, with which an expression never ends.
-/

set_option autoImplicit false

namespace ArithSyntax

/-- The ways in which tokens fail to form an expression. -/
inductive ParseError where
  /-- A failure in the caller's own words. -/
  | custom (message : String) (token? : Option Token)
  /-- No operand starts here. -/
  | unexpectedPrefix (token? : Option Token)
  /-- A token that binds, but for which the tables hold no operator. -/
  | unexpectedInfix (token : Token)
  /-- A group is not closed here. -/
  | unbalanced (token? : Option Token)
  /-- A number whose text cannot be read. -/
  | malformedNumber (token : Token) (reason : String)
  /-- One nested expression more than the limit. -/
  | depthExceeded (limit : Int) (token? : Option Token)
  /-- The expression is complete, but the tokens are not at their end. -/
  | trailing (token : Token)
deriving DecidableEq

namespace ParseError

/-- How messages name a token. -/
def described (t : Token) : String :=
  t.kind.name ++ " " ++ Text.quote t.text

/-- How messages name a token that may be missing. -/
def describedOrEnd (token? : Option Token) : String :=
  token?.elim "end of token stream" described

/-- The number of characters of a malformed number that its message shows. -/
def shownLength : Nat := 40

/-- The wording of a parse error. -/
def message : ParseError → String
  | custom message _ => message
  | unexpectedPrefix token? => "Unexpected prefix token: " ++ describedOrEnd token?
  | unexpectedInfix token => "Unexpected infix or postfix token: " ++ described token
  | unbalanced token? => "Expected ')', got " ++ describedOrEnd token?
  | malformedNumber token reason =>
      "Malformed number " ++ Text.quote (String.ofList (token.text.toList.take shownLength)) ++
        ": " ++ reason
  | depthExceeded limit _ => "Expression nesting exceeds maximum depth of " ++ toString limit
  | trailing token => "Unexpected token after expression: " ++ described token

/-- The token at which a parse error was found. -/
def token? : ParseError → Option Token
  | custom _ token? => token?
  | unexpectedPrefix token? => token?
  | unexpectedInfix token => some token
  | unbalanced token? => token?
  | malformedNumber token _ => some token
  | depthExceeded _ token? => token?
  | trailing token => some token

/-- The kind that is reported with the token. Only the errors of a token that stands where it may not
report one; it is missing where the token is. -/
def kind? : ParseError → Option (Option Kind)
  | custom _ _ => none
  | unexpectedPrefix token? => some (token?.map Token.kind)
  | unexpectedInfix token => some (some token.kind)
  | unbalanced _ => none
  | malformedNumber _ _ => none
  | depthExceeded _ _ => none
  | trailing token => some (some token.kind)

/-- The error of a number token whose text was refused. -/
def ofRefusal (token : Token) (refusal : Literal.Refusal) : ParseError :=
  malformedNumber token refusal.reason

end ParseError

/-- Why a parser returns no tree. -/
inductive Failure where
  /-- The tokens are at fault. -/
  | parsing (e : ParseError)
  /-- An operator handler met a kind that has no lexeme. -/
  | noLexeme (kind : Kind)
  /-- An operator handler met an operator of another place. -/
  | operator (e : OperatorError)
  /-- An operator is due, but no token is left. -/
  | noLookahead
deriving DecidableEq

/-- The wording of a failure. -/
def Failure.message : Failure → String
  | parsing e => e.message
  | noLexeme kind => kind.display
  | operator e => e.message
  | noLookahead => ""

end ArithSyntax
