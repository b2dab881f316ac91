import ArithSyntax.Token.Kind
import ArithSyntax.Source.Location

/-!
# Tokens

A token is a kind, the text it was read from, and the location of that text's first character.
-/

set_option autoImplicit false

namespace ArithSyntax

/-- A piece of an expression's text, classified. -/
structure Token where
  kind : Kind
  text : String
  location : Location
deriving DecidableEq

end ArithSyntax
