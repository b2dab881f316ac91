import ArithSyntax.Token.Stream
import ArithSyntax.Expr.Basic

/-!
# Displays

The one-line forms in which kinds, tokens, streams and trees are shown to someone who debugs a
grammar. Texts in them are quoted. Trees show their structure, unlike `Expr.render`, which shows how
they are written.
-/

set_option autoImplicit false

namespace ArithSyntax

/-- A kind shows its name twice: as a constant and as that constant's text. -/
def Kind.display (k : Kind) : String :=
  "<TokenKind." ++ k.name ++ ": " ++ Text.quote k.name ++ ">"

/-- A token shows its kind and its text, and not its location. -/
def Token.display (t : Token) : String :=
  "Token(" ++ t.kind.name ++ ", " ++ Text.quote t.text ++ ")"

/-- A stream shows how many tokens were read, and then all its tokens. -/
def TokenStream.display (s : TokenStream) : String :=
  "TokenStream(position=" ++ toString s.position ++ ", tokens=[" ++
    ", ".intercalate (s.tokens.map Token.display) ++ "])"

/-- A tree shows the variant of each node and, by name, what the node holds. -/
def Expr.display : Expr → String
  | literal n => "ValueNode(value=" ++ toString n ++ ")"
  | prefixed op x =>
      "PrefixOpNode(operator=" ++ Text.quote op.symbol ++ ", operand=" ++ x.display ++ ")"
  | binary op l r =>
      "InfixOpNode(operator=" ++ Text.quote op.symbol ++ ", left=" ++ l.display ++
        ", right=" ++ r.display ++ ")"
  | postfixed op x =>
      "PostfixOpNode(operator=" ++ Text.quote op.symbol ++ ", operand=" ++ x.display ++ ")"

end ArithSyntax
