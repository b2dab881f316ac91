import ArithSyntax.Parser.Result
import ArithSyntax.Token.Scan

/-!
# From text to trees

A text is read into tokens as a whole before a parser is made of them, so a character that begins no
token is reported before a limit that no parser takes, and both before any parse error.
-/

set_option autoImplicit false

namespace ArithSyntax

/-- Why a text or a list of tokens yields no tree. -/
inductive Fault where
  | lexical (e : LexError)
  | setup (e : SetupError)
  | failure (e : Failure)
deriving DecidableEq

/-- The wording of a fault. -/
def Fault.message : Fault → String
  | lexical e => e.message
  | setup e => e.message
  | failure e => e.message

/-- The parser of a text. -/
def parserOf (source : String) (limit : Int) : Except Fault Parser := do
  let tokens ← (tokenize source).mapError .lexical
  (Parser.ofTokens tokens limit).mapError .setup

/-- The tree of a text that is one expression. -/
def parseSource (source : String) (limit : Int) : Except Fault Expr := do
  let parser ← parserOf source limit
  (outcome parser.parseExpression).mapError .failure

/-- The tree of a tree's written form. -/
def reread (tree : Expr) (limit : Int) : Except Fault Expr :=
  parseSource tree.render limit

end ArithSyntax
