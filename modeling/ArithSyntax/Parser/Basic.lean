import ArithSyntax.Parser.Climb
import ArithSyntax.Token.Stream

/-!
# Parsers

A parser is a token stream together with the tables and the limit that rule how it is read. A parser
starts with the standard tables and a positive limit; both may be replaced later, the limit by any
integer. Reading changes the stream and nothing else.
-/

set_option autoImplicit false

namespace ArithSyntax

/-- Why no parser is made. -/
inductive SetupError where
  | depthLimit (given : Int)
  | noEof
deriving DecidableEq

/-- The wording of the refusal. -/
def SetupError.message : SetupError → String
  | depthLimit given => "max_depth must be positive, got " ++ toString given
  | noEof => "Token sequence must end with an EOF token"

/-- A token stream and how it is read. -/
structure Parser where
  stream : TokenStream
  tables : Tables
  limit : Int
  depth : Nat

namespace Parser

/-- The nesting that parsers allow unless they are told otherwise. -/
def defaultLimit : Int := 256

/-- A parser of a stream, which may have been read in part. -/
def ofStream (stream : TokenStream) (limit : Int) : Except SetupError Parser :=
  if limit < 1 then .error (.depthLimit limit) else .ok ⟨stream, .standard, limit, 0⟩

/-- A parser of a list of tokens. The limit is checked before the list. -/
def ofTokens (tokens : List Token) (limit : Int) : Except SetupError Parser :=
  if limit < 1 then .error (.depthLimit limit)
  else
    match TokenStream.ofTokens? tokens with
    | some stream => ofStream stream limit
    | none => .error .noEof

/-- Runs a reader on the unread tokens. -/
def exec {α : Type} (p : Parser) (m : ParseM α) : Run Failure Parser α :=
  match m ⟨p.stream.unread, p.depth⟩ with
  | .ok a s => .ok a { p with stream := p.stream.resume s.unread, depth := s.depth }
  | .error e s => .error e { p with stream := p.stream.resume s.unread, depth := s.depth }

/-- The number of tokens that a parser may read. -/
def size (p : Parser) : Nat :=
  p.stream.unread.length

/-- The reader of expressions whose operators bind tighter than a minimum. -/
def climb (p : Parser) : Int → ParseM Expr :=
  ArithSyntax.climb p.tables p.limit p.size

/-- Reads an operand and the operators after it that bind tighter than `min`. -/
def parse (p : Parser) (min : Int) : Run Failure Parser Expr :=
  p.exec (p.climb min)

/-- Reads an expression, after which the tokens must end. -/
def parseExpression (p : Parser) : Run Failure Parser Expr :=
  p.exec (readExpression p.tables p.limit p.size)

/-- Starts an operand with a token that is not of the stream. -/
def startOperand (p : Parser) (handler : OperandHandler) (t : Token) :
    Run Failure Parser Expr :=
  p.exec (handler.run p.climb t)

/-- Folds an operator that is not of the stream into a tree. -/
def foldOperator (p : Parser) (handler : OperatorHandler) (left : Expr) (t : Token) :
    Run Failure Parser Expr :=
  p.exec (handler.run p.climb left t)

end Parser

end ArithSyntax
