import ArithSyntax.Token.Scan

/-!
# Reading a text step by step

All that a caller may ask of a cursor, as data: looking at the next character, taking single
characters, runs from a set, single tokens, or all tokens. A session is a list of such steps, and it
goes on after a step that fails, from where that step left the cursor.
-/

set_option autoImplicit false

namespace ArithSyntax

/-- A request to a cursor. -/
inductive ReadStep where
  | current
  | advance
  | location
  | takeWhile (set : List Char)
  | nextToken
  | tokens
deriving DecidableEq

/-- The answer to a request. A character that is absent is an empty text. -/
inductive ReadReply where
  | text (s : List Char)
  | location (here : Location)
  | token (t : Token)
  | tokens (ts : List Token)
deriving DecidableEq

/-- Why a request fails: a character that begins no token, or no character left to take. -/
inductive ReadError where
  | lexical (e : LexError)
  | pastEnd (line : Int)
deriving DecidableEq

/-- The wording of a failure. -/
def ReadError.message : ReadError → String
  | lexical e => e.message
  | pastEnd line => "Read past end of expression source at line " ++ toString line

/-- The answer to a scan, in the terms of a session. -/
def Scanned.toReply {α : Type} (reply : α → ReadReply) :
    Scanned α → Run ReadError Cursor ReadReply
  | .ok a rest => .ok (reply a) rest
  | .error e rest => .error (.lexical e) rest

namespace Cursor

/-- Answers one request. -/
def perform (c : Cursor) : ReadStep → Run ReadError Cursor ReadReply
  | .current => .ok (.text c.current?.toList) c
  | .location => .ok (.location c.location) c
  | .advance =>
      match c.advance? with
      | some (ch, rest) => .ok (.text [ch]) rest
      | none => .error (.pastEnd c.location.line) c
  | .takeWhile set =>
      let (run, rest) := c.takeWhile fun ch => ch ∈ set
      .ok (.text run) rest
  | .nextToken => Scanned.toReply .token c.nextToken
  | .tokens => Scanned.toReply .tokens c.tokens

end Cursor

end ArithSyntax
