import ArithSyntax.Parser.Result

/-!
# Working a parser step by step

All that a caller may ask of a parser, as data. A session goes on after a step that fails, from
where that step left the parser; a step that would put a new parser in place of the old one leaves
the old one if no new one can be made.
-/

set_option autoImplicit false

namespace ArithSyntax

/-- A request to a parser. -/
inductive ParseStep where
  | parse (min : Int)
  | parseExpression
  | parseResult
  | peek
  | next
  | peekPower
  | tables
  | setOperand (kind : Kind) (handler : Option OperandHandler)
  | setInfixed (kind : Kind) (handler : Option OperatorHandler)
  | setPostfixed (kind : Kind) (handler : Option OperatorHandler)
  | setLimit (limit : Int)
  | renew (limit : Int)
  | startOperand (handler : OperandHandler) (t : Token)
  | foldOperator (handler : OperatorHandler) (left : Expr) (t : Token)
deriving DecidableEq

/-- The answer to a request. -/
inductive ParseReply where
  | tree (e : Expr)
  | result (r : ParseResult ParseError)
  | token (t? : Option Token)
  | power (n : Nat)
  | tables (t : Tables)
  | limit (n : Int)
  | done

/-- Why a request fails. -/
inductive StepError where
  | setup (e : SetupError)
  | failure (e : Failure)
deriving DecidableEq

/-- An answer or a failure, and the parser after it. -/
abbrev Stepped := Run StepError Parser ParseReply

/-- The outcome of a run, in the terms of a session. -/
def Stepped.ofRun {α : Type} (reply : α → ParseReply) : Run Failure Parser α → Stepped
  | .ok a p => .ok (reply a) p
  | .error e p => .error (.failure e) p

namespace Parser

/-- Answers one request. -/
def perform (p : Parser) : ParseStep → Stepped
  | .parse min => Stepped.ofRun .tree (p.parse min)
  | .parseExpression => Stepped.ofRun .tree p.parseExpression
  | .parseResult => Stepped.ofRun .result p.parseResult
  | .peek => .ok (.token p.stream.peek) p
  | .next =>
      let (t?, rest) := p.stream.next
      .ok (.token t?) { p with stream := rest }
  | .peekPower => Stepped.ofRun .power (p.exec ParseM.peekPower)
  | .tables => .ok (.tables p.tables) p
  | .setOperand kind handler => .ok .done { p with tables := p.tables.setOperand kind handler }
  | .setInfixed kind handler => .ok .done { p with tables := p.tables.setInfixed kind handler }
  | .setPostfixed kind handler => .ok .done { p with tables := p.tables.setPostfixed kind handler }
  | .setLimit limit => .ok .done { p with limit := limit }
  | .renew limit =>
      match ofStream p.stream limit with
      | .ok new => .ok (.limit new.limit) new
      | .error e => .error (.setup e) p
  | .startOperand handler t => Stepped.ofRun .tree (p.startOperand handler t)
  | .foldOperator handler left t => Stepped.ofRun .tree (p.foldOperator handler left t)

end Parser

end ArithSyntax
