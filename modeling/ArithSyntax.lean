import ArithSyntax.Display
import ArithSyntax.Expr.Basic
import ArithSyntax.Expr.Literal
import ArithSyntax.Expr.Operator
import ArithSyntax.Expr.Record
import ArithSyntax.Parse
import ArithSyntax.Parser.Basic
import ArithSyntax.Parser.Bound
import ArithSyntax.Parser.Climb
import ArithSyntax.Parser.Congruence
import ArithSyntax.Parser.Failure
import ArithSyntax.Parser.Result
import ArithSyntax.Parser.Session
import ArithSyntax.Parser.Tables
import ArithSyntax.Proofs.Climb.DepthLimit
import ArithSyntax.Proofs.Climb.Faults
import ArithSyntax.Proofs.Climb.InOrder
import ArithSyntax.Proofs.Climb.KindsOnly
import ArithSyntax.Proofs.Climb.LastRead
import ArithSyntax.Proofs.Climb.Lookahead
import ArithSyntax.Proofs.Climb.Minimum
import ArithSyntax.Proofs.Climb.Parsers
import ArithSyntax.Proofs.Climb.Relabel
import ArithSyntax.Proofs.Climb.Rules
import ArithSyntax.Proofs.Climb.Texts
import ArithSyntax.Proofs.Climb.Unbounded
import ArithSyntax.Proofs.Grammar.Climbing
import ArithSyntax.Proofs.Grammar.Nesting
import ArithSyntax.Proofs.Grammar.Phrase
import ArithSyntax.Proofs.Grammar.Precedence
import ArithSyntax.Proofs.Grammar.Substitution
import ArithSyntax.Proofs.Grammar.Unambiguous
import ArithSyntax.Proofs.RoundTrip.Decimal
import ArithSyntax.Proofs.RoundTrip.Injective
import ArithSyntax.Proofs.RoundTrip.Lexing
import ArithSyntax.Proofs.RoundTrip.Numerals
import ArithSyntax.Proofs.RoundTrip.Render
import ArithSyntax.Proofs.RoundTrip.SameLimit
import ArithSyntax.Proofs.Scanner.Agreement
import ArithSyntax.Proofs.Scanner.Machine
import ArithSyntax.Proofs.Session.HandlerDepth
import ArithSyntax.Proofs.Session.NoTrace
import ArithSyntax.Proofs.Session.Offsets
import ArithSyntax.Proofs.Session.Resumption
import ArithSyntax.Proofs.Termination.Halting
import ArithSyntax.Proofs.Termination.Machine
import ArithSyntax.Proofs.Termination.Moves
import ArithSyntax.Proofs.Tokens.Concatenation
import ArithSyntax.Proofs.Tokens.Layout
import ArithSyntax.Proofs.Tokens.MaximalMunch
import ArithSyntax.Proofs.Tokens.NextToken
import ArithSyntax.Proofs.Tokens.Offset
import ArithSyntax.Proofs.Tokens.Relocation
import ArithSyntax.Proofs.Tokens.Stepwise
import ArithSyntax.Proofs.Tokens.Tiling
import ArithSyntax.Run
import ArithSyntax.Source.Cursor
import ArithSyntax.Source.Location
import ArithSyntax.Source.Session
import ArithSyntax.Text.Printable
import ArithSyntax.Text.Quoted
import ArithSyntax.Token.Basic
import ArithSyntax.Token.Kind
import ArithSyntax.Token.Scan
import ArithSyntax.Token.Stream
