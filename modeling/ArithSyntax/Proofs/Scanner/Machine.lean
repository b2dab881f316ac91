import ArithSyntax.Proofs.Climb.Parsers

/-!
# A scanner of token lists

The scanner goes through a list of tokens once, from left to right. It knows whether an operand or
an operator is due and how many groups are open; it knows nothing of binding powers and builds no
tree. It stops at the first token that cannot stand where it stands, or at an end token after which
nothing is due, and its verdict is the class of the error, if any, and the tokens from there on.
-/

set_option autoImplicit false

namespace ArithSyntax

/-! ## Classes of errors -/

/-- The classes of parse errors. -/
inductive ErrorClass where
  | custom
  | unexpectedPrefix
  | unexpectedInfix
  | unbalanced
  | malformedNumber
  | depthExceeded
  | trailing
deriving DecidableEq

/-- The class of a parse error. -/
def ParseError.errorClass : ParseError → ErrorClass
  | custom _ _ => .custom
  | unexpectedPrefix _ => .unexpectedPrefix
  | unexpectedInfix _ => .unexpectedInfix
  | unbalanced _ => .unbalanced
  | malformedNumber _ _ => .malformedNumber
  | depthExceeded _ _ => .depthExceeded
  | trailing _ => .trailing

/-! ## The scanner -/

/-- What the scanner waits for. -/
inductive Mode where
  | operand
  | operator
deriving DecidableEq

/-- The state of the scanner. -/
structure Scanner where
  mode : Mode
  /-- The number of groups that are open. -/
  opened : Nat
deriving DecidableEq

/-- What a token does to the scanner. -/
inductive Move where
  | goesOn (s : Scanner)
  | stops (refusal? : Option ErrorClass)
deriving DecidableEq

/-- Where the scanner stopped, and why. -/
structure Verdict where
  /-- The error, or none if the tokens are accepted. -/
  refusal? : Option ErrorClass
  /-- The tokens that were left, the one that stopped the scanner first. -/
  stopped : List Token
deriving DecidableEq

/-- One to 4300 decimal digits. -/
def Numeral (text : List Char) : Prop :=
  1 ≤ text.length ∧ text.length ≤ 4300 ∧ text.all fun c => '0' ≤ c && c ≤ '9'

instance (text : List Char) : Decidable (Numeral text) :=
  inferInstanceAs (Decidable (_ ∧ _))

namespace Scanner

/-- Nothing has been scanned. -/
def start : Scanner := ⟨.operand, 0⟩

/-- What the scanner says at the end of an expression. -/
def atEnd : Scanner → Option ErrorClass
  | ⟨.operand, _⟩ => some .unexpectedPrefix
  | ⟨.operator, 0⟩ => none
  | ⟨.operator, _ + 1⟩ => some .unbalanced

/-- What the scanner says of a token that goes on with no expression. -/
def misplaced (opened : Nat) : ErrorClass :=
  if 0 < opened then .unbalanced else .trailing

/-- What a token does to the scanner when an operand is due. -/
def stepOperand (opened : Nat) (t : Token) : Move :=
  match t.kind with
  | .number =>
      if Numeral t.text.toList then .goesOn ⟨.operator, opened⟩
      else .stops (some .malformedNumber)
  | .plus => .goesOn ⟨.operand, opened⟩
  | .minus => .goesOn ⟨.operand, opened⟩
  | .lparen => .goesOn ⟨.operand, opened + 1⟩
  | _ => .stops (some .unexpectedPrefix)

/-- What a token does to the scanner after an operand. -/
def stepOperator (opened : Nat) (t : Token) : Move :=
  match t.kind with
  | .bang => .goesOn ⟨.operator, opened⟩
  | .plus => .goesOn ⟨.operand, opened⟩
  | .minus => .goesOn ⟨.operand, opened⟩
  | .star => .goesOn ⟨.operand, opened⟩
  | .slash => .goesOn ⟨.operand, opened⟩
  | .caret => .goesOn ⟨.operand, opened⟩
  | .rparen =>
      if 0 < opened then .goesOn ⟨.operator, opened - 1⟩ else .stops (some (misplaced opened))
  | .eof => if opened = 0 then .stops none else .stops (some (misplaced opened))
  | _ => .stops (some (misplaced opened))

/-- What a token does to the scanner. -/
def step (s : Scanner) : Token → Move :=
  match s.mode with
  | .operand => stepOperand s.opened
  | .operator => stepOperator s.opened

/-- The verdict on a list of tokens. The end of the list counts as an end token. -/
def scan (s : Scanner) : List Token → Verdict
  | [] => ⟨s.atEnd, []⟩
  | t :: ts =>
      match s.step t with
      | .goesOn s' => s'.scan ts
      | .stops refusal? => ⟨refusal?, t :: ts⟩

theorem scan_goesOn {s s' : Scanner} {t : Token} (h : s.step t = .goesOn s') (ts : List Token) :
    s.scan (t :: ts) = s'.scan ts := by
  rw [scan, h]

theorem scan_stops {s : Scanner} {t : Token} {refusal? : Option ErrorClass}
    (h : s.step t = .stops refusal?) (ts : List Token) :
    s.scan (t :: ts) = ⟨refusal?, t :: ts⟩ := by
  rw [scan, h]

/-- An end token stops the scanner in every state, so before the end of a stream it stops. -/
theorem scan_stopped_ne_nil (s : Scanner) {ts : List Token} (heof : EofLast ts) (hts : ts ≠ []) :
    (s.scan ts).stopped ≠ [] := by
  induction ts generalizing s with
  | nil => exact absurd rfl hts
  | cons t ts ih =>
    cases hstep : s.step t with
    | stops refusal? =>
      rw [scan_stops hstep]
      exact List.cons_ne_nil t ts
    | goesOn s' =>
      rw [scan_goesOn hstep]
      refine ih s' (heof.suffix (List.suffix_cons t ts)) ?_
      rintro rfl
      -- The last token is an end token, which no scanner goes on from.
      have hkind : t.kind = .eof := heof t rfl
      rcases s with ⟨mode, opened⟩
      cases mode with
      | operand => simp [step, stepOperand, hkind] at hstep
      | operator =>
        simp only [step, stepOperator, hkind] at hstep
        split at hstep <;> cases hstep

end Scanner

end ArithSyntax
