import ArithSyntax.Token.Basic

/-!
# Token streams

A token stream is a list of tokens that ends with an end token, and the number of those already
read. End tokens may also stand earlier in the list. A stream can be read to its very end, the last
token included; then there is no next token, which is no failure.

## Main statements

* `TokenStream.next_position`: reading passes one token, unless none is left.
* `TokenStream.position_resume`: the position tells how many tokens were read.
-/

set_option autoImplicit false

namespace ArithSyntax

/-- The last of the tokens is an end token. -/
def EndsWithEof (tokens : List Token) : Prop :=
  tokens.getLast?.map Token.kind = some .eof

instance (tokens : List Token) : Decidable (EndsWithEof tokens) :=
  inferInstanceAs (Decidable (_ = _))

/-- A list of tokens that is read from the front. -/
@[ext]
structure TokenStream where
  tokens : List Token
  position : Nat
  endsWithEof : EndsWithEof tokens
  position_le : position ≤ tokens.length
deriving DecidableEq

namespace TokenStream

/-- The stream of these tokens, none of them read, if they end as they must. -/
def ofTokens? (tokens : List Token) : Option TokenStream :=
  if h : EndsWithEof tokens then some ⟨tokens, 0, h, Nat.zero_le _⟩ else none

/-- The tokens that are still to be read. -/
def unread (s : TokenStream) : List Token :=
  s.tokens.drop s.position

/-- The next token, which stays unread. -/
def peek (s : TokenStream) : Option Token :=
  s.unread.head?

/-- The stream when the tokens `rest` are left, which are the end of its list. -/
def resume (s : TokenStream) (rest : List Token) : TokenStream where
  tokens := s.tokens
  position := s.tokens.length - rest.length
  endsWithEof := s.endsWithEof
  position_le := Nat.sub_le _ _

/-- Reads the next token. -/
def next (s : TokenStream) : Option Token × TokenStream :=
  (s.peek, s.resume s.unread.tail)

/-- Reads up to `n` tokens. -/
def skip (s : TokenStream) : Nat → TokenStream
  | 0 => s
  | n + 1 => s.next.2.skip n

/-- The tokens that were not read yet are those after the position. -/
theorem length_unread (s : TokenStream) : s.unread.length = s.tokens.length - s.position :=
  List.length_drop

/-- To resume with what is unread changes nothing. -/
theorem resume_unread (s : TokenStream) : s.resume s.unread = s := by
  have := s.position_le
  ext1
  · rfl
  · show s.tokens.length - s.unread.length = s.position
    rw [length_unread]
    omega

/-- To resume with an end of the list leaves that end unread. -/
theorem unread_resume {s : TokenStream} {rest : List Token} (h : rest <:+ s.tokens) :
    (s.resume rest).unread = rest :=
  List.suffix_iff_eq_drop.1 h |>.symm

/-- Reading passes one token, and none at the end of the list. -/
theorem next_position (s : TokenStream) :
    s.next.2.position = min (s.position + 1) s.tokens.length := by
  have := s.position_le
  show s.tokens.length - s.unread.tail.length = _
  rw [List.length_tail, length_unread]
  omega

/-- To resume behind tokens that were unread passes these tokens. -/
theorem position_resume {s : TokenStream} {read rest : List Token} (h : s.unread = read ++ rest) :
    (s.resume rest).position = s.position + read.length := by
  have hlen := s.length_unread
  have hle := s.position_le
  rw [h, List.length_append] at hlen
  show s.tokens.length - rest.length = s.position + read.length
  omega

end TokenStream

end ArithSyntax
