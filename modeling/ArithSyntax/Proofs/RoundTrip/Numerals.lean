import ArithSyntax.Proofs.RoundTrip.Render

/-!
# Numbers are read and written exactly

A number token is read as a value exactly from one to 4300 decimal digits, leading zeros counted;
the value is the sum of its digits by their places, and it is written without the leading zeros.
Every other text is refused, and the reason tells whether there were too many digits or something
else. The other way round, every number of at most 4300 digits is written as one number token and
read back (`numeral_codec`).
-/

set_option autoImplicit false

namespace ArithSyntax

/-! ## Number tokens -/

/-- What a number token is read as, from its text. -/
def Token.decoded (t : Token) : Except Failure Expr :=
  match Literal.read t.text.toList with
  | .ok n => .ok (.literal n)
  | .error refusal => .error (.parsing (.ofRefusal t refusal))

/-- The outcome `out` is the one that a number token must have. -/
structure Token.DecodesTo (t : Token) (out : Except Failure Expr) : Prop where
  value_iff : (∃ n, out = .ok (.literal n)) ↔
    Literal.Digits t.text.toList ∧ t.text.length ≤ 4300
  /-- The value is the sum of the digits by their places, and is written without leading zeros. -/
  value_eq : ∀ n, out = .ok (.literal n) → n = Literal.worth t.text.toList ∧
    (Expr.literal n).render.toList = Literal.trimmed t.text.toList
  /-- Any other text is malformed, and the reason says whether it is one of digits. -/
  malformed : ¬ (Literal.Digits t.text.toList ∧ t.text.length ≤ 4300) →
    ∃ reason, out = .error (.parsing (.malformedNumber t reason)) ∧
      (reason = "more than 4300 digits" ↔ Literal.Digits t.text.toList) ∧
      (reason = "not a run of decimal digits" ↔ ¬ Literal.Digits t.text.toList)

namespace Token

variable {t : Token}

theorem decoded_of_digits (h : Literal.Digits t.text.toList) (hlen : t.text.length ≤ 4300) :
    t.decoded = .ok (.literal (Literal.worth t.text.toList)) := by
  rw [decoded, Literal.read_of_digits h hlen]

theorem decoded_of_long (h : Literal.Digits t.text.toList) (hlen : 4300 < t.text.length) :
    t.decoded = .error (.parsing (.malformedNumber t "more than 4300 digits")) := by
  rw [decoded, Literal.read_of_digits_of_long h hlen]
  rfl

theorem decoded_of_not_digits (h : ¬ Literal.Digits t.text.toList) :
    t.decoded = .error (.parsing (.malformedNumber t "not a run of decimal digits")) := by
  rw [decoded, Literal.read_of_not_digits h]
  rfl

/-- The value of a text of digits is written as that text without leading zeros. -/
theorem toList_render_worth {text : List Char} (h : ∀ c ∈ text, c ∈ Literal.digits) :
    (Expr.literal (Literal.worth text)).render.toList = Literal.trimmed text := by
  rw [Expr.toList_render_ofNat, ← Literal.ofDigitChars_eq_worth h, Literal.toDigits_ofDigitChars h]

theorem DecodesTo.value (h : Literal.Digits t.text.toList) (hlen : t.text.length ≤ 4300) :
    t.DecodesTo (.ok (.literal (Literal.worth t.text.toList))) where
  value_iff := ⟨fun _ => ⟨h, hlen⟩, fun _ => ⟨_, rfl⟩⟩
  value_eq := by
    intro n hn
    cases hn
    exact ⟨rfl, toList_render_worth h.2⟩
  malformed hnot := absurd ⟨h, hlen⟩ hnot

theorem DecodesTo.refused {reason : String}
    (h : ¬ (Literal.Digits t.text.toList ∧ t.text.length ≤ 4300))
    (hlong : reason = "more than 4300 digits" ↔ Literal.Digits t.text.toList)
    (hnot : reason = "not a run of decimal digits" ↔ ¬ Literal.Digits t.text.toList) :
    t.DecodesTo (.error (.parsing (.malformedNumber t reason))) where
  value_iff := ⟨nofun, fun hvalue => absurd hvalue h⟩
  value_eq := nofun
  malformed _ := ⟨reason, rfl, hlong, hnot⟩

/-- A number token is read as it must be. -/
theorem decodesTo_decoded (t : Token) : t.DecodesTo t.decoded := by
  by_cases h : Literal.Digits t.text.toList
  · rcases Nat.lt_or_ge 4300 t.text.length with hlen | hlen
    · rw [decoded_of_long h hlen]
      exact .refused (by omega) (by simp [h]) (by simp [h])
    · rw [decoded_of_digits h hlen]
      exact .value h hlen
  · rw [decoded_of_not_digits h]
    exact .refused (fun hboth => h hboth.1) (by simp [h]) (by simp [h])

end Token

/-! ## Parsers -/

/-- The handler of numbers yields what the token is read as, and reads nothing. -/
theorem Parser.startOperand_number (p : Parser) (t : Token) :
    p.startOperand .number t = endsWith t.decoded p := by
  have hrun : OperandHandler.number.run p.climb t ⟨p.stream.unread, p.depth⟩ =
      endsWith t.decoded ⟨p.stream.unread, p.depth⟩ := by
    rw [OperandHandler.run, Token.decoded]
    cases Literal.read t.text.toList <;> rfl
  rw [startOperand, p.exec_of_eq hrun, TokenStream.resume_unread]

/-- A number token alone is the expression that it is read as. -/
theorem parseTokens_number {t stop : Token} {limit : Int} (ht : t.kind = .number)
    (hstop : stop.kind = .eof) (hlimit : 1 ≤ limit) :
    parseTokens [t, stop] limit = t.decoded.mapError .failure := by
  have hdepth : ((0 : Nat) : Int) < limit := by omega
  have hhandler : Tables.standard.operand t.kind = some .number := by rw [ht]; rfl
  have heof : EndsWithEof [t, stop] := congrArg some hstop
  rw [Token.decoded]
  cases hread : Literal.read t.text.toList with
  | ok n =>
    have hends : (nextPower [stop] : Int) ≤ 0 := by
      rw [nextPower_cons, hstop]
      exact Int.le_refl 0
    rw [parseTokens_eq heof hlimit (.expression hdepth hhandler (.number hread) (.stop hends)),
      finished_cons, if_pos hstop]
  | error refusal =>
    rw [parseTokens_eq heof hlimit (.operandFails hdepth hhandler (.badNumber hread))]
    rfl

/-! ## Written numbers -/

/-- Where no line ends, the column moves on with every character. -/
theorem Location.after_of_notMem {run : List Char} (h : '\n' ∉ run) (here : Location) :
    here.after run = ⟨here.line, here.column + run.length⟩ := by
  induction run generalizing here with
  | nil => simp
  | cons ch run ih =>
    rw [List.mem_cons, not_or] at h
    rw [after_cons, ih h.2, next, if_neg (Ne.symm h.1), List.length_cons, Int.natCast_succ,
      Int.add_assoc, Int.add_comm 1]

/-- A written number is one token, at the first character of the text. -/
theorem tokenize_literal (n : Nat) :
    let text := (Expr.literal n).render
    tokenize text = .ok [⟨.number, text, ⟨1, 1⟩⟩, ⟨.eof, "", ⟨1, 1 + text.length⟩⟩] := by
  intro text
  have htext : text.toList = Nat.toDigits 10 n := Expr.toList_render_ofNat n
  have hdigits : ∀ ch ∈ text.toList, ch.isDigit = true := by
    rw [htext]
    exact fun ch hch => Nat.isDigit_of_mem_toDigits (by decide) (by decide) hch
  have hline : '\n' ∉ text.toList := by
    intro hch
    cases hdigits _ hch
  let c := Cursor.ofSource text
  have hunread : c.unread = text.toList ++ [] := (List.append_nil _).symm
  have hnumber : c.nextToken = .ok ⟨.number, text, ⟨1, 1⟩⟩ (c.past text.toList) := by
    have hne : text.toList ≠ [] := by
      rw [htext]
      exact Nat.toDigits_ne_nil
    have htail : ∀ ch ∈ ([] : List Char).head?, ch.isDigit = false := by simp
    have hscan := Scans.number hunread hne hdigits htail
    rw [String.ofList_toList] at hscan
    exact Cursor.nextToken_eq_of_scans_here hscan
  have hlocation : (c.past text.toList).location = ⟨1, 1 + text.length⟩ :=
    Location.after_of_notMem hline _
  have hend := Cursor.nextToken_end (Cursor.unread_past hunread)
  rw [hlocation] at hend
  have hkind : Kind.number ≠ .eof := by decide
  have hreads := Cursor.Reads.single hnumber hkind
  rw [tokenize, Cursor.tokens_eq_iff.2 (.ending hreads hend rfl)]
  rfl

/-- Numbers are read and written exactly. Of every text, the handler of numbers and a whole
expression make the same, and it is what `Token.DecodesTo` says: a value from one to 4300 digits,
the sum of the digits by their places, which is written without leading zeros; and from any other
text an error whose reason tells too many digits from anything else. A number of at most 4300
digits is written as one number token, with the end behind it, and is read back under every
limit. -/
theorem numeral_codec :
    (∀ (p : Parser) (text : String) (here : Location),
      let t : Token := ⟨.number, text, here⟩
      ∃ out, t.DecodesTo out ∧ p.startOperand .number t = endsWith out p ∧
        ∀ (stop : Token) (limit : Int), stop.kind = .eof → 1 ≤ limit →
          parseTokens [t, stop] limit = out.mapError .failure) ∧
    ∀ n : Nat, n < 10 ^ 4300 →
      let text := (Expr.literal n).render
      tokenize text = .ok [⟨.number, text, ⟨1, 1⟩⟩, ⟨.eof, "", ⟨1, 1 + text.length⟩⟩] ∧
      ∀ limit : Int, 1 ≤ limit → parseSource text limit = .ok (.literal n) := by
  constructor
  · intro p text here t
    refine ⟨t.decoded, t.decodesTo_decoded, p.startOperand_number t, ?_⟩
    intro stop limit hstop hlimit
    exact parseTokens_number rfl hstop hlimit
  · intro n hn text
    have htokens := tokenize_literal n
    refine ⟨htokens, fun limit hlimit => ?_⟩
    -- The bound is for every number of places: the power itself is too great to be computed.
    have hplaces (k : Nat) (hk : 0 < k) (hlt : n < 10 ^ k) : (Nat.toDigits 10 n).length ≤ k :=
      (Nat.length_toDigits_le_iff (by decide) hk).2 hlt
    have hshort : (Nat.toDigits 10 n).length ≤ 4300 := hplaces 4300 (by decide) hn
    rw [parseSource_of_tokenize htokens, parseTokens_number rfl rfl hlimit, Token.decoded,
      Expr.toList_render_ofNat, Literal.read_toDigits hshort]
    rfl

/-- Leading zeros are read and not written; 4301 nines are too many, and a sign is no digit; and the
greatest number of 4300 digits is read back under the smallest limit. -/
theorem numeral_codec_limits :
    let stop : Token := ⟨.eof, "", ⟨1, 4⟩⟩
    let padded : Token := ⟨.number, "007", ⟨1, 1⟩⟩
    let long : Token := ⟨.number, String.ofList (List.replicate 4301 '9'), ⟨1, 1⟩⟩
    let signed : Token := ⟨.number, "+5", ⟨1, 1⟩⟩
    let greatest : Expr := .literal ((10 ^ 4300 - 1 : Nat) : Int)
    (parseTokens [padded, stop] 256 = .ok (.literal 7) ∧
      (Expr.literal 7).render.toList = ['7']) ∧
    parseTokens [long, stop] 256 =
      .error (.failure (.parsing (.malformedNumber long "more than 4300 digits"))) ∧
    parseTokens [signed, stop] 256 =
      .error (.failure (.parsing (.malformedNumber signed "not a run of decimal digits"))) ∧
    parseSource greatest.render 1 = .ok greatest := by
  intro stop padded long signed greatest
  let p : Parser := ⟨⟨[stop], 0, rfl, Nat.zero_le _⟩, .standard, 256, 0⟩
  obtain ⟨hdecode, hencode⟩ := numeral_codec
  refine ⟨?_, ?_, ?_, ?_⟩
  · obtain ⟨out, hout, -, hparse⟩ := hdecode p "007" ⟨1, 1⟩
    have hdigits : Literal.Digits "007".toList := ⟨by decide, by simp [Literal.digits]⟩
    obtain ⟨n, rfl⟩ := hout.value_iff.2 ⟨hdigits, by decide⟩
    obtain ⟨hn, hrender⟩ := hout.value_eq n rfl
    have hworth : Literal.worth "007".toList = 7 := by decide
    obtain rfl : n = 7 := by
      rw [hn, hworth]
      rfl
    exact ⟨hparse stop 256 rfl (by decide), hrender⟩
  · obtain ⟨out, hout, -, hparse⟩ := hdecode p long.text ⟨1, 1⟩
    have htext : long.text.toList = List.replicate 4301 '9' := String.toList_ofList
    have hdigits : Literal.Digits long.text.toList := by
      rw [htext]
      refine ⟨List.cons_ne_nil _ _, fun c hc => ?_⟩
      rw [List.eq_of_mem_replicate hc]
      simp [Literal.digits]
    have hlength : long.text.length = 4301 := by
      rw [String.length_ofList, List.length_replicate]
    obtain ⟨reason, rfl, hlong, -⟩ := hout.malformed (by simp [hlength])
    obtain rfl := hlong.2 hdigits
    exact hparse stop 256 rfl (by decide)
  · obtain ⟨out, hout, -, hparse⟩ := hdecode p "+5" ⟨1, 1⟩
    have hdigits : ¬ Literal.Digits "+5".toList := by simp [Literal.Digits, Literal.digits]
    obtain ⟨reason, rfl, -, hnot⟩ := hout.malformed fun h => hdigits h.1
    obtain rfl := hnot.2 hdigits
    exact hparse stop 256 rfl (by decide)
  · have hless : ∀ k : Nat, 10 ^ k - 1 < 10 ^ k := by
      intro k
      exact Nat.sub_lt (Nat.pow_pos (by decide)) Nat.one_pos
    exact (hencode _ (hless 4300)).2 1 (by decide)

end ArithSyntax
