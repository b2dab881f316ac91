import ArithSyntax.Proofs.RoundTrip.Render

/-!
# The round trip under one limit

A text may be read under a limit that its tree, written out, exceeds: chains of postfix operators
and of infix operators that group to the left need no nesting, and their written form nests with
every operator. Whether the tree is read back under the limit that its text was read under is a
matter of its cost alone, and the cost is less than twice the length of the text
(`parseSource_render_sameLimit`). No limit is high enough for all texts that are read under it: as
many factorial signs as the limit are too many (`not_read_back`).
-/

set_option autoImplicit false

namespace ArithSyntax

/-! ## Costs and lengths -/

namespace Phrase

/-- Every token of a phrase adds at most two to the cost of its tree. -/
theorem cost_lt_length (c : Phrase) {t : Expr} (h : c.erase? = some t) :
    t.cost < 2 * c.yield.length := by
  induction c generalizing t with
  | literal m =>
    simp only [erase?] at h
    split at h
    · cases h
      exact Nat.one_lt_two
    · cases h
  | group o c m ih =>
    have hc := ih h
    simp only [yield, List.length_cons, List.length_append]
    omega
  | prefixed op m c ih =>
    obtain ⟨x, hx, rfl⟩ := Option.map_eq_some_iff.1 h
    have hc := ih hx
    simp only [yield, Expr.cost, List.length_cons]
    omega
  | binary op l m r ihl ihr =>
    simp only [erase?] at h
    split at h
    · next x y hx hy =>
      cases h
      have hl := ihl hx
      have hr := ihr hy
      simp only [yield, Expr.cost, List.length_cons, List.length_append]
      omega
    · cases h
  | postfixed op c m ih =>
    obtain ⟨x, hx, rfl⟩ := Option.map_eq_some_iff.1 h
    have hc := ih hx
    simp only [yield, Expr.cost, List.length_append, List.length_singleton]
    omega

end Phrase

/-- A text has no more tokens than characters, the end token apart. -/
theorem Cursor.length_tokens_le {c rest : Cursor} {ts : List Token} (h : c.tokens = .ok ts rest) :
    ts.length ≤ c.unread.length + 1 := by
  induction hn : c.unread.length using Nat.strong_induction_on generalizing c ts with
  | _ n ih =>
    subst hn
    rw [tokens_eq] at h
    cases hnext : c.nextToken with
    | error e mid =>
      rw [hnext] at h
      cases h
    | ok t mid =>
      rw [hnext] at h
      by_cases hend : t.kind = .eof
      · simp only [if_pos hend] at h
        cases h
        simp
      · simp only [if_neg hend] at h
        cases hmid : mid.tokens with
        | error e last =>
          rw [hmid] at h
          cases h
        | ok ts' last =>
          -- Every token but the end takes a character.
          rw [hmid] at h
          cases h
          have hshort := nextToken_shortens hnext hend
          have hrest := ih _ hshort hmid rfl
          rw [List.length_cons]
          omega

/-- A text is more than half as long as the cost of its tree. -/
theorem cost_lt_of_parseSource {source : String} {limit : Int} {t : Expr}
    (h : parseSource source limit = .ok t) : t.cost < 2 * source.length := by
  obtain ⟨ts, c, e, rest, hts, hyield, hc⟩ := exists_yield_of_parseSource h
  have hcost := c.cost_lt_length hc
  cases htokens : (Cursor.ofSource source).tokens with
  | error e rest =>
    rw [tokenize, htokens] at hts
    cases hts
  | ok ts' last =>
    rw [tokenize, htokens] at hts
    cases hts
    have hlen : ts.length ≤ source.toList.length + 1 := Cursor.length_tokens_le htokens
    rw [hyield, List.length_append, List.length_cons, String.length_toList] at hlen
    omega

/-! ## Texts that are read -/

/-- A limit under which some text is read is positive. -/
theorem one_le_of_parseSource {source : String} {limit : Int} {t : Expr}
    (h : parseSource source limit = .ok t) : 1 ≤ limit := by
  obtain ⟨ts, -, htokens⟩ := exists_tokenize_of_parseSource h
  exact (parseTokens_eq_ok_iff.1 htokens).2.1

/-- The tree of a text can be read wherever it is written. -/
theorem legible_of_parseSource {source : String} {limit : Int} {t : Expr}
    (h : parseSource source limit = .ok t) : t.Legible := by
  obtain ⟨c, hc⟩ := exists_phrase_of_parseSource h
  obtain ⟨hnn, hshort⟩ := c.values_of_erase? hc
  exact t.legible hnn hshort

/-! ## Chains of postfix operators -/

/-- The tree with `n` factorial signs behind it. -/
def Expr.factorials (x : Expr) : Nat → Expr
  | 0 => x
  | n + 1 => (postfixed .factorial x).factorials n

/-- Every factorial sign is written inside of one more expression. -/
theorem Expr.cost_factorials (x : Expr) (n : Nat) : (x.factorials n).cost = x.cost + n := by
  induction n generalizing x with
  | zero => rfl
  | succ n ih =>
    rw [factorials, ih, cost]
    omega

namespace Phrase

theorem yield_factorials (c : Phrase) (ms : List Mark) :
    (c.factorials ms).yield = c.yield ++ ms.map fun m => m.token .bang := by
  induction ms generalizing c with
  | nil => simp [factorials]
  | cons m ms ih =>
    have hc : (c.factorials (m :: ms)).yield = _ := ih (.postfixed .factorial c m)
    rw [hc, yield, List.append_assoc]
    rfl

theorem erase?_factorials (c : Phrase) (ms : List Mark) {x : Expr} (h : c.erase? = some x) :
    (c.factorials ms).erase? = some (x.factorials ms.length) := by
  induction ms generalizing c x with
  | nil => exact h
  | cons m ms ih => exact ih (.postfixed .factorial c m) (by simp [erase?, h])

theorem wellBound_factorials (c : Phrase) (ms : List Mark) (h : c.WellBound)
    (hedge : c.rightEdge = []) : (c.factorials ms).WellBound := by
  induction ms generalizing c with
  | nil => exact h
  | cons m ms ih => exact ih (.postfixed .factorial c m) ⟨h, by simp [hedge]⟩ rfl

end Phrase

/-- Factorial signs at the end of a text are read one after the other. -/
theorem Cursor.exists_reads_factorials {c : Cursor} {n : Nat}
    (h : c.unread = List.replicate n '!') :
    ∃ (ms : List Mark) (rest : Cursor), ms.length = n ∧
      c.Reads (ms.map fun m => m.token .bang) rest ∧ rest.unread = [] := by
  induction n generalizing c with
  | zero => exact ⟨[], c, rfl, .nil c, h⟩
  | succ n ih =>
    rw [List.replicate_succ] at h
    obtain ⟨m, mid, hsign, hmid⟩ := exists_reads_spelled (k := .bang) rfl h
    obtain ⟨ms, rest, hlen, hreads, hrest⟩ := ih hmid
    exact ⟨m :: ms, rest, by rw [List.length_cons, hlen], hsign.trans hreads, hrest⟩

/-- The text `1` with `n` factorial signs behind it. -/
def factorialText (n : Nat) : String :=
  String.ofList ('1' :: List.replicate n '!')

/-- Under any positive limit, one may write as many factorial signs as one likes. -/
theorem parseSource_factorialText (n : Nat) {limit : Int} (hlimit : 1 ≤ limit) :
    parseSource (factorialText n) limit = .ok (Expr.factorials (.literal 1) n) := by
  have hunread : (Cursor.ofSource (factorialText n)).unread = ['1'] ++ List.replicate n '!' :=
    String.toList_ofList
  have hends : ∀ ch ∈ (List.replicate n '!').head?, ch.isDigit = false := by
    intro ch hch
    rw [List.eq_of_mem_replicate (List.mem_of_mem_head? hch)]
    decide
  obtain ⟨m, mid, hnumber, hmid, htext⟩ :=
    Cursor.nextToken_digits (by simp) (List.forall_mem_singleton.2 rfl) hends hunread
  obtain ⟨ms, rest, hlen, hsigns, hrest⟩ := Cursor.exists_reads_factorials hmid
  have hreads := (Cursor.Reads.single hnumber Kind.noConfusion).trans hsigns
  obtain ⟨e, he, htokens⟩ := hreads.tokens hrest
  -- The phrase of these tokens has no operator but postfix ones, so it needs one level.
  have hvalue : (Phrase.literal m).erase? = some (.literal 1) :=
    Phrase.erase?_literal (by rw [htext]; rfl)
  let c : Phrase := (Phrase.literal m).factorials ms
  have hyield : c.yield ++ [e] = [m.token .number] ++ (ms.map fun m => m.token .bang) ++ [e] := by
    rw [Phrase.yield_factorials]
    rfl
  have hread : c.Reading 0 (Expr.factorials (.literal 1) n) (c.yield ++ [e]) [e] := by
    refine Phrase.reading_zero (Phrase.wellBound_factorials _ ms trivial rfl) ?_ rfl ?_
    · rw [← hlen]
      exact Phrase.erase?_factorials _ ms hvalue
    · rw [nextPower_cons, he]
      rfl
  have hparses : Parses .standard limit (.expression 0) 0 (c.yield ++ [e])
      (.ok (Expr.factorials (.literal 1) n)) [e] := by
    apply hread.parses
    rw [Phrase.nesting_factorials]
    exact hlimit
  have hts : tokenize (factorialText n) = .ok (c.yield ++ [e]) := by
    rw [tokenize, htokens, hyield]
    rfl
  rw [parseSource_eq hts (by simp [EndsWithEof, he]) hlimit hparses, finished_cons, if_pos he]
  rfl

/-- As many factorial signs as the limit are read, and the tree, written out, exceeds the limit. -/
theorem not_read_back {limit : Int} (hlimit : 1 ≤ limit) :
    let t := Expr.factorials (.literal 1) limit.toNat
    parseSource (factorialText limit.toNat) limit = .ok t ∧
      ∃ token?, parseSource t.render limit =
        .error (.failure (.parsing (.depthExceeded limit token?))) := by
  intro t
  have hread : parseSource (factorialText limit.toNat) limit = .ok t :=
    parseSource_factorialText limit.toNat hlimit
  refine ⟨hread, ((legible_of_parseSource hread).reads_back hlimit).2 ?_⟩
  -- The number costs one level, and each sign one more.
  rw [Expr.cost_factorials, Expr.cost]
  omega

/-! ## Reading back under the same limit -/

/-- A text that is read under a limit has a tree whose written form is read as that tree, and so is
written in the same way again, exactly if the same limit admits the cost of the tree; otherwise the
limit is exceeded, and there is no other outcome. The cost is less than twice the length of the
text, so a limit of that size admits it. -/
theorem parseSource_render_sameLimit {source : String} {limit : Int} {t : Expr}
    (h : parseSource source limit = .ok t) :
    (parseSource t.render limit = .ok t ↔ (t.cost : Int) ≤ limit) ∧
    (∀ t', parseSource t.render limit = .ok t' → t' = t ∧ t'.render = t.render) ∧
    (limit < t.cost → ∃ token?, parseSource t.render limit =
      .error (.failure (.parsing (.depthExceeded limit token?)))) ∧
    t.cost < 2 * source.length := by
  obtain ⟨hadmitted, hexceeded⟩ := (legible_of_parseSource h).reads_back (one_le_of_parseSource h)
  have hsame : ∀ t', parseSource t.render limit = .ok t' → t' = t ∧ (t.cost : Int) ≤ limit := by
    intro t' ht'
    rcases Int.lt_or_le limit t.cost with hlt | hle
    · obtain ⟨token?, herror⟩ := hexceeded hlt
      rw [herror] at ht'
      cases ht'
    · rw [hadmitted hle] at ht'
      cases ht'
      exact ⟨rfl, hle⟩
  refine ⟨⟨fun hread => (hsame t hread).2, hadmitted⟩, fun t' ht' => ?_, hexceeded,
    cost_lt_of_parseSource h⟩
  obtain ⟨rfl, -⟩ := hsame t' ht'
  exact ⟨rfl, rfl⟩

/-- `1+1` is read under the limit `2`, and `(1+1)` is not: the sum costs three levels, which is less
than twice the length of `1+1`. -/
theorem parseSource_render_sameLimit_sum :
    parseSource "1+1" 2 = .ok (.binary .add (.literal 1) (.literal 1)) ∧
      (Expr.binary .add (.literal 1) (.literal 1)).render = "(1+1)" ∧
      (∃ token?, parseSource "(1+1)" 2 =
        .error (.failure (.parsing (.depthExceeded 2 token?)))) ∧
      (Expr.binary .add (.literal 1) (.literal 1)).cost < 2 * "1+1".length := by
  have hread : parseSource "1+1" 2 = .ok (.binary .add (.literal 1) (.literal 1)) := by
    decide +kernel
  obtain ⟨-, -, hexceeded, hcost⟩ := parseSource_render_sameLimit hread
  exact ⟨hread, by decide, hexceeded (by decide), hcost⟩

/-- `1!` is read under the limit `1`, and `(1!)`, which its tree is written as, is not. Under the
default limit `1` with 256 factorial signs is read, and its tree is not read back. -/
theorem not_read_back_factorial :
    (parseSource "1!" 1 = .ok (.postfixed .factorial (.literal 1)) ∧
      (Expr.postfixed .factorial (.literal 1)).render = "(1!)" ∧
      parseSource "(1!)" 1 =
        .error (.failure (.parsing (.depthExceeded 1 (some ⟨.number, "1", ⟨1, 2⟩⟩))))) ∧
    let t := Expr.factorials (.literal 1) 256
    parseSource (factorialText 256) Parser.defaultLimit = .ok t ∧
      ∀ t', parseSource t.render Parser.defaultLimit ≠ .ok t' := by
  refine ⟨⟨by decide +kernel, by decide, by decide +kernel⟩, ?_⟩
  have hpos : 1 ≤ Parser.defaultLimit := by decide
  have hsigns : Parser.defaultLimit.toNat = 256 := rfl
  have hback := not_read_back hpos
  rw [hsigns] at hback
  obtain ⟨hread, token?, herror⟩ := hback
  refine ⟨hread, fun t' ht' => ?_⟩
  rw [herror] at ht'
  cases ht'

end ArithSyntax
