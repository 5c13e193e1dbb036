import MarketMaker.Client.Decoders
import MarketMaker.Codec.Glaze

/-!
# The verdict on an integer member

`_check_int_spans` decides by the number of digits whether a token can be out of its domain, and
converts it only if that leaves the question open. `get_u64` and `get_i64` of the engine convert
every token and then look at its range. On the values of the grammar both let through the same ones
(`checkIntSpan_verdict`).
-/

namespace MarketMaker

namespace Client

variable {limit : DigitLimit} {field : String × EngineHint} {rule : SpanRule} {span : Bytes}
  {parse : Nlohmann.Parse}

/-- `_check_int_spans`, at one rule, with another conversion in the place of `int`. -/
def checkIntSpanWith (int : Bytes → Except Raise ℤ) (tag : String) (spans : Fields)
    (rule : SpanRule) : Except Raise Unit :=
  match spans.lookup (ascii rule.name) with
  | none => .ok ()
  | some span =>
    if !rule.isToken span then
      .error (valueError
        (ascii ("malformed: " ++ tag ++ "." ++ rule.name ++ " is not " ++ rule.kind)))
    else if digitCount span < rule.digits then .ok ()
    else if digitCount span > rule.digits then .error (outsideWireDomain tag rule.name)
    else do
      let n ← int span
      if rule.low ≤ n ∧ n ≤ rule.high then .ok () else .error (outsideWireDomain tag rule.name)

theorem checkIntSpan_eq (limit : DigitLimit) (tag : String) (spans : Fields) (rule : SpanRule) :
    checkIntSpan limit tag spans rule = checkIntSpanWith (intOf limit) tag spans rule := rfl

/-- What `int` does with a token of more digits than the rule has is never asked for. -/
theorem checkIntSpanWith_congr {int int' : Bytes → Except Raise ℤ}
    (h : ∀ token, digitCount token ≤ rule.digits → int token = int' token) (tag : String)
    (spans : Fields) : checkIntSpanWith int tag spans rule =
    checkIntSpanWith int' tag spans rule := by
  rw [checkIntSpanWith, checkIntSpanWith]
  cases spans.lookup (ascii rule.name) with
  | none => rfl
  | some span =>
    dsimp only
    by_cases hmany : digitCount span > rule.digits
    · rw [if_pos hmany, if_pos hmany]
    · rw [h span (Nat.not_lt.mp hmany)]

/-! ## The domains -/

/-- A value of the wire for a member of this type. -/
def EngineHint.Accepts : EngineHint → Bytes → Prop
  | .uint64, span => ∃ n, Json.valueOf span = .int false n ∧ n < 2 ^ 64
  | .int64, span =>
    ∃ negative n, Json.valueOf span = .int negative n ∧ InInt64 (Json.signed negative n)
  | _, _ => False

/-- The extractor of the engine for a member of this type reads the field. -/
def EngineHint.Reads (parse : Nlohmann.Parse) (scan : FrameScan) (key : String) : EngineHint → Prop
  | .uint64 => (Nlohmann.getU64 parse scan key).isSome
  | .int64 => (Nlohmann.getI64 parse scan key).isSome
  | _ => False

/-- A token with too many digits is out of every domain: it starts with no zero. -/
theorem natValue_ge_pow {token ds : Bytes} {negative : Bool} {d n : ℕ}
    (h : Json.IsIntToken token negative ds) (hvalue : Json.Value d token) (hn : n < ds.length)
    (hpos : 0 < n) :
    10 ^ n ≤ Json.natValue ds := by
  rcases h.isInt_of_number (h.isNumber_of_value hvalue) with rfl | ⟨c, es, rfl, hc, hdigit, hes⟩
  · rw [List.length_singleton] at hn
    omega
  · rw [List.length_cons] at hn
    exact (Nat.pow_le_pow_right (by decide) (Nat.le_of_lt_succ hn)).trans
      (Json.le_natValue hc fun d hd => h.digits d hd)

/-! ## The client -/

theorem isUnsignedIntegerToken_of_isIntToken {ds : Bytes} (h : Json.IsIntToken span false ds) :
    isUnsignedIntegerToken span = true := by
  obtain ⟨hne, hdigits, rfl⟩ := h
  exact isdigit_iff.mpr ⟨hne, hdigits⟩

theorem checkIntSpan_eq_ok_iff {tag : String} {spans : Fields} (hfield : spanRule field = some rule)
    (hspan : spans.lookup (ascii rule.name) = some span) :
    checkIntSpan limit tag spans rule = .ok () ↔
      rule.isToken span = true ∧
        (digitCount span < rule.digits ∨
          digitCount span = rule.digits ∧ rule.low ≤ intValue span ∧
            intValue span ≤ rule.high) := by
  refine ⟨fun h => checkIntSpan_ok h hspan, ?_⟩
  rintro ⟨htoken, hdigits⟩
  rw [checkIntSpan, hspan]
  dsimp only
  rw [htoken, if_neg (by decide)]
  rcases hdigits with hfew | ⟨hcount, hends⟩
  · rw [if_pos hfew]
  · have hint : intOf limit span = .ok (intValue span) := by
      have hmost : rule.digits ≤ 20 := by
        rcases (spanRule_cases hfield).2 with ⟨-, -, -, -, h⟩ | ⟨-, -, -, -, h⟩ <;> omega
      refine if_neg fun hlimit => ?_
      rcases limit.eq_zero_or_ge with hzero | hge
      · exact hlimit.1 hzero
      · omega
    rw [if_neg (by omega), if_neg (by omega), hint]
    exact if_pos hends

/-- Where every number of fewer digits is in the domain and every number of more digits out of it,
the digits decide. -/
theorem inDomain_iff {token ds : Bytes} {negative : Bool} {d digits : ℕ} {low high : ℤ}
    (h : Json.IsIntToken token negative ds) (hvalue : Json.Value d token) (hpos : 0 < digits)
    (hin : ∀ n < 10 ^ (digits - 1), low ≤ Json.signed negative n ∧ Json.signed negative n ≤ high)
    (hout : ∀ n ≥ 10 ^ digits,
      ¬(low ≤ Json.signed negative n ∧ Json.signed negative n ≤ high)) :
    (digitCount token < digits ∨
        digitCount token = digits ∧ low ≤ intValue token ∧ intValue token ≤ high) ↔
      low ≤ Json.signed negative (Json.natValue ds) ∧
        Json.signed negative (Json.natValue ds) ≤ high := by
  rw [digitCount_eq h, intValue_eq h]
  constructor
  · rintro (hfew | ⟨-, hends⟩)
    · exact hin _ (natValue_lt_pow h (Nat.le_sub_one_of_lt hfew))
    · exact hends
  · intro hends
    rcases Nat.lt_trichotomy ds.length digits with hfew | hsame | hmany
    · exact Or.inl hfew
    · exact Or.inr ⟨hsame, hends⟩
    · exact absurd hends (hout _ (natValue_ge_pow h hvalue hmany hpos))

theorem uint64_in (n : ℕ) (hn : n < 10 ^ (20 - 1)) :
    0 ≤ Json.signed false n ∧ Json.signed false n ≤ 2 ^ 64 - 1 := by
  rw [Json.signed, if_neg (by decide)]
  omega

theorem uint64_out (n : ℕ) (hn : n ≥ 10 ^ 20) :
    ¬(0 ≤ Json.signed false n ∧ Json.signed false n ≤ 2 ^ 64 - 1) := by
  rw [Json.signed, if_neg (by decide)]
  omega

theorem int64_in {negative : Bool} (n : ℕ) (hn : n < 10 ^ (19 - 1)) :
    -2 ^ 63 ≤ Json.signed negative n ∧ Json.signed negative n ≤ 2 ^ 63 - 1 := by
  rw [Json.signed]
  split_ifs <;> omega

theorem int64_out {negative : Bool} (n : ℕ) (hn : n ≥ 10 ^ 19) :
    ¬(-2 ^ 63 ≤ Json.signed negative n ∧ Json.signed negative n ≤ 2 ^ 63 - 1) := by
  rw [Json.signed]
  split_ifs <;> omega

/-- The rule lets through the values of its domain. -/
theorem checkIntSpan_iff_accepts {tag : String} {spans : Fields} {d : ℕ}
    (hfield : spanRule field = some rule) (hvalue : Json.Value d span)
    (hspan : spans.lookup (ascii rule.name) = some span) :
    checkIntSpan limit tag spans rule = .ok () ↔ field.2.Accepts span := by
  rw [checkIntSpan_eq_ok_iff hfield hspan]
  obtain ⟨name, hint⟩ := field
  rcases (spanRule_cases hfield).2 with ⟨hdomain, his, hlow, hhigh, hmost⟩ |
    ⟨hdomain, his, hlow, hhigh, hmost⟩ <;> cases hint <;> cases hdomain <;>
    rw [his, hlow, hhigh, hmost, EngineHint.Accepts]
  · constructor
    · rintro ⟨htoken, hdigits⟩
      have hint := Json.IsIntToken.of_digits (isdigit_iff.mp htoken)
      have hends := (inDomain_iff hint hvalue (by decide) uint64_in uint64_out).mp hdigits
      rw [Json.signed, if_neg (by decide)] at hends
      exact ⟨_, hint.valueOf_eq, by omega⟩
    · rintro ⟨n, hn, hlt⟩
      obtain ⟨ds, hint, rfl⟩ := Json.isIntToken_of_valueOf hn
      refine ⟨isUnsignedIntegerToken_of_isIntToken hint,
        (inDomain_iff hint hvalue (by decide) uint64_in uint64_out).mpr ?_⟩
      rw [Json.signed, if_neg (by decide)]
      omega
  · constructor
    · rintro ⟨htoken, hdigits⟩
      obtain ⟨negative, ds, hint⟩ := isIntegerToken_iff.mp htoken
      have hends := (inDomain_iff hint hvalue (by decide) int64_in int64_out).mp hdigits
      exact ⟨negative, _, hint.valueOf_eq, hends.1, by omega⟩
    · rintro ⟨negative, n, hn, hlow, hhigh⟩
      obtain ⟨ds, hint, rfl⟩ := Json.isIntToken_of_valueOf hn
      exact ⟨isIntegerToken_iff.mpr ⟨_, _, hint⟩,
        (inDomain_iff hint hvalue (by decide) int64_in int64_out).mpr ⟨hlow, by omega⟩⟩

/-! ## The engine -/

/-- The library reads an integer token as the number it spells. -/
theorem represents_intToken {scan : FrameScan} {key : String} {negative : Bool} {ds : Bytes} {d : ℕ}
    (hparse : Nlohmann.Correct parse) (hvalue : Json.Value d span)
    (hfind : scan.find (ascii key) = span) (h : Json.IsIntToken span negative ds) :
    Nlohmann.Represents (Nlohmann.parseField parse scan key)
      (.int negative (Json.natValue ds)) := by
  have hscalar : Json.Scalar span := Or.inr (Or.inl (h.isNumber_of_value hvalue))
  have hutf8 : Utf8.Valid span := by
    refine Json.valid_of_ascii fun c hc => ?_
    rcases h.mem hc with rfl | hdigit
    · decide
    · have hle := (Json.isDigit_iff.mp hdigit).2
      rw [UInt8.lt_iff_toNat_lt]
      exact hle.trans_lt (by decide)
  rw [← h.valueOf_eq]
  exact Nlohmann.represents_parseField hparse hfind hscalar hutf8

theorem getU64_isSome_iff {scan : FrameScan} {key : String} {d : ℕ}
    (hparse : Nlohmann.Correct parse)
    (hvalue : Json.Value d span) (hfind : scan.find (ascii key) = span) :
    (Nlohmann.getU64 parse scan key).isSome ↔ EngineHint.Accepts .uint64 span := by
  rw [EngineHint.Accepts]
  cases htoken : MarketMaker.isUnsignedIntegerToken span with
  | false =>
    rw [Nlohmann.getU64, hfind, htoken]
    refine iff_of_false (fun h => by contradiction) ?_
    rintro ⟨n, hn, -⟩
    obtain ⟨ds, ⟨hne, hdigits, rfl⟩, -⟩ := Json.isIntToken_of_valueOf hn
    exact Bool.false_ne_true
      (htoken.symm.trans (Nlohmann.isUnsignedIntegerToken_iff.mpr ⟨hne, hdigits⟩))
  | true =>
    have hint := Json.IsIntToken.of_digits (Nlohmann.isUnsignedIntegerToken_iff.mp htoken)
    rw [← hfind] at htoken
    rw [Option.isSome_iff_exists, hint.valueOf_eq]
    simp only [Nlohmann.getU64_of_represents htoken (represents_intToken hparse hvalue hfind hint),
      Json.Val.int.injEq, true_and]
    constructor
    · rintro ⟨n, hn, heq⟩
      exact ⟨n, heq, hn⟩
    · rintro ⟨n, heq, hn⟩
      exact ⟨n, hn, heq⟩

theorem getI64_isSome_iff {scan : FrameScan} {key : String} {d : ℕ}
    (hparse : Nlohmann.Correct parse)
    (hvalue : Json.Value d span) (hfind : scan.find (ascii key) = span) :
    (Nlohmann.getI64 parse scan key).isSome ↔ EngineHint.Accepts .int64 span := by
  rw [EngineHint.Accepts]
  cases htoken : MarketMaker.isIntegerToken span with
  | false =>
    rw [Nlohmann.getI64, hfind, htoken]
    refine iff_of_false (fun h => by contradiction) ?_
    rintro ⟨negative, n, hn, -⟩
    obtain ⟨ds, hint, -⟩ := Json.isIntToken_of_valueOf hn
    exact Bool.false_ne_true (htoken.symm.trans (Nlohmann.isIntegerToken_iff.mpr ⟨_, _, hint⟩))
  | true =>
    obtain ⟨negative, ds, hint⟩ := Nlohmann.isIntegerToken_iff.mp htoken
    rw [← hfind] at htoken
    rw [Option.isSome_iff_exists, hint.valueOf_eq]
    simp only [Nlohmann.getI64_of_represents htoken (represents_intToken hparse hvalue hfind hint)]
    constructor
    · rintro ⟨z, hz, rfl⟩
      exact ⟨negative, _, rfl, hz⟩
    · rintro ⟨negative', n, heq, hz⟩
      obtain ⟨rfl, rfl⟩ := Json.Val.int.inj heq
      exact ⟨_, hz, rfl⟩

/-- The extractors of the engine read the values of the domain. -/
theorem reads_iff_accepts {hint : EngineHint} {scan : FrameScan} {key : String} {d : ℕ}
    (hparse : Nlohmann.Correct parse) (hvalue : Json.Value d span)
    (hfind : scan.find (ascii key) = span) :
    hint.Reads parse scan key ↔ hint.Accepts span := by
  cases hint with
  | uint64 => exact getU64_isSome_iff hparse hvalue hfind
  | int64 => exact getI64_isSome_iff hparse hvalue hfind
  | str => rfl
  | literal allowed => rfl

/-! ## The verdict -/

/-- The digits of a rule are those of the widest number in its domain. -/
theorem digits_eq (hfield : spanRule field = some rule) :
    rule.digits = decimalDigits (max rule.high (-rule.low)) := by
  obtain ⟨domain, -, rfl⟩ := Option.map_eq_some_iff.mp hfield
  rfl

/-- At every rule and on every value of the grammar, the client lets through the numbers of the
domain, it converts no token with more digits than the widest of them, and the engine reads the same
values. -/
theorem checkIntSpan_verdict {d : ℕ} {tag : String} {spans : Fields} {scan : FrameScan}
    (hparse : Nlohmann.Correct parse) (hfield : spanRule field = some rule)
    (hvalue : Json.Value d span) (hspan : spans.lookup (ascii rule.name) = some span)
    (hfind : scan.find (ascii rule.name) = span) :
    (checkIntSpan limit tag spans rule = .ok () ↔ field.2.Accepts span) ∧
    (∀ int, (∀ token, digitCount token ≤ decimalDigits (max rule.high (-rule.low)) →
        int token = intOf limit token) →
      checkIntSpanWith int tag spans rule = checkIntSpan limit tag spans rule) ∧
    (checkIntSpan limit tag spans rule = .ok () ↔ field.2.Reads parse scan rule.name) := by
  have haccepts : checkIntSpan limit tag spans rule = .ok () ↔ field.2.Accepts span :=
    checkIntSpan_iff_accepts hfield hvalue hspan
  refine ⟨haccepts, fun int hint => ?_, ?_⟩
  · rw [← digits_eq hfield] at hint
    rw [checkIntSpan_eq]
    exact checkIntSpanWith_congr hint tag spans
  · rw [haccepts, reads_iff_accepts hparse hvalue hfind]

/-- A zero with a sign: an integer of the grammar, and no unsigned member. -/
theorem checkIntSpan_verdict_minusZero :
    ∃ rule, spanRule ("md_seq", .uint64) = some rule ∧
      (checkIntSpan .default "top_of_book" [(ascii "md_seq", ascii "-0")] rule = .ok () ↔
        EngineHint.Accepts .uint64 (ascii "-0")) ∧
      (∀ int, (∀ token, digitCount token ≤ decimalDigits (max rule.high (-rule.low)) →
          int token = intOf .default token) →
        checkIntSpanWith int "top_of_book" [(ascii "md_seq", ascii "-0")] rule =
          checkIntSpan .default "top_of_book" [(ascii "md_seq", ascii "-0")] rule) ∧
      (checkIntSpan .default "top_of_book" [(ascii "md_seq", ascii "-0")] rule = .ok () ↔
        EngineHint.Reads (fun span => Nlohmann.domOf (Json.valueOf span))
          [(ascii "md_seq", ascii "-0")] rule.name .uint64) := by
  have hnumber : Json.Value 0 (ascii "-0") :=
    Or.inr (Or.inl ⟨[0x2D], [0x30], [], [], rfl, Or.inr rfl, Or.inl rfl, Or.inl rfl, Or.inl rfl⟩)
  have hrule : spanRule ("md_seq", .uint64) = some _ := rfl
  exact ⟨_, hrule, checkIntSpan_verdict Nlohmann.correct_domOf hrule hnumber rfl rfl⟩

end Client

end MarketMaker
