import MarketMaker.Codec.Inbound
import MarketMaker.Codec.Recognizer
import MarketMaker.Lib.Json.Writer

/-!
# The naive codec: decoding

`NlohmannCodec::decode` of `codec_nlohmann.cpp`. The library is a parameter: `parse` is
`json::parse` of the span of one field. What the codec relies on is `Correct`: on the span of a
value of an accepted frame, `parse` returns that value. -/

namespace MarketMaker

/-- A value of the library, as far as the codec tells values apart. -/
inductive Dom
  | null
  | boolean (b : Bool)
  | unsigned (n : ℕ)
  | integer (z : ℤ)
  | float
  | string (s : Bytes)
  | array
  | object
  deriving DecidableEq, Repr

namespace Nlohmann

/-- `json::parse` without exceptions: `none` is a discarded value. -/
abbrev Parse := Bytes → Option Dom

section Code

variable (parse : Parse)

/-- `parse_field`. -/
def parseField (scan : FrameScan) (key : String) : Option Dom :=
  let span := scan.find (ascii key)
  if span.isEmpty then none else parse span

/-- `get_u64`. -/
def getU64 (scan : FrameScan) (key : String) : Option ℕ :=
  if !isUnsignedIntegerToken (scan.find (ascii key)) then none
  else
    match parseField parse scan key with
    | some (.unsigned n) => some n
    | _ => none

/-- `get_i64`. -/
def getI64 (scan : FrameScan) (key : String) : Option ℤ :=
  if !isIntegerToken (scan.find (ascii key)) then none
  else
    match parseField parse scan key with
    | some (.unsigned n) => if n > 2 ^ 63 - 1 then none else some n
    | some (.integer z) => some z
    | _ => none

/-- `get_str`. -/
def getStr (scan : FrameScan) (key : String) : Option Bytes :=
  match parseField parse scan key with
  | some (.string s) => some s
  | _ => none

/-- `get_bool`. -/
def getBool (scan : FrameScan) (key : String) : Option Bool :=
  match parseField parse scan key with
  | some (.boolean b) => some b
  | _ => none

/-- The fields of a `NewOrder`. -/
def newOrderFields (scan : FrameScan) (v : ℕ) : Option NewOrder := do
  let seq ← getU64 parse scan "seq"
  let epoch ← getU64 parse scan "epoch"
  let mdSeq ← getU64 parse scan "md_seq"
  let clId ← getStr parse scan "cl_id"
  let symbol ← getStr parse scan "symbol"
  let side ← getStr parse scan "side"
  let px ← getI64 parse scan "px"
  let qty ← getI64 parse scan "qty"
  let postOnly ← getBool parse scan "post_only"
  return { v, seq, epoch, mdSeq, clId, symbol, side, px, qty, postOnly }

/-- The fields of a `CancelOrder`. -/
def cancelOrderFields (scan : FrameScan) (v : ℕ) : Option CancelOrder := do
  let seq ← getU64 parse scan "seq"
  let epoch ← getU64 parse scan "epoch"
  let clId ← getStr parse scan "cl_id"
  return { v, seq, epoch, clId }

/-- The envelope: whether the message is a `NewOrder`, and its version. -/
def envelope (scan : FrameScan) : Except Halt (Bool × ℕ) :=
  match parseField parse scan "t" with
  | some (.string tag) =>
    if tag ≠ tagNewOrder ∧ tag ≠ tagCancelOrder then
      .error (.reject ⟨.unknownType, ascii "unknown inbound t: " ++ sanitizedTag tag⟩)
    else
      match getU64 parse scan "v" with
      | none => .error (malformed "v missing or not an unsigned integer")
      | some v =>
        if v ≠ 1 then .error (.reject ⟨.unsupportedVersion, ascii "v=" ++ Json.decimal v⟩)
        else .ok (tag = tagNewOrder, v)
  | _ => .error (malformed "t missing or not a string")

/-- What follows the envelope. -/
def body (scan : FrameScan) (isNew : Bool) (v : ℕ) : Except Halt InMsg :=
  if isNew then
    match newOrderFields parse scan v with
    | none => .error (malformed "new_order: missing or mistyped field")
    | some o => do
      checkNewOrderStrings o
      return .newOrder o
  else
    match cancelOrderFields parse scan v with
    | none => .error (malformed "cancel_order: missing or mistyped field")
    | some c => do
      checkCancelOrderStrings c
      return .cancelOrder c

/-- `NlohmannCodec::decode`. -/
def decode (frame : Bytes) : Except Halt InMsg := do
  let scan ← framePreflight frame
  let (isNew, v) ← envelope parse scan
  body parse scan isNew v

end Code

/-! ## The library -/

/-- What the library makes of a value. A number out of the range of 64 bits becomes a `float`, and
one out of the range of those too is discarded, as is a container around it. -/
def Represents (d : Option Dom) : Json.Val → Prop
  | .null => d = some .null
  | .bool b => d = some (.boolean b)
  | .int false n => if n < 2 ^ 64 then d = some (.unsigned n) else d = some .float ∨ d = none
  | .int true n => if n ≤ 2 ^ 63 then d = some (.integer (-n)) else d = some .float ∨ d = none
  | .float => d = some .float ∨ d = none
  | .string s => d = some (.string s)
  | .array => d = some .array ∨ d = none
  | .object => d = some .object ∨ d = none

/-- The library reads a value of an accepted frame as what it denotes. -/
def Correct (parse : Parse) : Prop :=
  ∀ span, Json.Value (maxNestingDepth - 1) span → Utf8.Valid span →
    Represents (parse span) (Json.valueOf span)

/-- A library that is correct. -/
def domOf : Json.Val → Option Dom
  | .null => some .null
  | .bool b => some (.boolean b)
  | .int false n => some (if n < 2 ^ 64 then .unsigned n else .float)
  | .int true n => some (if n ≤ 2 ^ 63 then .integer (-n) else .float)
  | .float => some .float
  | .string s => some (.string s)
  | .array => some .array
  | .object => some .object

theorem represents_domOf (v : Json.Val) : Represents (domOf v) v := by
  rcases v with _ | b | ⟨_ | _, n⟩ | _ | s | _ | _
  · rfl
  · rfl
  · simp only [Represents, domOf]
    split_ifs
    · rfl
    · exact Or.inl rfl
  · simp only [Represents, domOf]
    split_ifs
    · rfl
    · exact Or.inl rfl
  · exact Or.inl rfl
  · rfl
  · exact Or.inl rfl
  · exact Or.inl rfl

theorem correct_domOf : Correct fun span => domOf (Json.valueOf span) :=
  fun span _ _ => represents_domOf (Json.valueOf span)

/-! ## One field -/

section Fields

variable {parse : Parse} {scan : FrameScan} {key : String} {span : Bytes}

theorem Value.ne_nil {d : ℕ} (h : Json.Value d span) : span.isEmpty = false := by
  obtain ⟨c, t, rfl, -⟩ := (Json.reads_readValue d).head h
  rfl

/-- A field is read as the value of its span. -/
theorem represents_parseField (h : Correct parse) (hfind : scan.find (ascii key) = span)
    (hscalar : Json.Scalar span) (hutf8 : Utf8.Valid span) :
    Represents (parseField parse scan key) (Json.valueOf span) := by
  have hvalue : Json.Value (maxNestingDepth - 1) span := hscalar.value
  have hparse : parseField parse scan key = parse span := by
    rw [parseField, hfind, Value.ne_nil hvalue]
    rfl
  rw [hparse]
  exact h span hvalue hutf8

theorem isUnsignedIntegerToken_decimal (n : ℕ) :
    isUnsignedIntegerToken (Json.decimal n) = true := by
  rw [isUnsignedIntegerToken, Bool.and_eq_true, List.all_eq_true]
  refine ⟨?_, Json.digits_decimal n⟩
  rw [Bool.not_eq_true', List.isEmpty_eq_false_iff]
  exact Json.decimal_ne_nil n

theorem isIntegerToken_intText (z : ℤ) : isIntegerToken (Json.intText z) = true := by
  cases z with
  | ofNat n =>
    have hdigits := isUnsignedIntegerToken_decimal n
    rw [Json.intText]
    cases hdecimal : Json.decimal n with
    | nil => exact absurd hdecimal (Json.decimal_ne_nil n)
    | cons c ds =>
      rw [hdecimal] at hdigits
      have hc := Json.digits_decimal n c (hdecimal ▸ List.mem_cons_self)
      have hminus : c ≠ 0x2D := by
        rintro rfl
        exact absurd hc (by decide)
      rw [isIntegerToken, if_neg hminus]
      exact hdigits
  | negSucc n => exact isUnsignedIntegerToken_decimal (n + 1)

theorem getU64_decimal (h : Correct parse) {n : ℕ} (hn : n < 2 ^ 64)
    (hfind : scan.find (ascii key) = Json.decimal n) : getU64 parse scan key = some n := by
  have hrepresents := represents_parseField h hfind (Json.scalar_intText n) (Json.valid_intText n)
  have hvalue : Json.valueOf (Json.decimal n) = .int false n := Json.valueOf_intText n
  rw [hvalue] at hrepresents
  have hparse : parseField parse scan key = some (.unsigned n) := by
    simpa only [Represents, hn, if_true] using hrepresents
  rw [getU64, hfind, isUnsignedIntegerToken_decimal, hparse]
  rfl

theorem getI64_intText (h : Correct parse) {z : ℤ} (hz : InInt64 z)
    (hfind : scan.find (ascii key) = Json.intText z) : getI64 parse scan key = some z := by
  have hrepresents := represents_parseField h hfind (Json.scalar_intText z) (Json.valid_intText z)
  rw [Json.valueOf_intText] at hrepresents
  rw [getI64, hfind, isIntegerToken_intText]
  obtain ⟨hlow, hhigh⟩ := hz
  by_cases hneg : z < 0
  · have hmagnitude : z.natAbs ≤ 2 ^ 63 := by omega
    have hparse : parseField parse scan key = some (.integer z) := by
      rw [decide_eq_true hneg] at hrepresents
      simp only [Represents, hmagnitude, if_true] at hrepresents
      rw [hrepresents]
      congr 2
      omega
    rw [hparse]
    rfl
  · have hmagnitude : z.natAbs < 2 ^ 64 := by omega
    have hparse : parseField parse scan key = some (.unsigned z.natAbs) := by
      rw [decide_eq_false hneg] at hrepresents
      simpa only [Represents, hmagnitude, if_true] using hrepresents
    rw [hparse]
    dsimp only
    rw [if_neg (by decide), if_neg (by omega)]
    congr 1
    omega

theorem parseField_stringText (h : Correct parse) {hex : ℕ → UInt8} (hhex : Json.Spells hex)
    {t : Bytes} (ht : Utf8.Valid t) (hfind : scan.find (ascii key) = Json.stringText hex t) :
    parseField parse scan key = some (.string t) := by
  have hrepresents := represents_parseField h hfind (Json.scalar_stringText hhex t)
    (Json.valid_stringText hhex ht)
  rwa [Json.valueOf_stringText hhex] at hrepresents

theorem getStr_stringText (h : Correct parse) {hex : ℕ → UInt8} (hhex : Json.Spells hex)
    {t : Bytes} (ht : Utf8.Valid t) (hfind : scan.find (ascii key) = Json.stringText hex t) :
    getStr parse scan key = some t := by
  rw [getStr, parseField_stringText h hhex ht hfind]

theorem getBool_boolText (h : Correct parse) {b : Bool}
    (hfind : scan.find (ascii key) = Json.boolText b) : getBool parse scan key = some b := by
  have hrepresents := represents_parseField h hfind (Json.scalar_boolText b) (Json.valid_boolText b)
  rw [Json.valueOf_boolText] at hrepresents
  rw [getBool, show parseField parse scan key = some (.boolean b) from hrepresents]

end Fields

end Nlohmann

end MarketMaker
