import MarketMaker.Client.Agreement
import MarketMaker.Client.Rules

/-!
# The two decoders of the client

`mmclient/protocol.py`, as far as it decodes: what both decoders do first (`prepare`), the pass over
the members of a schema, `decode` over the typed decoder of msgspec and `decode_naive` over `json`.

The typed decoder is a parameter, and `json.loads` is written out for the frames it is called on,
which `prepare` has let through. A `str` is its UTF-8 octets.
-/

namespace MarketMaker

namespace Client

/-! ## What the engine sends -/

/-- The classes of `EngineMsg`. -/
inductive EngineClass
  | tob
  | orderAck
  | cancelAck
  | reject
  | fill
  deriving DecidableEq, Repr

/-- The declared type of a member. -/
inductive EngineHint
  | uint64
  | int64
  | str
  /-- `Literal` of strings. -/
  | literal (allowed : List String)
  deriving DecidableEq, Repr

namespace EngineClass

/-- `_tag_of`. -/
def tag : EngineClass → String
  | tob => "top_of_book"
  | orderAck => "order_ack"
  | cancelAck => "cancel_ack"
  | reject => "reject"
  | fill => "fill"

/-- The members in the order of their declaration, after `v`, which is a `Literal[1]` in each. -/
def fields : EngineClass → List (String × EngineHint)
  | tob =>
    [("seq", .uint64), ("epoch", .uint64), ("md_seq", .uint64), ("symbol", .str),
      ("bid_px", .int64), ("bid_qty", .int64), ("ask_px", .int64), ("ask_qty", .int64)]
  | orderAck =>
    [("seq", .uint64), ("epoch", .uint64), ("cl_id", .str), ("eng_id", .uint64),
      ("status", .literal ["live"]), ("svc_ns", .int64)]
  | cancelAck =>
    [("seq", .uint64), ("epoch", .uint64), ("cl_id", .str), ("eng_id", .uint64),
      ("status", .literal ["cancelled"])]
  | reject =>
    [("seq", .uint64), ("epoch", .uint64), ("cl_id", .str), ("code", .str), ("reason", .str)]
  | fill =>
    [("seq", .uint64), ("epoch", .uint64), ("cl_id", .str), ("eng_id", .uint64), ("px", .int64),
      ("qty", .int64), ("leaves", .int64), ("exec_id", .uint64)]

/-- The lookup of a tag in `_ENGINE_SCHEMAS`. -/
def ofTag (tag : Bytes) : Option EngineClass :=
  [tob, orderAck, cancelAck, reject, fill].find? fun cls => ascii cls.tag = tag

end EngineClass

/-- `_DOMAINS`. -/
def EngineHint.domain : EngineHint → Option (ℤ × ℤ)
  | .uint64 => Hint.uint64.domain
  | .int64 => Hint.int64.domain
  | _ => none

/-- An object that is read from a frame, as far as the checks tell objects apart. -/
inductive Loaded
  | int (z : ℤ)
  | bool (b : Bool)
  | str (s : Bytes)
  /-- Any other object, `_OVERSIZED_INT` among them. -/
  | other
  deriving DecidableEq, Repr

/-- Objects under the names of some members. -/
abbrev Attrs (specs : List (String × EngineHint)) : Type :=
  {attrs : List (String × Loaded) // attrs.map Prod.fst = specs.map Prod.fst}

namespace Attrs

theorem names_nil : ([] : List (String × Loaded)).map Prod.fst =
    ([] : List (String × EngineHint)).map Prod.fst := rfl

theorem names_cons {specs : List (String × EngineHint)} (attrs : Attrs specs) (name : String)
    (hint : EngineHint) (value : Loaded) :
    ((name, value) :: attrs.val).map Prod.fst = ((name, hint) :: specs).map Prod.fst :=
  congrArg (name :: ·) attrs.property

theorem names_fields {cls : EngineClass} (attrs : Attrs cls.fields) :
    attrs.val.map Prod.fst = cls.fields.map Prod.fst := attrs.property

end Attrs

/-- An instance of a class of `EngineMsg`. -/
@[ext]
structure EngineMsg where
  cls : EngineClass
  v : ℤ
  attrs : List (String × Loaded)
  names : attrs.map Prod.fst = cls.fields.map Prod.fst
  deriving DecidableEq

/-! ## Integers -/

/-- What `sys.get_int_max_str_digits` can return; 0 is no limit. -/
structure DigitLimit where
  digits : ℕ
  eq_zero_or_ge : digits = 0 ∨ 640 ≤ digits

/-- The limit of a fresh interpreter. -/
def DigitLimit.default : DigitLimit := ⟨4300, Or.inr (by decide)⟩

/-- The number of digits of an integer token: a sign is not a digit. -/
def digitCount (token : Bytes) : ℕ := token.length - if token.head? = some 0x2D then 1 else 0

/-- The number that an integer token spells. -/
def intValue (token : Bytes) : ℤ :=
  if token.head? = some 0x2D then -Json.natValue (token.drop 1) else Json.natValue token

/-- `int(token)`. -/
def intOf (limit : DigitLimit) (token : Bytes) : Except Raise ℤ :=
  if limit.digits ≠ 0 ∧ digitCount token > limit.digits then
    .error (valueError
      (ascii "Exceeds the limit (" ++ ascii (toString limit.digits) ++
        ascii " digits) for integer string conversion: value has " ++
        ascii (toString (digitCount token)) ++
        ascii " digits; use sys.set_int_max_str_digits() to increase the limit"))
  else .ok (intValue token)

/-- `bytes.isdigit`. -/
def isdigit (span : Bytes) : Bool := !span.isEmpty && span.all Json.isDigit

/-- `_is_unsigned_integer_token`. -/
def isUnsignedIntegerToken (span : Bytes) : Bool := isdigit span

/-- `_is_integer_token`. -/
def isIntegerToken (span : Bytes) : Bool :=
  if span.take 1 = [0x2D] then isdigit (span.drop 1) else isdigit span

/-- `_UINT64_MAX`. -/
def UINT64_MAX : ℤ := 2 ^ 64 - 1

/-- `len(str(n))`. -/
def decimalDigits (n : ℤ) : ℕ := (Json.decimal n.toNat).length

/-- `_UINT64_DIGITS`. -/
def UINT64_DIGITS : ℕ := decimalDigits UINT64_MAX

/-- `_SpanRule`, whose key is the name in bytes. -/
structure SpanRule where
  name : String
  isToken : Bytes → Bool
  kind : String
  low : ℤ
  high : ℤ
  digits : ℕ

/-- `_span_rules`, at one member. -/
def spanRule (field : String × EngineHint) : Option SpanRule :=
  field.2.domain.map fun (low, high) =>
    { name := field.1
      isToken := if low < 0 then isIntegerToken else isUnsignedIntegerToken
      kind := if low < 0 then "an integer" else "an unsigned integer"
      low, high
      digits := decimalDigits (max high (-low)) }

/-! ## What both decoders do first -/

/-- `_decode_string_span`. -/
def decodeStringSpan (span : Bytes) : Bytes :=
  if 0x5C ∉ span then (span.drop 1).dropLast else Json.stringOf (span.drop 1)

/-- `_prepare`, the tag. -/
def readTag (spans : Fields) : Except Raise EngineClass :=
  match spans.lookup (ascii "t") with
  | none => .error (valueError (ascii "malformed: t missing or not a string"))
  | some tagSpan =>
    if tagSpan.head? ≠ some 0x22 then
      .error (valueError (ascii "malformed: t missing or not a string"))
    else
      let tag := decodeStringSpan tagSpan
      match EngineClass.ofTag tag with
      | none => .error (valueError (ascii "unknown type: " ++ sanitizedTag tag))
      | some cls => .ok cls

/-- The rejection of a version that is no `uint64_t`. -/
def badVersion : Raise := valueError (ascii "malformed: v missing or not an unsigned integer")

/-- The version is a greater number than `_UINT64_MAX`. One of fewer digits is not converted. -/
def exceedsUint64 (limit : DigitLimit) (version : Bytes) : Except Raise Bool :=
  if version.length = UINT64_DIGITS then
    (intOf limit version).map fun n => decide (n > UINT64_MAX)
  else .ok false

/-- `_prepare`, the version. -/
def checkVersion (limit : DigitLimit) (spans : Fields) : Except Raise Unit :=
  match spans.lookup (ascii "v") with
  | none => .error badVersion
  | some version =>
    if !isUnsignedIntegerToken version || version.length > UINT64_DIGITS then .error badVersion
    else do
      let exceeds ← exceedsUint64 limit version
      if exceeds then .error badVersion
      else if version ≠ ascii "1" then
        .error (valueError (ascii "unsupported version: v=" ++ version.take MAX_TAG_DETAIL))
      else .ok ()

/-- The rejection of an integer out of its domain. -/
def outsideWireDomain (tag name : String) : Raise :=
  valueError (ascii ("malformed: " ++ tag ++ "." ++ name ++ " outside its wire integer domain"))

/-- `_check_int_spans`, at one rule. -/
def checkIntSpan (limit : DigitLimit) (tag : String) (spans : Fields) (rule : SpanRule) :
    Except Raise Unit :=
  match spans.lookup (ascii rule.name) with
  | none => .ok ()
  | some span =>
    if !rule.isToken span then
      .error (valueError
        (ascii ("malformed: " ++ tag ++ "." ++ rule.name ++ " is not " ++ rule.kind)))
    else if digitCount span < rule.digits then .ok ()
    else if digitCount span > rule.digits then .error (outsideWireDomain tag rule.name)
    else do
      let n ← intOf limit span
      if rule.low ≤ n ∧ n ≤ rule.high then .ok () else .error (outsideWireDomain tag rule.name)

/-- `_check_int_spans`. -/
def checkIntSpans (limit : DigitLimit) (cls : EngineClass) (spans : Fields) : Except Raise Unit :=
  (cls.fields.filterMap spanRule).forM (checkIntSpan limit cls.tag spans)

/-- `_prepare`. -/
def prepare (decodeError : Bytes → Bytes) (limit : DigitLimit) (data : Bytes) :
    Except Raise EngineClass := do
  let spans ← preflight decodeError data
  let cls ← readTag spans
  checkVersion limit spans
  checkIntSpans limit cls spans
  return cls

/-! ## `json.loads` -/

/-- A `dict` whose keys are strings. -/
abbrev Payload := List (Bytes × Loaded)

/-- `payload[key] = value`. -/
def Payload.set (payload : Payload) (key : Bytes) (value : Loaded) : Payload :=
  if key ∈ payload.map Prod.fst then
    payload.map fun item => if item.1 = key then (key, value) else item
  else payload ++ [(key, value)]

/-- The integer tokens of a text; the fuel is a bound on their number. -/
def intTokens : ℕ → Bytes → List Bytes
  | 0, _ => []
  | _ + 1, [] => []
  | n + 1, c :: t =>
    if c = 0x22 then
      match Json.readString t with
      | some rest => intTokens n rest
      | none => []
    else if c = 0x2D || Json.isDigit c then
      match Json.readNumber (c :: t) with
      | some rest =>
        let token := Json.taken (c :: t) rest
        if Json.isIntegral token then token :: intTokens n rest else intTokens n rest
      | none => []
    else intTokens n t

section Loads

variable (parseInt : Bytes → Except Raise Loaded)

/-- The object that `json.loads` builds from a value. It converts every integer in a container. -/
def loadValue (span : Bytes) : Except Raise Loaded :=
  match Json.valueOf span with
  | .int _ _ => parseInt span
  | .string s => .ok (.str s)
  | .bool b => .ok (.bool b)
  | .array => do
    (intTokens span.length span).forM fun token => (parseInt token).map fun _ => ()
    return .other
  | .object => do
    (intTokens span.length span).forM fun token => (parseInt token).map fun _ => ()
    return .other
  | .null => .ok .other
  | .float => .ok .other

/-- The loop of `json.loads` over the members of an object. -/
def loadMembers : List (Bytes × Bytes) → Payload → Except Raise Payload
  | [], payload => .ok payload
  | (key, span) :: members, payload => do
    let value ← loadValue parseInt span
    loadMembers members (payload.set (Json.stringOf (key ++ [0x22])) value)

/-- `json.loads`, with this `parse_int`. It tells by `decodeError` what is wrong with a text that is
no object, and it is called on none. -/
def loads (decodeError : Bytes → Bytes) (data : Bytes) : Except Raise Payload :=
  match Json.document MAX_NESTING_DEPTH data with
  | some members => loadMembers parseInt members []
  | none => .error (valueError (decodeError data))

end Loads

/-- `int` as a `parse_int`. -/
def parseInt (limit : DigitLimit) (token : Bytes) : Except Raise Loaded :=
  (intOf limit token).map .int

/-- `_int_or_oversized`. -/
def intOrOversized (limit : DigitLimit) (token : Bytes) : Except Raise Loaded :=
  match intOf limit token with
  | .ok z => .ok (.int z)
  | .error _ => .ok .other

/-- `_payload_of`. -/
def payloadOf (decodeError : Bytes → Bytes) (limit : DigitLimit) (data : Bytes) :
    Except Raise Payload :=
  if data.length ≤ limit.digits then loads (parseInt limit) decodeError data
  else loads (intOrOversized limit) decodeError data

/-! ## The schema pass -/

namespace Loaded

/-- `_as_int`. -/
def asInt (tag name : String) : Loaded → Except Raise Loaded
  | int z => .ok (int z)
  | _ => .error (valueError (ascii ("malformed: " ++ tag ++ "." ++ name ++ " is not an integer")))

/-- `_as_str`. -/
def asStr (tag name : String) : Loaded → Except Raise Loaded
  | str s => .ok (str s)
  | _ => .error (valueError (ascii ("malformed: " ++ tag ++ "." ++ name ++ " is not a string")))

/-- `_as_literal`. -/
def asLiteral (allowed : List String) (tag name : String) : Loaded → Except Raise Loaded
  | str s =>
    if s ∈ allowed.map ascii then .ok (str s)
    else
      .error (valueError
        (ascii ("malformed: " ++ tag ++ "." ++ name ++ " is not one of " ++
          "/".intercalate allowed)))
  | _ => .error (valueError (ascii ("malformed: " ++ tag ++ "." ++ name ++ " is not a string")))

end Loaded

/-- `_checker_for`. -/
def EngineHint.check : EngineHint → (tag name : String) → Loaded → Except Raise Loaded
  | .uint64 => Loaded.asInt
  | .int64 => Loaded.asInt
  | .str => Loaded.asStr
  | .literal allowed => Loaded.asLiteral allowed

/-- The rejection of a frame without a member. -/
def missingField (tag name : String) : Raise :=
  valueError (ascii ("malformed: " ++ tag ++ ": missing field ") ++ repr (ascii name))

/-- The loop of `_read_fields`. -/
def readFieldsLoop (tag : String) (payload : Payload) :
    (specs : List (String × EngineHint)) → Except Raise (Attrs specs)
  | [] => .ok ⟨[], Attrs.names_nil⟩
  | (name, hint) :: specs =>
    match payload.lookup (ascii name) with
    | none => .error (missingField tag name)
    | some value => do
      let value ← hint.check tag name value
      let fields ← readFieldsLoop tag payload specs
      return ⟨(name, value) :: fields.val, fields.names_cons name hint value⟩

/-- `_read_fields`. -/
def readFields (cls : EngineClass) (payload : Payload) : Except Raise (Attrs cls.fields) :=
  readFieldsLoop cls.tag payload cls.fields

/-- `_check_engine_strings`, at one member. A name that is neither capped nor free text stops the
import, and no class has one. -/
def checkEngineString (tag : String) (msg : EngineMsg) (field : String × EngineHint) :
    Except Raise Unit :=
  match field.2, msg.attrs.lookup field.1 with
  | .str, some (.str value) =>
    -- the octets are what both ways of taking the size count
    if (identifierCap field.1).any (value.length > ·) then
      .error (valueError
        (ascii ("malformed: " ++ tag ++ "." ++ field.1 ++ " exceeds the length cap")))
    else if value.any fun c => c < 0x20 || c = 0x7F then
      .error (valueError (ascii ("malformed: control byte in " ++ tag ++ "." ++ field.1)))
    else .ok ()
  | _, _ => .ok ()

/-- `_check_engine_strings`. -/
def checkEngineStrings (cls : EngineClass) (msg : EngineMsg) : Except Raise Unit :=
  cls.fields.forM (checkEngineString cls.tag msg)

section Decoders

variable (decodeError : Bytes → Bytes) (limit : DigitLimit)

/-- `_schema_error`. -/
def schemaError (cls : EngineClass) (data : Bytes) : Raise :=
  match payloadOf decodeError limit data >>= readFields cls with
  | .error exc => exc
  | .ok _ => valueError (ascii ("malformed: " ++ cls.tag ++ ": does not match its schema"))

/-- `decode`, over what the typed decoder makes of a frame; `none` is its `DecodeError`. -/
def decode (dec : Bytes → Option EngineMsg) (data : Bytes) : Except Raise EngineMsg := do
  let cls ← prepare decodeError limit data
  match dec data with
  | none => throw (schemaError decodeError limit cls data)
  | some msg =>
    checkEngineStrings cls msg
    return msg

/-- `decode_naive`. -/
def decodeNaive (data : Bytes) : Except Raise EngineMsg := do
  let cls ← prepare decodeError limit data
  let payload ← payloadOf decodeError limit data
  let fields ← readFields cls payload
  let msg : EngineMsg := { cls, v := 1, attrs := fields.val, names := fields.names_fields }
  checkEngineStrings cls msg
  return msg

end Decoders

end Client

end MarketMaker
