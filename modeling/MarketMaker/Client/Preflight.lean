import MarketMaker.Protocol
import MarketMaker.Lib.Json.Grammar
import MarketMaker.Lib.Regex
import MarketMaker.Lib.Utf8

/-!
# The frame preflight of the client

`mmclient/_preflight.py`: the byte policy, the grammar scan over regular expressions with its fast
path, and the policy on top-level keys. A `str` is its UTF-8 octets, and a `dict` is its items in
the order they were inserted.

A loop of the source counts its rounds down from a bound, and so does the recursion through nested
values; `Raise.fuel` says that a bound was reached, which never happens.
-/

namespace MarketMaker

namespace Client

/-- How a call ends short of a result. -/
inductive Raise
  /-- `ValueError`, or `UnicodeDecodeError`, which is one. -/
  | valueError (text : Bytes)
  /-- A loop or a recursion did not end within its bound. -/
  | fuel
  deriving DecidableEq, Repr

/-- `raise ValueError(text)`. -/
def valueError (text : Bytes) : Raise := .valueError text

/-- `_WS`. -/
def WS : Bytes := [0x20, 0x09, 0x0A, 0x0D]

/-- `_MAX_NESTING_DEPTH`. -/
def MAX_NESTING_DEPTH : ℕ := 32

/-- `_MAX_TOP_LEVEL_KEYS`. -/
def MAX_TOP_LEVEL_KEYS : ℕ := 32

/-- `_MAX_TAG_DETAIL`. -/
def MAX_TAG_DETAIL : ℕ := 32

/-- `_MAX_FRAME_BYTES`. -/
def MAX_FRAME_BYTES : ℕ := 64 * 1024

/-! ## The patterns -/

section Patterns

variable {γ : Type}

open Regex

/-- `[ \t\n\r]*`. -/
def blanksRe : Regex γ := star (oneOf WS)

/-- `[^"\\\x00-\x1f]`. -/
def ordinaryRe : Regex γ := set fun c => c ≠ 0x22 && c ≠ 0x5C && 0x20 ≤ c

/-- `[0-9]`. -/
def digitRe : Regex γ := set fun c => 0x30 ≤ c && c ≤ 0x39

/-- `[0-9a-fA-F]{4}`. -/
def hex4Re : Regex γ :=
  let hex : Regex γ := set fun c =>
    0x30 ≤ c && c ≤ 0x39 || 0x61 ≤ c && c ≤ 0x66 || 0x41 ≤ c && c ≤ 0x46
  seq hex (seq hex (seq hex hex))

/-- `"(?:[^"\\\x00-\x1f]++|\\(?:["\\/bfnrt]|u[0-9a-fA-F]{4}))*+"`. -/
def stringRe : Regex γ :=
  seq (char 0x22) <| seq
    (atomic <| star <| alt (atomic (plus ordinaryRe)) <|
      seq (char 0x5C) <|
        alt (oneOf [0x22, 0x5C, 0x2F, 0x62, 0x66, 0x6E, 0x72, 0x74]) (seq (char 0x75) hex4Re))
    (char 0x22)

/-- `(?:0|[1-9][0-9]*)`. -/
def intRe : Regex γ :=
  alt (char 0x30) (seq (set fun c => 0x31 ≤ c && c ≤ 0x39) (star digitRe))

/-- `(?:\.[0-9]+)?`. -/
def fracRe : Regex γ := opt (seq (char 0x2E) (plus digitRe))

/-- `(?:[eE][-+]?[0-9]+)?`. -/
def expRe : Regex γ :=
  opt (seq (oneOf [0x65, 0x45]) (seq (opt (oneOf [0x2D, 0x2B])) (plus digitRe)))

/-- `-?(?:0|[1-9][0-9]*)(?:\.[0-9]+)?(?:[eE][-+]?[0-9]+)?`. -/
def numberRe : Regex γ := seq (opt (char 0x2D)) (seq intRe (seq fracRe expRe))

/-- `true|false|null`. -/
def literalRe : Regex γ :=
  alt (literal 0x74 [0x72, 0x75, 0x65]) <|
    alt (literal 0x66 [0x61, 0x6C, 0x73, 0x65]) (literal 0x6E [0x75, 0x6C, 0x6C])

end Patterns

/-- The groups of `_TOKEN`. -/
inductive Kind
  | str
  | num
  | lit
  | punct
  deriving DecidableEq, Repr

/-- `_TOKEN`. -/
def TOKEN : Regex Kind :=
  .seq blanksRe <|
    .alt (.group .str stringRe) <| .alt (.group .num numberRe) <| .alt (.group .lit literalRe) <|
      .group .punct (.oneOf [0x7B, 0x7D, 0x5B, 0x5D, 0x3A, 0x2C])

/-- `_ESCAPE`, whose one group is the digits. -/
def ESCAPE : Regex Unit :=
  .seq (.char 0x5C) (.alt (.seq (.char 0x75) (.group () hex4Re)) (.set fun c => c ≠ 0x0A))

/-- The groups of `_MEMBER`. -/
inductive Part
  | name
  | value
  | close
  deriving DecidableEq, Repr

/-- `_MEMBER`. -/
def MEMBER : Regex Part :=
  .seq blanksRe <| .seq (.char 0x22) <| .seq (.group .name (.star ordinaryRe)) <|
    .seq (.char 0x22) <| .seq blanksRe <| .seq (.char 0x3A) <| .seq blanksRe <|
      .seq
        (.group .value <|
          .alt (.seq (.char 0x22) (.seq (.star ordinaryRe) (.char 0x22))) <|
            .alt numberRe literalRe) <|
        .seq blanksRe <| .group .close (.oneOf [0x2C, 0x7D])

/-- The octets between two places of the text, each given by what is left there. -/
def between (before after : Bytes) : Bytes := before.take (before.length - after.length)

/-! ## The byte policy -/

/-- An octet of `_UTF8_TAIL`. -/
def UTF8_TAIL (c : UInt8) : Bool := 0x80 ≤ c && c < 0xC0

/-- The loop of `_sanitized_tag` that looks for the end of a sequence. -/
def tagCut (raw : Bytes) : ℕ → ℕ
  | 0 => 0
  | take + 1 => if (raw[take + 1]?).any UTF8_TAIL then tagCut raw take else take + 1

/-- `_sanitized_tag`. -/
def sanitizedTag (tag : Bytes) : Bytes :=
  let raw := tag.map fun c => if c < 0x20 || c = 0x7F then 0x3F else c
  if raw.length ≤ MAX_TAG_DETAIL then raw
  else raw.take (tagCut raw MAX_TAG_DETAIL) ++ [0xE2, 0x80, 0xA6]

/-- `_check_frame_bytes`. `UnicodeDecodeError` tells its text by `decodeError`. -/
def checkFrameBytes (decodeError : Bytes → Bytes) (data : Bytes) : Except Raise Unit :=
  if data.length > MAX_FRAME_BYTES then
    .error (valueError
      (ascii "malformed: frame exceeds the " ++ ascii (toString MAX_FRAME_BYTES) ++
        ascii "-byte cap"))
  else if data.take 3 = [0xEF, 0xBB, 0xBF] then
    .error (valueError (ascii "malformed: leading UTF-8 BOM"))
  else if Utf8.Valid data then .ok ()
  else .error (valueError (ascii "malformed: " ++ decodeError data))

/-- `int(digits, 16)`. -/
def int16 (digits : Bytes) : ℕ := digits.foldl (fun n c => n * 16 + (Json.hexVal c).getD 0) 0

/-- The code unit of an escape, if it has digits. -/
def escapeCode (m : Regex.Match Unit) : Option ℕ :=
  m.groups.getLast?.map fun g => int16 (between g.2.1 g.2.2)

/-- A code of `_HIGH_SURROGATE`. -/
def isHighCode (code : Option ℕ) : Bool := code.any fun n => 0xD800 ≤ n && n < 0xDC00

/-- A code of `_LOW_SURROGATE`. -/
def isLowCode (code : Option ℕ) : Bool := code.any fun n => 0xDC00 ≤ n && n < 0xE000

/-- The loop of `_check_escapes`; `pending` is the end of a first half still without its second. -/
def checkEscapesLoop (token : Bytes) :
    List (Bytes × Regex.Match Unit) → Option ℕ → Except Raise Unit
  | [], pending =>
    if pending.isSome then .error (valueError (ascii "malformed: unpaired high surrogate escape"))
    else .ok ()
  | (start, m) :: ms, pending =>
    let code := escapeCode m
    match pending with
    | some p =>
      if token.length - start.length ≠ p || !isLowCode code then
        .error (valueError (ascii "malformed: unpaired high surrogate escape"))
      else checkEscapesLoop token ms none
    | none =>
      if isLowCode code then
        .error (valueError (ascii "malformed: unpaired low surrogate escape"))
      else if isHighCode code then checkEscapesLoop token ms (some (token.length - m.rest.length))
      else checkEscapesLoop token ms none

/-- `_check_escapes`. -/
def checkEscapes (token : Bytes) : Except Raise Unit :=
  checkEscapesLoop token (ESCAPE.findAll token.length token) none

/-- A `dict` of spans. -/
abbrev Fields := List (Bytes × Bytes)

/-- `_record`. The name of a frame that is not UTF-8 may not decode. -/
def record (decodeError : Bytes → Bytes) (top : Fields) (key value : Bytes) :
    Except Raise Fields :=
  if 0x5C ∈ key then
    .error (valueError (ascii "malformed: escape sequence in a top-level member name"))
  else
    let name := (key.drop 1).dropLast
    if name ∈ top.map Prod.fst then
      if Utf8.Valid name then
        .error (valueError (ascii "malformed: duplicate top-level key " ++ sanitizedTag name))
      else .error (valueError (decodeError name))
    else if top.length = MAX_TOP_LEVEL_KEYS then
      .error (valueError (ascii "malformed: too many top-level keys"))
    else .ok (top ++ [(name, value)])

/-! ## The scan of record -/

/-- A token, with the position after it. -/
structure Token where
  kind : Kind
  text : Bytes
  start : ℕ
  pos : ℕ

/-- The token is this punctuation. -/
def Token.isPunct (tok : Token) (c : UInt8) : Bool := tok.kind = .punct && tok.text = [c]

/-- `repr` of a text of one punctuation. -/
def repr (text : Bytes) : Bytes := 0x27 :: (text ++ [0x27])

section Scan

variable (decodeError : Bytes → Bytes) (data : Bytes)

/-- `_Scan.token`, at a position. -/
def token (pos : ℕ) : Except Raise Token :=
  let invalid := valueError (ascii "malformed: invalid JSON at byte " ++ ascii (toString pos))
  match TOKEN.match? (data.drop pos) with
  | none => .error invalid
  | some m =>
    match m.groups.getLast? with
    | none => .error invalid
    | some (kind, before, after) => do
      let text := between before after
      if kind = .str && 0x5C ∈ text then checkEscapes text
      return { kind, text, start := data.length - before.length, pos := data.length - after.length }

/-- `_Scan._closed`, with the position after the token. -/
def closed (closer : UInt8) (pos : ℕ) : Except Raise (Bool × ℕ) := do
  let tok ← token data pos
  if tok.isPunct closer then return (true, tok.pos)
  if tok.isPunct 0x2C then return (false, tok.pos)
  throw (valueError (ascii "malformed: expected ',' or " ++ repr [closer]))

/-- `_Scan._expect`. -/
def expect (punct : UInt8) (pos : ℕ) : Except Raise ℕ := do
  let tok ← token data pos
  if !tok.isPunct punct then throw (valueError (ascii "malformed: expected " ++ repr [punct]))
  return tok.pos

/-- `_Scan._enter`. -/
def enter (depth : ℕ) : Except Raise Unit :=
  if depth > MAX_NESTING_DEPTH then
    .error (valueError (ascii "malformed: nesting depth exceeds the limit"))
  else .ok ()

section Containers

-- the rest of a value whose first token is read, and the position after it
variable (value : Token → ℕ → Except Raise ℕ)

/-- The loop of `_Scan.members`. -/
def memberLoop (depth : ℕ) :
    ℕ → Option Fields → Token → Except Raise (Option Fields × ℕ)
  | 0, _, _ => .error .fuel
  | n + 1, top, key => do
    if key.kind ≠ .str then
      throw (valueError (ascii "malformed: object member name must be a string"))
    let pos ← expect data 0x3A key.pos
    let tok ← token data pos
    let pos ← value tok (depth + 1)
    let top ←
      match top with
      | none => pure none
      | some fields =>
        some <$> record decodeError fields key.text ((data.drop tok.start).take (pos - tok.start))
    let (done, pos) ← closed data 0x7D pos
    if done then return (top, pos)
    let key ← token data pos
    memberLoop depth n top key

/-- `_Scan.members`. -/
def members (depth : ℕ) (top : Option Fields) (pos : ℕ) : Except Raise (Option Fields × ℕ) := do
  enter depth
  let tok ← token data pos
  if tok.isPunct 0x7D then return (top, tok.pos)
  memberLoop decodeError data value depth (data.length + 1) top tok

/-- The loop of `_Scan.elements`. -/
def elementLoop (depth : ℕ) : ℕ → Token → Except Raise ℕ
  | 0, _ => .error .fuel
  | n + 1, tok => do
    let pos ← value tok (depth + 1)
    let (done, pos) ← closed data 0x5D pos
    if done then return pos
    let tok ← token data pos
    elementLoop depth n tok

/-- `_Scan.elements`. -/
def elements (depth pos : ℕ) : Except Raise ℕ := do
  enter depth
  let tok ← token data pos
  if tok.isPunct 0x5D then return tok.pos
  elementLoop data value depth (data.length + 1) tok

end Containers

/-- `_Scan.value`. -/
def value : ℕ → Token → ℕ → Except Raise ℕ
  | 0, _, _ => .error .fuel
  | n + 1, tok, depth =>
    if tok.kind ≠ .punct then .ok tok.pos
    else if tok.text = [0x7B] then Prod.snd <$> members decodeError data
      (value n) depth none tok.pos
    else if tok.text = [0x5B] then elements data (value n) depth tok.pos
    else .error (valueError (ascii "malformed: expected a value, found " ++ repr tok.text))

/-- `_scan_general`. -/
def scanGeneral : Except Raise Fields := do
  let tok ← token data 0
  let rootIsObject := tok.isPunct 0x7B
  let (fields, pos) ←
    if rootIsObject then
      members decodeError data (value decodeError data (MAX_NESTING_DEPTH + 1)) 1 (some []) tok.pos
    else (fun pos => (some [], pos)) <$> value decodeError data (MAX_NESTING_DEPTH + 1) tok 1
  if (data.drop pos).any (· ∉ WS) then
    throw (valueError (ascii "malformed: trailing data after the top-level value"))
  if !rootIsObject then throw (valueError (ascii "malformed: root is not an object"))
  return fields.getD []

/-! ## The fast path -/

/-- A group of a match. -/
def groupOf (m : Regex.Match Part) (part : Part) : Bytes :=
  match m.groups.find? (·.1 = part) with
  | some g => between g.2.1 g.2.2
  | none => []

/-- The loop of `_scan`; `none` hands over to the scan of record. -/
def memberWalk : ℕ → Fields → ℕ → Except Raise (Option Fields)
  | 0, _, _ => .error .fuel
  | n + 1, fields, pos =>
    match MEMBER.match? (data.drop pos) with
    | none => .ok none
    | some m =>
      if groupOf m .name ∈ fields.map Prod.fst || fields.length ≥ MAX_TOP_LEVEL_KEYS then .ok none
      else
        let fields := fields ++ [(groupOf m .name, groupOf m .value)]
        let pos := data.length - m.rest.length
        if groupOf m .close = [0x7D] then
          if pos = data.length || !(data.drop pos).any (· ∉ WS) then .ok (some fields)
          else .ok none
        else memberWalk n fields pos

/-- `_scan`. -/
def scan : Except Raise Fields := do
  if 0x5C ∉ data && data.take 1 = [0x7B] then
    match ← memberWalk data (data.length + 1) [] 1 with
    | some fields => return fields
    | none => scanGeneral decodeError data
  else scanGeneral decodeError data

end Scan

end Client

end MarketMaker
