import MarketMaker.Codec.Basic

/-!
# The shared frame preflight

`frame_preflight.cpp`: strict UTF-8, the iterative JSON scanner and the policy on top-level keys,
which both codecs run before any library sees a frame.

The scanner walks by index. Where the source reads a byte after comparing the index with the size,
the read here is the optional `f[i]?`; where it reads without a comparison, `charAt` ends the scan
with `Halt.outside` past the end. A loop of the source whose body is more than a test counts its
rounds down from a bound and ends in `Halt.fuel` when it runs out, and a failed `assert` is
`Halt.assertion`. None of the three ever happens.
-/

namespace MarketMaker

/-- How a scan ends short of success. -/
inductive Halt
  | reject (err : DecodeError)
  /-- A byte past the end of the frame was read. -/
  | outside
  /-- An `assert` failed. -/
  | assertion
  /-- A loop did not end within its bound. -/
  | fuel
  deriving DecidableEq, Repr

/-- An unguarded read. -/
def charAt (f : Bytes) (i : ℕ) : Except Halt UInt8 :=
  match f[i]? with
  | some c => .ok c
  | none => .error .outside

/-! ## UTF-8 -/

/-- The length of a sequence by its first byte, with the bounds of the second. -/
def utf8Lead (c : UInt8) : Option (ℕ × UInt8 × UInt8) :=
  if 0xC2 ≤ c ∧ c ≤ 0xDF then some (2, 0x80, 0xBF)
  else if c = 0xE0 then some (3, 0xA0, 0xBF)
  else if 0xE1 ≤ c ∧ c ≤ 0xEC ∨ c = 0xEE ∨ c = 0xEF then some (3, 0x80, 0xBF)
  else if c = 0xED then some (3, 0x80, 0x9F)
  else if c = 0xF0 then some (4, 0x90, 0xBF)
  else if 0xF1 ≤ c ∧ c ≤ 0xF3 then some (4, 0x80, 0xBF)
  else if c = 0xF4 then some (4, 0x80, 0x8F)
  else none

/-- The bytes of a sequence from the third on: `n` of them are left. -/
def utf8Tail (f : Bytes) : ℕ → ℕ → Except Halt Bool
  | 0, _ => .ok true
  | n + 1, p => do
    let c ← charAt f p
    if c < 0x80 ∨ c > 0xBF then return false
    utf8Tail f n (p + 1)

/-- The loop of `utf8_valid`. -/
def utf8ValidLoop (f : Bytes) : ℕ → ℕ → Except Halt Bool
  | 0, _ => .error .fuel
  | fuel + 1, p =>
    match f[p]? with
    | none => .ok true
    | some c =>
      if c < 0x80 then utf8ValidLoop f fuel (p + 1)
      else
        match utf8Lead c with
        | none => .ok false
        | some (len, lo, hi) =>
          if f.length - p < len then .ok false
          else do
            let c ← charAt f (p + 1)
            if c < lo ∨ c > hi then return false
            let ok ← utf8Tail f (len - 2) (p + 2)
            if !ok then return false
            utf8ValidLoop f fuel (p + len)

/-- `utf8_valid`. -/
def utf8Valid (f : Bytes) : Except Halt Bool := utf8ValidLoop f (f.length + 1) 0

/-! ## The scanner -/

/-- `is_dec_digit`. -/
def isDecDigit (c : UInt8) : Bool := 0x30 ≤ c && c ≤ 0x39

namespace FrameScanner

/-- `Tok`. -/
inductive Tok
  | ok
  | bad
  | rawControl
  | unpairedSurrogate
  deriving DecidableEq, Repr

/-- `St`. -/
inductive St
  | value
  | arrValueOrClose
  | objKeyOrClose
  | objKey
  | objColon
  | afterValue
  deriving DecidableEq, Repr

end FrameScanner

/-- The members of `FrameScanner`, with the scan it fills. -/
structure FrameScanner where
  i : ℕ := 0
  depth : ℕ := 0
  /-- Bit `d` is set when the container opened at depth `d` is an object. -/
  objectMask : BitVec 64 := 0
  /-- The key of the root object that awaits its value. -/
  pendingKey : Bytes := []
  havePendingKey : Bool := false
  valueStart : ℕ := 0
  rootIsObject : Bool := false
  done : Bool := false
  st : FrameScanner.St := .value
  out : FrameScan := []

namespace FrameScanner

/-- `substr`. -/
def substr (f : Bytes) (start count : ℕ) : Bytes := (f.drop start).take count

/-- `reject`. -/
def reject (s : FrameScanner) (what : String) : Halt :=
  .reject
    { code := .malformed
      detail := ascii what ++ ascii " (byte " ++ ascii (toString s.i) ++ ascii ")" }

/-- `skip_ws`. -/
def skipWs (f : Bytes) (i : ℕ) : ℕ :=
  match h : f[i]? with
  | some c => if c = 0x20 ∨ c = 0x09 ∨ c = 0x0A ∨ c = 0x0D then skipWs f (i + 1) else i
  | none => i
termination_by f.length - i
decreasing_by
  have hlt : i < f.length := (List.getElem?_eq_some_iff.mp h).1
  omega

/-- The digit loops of `scan_number`. -/
def skipDigits (f : Bytes) (i : ℕ) : ℕ :=
  match h : f[i]? with
  | some c => if isDecDigit c then skipDigits f (i + 1) else i
  | none => i
termination_by f.length - i
decreasing_by
  have hlt : i < f.length := (List.getElem?_eq_some_iff.mp h).1
  omega

/-- The fraction of `scan_number`. -/
def scanFraction (f : Bytes) (i : ℕ) : Bool × ℕ :=
  if (f[i]?).any (· = 0x2E) then
    if (f[i + 1]?).any isDecDigit then (true, skipDigits f (i + 1)) else (false, i + 1)
  else (true, i)

/-- The exponent of `scan_number`. -/
def scanExponent (f : Bytes) (i : ℕ) : Bool × ℕ :=
  if (f[i]?).any fun c => c = 0x65 || c = 0x45 then
    let i := i + 1
    let i := if (f[i]?).any fun c => c = 0x2B || c = 0x2D then i + 1 else i
    if (f[i]?).any isDecDigit then (true, skipDigits f i) else (false, i)
  else (true, i)

/-- `scan_number`: whether there is one, and the index after it. -/
def scanNumber (f : Bytes) (i : ℕ) : Except Halt (Bool × ℕ) := do
  let c ← charAt f i
  let i := if c = 0x2D then i + 1 else i
  if !(f[i]?).any isDecDigit then return (false, i)
  let c ← charAt f i
  let i := if c = 0x30 then i + 1 else skipDigits f i
  let fraction := scanFraction f i
  if !fraction.1 then return fraction
  return scanExponent f fraction.2

/-- The value of a hex digit. -/
def hexDigit (c : UInt8) : Option ℕ :=
  if 0x30 ≤ c ∧ c ≤ 0x39 then some (c.toNat - 0x30)
  else if 0x61 ≤ c ∧ c ≤ 0x66 then some (c.toNat - 0x61 + 10)
  else if 0x41 ≤ c ∧ c ≤ 0x46 then some (c.toNat - 0x41 + 10)
  else none

/-- The loop of `scan_hex4`: `k` digits are left. -/
def scanHexLoop (f : Bytes) : ℕ → ℕ → ℕ → Except Halt (ℕ × ℕ)
  | 0, cu, i => .ok (cu, i)
  | k + 1, cu, i => do
    let c ← charAt f i
    match hexDigit c with
    | some d => scanHexLoop f k (cu <<< 4 ||| d) (i + 1)
    | none => return (0x110000, i)

/-- `scan_hex4`: the code unit, past 0xFFFF for a malformed escape, and the index after it. -/
def scanHex4 (f : Bytes) (i : ℕ) : Except Halt (ℕ × ℕ) :=
  if f.length - i < 4 then .ok (0x110000, i) else scanHexLoop f 4 0 i

/-- The `u` escape of `scan_string`, from its first hex digit on. -/
def scanUnicode (f : Bytes) (i : ℕ) : Except Halt (Tok × ℕ) := do
  let (cu, i) ← scanHex4 f i
  if cu > 0xFFFF then return (.bad, i)
  if 0xDC00 ≤ cu ∧ cu ≤ 0xDFFF then return (.unpairedSurrogate, i)
  if 0xD800 ≤ cu ∧ cu ≤ 0xDBFF then
    if f.length - i < 2 then return (.unpairedSurrogate, i)
    let c ← charAt f i
    let d ← charAt f (i + 1)
    if c ≠ 0x5C ∨ d ≠ 0x75 then return (.unpairedSurrogate, i)
    let (lo, i) ← scanHex4 f (i + 2)
    if lo > 0xFFFF then return (.bad, i)
    if lo < 0xDC00 ∨ lo > 0xDFFF then return (.unpairedSurrogate, i)
    return (.ok, i)
  return (.ok, i)

/-- The characters that follow a backslash in a two-character escape. -/
def shortEscapes : List UInt8 := [0x22, 0x5C, 0x2F, 0x62, 0x66, 0x6E, 0x72, 0x74]

/-- The loop of `scan_string`. -/
def scanStringLoop (f : Bytes) : ℕ → ℕ → Except Halt (Tok × ℕ)
  | 0, _ => .error .fuel
  | fuel + 1, i =>
    match f[i]? with
    | none => .ok (.bad, i)
    | some c =>
      if c = 0x22 then .ok (.ok, i + 1)
      else if c < 0x20 then .ok (.rawControl, i)
      else if c ≠ 0x5C then scanStringLoop f fuel (i + 1)
      else
        match f[i + 1]? with
        | none => .ok (.bad, i + 1)
        | some e =>
          if e ∈ shortEscapes then scanStringLoop f fuel (i + 2)
          else if e = 0x75 then do
            let (t, i) ← scanUnicode f (i + 2)
            if t = .ok then scanStringLoop f fuel i else return (t, i)
          else .ok (.bad, i + 1)

/-- `scan_string`, from the opening quote; the index after the closing one. -/
def scanString (f : Bytes) (i : ℕ) : Except Halt (Tok × ℕ) :=
  scanStringLoop f (f.length + 1) (i + 1)

/-- `string_error`. -/
def stringError (s : FrameScanner) (t : Tok) : Halt :=
  s.reject <|
    if t = .rawControl then "raw control byte inside a string"
    else if t = .unpairedSurrogate then "unpaired surrogate escape in a string"
    else "invalid string escape or unterminated string"

/-- `value_done`. -/
def valueDone (f : Bytes) (s : FrameScanner) : Except Halt FrameScanner := do
  let s ←
    if s.depth = 1 ∧ s.havePendingKey = true then
      if ¬s.valueStart < s.i then throw .assertion
      else if s.out.length = maxTopLevelKeys then throw (s.reject "too many top-level keys")
      else
        pure
          { s with
            out := s.out ++ [(s.pendingKey, substr f s.valueStart (s.i - s.valueStart))]
            havePendingKey := false }
    else pure s
  if s.depth = 0 then return { s with done := true } else return { s with st := .afterValue }

/-- The `ObjKey` case of `run`. -/
def objKey (f : Bytes) (s : FrameScanner) (c : UInt8) : Except Halt FrameScanner :=
  if c ≠ 0x22 then .error (s.reject "expected a string key")
  else do
    let keyStart := s.i + 1
    let (t, i) ← scanString f s.i
    let s := { s with i }
    if t ≠ .ok then throw (s.stringError t)
    let s :=
      if s.depth = 1 ∧ s.rootIsObject = true then
        { s with pendingKey := substr f keyStart (i - 1 - keyStart), havePendingKey := true }
      else s
    return { s with st := .objColon }

/-- Close the innermost container. -/
def close (f : Bytes) (s : FrameScanner) : Except Halt FrameScanner :=
  valueDone f { s with i := s.i + 1, depth := s.depth - 1 }

/-- The literal cases of `run`. -/
def scanLiteral (f : Bytes) (s : FrameScanner) (lit : Bytes) : Except Halt FrameScanner :=
  if substr f s.i lit.length ≠ lit then .error (s.reject "invalid literal")
  else valueDone f { s with i := s.i + lit.length }

/-- The `Value` case of `run`. -/
def valueCase (f : Bytes) (s : FrameScanner) (c : UInt8) : Except Halt FrameScanner :=
  let s := if s.depth = 1 ∧ s.rootIsObject = true then { s with valueStart := s.i } else s
  if c = 0x7B ∨ c = 0x5B then
    if s.depth = maxNestingDepth then .error (s.reject "nesting depth exceeds the limit")
    else
      .ok
        { s with
          objectMask :=
            if c = 0x7B then s.objectMask ||| 1#64 <<< s.depth
            else s.objectMask &&& ~~~(1#64 <<< s.depth)
          depth := s.depth + 1
          i := s.i + 1
          st := if c = 0x7B then .objKeyOrClose else .arrValueOrClose }
  else if c = 0x22 then do
    let (t, i) ← scanString f s.i
    let s := { s with i }
    if t ≠ .ok then throw (s.stringError t)
    valueDone f s
  else if c = 0x74 then scanLiteral f s (ascii "true")
  else if c = 0x66 then scanLiteral f s (ascii "false")
  else if c = 0x6E then scanLiteral f s (ascii "null")
  else if c ≠ 0x2D ∧ isDecDigit c = false then .error (s.reject "invalid number token")
  else do
    let (ok, i) ← scanNumber f s.i
    let s := { s with i }
    if !ok then throw (s.reject "invalid number token")
    valueDone f s

/-- The `AfterValue` case of `run`. -/
def afterCase (f : Bytes) (s : FrameScanner) (c : UInt8) : Except Halt FrameScanner :=
  let inObject := (s.objectMask >>> (s.depth - 1)) &&& 1#64 = 1#64
  if c = 0x2C then .ok { s with i := s.i + 1, st := if inObject then .objKey else .value }
  else if c = (if inObject then 0x7D else 0x5D) then close f s
  else .error (s.reject "expected ',' or a matching close bracket")

/-- The `switch` of `run`, at a byte that is neither a blank nor a control byte. -/
def dispatch (f : Bytes) (s : FrameScanner) (c : UInt8) : Except Halt FrameScanner :=
  match s.st with
  | .objKeyOrClose => if c = 0x7D then close f s else objKey f s c
  | .objKey => objKey f s c
  | .objColon =>
    if c ≠ 0x3A then .error (s.reject "expected ':'")
    else .ok { s with i := s.i + 1, st := .value }
  | .arrValueOrClose => if c = 0x5D then close f s else valueCase f s c
  | .value => valueCase f s c
  | .afterValue => afterCase f s c

/-- The body of the loop of `run`. -/
def round (f : Bytes) (s : FrameScanner) : Except Halt FrameScanner :=
  let s : FrameScanner := { s with i := skipWs f s.i }
  match f[s.i]? with
  | none => .error (s.reject "truncated frame")
  | some c =>
    if c < 0x20 then .error (s.reject "raw control byte outside a string") else dispatch f s c

/-- The loop of `run`. -/
def loop (f : Bytes) : ℕ → FrameScanner → Except Halt FrameScanner
  | 0, _ => .error .fuel
  | fuel + 1, s => if s.done then .ok s else round f s >>= loop f fuel

/-- `run`. -/
def run (f : Bytes) : Except Halt FrameScan := do
  let s : FrameScanner := { i := skipWs f 0 }
  match f[s.i]? with
  | none => throw (s.reject "empty frame")
  | some c =>
    let s ← loop f (f.length + 1) { s with rootIsObject := c = 0x7B }
    let s := { s with i := skipWs f s.i }
    match f[s.i]? with
    | some c =>
      throw (s.reject
        (if c < 0x20 then "raw control byte outside a string"
          else "trailing content after the frame"))
    | none =>
      if !s.rootIsObject then throw (s.reject "root is not an object")
      return s.out

end FrameScanner

/-! ## The policy -/

/-- A frame refused by the preflight. -/
def malformed (detail : String) : Halt := .reject ⟨.malformed, ascii detail⟩

/-- Some key occurs twice. -/
def hasDuplicate : List Bytes → Bool
  | [] => false
  | key :: keys => key ∈ keys || hasDuplicate keys

/-- `frame_preflight`. -/
def framePreflight (frame : Bytes) : Except Halt FrameScan := do
  if [0xEF, 0xBB, 0xBF] <+: frame then throw (malformed "UTF-8 BOM")
  let valid ← utf8Valid frame
  if !valid then throw (malformed "invalid UTF-8")
  let scan ← FrameScanner.run frame
  if scan.any fun field =>
    0x5C ∈ field.1 then throw (malformed "escape sequence in a top-level key")
  if hasDuplicate (scan.map Prod.fst) then throw (malformed "duplicate top-level key")
  return scan

end MarketMaker
