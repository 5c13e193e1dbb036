import MarketMaker.Codec.Inbound
import MarketMaker.Lib.Json.Elements
import MarketMaker.Server.Session

/-!
# The scenario loader

`feed.cpp`: a scenario is a JSON object a line, and each line goes through the preflight of the
codecs before the loader looks at its one key. Reading the stream does not fail here.
-/

namespace MarketMaker

namespace Feed

/-- `Loc`. -/
structure Loc where
  source : Bytes
  line : ℕ
  deriving DecidableEq, Repr

/-- What the loader throws. -/
inductive FeedError
  /-- By `reject`. -/
  | rejected (loc : Loc) (why : Bytes)
  | noEvents (source : Bytes)
  /-- The preflight gave no verdict. It never comes to this. -/
  | halted (halt : Halt)
  deriving DecidableEq, Repr

/-- The text of the exception. -/
def FeedError.what : FeedError → Bytes
  | .rejected loc why =>
    loc.source ++ ascii ": line " ++ ascii (toString loc.line) ++ ascii ": " ++ why
  | .noEvents source => ascii "feed file " ++ source ++ ascii " contains no events"
  | .halted _ => []

/-- `reject`. -/
def reject {α : Type} (loc : Loc) (why : Bytes) : Except FeedError α := .error (.rejected loc why)

/-- `quoted_name`. -/
def quotedName (name : Bytes) : Bytes := ascii "\"" ++ name ++ ascii "\""

/-- `kJsonWs`. -/
def kJsonWs : Bytes := ascii " \t\n\r"

/-- `trim`. -/
def trim (s : Bytes) : Bytes := (s.dropWhile (· ∈ kJsonWs)).rdropWhile (· ∈ kJsonWs)

/-- `std::from_chars` into an `int64_t`, of a whole token. -/
def fromChars (token : Bytes) : Option ℤ :=
  let negative := token.head? = some 0x2D
  let digits := (if negative then token.tail else token).takeWhile isDecDigit
  let value := Json.signed negative (Json.natValue digits)
  if digits.isEmpty then none
  else if -2 ^ 63 ≤ value ∧ value < 2 ^ 63 then some value
  else none

/-- `to_i64`. -/
def toI64 (loc : Loc) (token name : Bytes) : Except FeedError ℤ :=
  if !isIntegerToken token then reject loc (quotedName name ++ ascii " is not an integer")
  else
    match fromChars token with
    | some value => .ok value
    | none => reject loc (quotedName name ++ ascii " is out of range for a 64-bit integer")

/-- `kNames` of `parse_set`. -/
def setNames : List Bytes := [ascii "bid_px", ascii "bid_qty", ascii "ask_px", ascii "ask_qty"]

/-- The loop of `parse_set` that splits the body. -/
def setTokens (body : Bytes) : List Bytes := (body.splitOn 0x2C).map trim

/-- The loop of `parse_set` over the elements that have names. -/
def setFields (loc : Loc) : List (Bytes × Bytes) → Except FeedError (List ℤ)
  | [] => .ok []
  | (name, token) :: rest => do
    let value ← toI64 loc token name
    if token.head? = some 0x2D then reject loc (quotedName name ++ ascii " must not be negative")
    let fields ← setFields loc rest
    return value :: fields

/-- The text between the brackets, in `parse_set`. -/
def setBody (value : Bytes) : Bytes := trim (FrameScanner.substr value 1 (value.length - 2))

/-- `parse_set`. -/
def parseSet (loc : Loc) (value : Bytes) : Except FeedError FeedEvent := do
  if value.head? ≠ some 0x5B then
    reject loc (quotedName (ascii "set") ++
      ascii " must be an array of four integers [bid_px, bid_qty, ask_px, ask_qty]")
  let body := setBody value
  let arityError := quotedName (ascii "set") ++
    ascii " must have exactly four elements [bid_px, bid_qty, ask_px, ask_qty]"
  if body.isEmpty then reject loc arityError
  let tokens := setTokens body
  let fields ← setFields loc (setNames.zip tokens)
  if tokens.length ≠ setNames.length then reject loc arityError
  return .set (fields.getD 0 0) (fields.getD 1 0) (fields.getD 2 0) (fields.getD 3 0)

/-- `kMaxHaltMs`: a day. -/
def maxHaltMs : ℤ := 24 * 60 * 60 * 1000

/-- `parse_halt`. -/
def parseHalt (loc : Loc) (value : Bytes) : Except FeedError FeedEvent := do
  let ms ← toI64 loc value (ascii "halt_ms")
  if ms ≤ 0 then
    reject loc (quotedName (ascii "halt_ms") ++ ascii " must be a positive integer (milliseconds)")
  if ms > maxHaltMs then
    reject loc (quotedName (ascii "halt_ms") ++ ascii " must be at most " ++
      ascii (toString maxHaltMs) ++ ascii " milliseconds (24 hours)")
  return .halt ms

/-- `require_true`. -/
def requireTrue (loc : Loc) (value name : Bytes) : Except FeedError Unit :=
  if value ≠ ascii "true" then reject loc (quotedName name ++ ascii " must be the literal true")
  else .ok ()

/-- `parse_line`. -/
def parseLine (loc : Loc) (text : Bytes) : Except FeedError FeedEvent :=
  match framePreflight text with
  | .error (.reject err) => reject loc err.detail
  | .error halt => .error (.halted halt)
  | .ok [(key, value)] =>
    if key = ascii "set" then parseSet loc value
    else if key = ascii "halt_ms" then parseHalt loc value
    else if key = ascii "drop" then do
      requireTrue loc value (ascii "drop")
      return .drop
    else if key = ascii "end" then do
      requireTrue loc value (ascii "end")
      return .finish
    else reject loc (ascii "unknown event key " ++ quotedName (sanitizedTag key))
  | .ok scan =>
    reject loc (ascii "expected exactly one event key, found " ++ ascii (toString scan.length))

/-- The lines that `std::getline` takes off a stream. -/
def getlines : Bytes → List Bytes
  | [] => []
  | c :: rest =>
    if c = 0x0A then [] :: getlines rest
    else
      match getlines rest with
      | [] => [[c]]
      | line :: lines => (c :: line) :: lines

/-- The loop of `load_feed_stream`, after `lineNo` lines. -/
def loadLines (source : Bytes) (lineNo : ℕ) (ended : Bool) :
    List Bytes → Except FeedError (List FeedEvent)
  | [] => .ok []
  | line :: lines => do
    let loc : Loc := ⟨source, lineNo + 1⟩
    if ended then
      reject loc (ascii "content after the " ++ quotedName (ascii "end") ++ ascii " event")
    let event ← parseLine loc line
    let events ← loadLines source (lineNo + 1) (event = .finish) lines
    return event :: events

/-- `load_feed_stream`. -/
def loadFeedStream (stream label : Bytes) : Except FeedError (List FeedEvent) := do
  let events ← loadLines label 0 false (getlines stream)
  if events.isEmpty then .error (.noEvents label) else return events

end Feed

end MarketMaker
