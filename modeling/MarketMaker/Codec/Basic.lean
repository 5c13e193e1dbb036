import MarketMaker.Protocol

/-!
# The codec interface

What `mm/codec.hpp` declares for both codecs: the error of a decode, the interface, and the caps of
the shared frame policy.
-/

namespace MarketMaker

/-- `mm::DecodeError`. -/
structure DecodeError where
  code : RejectCode
  detail : Bytes
  deriving DecidableEq, Repr

/-- `mm::ICodec`. An empty encoding is its internal-error signal. -/
structure Codec where
  decode : Bytes → Except DecodeError InMsg
  encode : OutMsg → Bytes

/-- `kMaxNestingDepth`. -/
def maxNestingDepth : ℕ := 32

/-- `kMaxTopLevelKeys`. -/
def maxTopLevelKeys : ℕ := 32

/-- `kMaxClIdLen`. -/
def maxClIdLen : ℕ := 64

/-- `kMaxSymbolLen`. -/
def maxSymbolLen : ℕ := 32

/-- `kMaxSideLen`. -/
def maxSideLen : ℕ := 8

/-- `kMaxTagDetailBytes`. -/
def maxTagDetailBytes : ℕ := 32

/-- `FrameScan`: the keys and the raw values of the root object. -/
abbrev FrameScan := List (Bytes × Bytes)

/-- `FrameScan::find`: the value span of a key, empty when it is absent. -/
def FrameScan.find (scan : FrameScan) (key : Bytes) : Bytes :=
  match List.find? (fun field => field.1 = key) scan with
  | some field => field.2
  | none => []

end MarketMaker
