import MarketMaker.Codec.Preflight
import MarketMaker.Lib.Checks

/-!
# The inbound policies of both codecs

What `frame_preflight.cpp` shares between the codecs beside the preflight: which spellings of a
number are integral, how an unknown tag is shown, and the shape of an identifier. -/

namespace MarketMaker

/-- `kTagNewOrder`. -/
def tagNewOrder : Bytes := ascii "new_order"

/-- `kTagCancelOrder`. -/
def tagCancelOrder : Bytes := ascii "cancel_order"

/-! ## Integral tokens -/

/-- `is_unsigned_integer_token`. -/
def isUnsignedIntegerToken (raw : Bytes) : Bool := !raw.isEmpty && raw.all isDecDigit

/-- `is_integer_token`. -/
def isIntegerToken (raw : Bytes) : Bool :=
  match raw with
  | [] => false
  | c :: rest =>
    if c = 0x2D then !rest.isEmpty && rest.all isDecDigit else isUnsignedIntegerToken (c :: rest)

/-! ## Tags -/

/-- The loop of `sanitized_tag` that keeps the cut off a multi-byte sequence. -/
def tagCut (tag : Bytes) : ℕ → ℕ
  | 0 => 0
  | take + 1 =>
    match tag[take + 1]? with
    | some c => if c &&& 0xC0 = 0x80 then tagCut tag take else take + 1
    | none => take + 1

/-- A byte of a tag, as it is shown. -/
def shownByte (c : UInt8) : UInt8 := if c < 0x20 ∨ c = 0x7F then 0x3F else c

/-- `sanitized_tag`. -/
def sanitizedTag (tag : Bytes) : Bytes :=
  let take := tagCut tag (min tag.length maxTagDetailBytes)
  (tag.take take).map shownByte ++ if take < tag.length then [0xE2, 0x80, 0xA6] else []

/-! ## Identifiers -/

/-- `check_identifier`. -/
def checkIdentifier (value : Bytes) (name : String) (cap : ℕ) : Except Halt Unit :=
  if value.length > cap then .error (malformed (name ++ " exceeds the length cap"))
  else if value.any fun c =>
    c < 0x20 || c = 0x7F then .error (malformed ("control byte in " ++ name))
  else .ok ()

/-- `check_inbound_strings` of a `NewOrder`. -/
def checkNewOrderStrings (o : NewOrder) : Except Halt Unit := do
  checkIdentifier o.clId "cl_id" maxClIdLen
  checkIdentifier o.symbol "symbol" maxSymbolLen
  checkIdentifier o.side "side" maxSideLen

/-- `check_inbound_strings` of a `CancelOrder`. -/
def checkCancelOrderStrings (c : CancelOrder) : Except Halt Unit :=
  checkIdentifier c.clId "cl_id" maxClIdLen

/-- What `check_identifier` lets through. -/
def IsIdentifier (cap : ℕ) (value : Bytes) : Prop :=
  value.length ≤ cap ∧ ∀ c ∈ value, 0x20 ≤ c ∧ c ≠ 0x7F

theorem checkIdentifier_eq_ok_iff {value : Bytes} {name : String} {cap : ℕ} :
    checkIdentifier value name cap = .ok () ↔ IsIdentifier cap value := by
  unfold checkIdentifier IsIdentifier
  have hcontrol : (value.any fun c => c < 0x20 || c = 0x7F) = true ↔
      ¬∀ c ∈ value, 0x20 ≤ c ∧ c ≠ 0x7F := by
    simp only [List.any_eq_true, Bool.or_eq_true, decide_eq_true_eq, not_forall, not_and_or,
      not_le, ne_eq, not_not, exists_prop]
  split_ifs with hlength hbytes
  · simp [Nat.not_le.mpr hlength]
  · simp [hcontrol.mp hbytes]
  · simp only [true_iff]
    exact ⟨Nat.not_lt.mp hlength, by_contra fun h => hbytes (hcontrol.mpr h)⟩

theorem checkNewOrderStrings_eq_ok_iff {o : NewOrder} :
    checkNewOrderStrings o = .ok () ↔ IsIdentifier maxClIdLen o.clId ∧
      IsIdentifier maxSymbolLen o.symbol ∧ IsIdentifier maxSideLen o.side := by
  rw [checkNewOrderStrings, Except.andThen_eq_ok_iff, Except.andThen_eq_ok_iff,
    checkIdentifier_eq_ok_iff, checkIdentifier_eq_ok_iff, checkIdentifier_eq_ok_iff]

theorem checkCancelOrderStrings_eq_ok_iff {c : CancelOrder} :
    checkCancelOrderStrings c = .ok () ↔ IsIdentifier maxClIdLen c.clId :=
  checkIdentifier_eq_ok_iff

end MarketMaker
