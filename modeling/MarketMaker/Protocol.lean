import Mathlib.Algebra.Order.Ring.Int
import Mathlib.Data.List.Lex
import Mathlib.Tactic.Common

/-!
# Domain types, order validation and wire messages

The types of `mm/types.hpp` and `mm/protocol.hpp`. A `std::string` is its list of bytes, an
`int64` is an `Int` and a `uint64` or `size_t` a `ℕ`; that the engine's `int64` arithmetic stays
in range is a theorem about the engine, not an assumption here.

Every message keeps its envelope (`v`, `seq`, `epoch`) although the engine never reads it: the
session stamps `seq` and `epoch` when a message leaves the outbox.
-/

namespace MarketMaker

/-- A `std::string`. -/
abbrev Bytes := List UInt8

instance lawfulBEqBytes : LawfulBEq Bytes := inferInstance

/-- Bytes compare as unsigned integers, which is how `std::string_view` orders them. -/
instance linearOrderUInt8 : LinearOrder UInt8 where
  le_refl := UInt8.le_refl
  le_trans _ _ _ := UInt8.le_trans
  le_antisymm _ _ := UInt8.le_antisymm
  le_total := UInt8.le_total
  lt_iff_le_not_ge a b := by
    rw [UInt8.lt_iff_toNat_lt, UInt8.le_iff_toNat_le, UInt8.le_iff_toNat_le]
    omega
  toDecidableLE := inferInstance

/-- The bytes of an ASCII text of the source. -/
def ascii (s : String) : Bytes := s.toList.map fun c => c.toNat.toUInt8

/-- The range of an `int64`. -/
def InInt64 (z : ℤ) : Prop := -2 ^ 63 ≤ z ∧ z < 2 ^ 63

/-! ## Types -/

/-- `mm::Side`. -/
inductive Side
  | bid
  | ask
  deriving DecidableEq, Repr

/-- The wire spelling of a side. -/
def Side.wire : Side → Bytes
  | .bid => ascii "B"
  | .ask => ascii "S"

/-- A price in ticks (`price / tick_size`), as opposed to the raw price units of the wire. -/
structure Ticks where
  /-- The number of ticks. -/
  v : ℤ
  deriving DecidableEq, Repr

/-- `mm::Instrument`, with the defaults of the source. -/
structure Instrument where
  symbol : Bytes
  /-- Price units per tick. -/
  tickSize : ℤ := 5
  /-- Quantity units per lot. -/
  lotSize : ℤ := 10
  minPrice : ℤ := 1
  maxPrice : ℤ := 10000000
  maxOrderQty : ℤ := 10000
  /-- The cap on the live orders of one session. -/
  maxLiveOrders : ℤ := 2
  deriving DecidableEq, Repr

/-- `mm::RejectCode`. -/
inductive RejectCode
  | unsupportedVersion
  | unknownType
  | malformed
  | msgTooLarge
  | unknownSymbol
  | badSide
  | tickSize
  | lotSize
  | qtyLimit
  | priceRange
  | dupClOrdId
  | postOnlyCross
  | maxLiveOrders
  | unknownClOrdId
  | alreadyTerminal
  | staleEpoch
  deriving DecidableEq, Repr

/-- The wire spelling of a reject code. -/
def RejectCode.toString : RejectCode → Bytes
  | .unsupportedVersion => ascii "UNSUPPORTED_VERSION"
  | .unknownType => ascii "UNKNOWN_TYPE"
  | .malformed => ascii "MALFORMED"
  | .msgTooLarge => ascii "MSG_TOO_LARGE"
  | .unknownSymbol => ascii "UNKNOWN_SYMBOL"
  | .badSide => ascii "BAD_SIDE"
  | .tickSize => ascii "TICK_SIZE"
  | .lotSize => ascii "LOT_SIZE"
  | .qtyLimit => ascii "QTY_LIMIT"
  | .priceRange => ascii "PRICE_RANGE"
  | .dupClOrdId => ascii "DUP_CLORDID"
  | .postOnlyCross => ascii "POST_ONLY_CROSS"
  | .maxLiveOrders => ascii "MAX_LIVE_ORDERS"
  | .unknownClOrdId => ascii "UNKNOWN_CLORDID"
  | .alreadyTerminal => ascii "ALREADY_TERMINAL"
  | .staleEpoch => ascii "STALE_EPOCH"

/-- Distinct codes have distinct spellings, so a client can tell them apart. -/
theorem RejectCode.toString_injective : Function.Injective RejectCode.toString := by
  intro a b h
  cases a <;> cases b <;> first | rfl | exact absurd h (by decide)

/-- `mm::validate_order`: the first check that fails, in the order symbol, side, tick, lot,
quantity, price; `none` for a valid order. -/
def validateOrder (inst : Instrument) (symbol side : Bytes) (px qty : ℤ) : Option RejectCode :=
  if symbol ≠ inst.symbol then some .unknownSymbol
  else if side ≠ ascii "B" ∧ side ≠ ascii "S" then some .badSide
  else if inst.tickSize ≤ 0 ∨ px.tmod inst.tickSize ≠ 0 then some .tickSize
  else if inst.lotSize ≤ 0 ∨ qty.tmod inst.lotSize ≠ 0 then some .lotSize
  else if qty ≤ 0 ∨ qty > inst.maxOrderQty then some .qtyLimit
  else if px < inst.minPrice ∨ px > inst.maxPrice then some .priceRange
  else none

/-- What an order that passes `validateOrder` satisfies. -/
structure ValidOrder (inst : Instrument) (symbol side : Bytes) (px qty : ℤ) : Prop where
  symbol : symbol = inst.symbol
  side : side = ascii "B" ∨ side = ascii "S"
  tick : inst.tickSize ∣ px
  lot : inst.lotSize ∣ qty
  qty_pos : 0 < qty
  qty_le : qty ≤ inst.maxOrderQty
  px_ge : inst.minPrice ≤ px
  px_le : px ≤ inst.maxPrice

theorem validOrder_of_validateOrder {inst : Instrument} {symbol side : Bytes} {px qty : ℤ}
    (h : validateOrder inst symbol side px qty = none) : ValidOrder inst symbol side px qty := by
  unfold validateOrder at h
  split_ifs at h with h1 h2 h3 h4 h5 h6
  push Not at h1 h2 h3 h4 h5 h6
  refine ⟨h1, ?_, Int.dvd_of_tmod_eq_zero h3.2, Int.dvd_of_tmod_eq_zero h4.2, h5.1, h5.2, h6.1,
    h6.2⟩
  by_cases hB : side = ascii "B"
  · exact Or.inl hB
  · exact Or.inr (h2 hB)

/-! ## Messages -/

/-- `mm::Tob`: the top of book. -/
structure Tob where
  v : ℕ := 1
  seq : ℕ := 0
  epoch : ℕ := 0
  mdSeq : ℕ := 0
  symbol : Bytes
  bidPx : ℤ := 0
  bidQty : ℤ := 0
  askPx : ℤ := 0
  askQty : ℤ := 0
  deriving DecidableEq, Repr

/-- `mm::NewOrder`. -/
structure NewOrder where
  v : ℕ := 1
  seq : ℕ := 0
  epoch : ℕ := 0
  mdSeq : ℕ := 0
  clId : Bytes
  symbol : Bytes
  /-- `"B"` or `"S"` for a valid order. -/
  side : Bytes
  px : ℤ := 0
  qty : ℤ := 0
  postOnly : Bool := true
  deriving DecidableEq, Repr

/-- `mm::CancelOrder`. -/
structure CancelOrder where
  v : ℕ := 1
  seq : ℕ := 0
  epoch : ℕ := 0
  clId : Bytes
  deriving DecidableEq, Repr

/-- `mm::OrderAck`. -/
structure OrderAck where
  v : ℕ := 1
  seq : ℕ := 0
  epoch : ℕ := 0
  clId : Bytes
  engId : ℕ := 0
  status : Bytes
  /-- The service time of the command, stamped by the session. -/
  svcNs : ℤ := 0
  deriving DecidableEq, Repr

/-- `mm::CancelAck`. -/
structure CancelAck where
  v : ℕ := 1
  seq : ℕ := 0
  epoch : ℕ := 0
  clId : Bytes
  engId : ℕ := 0
  status : Bytes
  deriving DecidableEq, Repr

/-- `mm::Reject`. -/
structure Reject where
  v : ℕ := 1
  seq : ℕ := 0
  epoch : ℕ := 0
  /-- Empty when the rejected frame carried no usable order id. -/
  clId : Bytes
  code : Bytes
  reason : Bytes
  deriving DecidableEq, Repr

/-- `mm::Fill`. -/
structure Fill where
  v : ℕ := 1
  seq : ℕ := 0
  epoch : ℕ := 0
  clId : Bytes
  engId : ℕ := 0
  px : ℤ := 0
  qty : ℤ := 0
  leaves : ℤ := 0
  execId : ℕ := 0
  deriving DecidableEq, Repr

/-- `mm::InMsg`: what a client sends. -/
inductive InMsg
  | newOrder (m : NewOrder)
  | cancelOrder (m : CancelOrder)
  deriving DecidableEq, Repr

/-- `mm::OutMsg`: what the engine process sends. -/
inductive OutMsg
  | tob (m : Tob)
  | orderAck (m : OrderAck)
  | cancelAck (m : CancelAck)
  | reject (m : Reject)
  | fill (m : Fill)
  deriving DecidableEq, Repr

namespace InMsg

/-- The envelope sequence number of a command. -/
def seq : InMsg → ℕ
  | newOrder m => m.seq
  | cancelOrder m => m.seq

/-- The epoch a command names. -/
def epoch : InMsg → ℕ
  | newOrder m => m.epoch
  | cancelOrder m => m.epoch

/-- The client order id of a command. -/
def clId : InMsg → Bytes
  | newOrder m => m.clId
  | cancelOrder m => m.clId

end InMsg

namespace OutMsg

/-- The envelope sequence number of a message. -/
def seq : OutMsg → ℕ
  | tob m => m.seq
  | orderAck m => m.seq
  | cancelAck m => m.seq
  | reject m => m.seq
  | fill m => m.seq

/-- The epoch of a message. -/
def epoch : OutMsg → ℕ
  | tob m => m.epoch
  | orderAck m => m.epoch
  | cancelAck m => m.epoch
  | reject m => m.epoch
  | fill m => m.epoch

/-- The client order id a report names; a tick names none. -/
def clId : OutMsg → Option Bytes
  | tob _ => none
  | orderAck m => some m.clId
  | cancelAck m => some m.clId
  | reject m => some m.clId
  | fill m => some m.clId

/-- Stamp the envelope, as the write path of a session does. -/
def stamp (seq epoch : ℕ) : OutMsg → OutMsg
  | tob m => tob { m with seq, epoch }
  | orderAck m => orderAck { m with seq, epoch }
  | cancelAck m => cancelAck { m with seq, epoch }
  | reject m => reject { m with seq, epoch }
  | fill m => fill { m with seq, epoch }

/-- The message is a top of book. -/
def isTob : OutMsg → Bool
  | tob _ => true
  | _ => false

@[simp]
theorem seq_stamp (s e : ℕ) (m : OutMsg) : (m.stamp s e).seq = s := by cases m <;> rfl

@[simp]
theorem epoch_stamp (s e : ℕ) (m : OutMsg) : (m.stamp s e).epoch = e := by cases m <;> rfl

@[simp]
theorem clId_stamp (s e : ℕ) (m : OutMsg) : (m.stamp s e).clId = m.clId := by cases m <;> rfl

@[simp]
theorem isTob_stamp (s e : ℕ) (m : OutMsg) : (m.stamp s e).isTob = m.isTob := by cases m <;> rfl

end OutMsg

end MarketMaker
