import MarketMaker.Lib.Packed
import MarketMaker.Protocol

/-!
# The shared-memory wire format

The six packed 64-byte structs of `mm/shm_ring.hpp`, as their members in order, and the format
strings and named tuples of `mmclient.shm_ipc`. `toTuple` reads a struct's members as the integers
of the tuple; the two sides agree when packing and unpacking go through it.
-/

namespace MarketMaker

open Packed

/-! ## The structs -/

/-- `enum class ShmMsgType : std::uint16_t`. -/
inductive ShmMsgType where
  | topOfBook
  | newOrder
  | cancelOrder
  | orderAck
  | orderFill
  | orderReject
  | cancelReject
  | heartbeat
deriving DecidableEq, Repr

def ShmMsgType.toUInt16 : ShmMsgType → UInt16
  | .topOfBook => 1
  | .newOrder => 2
  | .cancelOrder => 3
  | .orderAck => 4
  | .orderFill => 5
  | .orderReject => 6
  | .cancelReject => 7
  | .heartbeat => 8

/-- `sizeof(ShmSlot)`. -/
def shmSlotSize : ℕ := 64

structure ShmTopOfBook where
  tag : UInt16 := ShmMsgType.topOfBook.toUInt16
  flags : UInt16 := 0
  seq : UInt32 := 0
  epoch : UInt64 := 0
  mdSeq : UInt64 := 0
  bidPx : Int64 := 0
  bidQty : Int64 := 0
  askPx : Int64 := 0
  askQty : Int64 := 0
  venueNs : Int64 := 0
deriving DecidableEq

structure ShmNewOrder where
  tag : UInt16 := ShmMsgType.newOrder.toUInt16
  side : UInt8 := 1
  postOnly : UInt8 := 0
  seq : UInt32 := 0
  epoch : UInt64 := 0
  mdSeq : UInt64 := 0
  clId : UInt64 := 0
  px : Int64 := 0
  qty : Int64 := 0
  sendTsNs : Int64 := 0
  reserved : Vector UInt8 8 := .replicate 8 0
deriving DecidableEq

structure ShmCancelOrder where
  tag : UInt16 := ShmMsgType.cancelOrder.toUInt16
  pad : UInt16 := 0
  seq : UInt32 := 0
  epoch : UInt64 := 0
  clId : UInt64 := 0
  sendTsNs : Int64 := 0
  reserved : Vector UInt8 32 := .replicate 32 0
deriving DecidableEq

structure ShmOrderAck where
  tag : UInt16 := ShmMsgType.orderAck.toUInt16
  pad : UInt16 := 0
  seq : UInt32 := 0
  epoch : UInt64 := 0
  clId : UInt64 := 0
  svcNs : UInt64 := 0
  engineTsNs : Int64 := 0
  reserved : Vector UInt8 24 := .replicate 24 0
deriving DecidableEq

structure ShmOrderFill where
  tag : UInt16 := ShmMsgType.orderFill.toUInt16
  pad : UInt16 := 0
  seq : UInt32 := 0
  epoch : UInt64 := 0
  clId : UInt64 := 0
  mdSeq : UInt64 := 0
  fillPx : Int64 := 0
  fillQty : Int64 := 0
  reserved : Vector UInt8 16 := .replicate 16 0
deriving DecidableEq

structure ShmOrderReject where
  tag : UInt16 := ShmMsgType.orderReject.toUInt16
  code : UInt16 := 0
  seq : UInt32 := 0
  epoch : UInt64 := 0
  clId : UInt64 := 0
  engineTsNs : Int64 := 0
  reserved : Vector UInt8 32 := .replicate 32 0
deriving DecidableEq

/-! The members in declaration order; under `#pragma pack(push, 1)` each follows the one before. -/

def ShmTopOfBook.members (v : ShmTopOfBook) : List Member :=
  [.u16 v.tag, .u16 v.flags, .u32 v.seq, .u64 v.epoch, .u64 v.mdSeq, .i64 v.bidPx, .i64 v.bidQty,
    .i64 v.askPx, .i64 v.askQty, .i64 v.venueNs]

def ShmNewOrder.members (v : ShmNewOrder) : List Member :=
  [.u16 v.tag, .u8 v.side, .u8 v.postOnly, .u32 v.seq, .u64 v.epoch, .u64 v.mdSeq, .u64 v.clId,
    .i64 v.px, .i64 v.qty, .i64 v.sendTsNs, .bytes 8 v.reserved]

def ShmCancelOrder.members (v : ShmCancelOrder) : List Member :=
  [.u16 v.tag, .u16 v.pad, .u32 v.seq, .u64 v.epoch, .u64 v.clId, .i64 v.sendTsNs,
    .bytes 32 v.reserved]

def ShmOrderAck.members (v : ShmOrderAck) : List Member :=
  [.u16 v.tag, .u16 v.pad, .u32 v.seq, .u64 v.epoch, .u64 v.clId, .u64 v.svcNs,
    .i64 v.engineTsNs, .bytes 24 v.reserved]

def ShmOrderFill.members (v : ShmOrderFill) : List Member :=
  [.u16 v.tag, .u16 v.pad, .u32 v.seq, .u64 v.epoch, .u64 v.clId, .u64 v.mdSeq, .i64 v.fillPx,
    .i64 v.fillQty, .bytes 16 v.reserved]

def ShmOrderReject.members (v : ShmOrderReject) : List Member :=
  [.u16 v.tag, .u16 v.code, .u32 v.seq, .u64 v.epoch, .u64 v.clId, .i64 v.engineTsNs,
    .bytes 32 v.reserved]

/-- A slot read as `ShmSlot::new_order`. -/
def ShmNewOrder.read : Reader ShmNewOrder := do
  let tag ← readU16
  let side ← readU8
  let postOnly ← readU8
  let seq ← readU32
  let epoch ← readU64
  let mdSeq ← readU64
  let clId ← readU64
  let px ← readI64
  let qty ← readI64
  let sendTsNs ← readI64
  let reserved ← readBytes 8
  return { tag, side, postOnly, seq, epoch, mdSeq, clId, px, qty, sendTsNs, reserved }

/-- A slot read as `ShmSlot::cancel_order`. -/
def ShmCancelOrder.read : Reader ShmCancelOrder := do
  let tag ← readU16
  let pad ← readU16
  let seq ← readU32
  let epoch ← readU64
  let clId ← readU64
  let sendTsNs ← readI64
  let reserved ← readBytes 32
  return { tag, pad, seq, epoch, clId, sendTsNs, reserved }

/-- The struct is read off its bytes. -/
theorem ShmNewOrder.read_reprOf (v : ShmNewOrder) (rest : Bytes) :
    ShmNewOrder.read (reprOf v.members ++ rest) = (v, rest) := by
  simp [ShmNewOrder.read, reprOf, ShmNewOrder.members, bind, StateT.bind]
  rfl

/-- So is that of a cancel. -/
theorem ShmCancelOrder.read_reprOf (v : ShmCancelOrder) (rest : Bytes) :
    ShmCancelOrder.read (reprOf v.members ++ rest) = (v, rest) := by
  simp [ShmCancelOrder.read, reprOf, ShmCancelOrder.members, bind, StateT.bind]
  rfl

/-! ## The named tuples -/

namespace Client

structure ShmTopOfBook where
  flags : ℤ
  seq : ℤ
  epoch : ℤ
  mdSeq : ℤ
  bidPx : ℤ
  bidQty : ℤ
  askPx : ℤ
  askQty : ℤ
  venueNs : ℤ
deriving DecidableEq, Repr

structure ShmNewOrder where
  side : ℤ
  postOnly : ℤ
  seq : ℤ
  epoch : ℤ
  mdSeq : ℤ
  clId : ℤ
  px : ℤ
  qty : ℤ
  sendTsNs : ℤ
deriving DecidableEq, Repr

structure ShmCancelOrder where
  seq : ℤ
  epoch : ℤ
  clId : ℤ
  sendTsNs : ℤ
deriving DecidableEq, Repr

structure ShmOrderAck where
  seq : ℤ
  epoch : ℤ
  clId : ℤ
  svcNs : ℤ
  engineTsNs : ℤ
deriving DecidableEq, Repr

structure ShmOrderFill where
  seq : ℤ
  epoch : ℤ
  clId : ℤ
  mdSeq : ℤ
  fillPx : ℤ
  fillQty : ℤ
deriving DecidableEq, Repr

structure ShmOrderReject where
  code : ℤ
  seq : ℤ
  epoch : ℤ
  clId : ℤ
  engineTsNs : ℤ
deriving DecidableEq, Repr

def tagTob : ℤ := 1
def tagNewOrder : ℤ := 2
def tagCancelOrder : ℤ := 3
def tagOrderAck : ℤ := 4
def tagOrderFill : ℤ := 5
def tagOrderReject : ℤ := 6

/-! The format strings; each starts with `=`, native order and standard sizes. -/

/-- `"=HHIQQqqqqq"`. -/
def tobStruct : List Code := [.H, .H, .I, .Q, .Q, .q, .q, .q, .q, .q]

/-- `"=HBBIQQQqqq8s"`. -/
def newOrderStruct : List Code := [.H, .B, .B, .I, .Q, .Q, .Q, .q, .q, .q, .s 8]

/-- `"=HHIQQq32s"`. -/
def cancelOrderStruct : List Code := [.H, .H, .I, .Q, .Q, .q, .s 32]

/-- `"=HHIQQQq24s"`. -/
def ackStruct : List Code := [.H, .H, .I, .Q, .Q, .Q, .q, .s 24]

/-- `"=HHIQQQqq16s"`. -/
def fillStruct : List Code := [.H, .H, .I, .Q, .Q, .Q, .q, .q, .s 16]

/-- `"=HHIQQq32s"`. -/
def rejectStruct : List Code := [.H, .H, .I, .Q, .Q, .q, .s 32]

/-- `_unpack_tob`; `none` is a `struct.error`. -/
def unpackTob (slot : Bytes) : Option ShmTopOfBook :=
  match unpack tobStruct slot with
  | some [_, .int flags, .int seq, .int epoch, .int mdSeq, .int bidPx, .int bidQty, .int askPx,
      .int askQty, .int venueNs] =>
    some { flags, seq, epoch, mdSeq, bidPx, bidQty, askPx, askQty, venueNs }
  | _ => none

/-- `_unpack_new_order`. -/
def unpackNewOrder (slot : Bytes) : Option ShmNewOrder :=
  match unpack newOrderStruct slot with
  | some [_, .int side, .int postOnly, .int seq, .int epoch, .int mdSeq, .int clId, .int px,
      .int qty, .int sendTsNs, _] =>
    some { side, postOnly, seq, epoch, mdSeq, clId, px, qty, sendTsNs }
  | _ => none

/-- `_unpack_cancel_order`. -/
def unpackCancelOrder (slot : Bytes) : Option ShmCancelOrder :=
  match unpack cancelOrderStruct slot with
  | some [_, _, .int seq, .int epoch, .int clId, .int sendTsNs, _] =>
    some { seq, epoch, clId, sendTsNs }
  | _ => none

/-- `_unpack_ack`. -/
def unpackAck (slot : Bytes) : Option ShmOrderAck :=
  match unpack ackStruct slot with
  | some [_, _, .int seq, .int epoch, .int clId, .int svcNs, .int engineTsNs, _] =>
    some { seq, epoch, clId, svcNs, engineTsNs }
  | _ => none

/-- `_unpack_fill`. -/
def unpackFill (slot : Bytes) : Option ShmOrderFill :=
  match unpack fillStruct slot with
  | some [_, _, .int seq, .int epoch, .int clId, .int mdSeq, .int fillPx, .int fillQty, _] =>
    some { seq, epoch, clId, mdSeq, fillPx, fillQty }
  | _ => none

/-- `_unpack_reject`. -/
def unpackReject (slot : Bytes) : Option ShmOrderReject :=
  match unpack rejectStruct slot with
  | some [_, .int code, .int seq, .int epoch, .int clId, .int engineTsNs, _] =>
    some { code, seq, epoch, clId, engineTsNs }
  | _ => none

/-- What `_unpack_payload` returns. -/
inductive ShmPayload where
  | tob (v : ShmTopOfBook)
  | newOrder (v : ShmNewOrder)
  | cancelOrder (v : ShmCancelOrder)
  | ack (v : ShmOrderAck)
  | fill (v : ShmOrderFill)
  | reject (v : ShmOrderReject)
  | raw (slot : Bytes)
deriving DecidableEq, Repr

/-- `_unpack_payload`, the lookup in `_DECODERS`. -/
def unpackPayload (tag : ℤ) (slot : Bytes) : Option ShmPayload :=
  if tag = tagTob then .tob <$> unpackTob slot
  else if tag = tagNewOrder then .newOrder <$> unpackNewOrder slot
  else if tag = tagCancelOrder then .cancelOrder <$> unpackCancelOrder slot
  else if tag = tagOrderAck then .ack <$> unpackAck slot
  else if tag = tagOrderFill then .fill <$> unpackFill slot
  else if tag = tagOrderReject then .reject <$> unpackReject slot
  else some (.raw slot)

/-- What `try_pop` makes of a slot: its tag and its payload. -/
def readSlot (slot : Bytes) : Option (ℤ × ShmPayload) :=
  match unpack [.H] (slot.take 2) with
  | some [.int tag] => (fun payload => (tag, payload)) <$> unpackPayload tag slot
  | _ => none

/-- The slot that `push_new_order` packs. -/
def packNewOrder (order : ShmNewOrder) : Option Bytes :=
  pack newOrderStruct
    [.int tagNewOrder, .int order.side, .int order.postOnly, .int order.seq, .int order.epoch,
      .int order.mdSeq, .int order.clId, .int order.px, .int order.qty, .int order.sendTsNs,
      .raw (List.replicate 8 0)]

/-- The slot that `push_cancel_order` packs. -/
def packCancelOrder (cancel : ShmCancelOrder) : Option Bytes :=
  pack cancelOrderStruct
    [.int tagCancelOrder, .int 0, .int cancel.seq, .int cancel.epoch, .int cancel.clId,
      .int cancel.sendTsNs, .raw (List.replicate 32 0)]

/-- A number that an unsigned field of so many bits holds. -/
def InUnsigned (bits : ℕ) (z : ℤ) : Prop := 0 ≤ z ∧ z < 2 ^ bits

/-- Every field is in the range of its member. -/
structure ShmNewOrder.InDomain (order : ShmNewOrder) : Prop where
  side : InUnsigned 8 order.side
  postOnly : InUnsigned 8 order.postOnly
  seq : InUnsigned 32 order.seq
  epoch : InUnsigned 64 order.epoch
  mdSeq : InUnsigned 64 order.mdSeq
  clId : InUnsigned 64 order.clId
  px : InInt64 order.px
  qty : InInt64 order.qty
  sendTsNs : InInt64 order.sendTsNs

/-- Every field is in the range of its member. -/
structure ShmCancelOrder.InDomain (cancel : ShmCancelOrder) : Prop where
  seq : InUnsigned 32 cancel.seq
  epoch : InUnsigned 64 cancel.epoch
  clId : InUnsigned 64 cancel.clId
  sendTsNs : InInt64 cancel.sendTsNs

end Client

/-! ## The values of a struct -/

def ShmTopOfBook.toTuple (v : ShmTopOfBook) : Client.ShmTopOfBook where
  flags := v.flags.toNat
  seq := v.seq.toNat
  epoch := v.epoch.toNat
  mdSeq := v.mdSeq.toNat
  bidPx := v.bidPx.toInt
  bidQty := v.bidQty.toInt
  askPx := v.askPx.toInt
  askQty := v.askQty.toInt
  venueNs := v.venueNs.toInt

def ShmNewOrder.toTuple (v : ShmNewOrder) : Client.ShmNewOrder where
  side := v.side.toNat
  postOnly := v.postOnly.toNat
  seq := v.seq.toNat
  epoch := v.epoch.toNat
  mdSeq := v.mdSeq.toNat
  clId := v.clId.toNat
  px := v.px.toInt
  qty := v.qty.toInt
  sendTsNs := v.sendTsNs.toInt

def ShmCancelOrder.toTuple (v : ShmCancelOrder) : Client.ShmCancelOrder where
  seq := v.seq.toNat
  epoch := v.epoch.toNat
  clId := v.clId.toNat
  sendTsNs := v.sendTsNs.toInt

def ShmOrderAck.toTuple (v : ShmOrderAck) : Client.ShmOrderAck where
  seq := v.seq.toNat
  epoch := v.epoch.toNat
  clId := v.clId.toNat
  svcNs := v.svcNs.toNat
  engineTsNs := v.engineTsNs.toInt

def ShmOrderFill.toTuple (v : ShmOrderFill) : Client.ShmOrderFill where
  seq := v.seq.toNat
  epoch := v.epoch.toNat
  clId := v.clId.toNat
  mdSeq := v.mdSeq.toNat
  fillPx := v.fillPx.toInt
  fillQty := v.fillQty.toInt

def ShmOrderReject.toTuple (v : ShmOrderReject) : Client.ShmOrderReject where
  code := v.code.toNat
  seq := v.seq.toNat
  epoch := v.epoch.toNat
  clId := v.clId.toNat
  engineTsNs := v.engineTsNs.toInt

/-! ## Unpacking -/

section Unpack

open Client

/-- The tag that `try_pop` reads first. -/
theorem unpack_tag (tag : UInt16) (members : List Packed.Member) :
    unpack [.H] ((reprOf (.u16 tag :: members)).take 2) = some [.int tag.toNat] := by
  have htake : (reprOf (.u16 tag :: members)).take 2 = reprOf [.u16 tag] := by
    have hlength : (Packed.Member.u16 tag).repr.length = 2 := Packed.Member.length_repr _
    rw [reprOf, List.flatMap_cons, List.take_left' hlength, reprOf, List.flatMap_singleton]
  rw [htake]
  exact unpack_members [.u16 tag]

/-- A slot is read by its tag. -/
theorem readSlot_eq {tag : UInt16} {members : List Packed.Member} {z : ℤ} {payload : ShmPayload}
    (htag : (tag.toNat : ℤ) = z)
    (hpayload : unpackPayload z (reprOf (.u16 tag :: members)) = some payload) :
    readSlot (reprOf (.u16 tag :: members)) = some (z, payload) := by
  rw [readSlot, unpack_tag]
  dsimp only
  rw [htag, hpayload]
  rfl

/-- `unpack_tob` reads the bytes of the struct. -/
theorem unpackTob_reprOf (v : ShmTopOfBook) : unpackTob (reprOf v.members) = some v.toTuple := by
  have hunpack : unpack tobStruct (reprOf v.members) = some (v.members.map Packed.Member.value) :=
    unpack_members v.members
  rw [unpackTob, hunpack]
  rfl

/-- So does `unpack_new_order`. -/
theorem unpackNewOrder_reprOf (v : ShmNewOrder) :
    unpackNewOrder (reprOf v.members) = some v.toTuple := by
  have hunpack : unpack newOrderStruct (reprOf v.members) =
    some (v.members.map Packed.Member.value) :=
    unpack_members v.members
  rw [unpackNewOrder, hunpack]
  rfl

/-- So does `unpack_cancel_order`. -/
theorem unpackCancelOrder_reprOf (v : ShmCancelOrder) :
    unpackCancelOrder (reprOf v.members) = some v.toTuple := by
  have hunpack : unpack cancelOrderStruct (reprOf v.members) =
      some (v.members.map Packed.Member.value) := unpack_members v.members
  rw [unpackCancelOrder, hunpack]
  rfl

/-- So does `unpack_ack`. -/
theorem unpackAck_reprOf (v : ShmOrderAck) : unpackAck (reprOf v.members) = some v.toTuple := by
  have hunpack : unpack ackStruct (reprOf v.members) = some (v.members.map Packed.Member.value) :=
    unpack_members v.members
  rw [unpackAck, hunpack]
  rfl

/-- So does `unpack_fill`. -/
theorem unpackFill_reprOf (v : ShmOrderFill) : unpackFill (reprOf v.members) = some v.toTuple := by
  have hunpack : unpack fillStruct (reprOf v.members) = some (v.members.map Packed.Member.value) :=
    unpack_members v.members
  rw [unpackFill, hunpack]
  rfl

/-- So does `unpack_reject`. -/
theorem unpackReject_reprOf (v : ShmOrderReject) :
    unpackReject (reprOf v.members) = some v.toTuple := by
  have hunpack : unpack rejectStruct (reprOf v.members) =
    some (v.members.map Packed.Member.value) :=
    unpack_members v.members
  rw [unpackReject, hunpack]
  rfl

/-! The unpacker that the tag of a struct selects. -/

/-- A slot with a book is read as one. -/
theorem readSlot_topOfBook {v : MarketMaker.ShmTopOfBook}
    (htag : v.tag = ShmMsgType.topOfBook.toUInt16) :
    readSlot (reprOf v.members) = some (tagTob, .tob v.toTuple) := by
  have hpayload : unpackPayload tagTob (reprOf v.members) = .tob <$> unpackTob (reprOf v.members) :=
    rfl
  rw [unpackTob_reprOf] at hpayload
  exact readSlot_eq (by rw [htag]; rfl) hpayload

/-- So is one with a new order. -/
theorem readSlot_newOrder {v : MarketMaker.ShmNewOrder}
    (htag : v.tag = ShmMsgType.newOrder.toUInt16) :
    readSlot (reprOf v.members) = some (Client.tagNewOrder, .newOrder v.toTuple) := by
  have hpayload : unpackPayload Client.tagNewOrder (reprOf v.members) =
      .newOrder <$> unpackNewOrder (reprOf v.members) := rfl
  rw [unpackNewOrder_reprOf] at hpayload
  exact readSlot_eq (by rw [htag]; rfl) hpayload

/-- So is one with a cancel. -/
theorem readSlot_cancelOrder {v : MarketMaker.ShmCancelOrder}
    (htag : v.tag = ShmMsgType.cancelOrder.toUInt16) :
    readSlot (reprOf v.members) = some (Client.tagCancelOrder, .cancelOrder v.toTuple) := by
  have hpayload : unpackPayload Client.tagCancelOrder (reprOf v.members) =
      .cancelOrder <$> unpackCancelOrder (reprOf v.members) := rfl
  rw [unpackCancelOrder_reprOf] at hpayload
  exact readSlot_eq (by rw [htag]; rfl) hpayload

/-- So is one with an ack. -/
theorem readSlot_orderAck {v : MarketMaker.ShmOrderAck}
    (htag : v.tag = ShmMsgType.orderAck.toUInt16) :
    readSlot (reprOf v.members) = some (tagOrderAck, .ack v.toTuple) := by
  have hpayload : unpackPayload tagOrderAck (reprOf v.members) =
      .ack <$> unpackAck (reprOf v.members) := rfl
  rw [unpackAck_reprOf] at hpayload
  exact readSlot_eq (by rw [htag]; rfl) hpayload

/-- So is one with a fill. -/
theorem readSlot_orderFill {v : MarketMaker.ShmOrderFill}
    (htag : v.tag = ShmMsgType.orderFill.toUInt16) :
    readSlot (reprOf v.members) = some (tagOrderFill, .fill v.toTuple) := by
  have hpayload : unpackPayload tagOrderFill (reprOf v.members) =
      .fill <$> unpackFill (reprOf v.members) := rfl
  rw [unpackFill_reprOf] at hpayload
  exact readSlot_eq (by rw [htag]; rfl) hpayload

/-- So is one with a reject. -/
theorem readSlot_orderReject {v : MarketMaker.ShmOrderReject}
    (htag : v.tag = ShmMsgType.orderReject.toUInt16) :
    readSlot (reprOf v.members) = some (tagOrderReject, .reject v.toTuple) := by
  have hpayload : unpackPayload tagOrderReject (reprOf v.members) =
      .reject <$> unpackReject (reprOf v.members) := rfl
  rw [unpackReject_reprOf] at hpayload
  exact readSlot_eq (by rw [htag]; rfl) hpayload

end Unpack

/-! ## Packing -/

section Pack

open Client

/-- An unsigned number in its domain is stored as it is. -/
theorem toNat_ofNat_toNat {z : ℤ} {bits n : ℕ} (hn : n = z.toNat % 2 ^ bits)
    (h : InUnsigned bits z) : (n : ℤ) = z := by
  obtain ⟨hnonneg, hlt⟩ := h
  have hlt' : z.toNat < 2 ^ bits := by
    rw [← Int.ofNat_lt, Int.toNat_of_nonneg hnonneg, Int.natCast_pow]
    exact hlt
  rw [hn, Nat.mod_eq_of_lt hlt', Int.toNat_of_nonneg hnonneg]

/-- So is a signed one. -/
theorem toInt_ofInt {z : ℤ} (h : InInt64 z) : (Int64.ofInt z).toInt = z :=
  Int64.toInt_ofInt_of_le h.1 h.2

/-- What `push_new_order` packs is the struct with the order's values. -/
theorem packNewOrder_eq {order : Client.ShmNewOrder} (h : order.InDomain) :
    ∃ v : MarketMaker.ShmNewOrder, v.tag = ShmMsgType.newOrder.toUInt16 ∧ v.toTuple = order ∧
      packNewOrder order = some (reprOf v.members) := by
  let v : MarketMaker.ShmNewOrder :=
    { side := .ofNat order.side.toNat, postOnly := .ofNat order.postOnly.toNat
      seq := .ofNat order.seq.toNat, epoch := .ofNat order.epoch.toNat
      mdSeq := .ofNat order.mdSeq.toNat, clId := .ofNat order.clId.toNat
      px := .ofInt order.px, qty := .ofInt order.qty, sendTsNs := .ofInt order.sendTsNs }
  have htuple : v.toTuple = order := by
    rw [MarketMaker.ShmNewOrder.toTuple]
    rw [toNat_ofNat_toNat UInt8.toNat_ofNat' h.side,
      toNat_ofNat_toNat UInt8.toNat_ofNat' h.postOnly,
      toNat_ofNat_toNat UInt32.toNat_ofNat' h.seq, toNat_ofNat_toNat UInt64.toNat_ofNat' h.epoch,
      toNat_ofNat_toNat UInt64.toNat_ofNat' h.mdSeq, toNat_ofNat_toNat UInt64.toNat_ofNat' h.clId,
      toInt_ofInt h.px, toInt_ofInt h.qty, toInt_ofInt h.sendTsNs]
  refine ⟨v, rfl, htuple, ?_⟩
  rw [← pack_members v.members, ← htuple]
  rfl

/-- What `push_cancel_order` packs is the struct with the cancel's values. -/
theorem packCancelOrder_eq {cancel : Client.ShmCancelOrder} (h : cancel.InDomain) :
    ∃ v : MarketMaker.ShmCancelOrder, v.tag = ShmMsgType.cancelOrder.toUInt16 ∧
      v.toTuple = cancel ∧ packCancelOrder cancel = some (reprOf v.members) := by
  let v : MarketMaker.ShmCancelOrder :=
    { seq := .ofNat cancel.seq.toNat, epoch := .ofNat cancel.epoch.toNat
      clId := .ofNat cancel.clId.toNat, sendTsNs := .ofInt cancel.sendTsNs }
  have htuple : v.toTuple = cancel := by
    rw [MarketMaker.ShmCancelOrder.toTuple]
    rw [toNat_ofNat_toNat UInt32.toNat_ofNat' h.seq, toNat_ofNat_toNat UInt64.toNat_ofNat' h.epoch,
      toNat_ofNat_toNat UInt64.toNat_ofNat' h.clId, toInt_ofInt h.sendTsNs]
  refine ⟨v, rfl, htuple, ?_⟩
  rw [← pack_members v.members, ← htuple]
  rfl

end Pack

end MarketMaker
