import MarketMaker.Codec.Nlohmann
import Mathlib.Tactic.IntervalCases

/-!
# The naive codec: encoding

The half of `codec_nlohmann.cpp` that writes: `append_escaped`, the three overloads of `field` and
one `encode_msg` for each message. Every field ends with a comma, and `close_msg` turns the last one
into the closing brace, which leaves minimal JSON (`encode_eq`).
-/

namespace MarketMaker

namespace Nlohmann

/-! ## The tags -/

/-- `kTagTob`. -/
def tagTob : Bytes := ascii "top_of_book"

/-- `kTagOrderAck`. -/
def tagOrderAck : Bytes := ascii "order_ack"

/-- `kTagCancelAck`. -/
def tagCancelAck : Bytes := ascii "cancel_ack"

/-- `kTagReject`. -/
def tagReject : Bytes := ascii "reject"

/-- `kTagFill`. -/
def tagFill : Bytes := ascii "fill"

/-! ## The writer -/

/-- The table of digits in `append_escaped`. -/
def hexUpper (n : ℕ) : UInt8 := if n < 10 then (0x30 + n).toUInt8 else (0x41 + n - 10).toUInt8

/-- `append_escaped`, at one byte. -/
def escapedByte (c : UInt8) : Bytes :=
  if c = 0x22 then [0x5C, 0x22]
  else if c = 0x5C then [0x5C, 0x5C]
  else if c = 0x08 then [0x5C, 0x62]
  else if c = 0x09 then [0x5C, 0x74]
  else if c = 0x0A then [0x5C, 0x6E]
  else if c = 0x0C then [0x5C, 0x66]
  else if c = 0x0D then [0x5C, 0x72]
  else if c < 0x20 then ascii "\\u00" ++ [hexUpper (c.toNat / 16), hexUpper (c.toNat % 16)]
  else [c]

/-- `append_escaped`. -/
def appendEscaped (out s : Bytes) : Bytes := s.foldl (fun out c => out ++ escapedByte c) out

/-- `append_key`. -/
def appendKey (out : Bytes) (key : String) : Bytes := out ++ [0x22] ++ ascii key ++ [0x22, 0x3A]

/-- `field`, of a `uint64`. -/
def fieldU64 (key : String) (v : ℕ) (out : Bytes) : Bytes :=
  appendKey out key ++ Json.decimal v ++ [0x2C]

/-- `field`, of an `int64`. -/
def fieldI64 (key : String) (v : ℤ) (out : Bytes) : Bytes :=
  appendKey out key ++ Json.intText v ++ [0x2C]

/-- `field`, of a string. -/
def fieldStr (key : String) (v : Bytes) (out : Bytes) : Bytes :=
  appendEscaped (appendKey out key ++ [0x22]) v ++ [0x22] ++ [0x2C]

/-- `open_msg`. -/
def openMsg (out tag : Bytes) : Bytes := out ++ ascii "\x7b\"t\":\"" ++ tag ++ ascii "\","

/-- `close_msg`: the last byte becomes the closing brace. -/
def closeMsg (out : Bytes) : Bytes := out.dropLast ++ [0x7D]

/-! ## The messages -/

/-- `encode_msg` of a `Tob`. -/
def encodeTob (out : Bytes) (m : Tob) : Bytes :=
  let out := openMsg out tagTob
  let out := fieldU64 "v" m.v out
  let out := fieldU64 "seq" m.seq out
  let out := fieldU64 "epoch" m.epoch out
  let out := fieldU64 "md_seq" m.mdSeq out
  let out := fieldStr "symbol" m.symbol out
  let out := fieldI64 "bid_px" m.bidPx out
  let out := fieldI64 "bid_qty" m.bidQty out
  let out := fieldI64 "ask_px" m.askPx out
  let out := fieldI64 "ask_qty" m.askQty out
  closeMsg out

/-- `encode_msg` of an `OrderAck`. -/
def encodeOrderAck (out : Bytes) (m : OrderAck) : Bytes :=
  let out := openMsg out tagOrderAck
  let out := fieldU64 "v" m.v out
  let out := fieldU64 "seq" m.seq out
  let out := fieldU64 "epoch" m.epoch out
  let out := fieldStr "cl_id" m.clId out
  let out := fieldU64 "eng_id" m.engId out
  let out := fieldStr "status" m.status out
  let out := fieldI64 "svc_ns" m.svcNs out
  closeMsg out

/-- `encode_msg` of a `CancelAck`. -/
def encodeCancelAck (out : Bytes) (m : CancelAck) : Bytes :=
  let out := openMsg out tagCancelAck
  let out := fieldU64 "v" m.v out
  let out := fieldU64 "seq" m.seq out
  let out := fieldU64 "epoch" m.epoch out
  let out := fieldStr "cl_id" m.clId out
  let out := fieldU64 "eng_id" m.engId out
  let out := fieldStr "status" m.status out
  closeMsg out

/-- `encode_msg` of a `Reject`. -/
def encodeReject (out : Bytes) (m : Reject) : Bytes :=
  let out := openMsg out tagReject
  let out := fieldU64 "v" m.v out
  let out := fieldU64 "seq" m.seq out
  let out := fieldU64 "epoch" m.epoch out
  let out := fieldStr "cl_id" m.clId out
  let out := fieldStr "code" m.code out
  let out := fieldStr "reason" m.reason out
  closeMsg out

/-- `encode_msg` of a `Fill`. -/
def encodeFill (out : Bytes) (m : Fill) : Bytes :=
  let out := openMsg out tagFill
  let out := fieldU64 "v" m.v out
  let out := fieldU64 "seq" m.seq out
  let out := fieldU64 "epoch" m.epoch out
  let out := fieldStr "cl_id" m.clId out
  let out := fieldU64 "eng_id" m.engId out
  let out := fieldI64 "px" m.px out
  let out := fieldI64 "qty" m.qty out
  let out := fieldI64 "leaves" m.leaves out
  let out := fieldU64 "exec_id" m.execId out
  closeMsg out

/-- `NlohmannCodec::encode`, into a buffer that was cleared. -/
def encode : OutMsg → Bytes
  | .tob m => encodeTob [] m
  | .orderAck m => encodeOrderAck [] m
  | .cancelAck m => encodeCancelAck [] m
  | .reject m => encodeReject [] m
  | .fill m => encodeFill [] m

/-! ## What is written -/

theorem spells_hexUpper : Json.Spells hexUpper := by
  intro n hn
  interval_cases n <;> rfl

theorem escapedByte_eq (c : UInt8) : escapedByte c = (Json.escape hexUpper c).render := by
  rw [escapedByte]
  split_ifs with hquote hslash hb ht hn hf hr hcontrol
  · rw [hquote]
    rfl
  · rw [hslash]
    rfl
  · rw [hb]
    rfl
  · rw [ht]
    rfl
  · rw [hn]
    rfl
  · rw [hf]
    rfl
  · rw [hr]
    rfl
  all_goals
    have hnone : (Json.shortcuts.find? fun s => s.1 = c) = none := by
      simp [Json.shortcuts, Ne.symm hquote, Ne.symm hslash, Ne.symm hb, Ne.symm ht,
        Ne.symm hn, Ne.symm hf, Ne.symm hr]
    rw [Json.escape, hnone]
  · rw [if_pos hcontrol]
    rfl
  · rw [if_neg hcontrol]
    rfl

theorem appendEscaped_eq (out s : Bytes) :
    appendEscaped out s = out ++ (s.map (Json.escape hexUpper)).flatMap Json.Piece.render := by
  rw [appendEscaped]
  induction s generalizing out with
  | nil => simp
  | cons c s ih =>
    rw [List.foldl_cons, ih, escapedByte_eq, List.map_cons, List.flatMap_cons, List.append_assoc]

/-- One member of an object, and the comma behind it. -/
def appendMember (out : Bytes) (m : Bytes × Bytes) : Bytes := out ++ (Json.memberText m ++ [0x2C])

theorem fieldI64_eq (key : String) (v : ℤ) (out : Bytes) :
    fieldI64 key v out = appendMember out (ascii key, Json.intText v) := by
  simp [fieldI64, appendKey, appendMember, Json.memberText]

theorem fieldU64_eq (key : String) (v : ℕ) (out : Bytes) :
    fieldU64 key v out = appendMember out (ascii key, Json.intText v) :=
  fieldI64_eq key v out

theorem fieldStr_eq (key : String) (v out : Bytes) :
    fieldStr key v out = appendMember out (ascii key, Json.stringText hexUpper v) := by
  simp [fieldStr, appendEscaped_eq, appendKey, appendMember, Json.memberText, Json.stringText]

/-- A tag of the source has nothing to escape. -/
theorem openMsg_eq {tag : Bytes} (htag : Json.stringText hexUpper tag = 0x22 :: (tag ++ [0x22])) :
    openMsg [] tag = appendMember [0x7B] (ascii "t", Json.stringText hexUpper tag) := by
  have hopen : ascii "\x7b\"t\":\"" = [0x7B, 0x22, 0x74, 0x22, 0x3A, 0x22] := rfl
  have hclose : ascii "\"," = [0x22, 0x2C] := rfl
  have hkey : ascii "t" = [0x74] := rfl
  simp [openMsg, appendMember, Json.memberText, htag, hopen, hclose, hkey]

theorem foldl_appendMember (ms : List (Bytes × Bytes)) (out : Bytes) (m : Bytes × Bytes) :
    (m :: ms).foldl appendMember out = out ++ (Json.membersText (m :: ms) ++ [0x2C]) := by
  induction ms generalizing out m with
  | nil => rfl
  | cons m' ms ih =>
    rw [List.foldl_cons, ih, appendMember, Json.membersText]
    simp only [List.append_assoc, List.cons_append, List.nil_append]

/-- The last comma becomes the closing brace. -/
theorem closeMsg_foldl (m : Bytes × Bytes) (ms : List (Bytes × Bytes)) :
    closeMsg ((m :: ms).foldl appendMember [0x7B]) = Json.objectText (m :: ms) := by
  rw [foldl_appendMember, closeMsg, Json.objectText, ← List.append_assoc, List.dropLast_concat]
  rfl

/-- The members of a frame. -/
def members : OutMsg → FrameScan
  | .tob m =>
    [(ascii "t", Json.stringText hexUpper tagTob), (ascii "v", Json.intText m.v),
      (ascii "seq", Json.intText m.seq), (ascii "epoch", Json.intText m.epoch),
      (ascii "md_seq", Json.intText m.mdSeq), (ascii "symbol", Json.stringText hexUpper m.symbol),
      (ascii "bid_px", Json.intText m.bidPx), (ascii "bid_qty", Json.intText m.bidQty),
      (ascii "ask_px", Json.intText m.askPx), (ascii "ask_qty", Json.intText m.askQty)]
  | .orderAck m =>
    [(ascii "t", Json.stringText hexUpper tagOrderAck), (ascii "v", Json.intText m.v),
      (ascii "seq", Json.intText m.seq), (ascii "epoch", Json.intText m.epoch),
      (ascii "cl_id", Json.stringText hexUpper m.clId), (ascii "eng_id", Json.intText m.engId),
      (ascii "status", Json.stringText hexUpper m.status), (ascii "svc_ns", Json.intText m.svcNs)]
  | .cancelAck m =>
    [(ascii "t", Json.stringText hexUpper tagCancelAck), (ascii "v", Json.intText m.v),
      (ascii "seq", Json.intText m.seq), (ascii "epoch", Json.intText m.epoch),
      (ascii "cl_id", Json.stringText hexUpper m.clId), (ascii "eng_id", Json.intText m.engId),
      (ascii "status", Json.stringText hexUpper m.status)]
  | .reject m =>
    [(ascii "t", Json.stringText hexUpper tagReject), (ascii "v", Json.intText m.v),
      (ascii "seq", Json.intText m.seq), (ascii "epoch", Json.intText m.epoch),
      (ascii "cl_id", Json.stringText hexUpper m.clId),
      (ascii "code", Json.stringText hexUpper m.code),
      (ascii "reason", Json.stringText hexUpper m.reason)]
  | .fill m =>
    [(ascii "t", Json.stringText hexUpper tagFill), (ascii "v", Json.intText m.v),
      (ascii "seq", Json.intText m.seq), (ascii "epoch", Json.intText m.epoch),
      (ascii "cl_id", Json.stringText hexUpper m.clId), (ascii "eng_id", Json.intText m.engId),
      (ascii "px", Json.intText m.px), (ascii "qty", Json.intText m.qty),
      (ascii "leaves", Json.intText m.leaves), (ascii "exec_id", Json.intText m.execId)]

/-- What is written is minimal JSON. -/
theorem encode_eq (m : OutMsg) : encode m = Json.objectText (members m) := by
  cases m with
  | tob m =>
    rw [members, ← closeMsg_foldl, encode, encodeTob, openMsg_eq rfl]
    simp only [fieldU64_eq, fieldI64_eq, fieldStr_eq]
    rfl
  | orderAck m =>
    rw [members, ← closeMsg_foldl, encode, encodeOrderAck, openMsg_eq rfl]
    simp only [fieldU64_eq, fieldI64_eq, fieldStr_eq]
    rfl
  | cancelAck m =>
    rw [members, ← closeMsg_foldl, encode, encodeCancelAck, openMsg_eq rfl]
    simp only [fieldU64_eq, fieldStr_eq]
    rfl
  | reject m =>
    rw [members, ← closeMsg_foldl, encode, encodeReject, openMsg_eq rfl]
    simp only [fieldU64_eq, fieldStr_eq]
    rfl
  | fill m =>
    rw [members, ← closeMsg_foldl, encode, encodeFill, openMsg_eq rfl]
    simp only [fieldU64_eq, fieldI64_eq, fieldStr_eq]
    rfl

theorem encode_ne_nil (m : OutMsg) : encode m ≠ [] := by
  rw [encode_eq]
  exact List.cons_ne_nil _ _

/-- `NlohmannCodec`. A frame that its decode refuses is answered, an assertion never fails. -/
def codec (parse : Parse) : Codec where
  decode frame :=
    match decode parse frame with
    | .ok msg => .ok msg
    | .error (.reject err) => .error err
    | .error _ => .error ⟨.malformed, []⟩
  encode := encode

end Nlohmann

end MarketMaker
