import MarketMaker.Client.Encode
import MarketMaker.Codec.Nlohmann
import MarketMaker.Server.Session

/-!
# From the client to the engine

A message that the client encodes is decoded by the engine to the same message. The checks of the
client let through what fits its declared type (`Member.Fits`), the frame of such a message is a
JSON object with one member for each field (`newOrderOctets`), and the engine reads every one of
them back. -/

namespace MarketMaker

namespace Client

/-- The object is a string with this UTF-8. -/
def PyObject.IsStr (value : PyObject) (t : Bytes) : Prop := ∃ s, value = .str s ∧ s.encode = some t

/-- The message of the engine has the fields of the message of the client. -/
structure NewOrder.Carries (m : NewOrder) (o : MarketMaker.NewOrder) : Prop where
  v : m.v = .int o.v
  seq : m.seq = .int o.seq
  epoch : m.epoch = .int o.epoch
  mdSeq : m.mdSeq = .int o.mdSeq
  clId : m.clId.IsStr o.clId
  symbol : m.symbol.IsStr o.symbol
  side : m.side.IsStr o.side
  px : m.px = .int o.px
  qty : m.qty = .int o.qty
  postOnly : m.postOnly = .bool o.postOnly

structure CancelOrder.Carries (m : CancelOrder) (c : MarketMaker.CancelOrder) : Prop where
  v : m.v = .int c.v
  seq : m.seq = .int c.seq
  epoch : m.epoch = .int c.epoch
  clId : m.clId.IsStr c.clId

/-- The two messages are of one kind and have equal fields. -/
inductive ClientMsg.Carries : ClientMsg → InMsg → Prop
  | newOrder {m : NewOrder} {o : MarketMaker.NewOrder} (h : m.Carries o) :
      Carries (.newOrder m) (.newOrder o)
  | cancelOrder {m : CancelOrder} {c : MarketMaker.CancelOrder} (h : m.Carries c) :
      Carries (.cancelOrder m) (.cancelOrder c)

/-! ## What fits the wire -/

/-- A string that the engine takes for an identifier. -/
def FitsIdentifier (cap : ℕ) (t : Bytes) : Prop := IsIdentifier cap t ∧ Utf8.Valid t

structure FitsNewOrder (o : MarketMaker.NewOrder) : Prop where
  v : o.v = 1
  seq : o.seq < 2 ^ 64
  epoch : o.epoch < 2 ^ 64
  mdSeq : o.mdSeq < 2 ^ 64
  clId : FitsIdentifier maxClIdLen o.clId
  symbol : FitsIdentifier maxSymbolLen o.symbol
  side : FitsIdentifier maxSideLen o.side
  px : InInt64 o.px
  qty : InInt64 o.qty

structure FitsCancelOrder (c : MarketMaker.CancelOrder) : Prop where
  v : c.v = 1
  seq : c.seq < 2 ^ 64
  epoch : c.epoch < 2 ^ 64
  clId : FitsIdentifier maxClIdLen c.clId

/-- A member of the type `uint64` that fits is such a number. -/
theorem Member.Fits.uint64 {name : String} {value : PyObject}
    (h : Member.Fits ⟨name, .uint64, value⟩) : ∃ n : ℕ, value = .int n ∧ n < 2 ^ 64 := h

/-- So for `int64`. -/
theorem Member.Fits.int64 {name : String} {value : PyObject}
    (h : Member.Fits ⟨name, .int64, value⟩) : ∃ z, value = .int z ∧ InInt64 z := h

/-- A string that fits keeps its cap. -/
theorem Member.Fits.str {name : String} {value : PyObject} {cap : ℕ}
    (h : Member.Fits ⟨name, .str, value⟩) (hcap : identifierCap name = some cap) :
    ∃ t, value.IsStr t ∧ FitsIdentifier cap t := by
  obtain ⟨cap', s, t, hcap', hs, ht, hident⟩ := h
  rw [show identifierCap name = some cap' from hcap'] at hcap
  cases hcap
  exact ⟨t, ⟨s, hs, ht⟩, hident, Str.valid_encode ht⟩

/-- Members that fit carry a new order of the wire. -/
theorem exists_newOrder {m : NewOrder} (h : ∀ x ∈ m.members, x.Fits) :
    ∃ o, m.Carries o ∧ FitsNewOrder o := by
  simp only [NewOrder.members, List.forall_mem_cons] at h
  obtain ⟨hv, hseq, hepoch, hmdSeq, hclId, hsymbol, hside, hpx, hqty, hpostOnly, -⟩ := h
  obtain ⟨seq, hseq, hseqLt⟩ := hseq.uint64
  obtain ⟨epoch, hepoch, hepochLt⟩ := hepoch.uint64
  obtain ⟨mdSeq, hmdSeq, hmdSeqLt⟩ := hmdSeq.uint64
  obtain ⟨clId, hclId, hclIdFits⟩ := hclId.str rfl
  obtain ⟨symbol, hsymbol, hsymbolFits⟩ := hsymbol.str rfl
  obtain ⟨side, hside, hsideFits⟩ := hside.str rfl
  obtain ⟨px, hpx, hpxIn⟩ := hpx.int64
  obtain ⟨qty, hqty, hqtyIn⟩ := hqty.int64
  obtain ⟨postOnly, hpostOnly⟩ := hpostOnly
  exact ⟨{ v := 1, seq, epoch, mdSeq, clId, symbol, side, px, qty, postOnly },
    ⟨hv, hseq, hepoch, hmdSeq, hclId, hsymbol, hside, hpx, hqty, hpostOnly⟩,
    ⟨rfl, hseqLt, hepochLt, hmdSeqLt, hclIdFits, hsymbolFits, hsideFits, hpxIn, hqtyIn⟩⟩

/-- Or a cancel. -/
theorem exists_cancelOrder {m : CancelOrder} (h : ∀ x ∈ m.members, x.Fits) :
    ∃ c, m.Carries c ∧ FitsCancelOrder c := by
  simp only [CancelOrder.members, List.forall_mem_cons] at h
  obtain ⟨hv, hseq, hepoch, hclId, -⟩ := h
  obtain ⟨seq, hseq, hseqLt⟩ := hseq.uint64
  obtain ⟨epoch, hepoch, hepochLt⟩ := hepoch.uint64
  obtain ⟨clId, hclId, hclIdFits⟩ := hclId.str rfl
  exact ⟨{ v := 1, seq, epoch, clId }, ⟨hv, hseq, hepoch, hclId⟩,
    ⟨rfl, hseqLt, hepochLt, hclIdFits⟩⟩

/-! ## The frame -/

/-- The members of the frame of a new order. -/
def newOrderOctets (o : MarketMaker.NewOrder) : List (Bytes × Bytes) :=
  [(ascii "t", Json.stringText hexLower MarketMaker.tagNewOrder), (ascii "v", Json.intText o.v),
    (ascii "seq", Json.intText o.seq), (ascii "epoch", Json.intText o.epoch),
    (ascii "md_seq", Json.intText o.mdSeq), (ascii "cl_id", Json.stringText hexLower o.clId),
    (ascii "symbol", Json.stringText hexLower o.symbol),
    (ascii "side", Json.stringText hexLower o.side), (ascii "px", Json.intText o.px),
    (ascii "qty", Json.intText o.qty), (ascii "post_only", Json.boolText o.postOnly)]

/-- The members of the frame of a cancel. -/
def cancelOrderOctets (c : MarketMaker.CancelOrder) : List (Bytes × Bytes) :=
  [(ascii "t", Json.stringText hexLower MarketMaker.tagCancelOrder), (ascii "v", Json.intText c.v),
    (ascii "seq", Json.intText c.seq), (ascii "epoch", Json.intText c.epoch),
    (ascii "cl_id", Json.stringText hexLower c.clId)]

/-- The keys are ASCII and need no escape. -/
theorem spelledMember_of {name : String} {value : PyObject} {t : Bytes}
    (hname : (Str.ofString name).encode = some (ascii name))
    (hplain : ((ascii name).map (Json.escape hexLower)).flatMap Json.Piece.render = ascii name)
    (h : Spelled value t) : SpelledMember (name, value) (ascii name, t) :=
  ⟨ascii name, hname, hplain.symm, h⟩

/-- A `uint64` is spelled in digits. -/
theorem spelled_uint64 {n : ℕ} (h : n < 2 ^ 64) : Spelled (.int n) (Json.intText n) :=
  spelled_int (by omega) (by omega)

/-- An `int64` is spelled with its sign. -/
theorem spelled_int64 {z : ℤ} (h : InInt64 z) : Spelled (.int z) (Json.intText z) := by
  obtain ⟨hlow, hhigh⟩ := h
  exact spelled_int hlow (by omega)

/-- A string is spelled with the escapes of both serializers. -/
theorem spelled_isStr {value : PyObject} {t : Bytes} (h : value.IsStr t) :
    Spelled value (Json.stringText hexLower t) := by
  obtain ⟨s, rfl, hs⟩ := h
  exact spelled_str hs

/-- So the members of a new order are spelled. -/
theorem spelled_newOrder {m : NewOrder} {o : MarketMaker.NewOrder} (h : m.Carries o)
    (hfits : FitsNewOrder o) :
    List.Forall₂ SpelledMember (payload "new_order" m.members) (newOrderOctets o) := by
  have htag : Spelled (.str (Str.ofString "new_order"))
      (Json.stringText hexLower MarketMaker.tagNewOrder) :=
    spelled_str rfl
  simp only [payload, NewOrder.members, List.map_cons, List.map_nil, h.v, h.seq, h.epoch, h.mdSeq,
    h.px, h.qty, h.postOnly]
  refine .cons (spelledMember_of rfl rfl htag) ?_
  refine .cons (spelledMember_of rfl rfl (spelled_uint64 (by rw [hfits.v]; decide))) ?_
  refine .cons (spelledMember_of rfl rfl (spelled_uint64 hfits.seq)) ?_
  refine .cons (spelledMember_of rfl rfl (spelled_uint64 hfits.epoch)) ?_
  refine .cons (spelledMember_of rfl rfl (spelled_uint64 hfits.mdSeq)) ?_
  refine .cons (spelledMember_of rfl rfl (spelled_isStr h.clId)) ?_
  refine .cons (spelledMember_of rfl rfl (spelled_isStr h.symbol)) ?_
  refine .cons (spelledMember_of rfl rfl (spelled_isStr h.side)) ?_
  refine .cons (spelledMember_of rfl rfl (spelled_int64 hfits.px)) ?_
  refine .cons (spelledMember_of rfl rfl (spelled_int64 hfits.qty)) ?_
  exact .cons (spelledMember_of rfl rfl (spelled_bool o.postOnly)) .nil

/-- So are those of a cancel. -/
theorem spelled_cancelOrder {m : CancelOrder} {c : MarketMaker.CancelOrder} (h : m.Carries c)
    (hfits : FitsCancelOrder c) :
    List.Forall₂ SpelledMember (payload "cancel_order" m.members) (cancelOrderOctets c) := by
  have htag : Spelled (.str (Str.ofString "cancel_order"))
      (Json.stringText hexLower MarketMaker.tagCancelOrder) := spelled_str rfl
  simp only [payload, CancelOrder.members, List.map_cons, List.map_nil, h.v, h.seq, h.epoch]
  refine .cons (spelledMember_of rfl rfl htag) ?_
  refine .cons (spelledMember_of rfl rfl (spelled_uint64 (by rw [hfits.v]; decide))) ?_
  refine .cons (spelledMember_of rfl rfl (spelled_uint64 hfits.seq)) ?_
  refine .cons (spelledMember_of rfl rfl (spelled_uint64 hfits.epoch)) ?_
  exact .cons (spelledMember_of rfl rfl (spelled_isStr h.clId)) .nil

/-! ## The engine accepts the frame -/

/-- The octets of a key that needs no escape. -/
def plainKey (key : Bytes) : Bool := key.all fun c => 0x20 ≤ c && c < 0x80 && c ≠ 0x22 && c ≠ 0x5C

/-- A plain key needs no escape. -/
theorem mem_plainKey {key : Bytes} (h : plainKey key = true) :
    ∀ c ∈ key, 0x20 ≤ c ∧ c < 0x80 ∧ c ≠ 0x22 ∧ c ≠ 0x5C := by
  intro c hc
  have hplain := List.all_eq_true.mp h c hc
  simpa [and_assoc] using hplain

/-- So it is the body of a string. -/
theorem isBody_of_plainKey {key : Bytes} (h : plainKey key = true) : Json.IsBody key := by
  have hmem := mem_plainKey h
  refine ⟨key.map .plain, fun p hp => ?_, ?_, ?_⟩
  · obtain ⟨c, hc, rfl⟩ := List.mem_map.mp hp
    obtain ⟨hraw, -, hquote, hslash⟩ := hmem c hc
    exact ⟨hraw, hquote, hslash⟩
  · clear h hmem
    induction key with
    | nil => rfl
    | cons c key ih =>
      rw [List.map_cons, Json.paired_cons rfl]
      exact ih
  · rw [List.flatMap_map, List.flatMap_congr (fun c _ => Json.Piece.render.eq_1 c)]
    exact (List.flatMap_singleton' key).symm

/-- An object with plain keys, distinct and not too many, passes the preflight as its members. -/
theorem framePreflight_objectText {members : List (Bytes × Bytes)} (hne : members ≠ [])
    (hkeys : ∀ m ∈ members, plainKey m.1 = true)
    (hvalues : ∀ m ∈ members, Json.Scalar m.2 ∧ Utf8.Valid m.2)
    (hdistinct : (members.map Prod.fst).Nodup) (hcap : members.length ≤ maxTopLevelKeys) :
    framePreflight (Json.objectText members) = .ok members := by
  refine framePreflight_eq_ok_iff.mpr ⟨?_, ?_, ?_, hcap, fun m hm hslash => ?_, hdistinct⟩
  · rintro ⟨rest, hrest⟩
    cases hrest
  · refine Json.valid_objectText fun m hm => ⟨?_, (hvalues m hm).2⟩
    exact Json.valid_of_ascii fun c hc => (mem_plainKey (hkeys m hm) c hc).2.1
  · exact Json.isObjectText_objectText hne fun m hm =>
      ⟨isBody_of_plainKey (hkeys m hm), (hvalues m hm).1.value⟩
  · exact (mem_plainKey (hkeys m hm) _ hslash).2.2.2 rfl

/-- A field of the frame that reads back. -/
def Readable (t : Bytes) : Prop := Json.Scalar t ∧ Utf8.Valid t

/-- An integer can be read. -/
theorem readable_int (z : ℤ) : Readable (Json.intText z) :=
  ⟨Json.scalar_intText z, Json.valid_intText z⟩

/-- So can a boolean. -/
theorem readable_bool (b : Bool) : Readable (Json.boolText b) :=
  ⟨Json.scalar_boolText b, Json.valid_boolText b⟩

/-- So can a string that is valid UTF-8. -/
theorem readable_str {t : Bytes} (h : Utf8.Valid t) : Readable (Json.stringText hexLower t) :=
  ⟨Json.scalar_stringText spells_hexLower t, Json.valid_stringText spells_hexLower h⟩

/-- The tags are ASCII. -/
theorem valid_tags :
    Utf8.Valid MarketMaker.tagNewOrder ∧ Utf8.Valid MarketMaker.tagCancelOrder := by
  have hascii : ∀ {tag : Bytes}, tag.all (· < 0x80) = true → Utf8.Valid tag := fun htag =>
    Json.valid_of_ascii fun c hc => of_decide_eq_true (List.all_eq_true.mp htag c hc)
  exact ⟨hascii rfl, hascii rfl⟩

/-- The scanner takes the members of a new order apart. -/
theorem framePreflight_newOrder {o : MarketMaker.NewOrder} (h : FitsNewOrder o) :
    framePreflight (Json.objectText (newOrderOctets o)) = .ok (newOrderOctets o) := by
  refine framePreflight_objectText (by simp [newOrderOctets]) ?_ ?_ ?_ ?_
  · simp only [newOrderOctets, List.forall_mem_cons]
    decide
  · simp only [newOrderOctets, List.forall_mem_cons]
    exact ⟨readable_str valid_tags.1, readable_int _, readable_int _, readable_int _,
      readable_int _, readable_str h.clId.2, readable_str h.symbol.2, readable_str h.side.2,
      readable_int _, readable_int _, readable_bool _, fun m hm => by contradiction⟩
  · simp only [newOrderOctets, List.map_cons, List.map_nil]
    decide
  · exact (by decide : 11 ≤ maxTopLevelKeys)

/-- So for a cancel. -/
theorem framePreflight_cancelOrder {c : MarketMaker.CancelOrder} (h : FitsCancelOrder c) :
    framePreflight (Json.objectText (cancelOrderOctets c)) = .ok (cancelOrderOctets c) := by
  refine framePreflight_objectText (by simp [cancelOrderOctets]) ?_ ?_ ?_ ?_
  · simp only [cancelOrderOctets, List.forall_mem_cons]
    decide
  · simp only [cancelOrderOctets, List.forall_mem_cons]
    exact ⟨readable_str valid_tags.2, readable_int _, readable_int _, readable_int _,
      readable_str h.clId.2, fun m hm => by contradiction⟩
  · simp only [cancelOrderOctets, List.map_cons, List.map_nil]
    decide
  · exact (by decide : 5 ≤ maxTopLevelKeys)

/-! ## The engine reads the frame -/

section Decode

variable {parse : Nlohmann.Parse}

open Nlohmann

/-- The server decodes the order that was encoded. -/
theorem decode_newOrder (hparse : Correct parse) {o : MarketMaker.NewOrder} (h : FitsNewOrder o) :
    Nlohmann.decode parse (Json.objectText (newOrderOctets o)) = .ok (.newOrder o) := by
  have ht : parseField parse (newOrderOctets o) "t" = some (.string MarketMaker.tagNewOrder) :=
    parseField_stringText hparse spells_hexLower valid_tags.1 rfl
  have hv : getU64 parse (newOrderOctets o) "v" = some o.v :=
    getU64_decimal hparse (by rw [h.v]; decide) rfl
  have hseq : getU64 parse (newOrderOctets o) "seq" = some o.seq := getU64_decimal hparse h.seq rfl
  have hepoch : getU64 parse (newOrderOctets o) "epoch" = some o.epoch :=
    getU64_decimal hparse h.epoch rfl
  have hmdSeq : getU64 parse (newOrderOctets o) "md_seq" = some o.mdSeq :=
    getU64_decimal hparse h.mdSeq rfl
  have hclId : getStr parse (newOrderOctets o) "cl_id" = some o.clId :=
    getStr_stringText hparse spells_hexLower h.clId.2 rfl
  have hsymbol : getStr parse (newOrderOctets o) "symbol" = some o.symbol :=
    getStr_stringText hparse spells_hexLower h.symbol.2 rfl
  have hside : getStr parse (newOrderOctets o) "side" = some o.side :=
    getStr_stringText hparse spells_hexLower h.side.2 rfl
  have hpx : getI64 parse (newOrderOctets o) "px" = some o.px := getI64_intText hparse h.px rfl
  have hqty : getI64 parse (newOrderOctets o) "qty" = some o.qty := getI64_intText hparse h.qty rfl
  have hpostOnly : getBool parse (newOrderOctets o) "post_only" = some o.postOnly :=
    getBool_boolText hparse rfl
  have henvelope : envelope parse (newOrderOctets o) = .ok (true, o.v) := by
    rw [envelope, ht]
    dsimp only
    rw [if_neg (by decide), hv]
    dsimp only
    rw [if_neg (not_not.mpr h.v)]
    rfl
  have hfields : newOrderFields parse (newOrderOctets o) o.v = some o := by
    simp only [newOrderFields, hseq, hepoch, hmdSeq, hclId, hsymbol, hside, hpx, hqty, hpostOnly]
    rfl
  have hstrings : checkNewOrderStrings o = .ok () :=
    checkNewOrderStrings_eq_ok_iff.mpr ⟨h.clId.1, h.symbol.1, h.side.1⟩
  rw [Nlohmann.decode, framePreflight_newOrder h]
  dsimp only [bind, Except.bind]
  rw [henvelope]
  dsimp only
  rw [body, if_pos rfl, hfields]
  dsimp only [bind, Except.bind]
  rw [hstrings]
  rfl

/-- So for a cancel. -/
theorem decode_cancelOrder (hparse : Correct parse) {c : MarketMaker.CancelOrder}
    (h : FitsCancelOrder c) :
    Nlohmann.decode parse (Json.objectText (cancelOrderOctets c)) = .ok (.cancelOrder c) := by
  have ht : parseField parse (cancelOrderOctets c) "t" =
      some (.string MarketMaker.tagCancelOrder) :=
    parseField_stringText hparse spells_hexLower valid_tags.2 rfl
  have hv : getU64 parse (cancelOrderOctets c) "v" = some c.v :=
    getU64_decimal hparse (by rw [h.v]; decide) rfl
  have hseq : getU64 parse (cancelOrderOctets c) "seq" = some c.seq :=
    getU64_decimal hparse h.seq rfl
  have hepoch : getU64 parse (cancelOrderOctets c) "epoch" = some c.epoch :=
    getU64_decimal hparse h.epoch rfl
  have hclId : getStr parse (cancelOrderOctets c) "cl_id" = some c.clId :=
    getStr_stringText hparse spells_hexLower h.clId.2 rfl
  have henvelope : envelope parse (cancelOrderOctets c) = .ok (false, c.v) := by
    rw [envelope, ht]
    dsimp only
    rw [if_neg (by decide), hv]
    dsimp only
    rw [if_neg (not_not.mpr h.v)]
    rfl
  have hfields : cancelOrderFields parse (cancelOrderOctets c) c.v = some c := by
    simp only [cancelOrderFields, hseq, hepoch, hclId]
    rfl
  have hstrings : checkCancelOrderStrings c = .ok () :=
    checkCancelOrderStrings_eq_ok_iff.mpr h.clId.1
  rw [Nlohmann.decode, framePreflight_cancelOrder h]
  dsimp only [bind, Except.bind]
  rw [henvelope]
  dsimp only
  rw [body, if_neg (by decide), hfields]
  dsimp only [bind, Except.bind]
  rw [hstrings]
  rfl

end Decode

/-! ## The frame is small -/

/-- Twenty digits at most, and a sign. -/
theorem length_uint64_le {n : ℕ} (h : n < 2 ^ 64) : (Json.intText n).length ≤ 21 :=
  Json.length_intText_le (k := 20) (by omega) (by decide)

/-- So for `int64`. -/
theorem length_int64_le {z : ℤ} (h : InInt64 z) : (Json.intText z).length ≤ 21 := by
  obtain ⟨hlow, hhigh⟩ := h
  exact Json.length_intText_le (k := 20) (by omega) (by decide)

/-- Six octets for each of 64, and the quotes. -/
theorem length_identifier_le {cap : ℕ} {t : Bytes} (h : FitsIdentifier cap t) (hcap : cap ≤ 64) :
    (Json.stringText hexLower t).length ≤ 386 := by
  have hlength := Json.length_stringText_le hexLower t
  have hsize := h.1.1
  omega

/-- A new order is far below the cap on messages. -/
theorem length_newOrder_le {o : MarketMaker.NewOrder} (h : FitsNewOrder o) :
    (Json.objectText (newOrderOctets o)).length ≤ maxInboundMsgBytes := by
  have hv : o.v < 2 ^ 64 := by rw [h.v]; decide
  have hbound := @Json.length_objectText_le (newOrderOctets o) 400 ?_
  · change _ ≤ 404 * 11 + 2 at hbound
    exact hbound.trans (by decide)
  · simp only [newOrderOctets, List.forall_mem_cons]
    have hlen : ∀ {name : String} {t : Bytes} {n : ℕ}, (ascii name).length ≤ 9 → t.length ≤ n →
        n ≤ 386 → (ascii name).length + t.length ≤ 400 := by
      intro name t n h₁ h₂ h₃
      omega
    exact ⟨hlen (by decide) (le_refl _) (by decide),
      hlen (by decide) (length_uint64_le hv) (by decide),
      hlen (by decide) (length_uint64_le h.seq) (by decide),
      hlen (by decide) (length_uint64_le h.epoch) (by decide),
      hlen (by decide) (length_uint64_le h.mdSeq) (by decide),
      hlen (by decide) (length_identifier_le h.clId (by decide)) (by decide),
      hlen (by decide) (length_identifier_le h.symbol (by decide)) (by decide),
      hlen (by decide) (length_identifier_le h.side (by decide)) (by decide),
      hlen (by decide) (length_int64_le h.px) (by decide),
      hlen (by decide) (length_int64_le h.qty) (by decide),
      hlen (by decide) (Json.length_boolText_le _) (by decide), fun m hm => by contradiction⟩

/-- So is a cancel. -/
theorem length_cancelOrder_le {c : MarketMaker.CancelOrder} (h : FitsCancelOrder c) :
    (Json.objectText (cancelOrderOctets c)).length ≤ maxInboundMsgBytes := by
  have hv : c.v < 2 ^ 64 := by rw [h.v]; decide
  have hbound := @Json.length_objectText_le (cancelOrderOctets c) 400 ?_
  · change _ ≤ 404 * 5 + 2 at hbound
    exact hbound.trans (by decide)
  · simp only [cancelOrderOctets, List.forall_mem_cons]
    have hlen : ∀ {name : String} {t : Bytes} {n : ℕ}, (ascii name).length ≤ 9 → t.length ≤ n →
        n ≤ 386 → (ascii name).length + t.length ≤ 400 := by
      intro name t n h₁ h₂ h₃
      omega
    exact ⟨hlen (by decide) (le_refl _) (by decide),
      hlen (by decide) (length_uint64_le hv) (by decide),
      hlen (by decide) (length_uint64_le h.seq) (by decide),
      hlen (by decide) (length_uint64_le h.epoch) (by decide),
      hlen (by decide) (length_identifier_le h.clId (by decide)) (by decide),
      fun m hm => by contradiction⟩

/-! ## The round trip -/

/-- What a frame is for the engine: it fits the transport, and decodes to the message of the
client. -/
structure Delivers (parse : Nlohmann.Parse) (msg : ClientMsg) (frame : Bytes) : Prop where
  size : frame.length ≤ maxInboundMsgBytes
  decodes : ∃ m, Nlohmann.decode parse frame = .ok m ∧ msg.Carries m

/-- A message that passes the checks has one frame, from either encoder, and it is delivered. -/
theorem encode_of_check {lib : Serializers} (hlib : lib.Minimal) {parse : Nlohmann.Parse}
    (hparse : Nlohmann.Correct parse) {msg : ClientMsg} (hcheck : checkClientMessage msg = .ok ()) :
    ∃ frame, encode lib msg = .ok frame ∧ encodeNaive lib msg = .ok frame ∧
      Delivers parse msg frame := by
  obtain ⟨tag, members, hschema, hfits⟩ := checkClientMessage_eq_ok_iff.mp hcheck
  cases msg with
  | newOrder m =>
    cases hschema
    obtain ⟨o, hcarries, hwire⟩ := exists_newOrder hfits
    obtain ⟨hencode, hnaive⟩ :=
      encode_eq_encodeNaive hlib rfl (spelled_newOrder hcarries hwire) hcheck
    exact ⟨_, hencode, hnaive, length_newOrder_le hwire, .newOrder o, decode_newOrder hparse hwire,
      .newOrder hcarries⟩
  | cancelOrder m =>
    cases hschema
    obtain ⟨c, hcarries, hwire⟩ := exists_cancelOrder hfits
    obtain ⟨hencode, hnaive⟩ :=
      encode_eq_encodeNaive hlib rfl (spelled_cancelOrder hcarries hwire) hcheck
    exact ⟨_, hencode, hnaive, length_cancelOrder_le hwire, .cancelOrder c,
      decode_cancelOrder hparse hwire, .cancelOrder hcarries⟩
  | foreign name => cases hschema

/-- Both encoders run the checks first. -/
theorem check_of_encode {lib : Serializers} {msg : ClientMsg} {frame : Bytes}
    (h : encode lib msg = .ok frame ∨ encodeNaive lib msg = .ok frame) :
    checkClientMessage msg = .ok () := by
  rcases h with h | h
  · exact (Except.andThen_eq_ok_iff.mp h).1
  · exact (Except.andThen_eq_ok_iff.mp h).1

/-- Whatever objects the fields of a message hold: a frame that either encoder returns is delivered,
and the other encoder returns the same one. -/
theorem encode_roundTrip (lib : Serializers) (parse : Nlohmann.Parse) (hlib : lib.Minimal)
    (hparse : Nlohmann.Correct parse) (msg : ClientMsg) :
    (∀ frame, encode lib msg = .ok frame ∨ encodeNaive lib msg = .ok frame →
      Delivers parse msg frame) ∧
    ((∃ frame, encode lib msg = .ok frame) ↔ ∃ frame, encodeNaive lib msg = .ok frame) ∧
    ∀ frame, encode lib msg = .ok frame ↔ encodeNaive lib msg = .ok frame := by
  have hsame : ∀ frame, encode lib msg = .ok frame ↔ encodeNaive lib msg = .ok frame := by
    intro frame
    constructor
    · intro h
      obtain ⟨frame', hencode, hnaive, -⟩ :=
        encode_of_check hlib hparse (check_of_encode (Or.inl h))
      rw [hencode] at h
      cases h
      exact hnaive
    · intro h
      obtain ⟨frame', hencode, hnaive, -⟩ :=
        encode_of_check hlib hparse (check_of_encode (Or.inr h))
      rw [hnaive] at h
      cases h
      exact hencode
  refine ⟨fun frame h => ?_, exists_congr hsame, hsame⟩
  obtain ⟨frame', hencode, -, hdelivers⟩ := encode_of_check hlib hparse (check_of_encode h)
  have h : encode lib msg = .ok frame := h.elim id (hsame frame).mpr
  rw [hencode] at h
  cases h
  exact hdelivers

/-- A cancel whose order id holds a quote and a letter that is no ASCII. -/
theorem encode_roundTrip_quote :
    Delivers (fun span => Nlohmann.domOf (Json.valueOf span))
      (.cancelOrder ⟨.int 1, .int 7, .int 3, .str [0x61, 0x22, 0xE9]⟩)
      (ascii "\x7b\"t\":\"cancel_order\",\"v\":1,\"seq\":7,\"epoch\":3,\"cl_id\":\"a\\\"" ++
        [0xC3, 0xA9] ++ ascii "\"\x7d") :=
  (encode_roundTrip .plain _ Serializers.minimal_plain Nlohmann.correct_domOf _).1 _
    (Or.inl (by decide))

end Client

end MarketMaker
