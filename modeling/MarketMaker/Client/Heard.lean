import MarketMaker.Client.Decoders
import MarketMaker.Client.RoundTrip
import MarketMaker.Client.Session
import MarketMaker.Strategy.Issue

/-!
# What the client hears and says

A message that either codec decodes has numbers in their domains and, in its symbol, an identifier
(`received_of_decode`). A message of the strategy made from it, with an envelope in its domain,
passes the checks of the encoders unless its quantity is out of the domain (`fits_of_issued`).
-/

namespace MarketMaker

namespace Client

/-! ## What is decoded -/

/-- What a message was decoded from. -/
structure DecodedFrom (data : Bytes) (msg : EngineMsg) (spans : Fields) : Prop where
  prepared : IsPrepared data msg.cls spans
  admits : ∀ field ∈ msg.cls.fields, ∃ span, (ascii field.1, span) ∈ spans ∧
    field.2.Admits (Json.valueOf span)
  attrs : ∀ item ∈ msg.attrs, ∃ span, (ascii item.1, span) ∈ spans ∧
    item.2 = .ofVal (Json.valueOf span)
  strings : checkEngineStrings msg.cls msg = .ok ()

section Decoded

variable {decodeError : Bytes → Bytes} {limit : DigitLimit} {data : Bytes} {msg : EngineMsg}
  {spans : Fields}

theorem exists_decodedFrom (h : decodeNaive decodeError limit data = .ok msg) :
    ∃ spans, DecodedFrom data msg spans := by
  rw [decodeNaive] at h
  obtain ⟨cls, hprepare, h⟩ := Except.bind_eq_ok_iff.mp h
  obtain ⟨payload, hpayload, h⟩ := Except.bind_eq_ok_iff.mp h
  obtain ⟨fields, hfields, h⟩ := Except.bind_eq_ok_iff.mp h
  obtain ⟨hstrings, h⟩ := Except.andThen_eq_ok_iff.mp h
  cases h
  obtain ⟨spans, hprepared⟩ := isPrepared_of_prepare hprepare
  have hread : payloadOf decodeError limit data >>= readFields cls = .ok fields :=
    Except.bind_eq_ok_iff.mpr ⟨payload, hpayload, hfields⟩
  rcases readFields_cases decodeError limit hprepared with
    ⟨attrs, hattrs, hadmits, hitems⟩ | ⟨⟨text, herror⟩, -⟩
  · rw [hread] at hattrs
    cases hattrs
    exact ⟨spans, hprepared, hadmits, hitems, hstrings⟩
  · rw [hread] at herror
    cases herror

namespace DecodedFrom

theorem nodup_fields (cls : EngineClass) : (cls.fields.map Prod.fst).Nodup := by
  cases cls <;> decide

/-- A declared member has an object, made from its value in the frame. -/
theorem lookup_eq (h : DecodedFrom data msg spans) {field : String × EngineHint}
    (hfield : field ∈ msg.cls.fields) :
    ∃ span, (ascii field.1, span) ∈ spans ∧ field.2.Admits (Json.valueOf span) ∧
      msg.attrs.lookup field.1 = some (.ofVal (Json.valueOf span)) := by
  obtain ⟨span, hspan, hadmits⟩ := h.admits field hfield
  have hname : field.1 ∈ msg.attrs.map Prod.fst := by
    rw [msg.names]
    exact List.mem_map_of_mem hfield
  obtain ⟨item, hitem, heq⟩ := List.mem_map.mp hname
  obtain ⟨span', hspan', hvalue⟩ := h.attrs item hitem
  have hsame : span' = span := by
    have hdistinct := h.prepared.accept.distinct
    have hlookup := (List.lookup_eq_some_iff_mem hdistinct).mpr hspan
    rw [heq, ← List.lookup_eq_some_iff_mem hdistinct, hlookup] at hspan'
    exact (Option.some.inj hspan').symm
  refine ⟨span, hspan, hadmits, ?_⟩
  rw [List.lookup_eq_some_iff_mem (by rw [msg.names]; exact nodup_fields _), ← hsame, ← hvalue,
    ← heq]
  exact hitem

/-- An integer attribute is in the domain of its type. -/
theorem intAttr_mem (h : DecodedFrom data msg spans) {name : String} {hint : EngineHint}
    (hfield : (name, hint) ∈ msg.cls.fields) {low high : ℤ}
    (hdomain : hint.domain = some (low, high)) :
    low ≤ msg.intAttr name ∧ msg.intAttr name ≤ high := by
  obtain ⟨span, hspan, -, hlookup⟩ := h.lookup_eq hfield
  obtain ⟨negative, ds, htoken, -, hlow, hhigh⟩ :=
    h.prepared.ints (name, hint) hfield low high hdomain span hspan
  rw [htoken.valueOf_eq, Loaded.ofVal] at hlookup
  rw [EngineMsg.intAttr, hlookup]
  exact ⟨hlow, hhigh⟩

/-- An attribute of type `uint64`. -/
theorem natAttr_lt (h : DecodedFrom data msg spans) {name : String}
    (hfield : (name, .uint64) ∈ msg.cls.fields) : msg.natAttr name < 2 ^ 64 := by
  obtain ⟨hlow, hhigh⟩ := h.intAttr_mem hfield rfl
  rw [EngineMsg.natAttr]
  omega

/-- An attribute of type `int64`. -/
theorem inInt64_intAttr (h : DecodedFrom data msg spans) {name : String}
    (hfield : (name, .int64) ∈ msg.cls.fields) : InInt64 (msg.intAttr name) := by
  obtain ⟨hlow, hhigh⟩ := h.intAttr_mem hfield rfl
  exact ⟨hlow, by omega⟩

/-- A string attribute with a cap is an identifier. -/
theorem fitsIdentifier_strAttr (h : DecodedFrom data msg spans) {name : String}
    (hfield : (name, .str) ∈ msg.cls.fields) {cap : ℕ} (hcap : identifierCap name = some cap) :
    FitsIdentifier cap (msg.strAttr name) := by
  obtain ⟨span, hspan, ⟨s, hs⟩, hlookup⟩ := h.lookup_eq hfield
  rw [hs, Loaded.ofVal] at hlookup
  have hattr : msg.strAttr name = s := by rw [EngineMsg.strAttr, hlookup]
  have hcheck := Except.forM_eq_ok_iff.mp h.strings (name, .str) hfield
  rw [checkEngineString, hlookup] at hcheck
  dsimp only at hcheck
  rw [hcap, Option.any_some] at hcheck
  split_ifs at hcheck with hlength hcontrol
  obtain ⟨hvalue, hutf8⟩ :=
    h.prepared.accept.text.valid h.prepared.accept.utf8 _ hspan
  rw [hattr]
  refine ⟨⟨by simpa using hlength, fun c hc => ?_⟩, Json.valid_of_valueOf_string hvalue hutf8 hs⟩
  have hclean : ¬(c < 0x20 || c = 0x7F) = true := fun hbad =>
    hcontrol (List.any_eq_true.mpr ⟨c, hc, by simpa using hbad⟩)
  simpa using hclean

/-- The strategy can make use of the message. -/
theorem received (h : DecodedFrom data msg spans) :
    Received (FitsIdentifier maxSymbolLen) msg.toOutMsg := by
  cases hcls : msg.cls with
  | tob =>
    have hfield : ∀ field ∈ EngineClass.tob.fields, field ∈ msg.cls.fields := by
      rw [hcls]
      exact fun _ hfield => hfield
    have htob : ∀ tob, msg.toOutMsg = .tob tob → tob.mdSeq = msg.natAttr "md_seq" ∧
        tob.symbol = msg.strAttr "symbol" ∧ tob.bidPx = msg.intAttr "bid_px" ∧
        tob.askPx = msg.intAttr "ask_px" := by
      intro tob heq
      rw [EngineMsg.toOutMsg, hcls] at heq
      cases heq
      exact ⟨rfl, rfl, rfl, rfl⟩
    refine ⟨fun tob heq => ?_, fun tob heq => ?_, fun tob heq => ?_⟩
    · rw [(htob tob heq).1]
      exact h.natAttr_lt (hfield _ (by decide))
    · rw [(htob tob heq).2.1]
      exact h.fitsIdentifier_strAttr (hfield ("symbol", .str) (by decide)) rfl
    · rw [(htob tob heq).2.2.1, (htob tob heq).2.2.2]
      exact ⟨h.inInt64_intAttr (hfield ("bid_px", .int64) (by decide)),
        h.inInt64_intAttr (hfield ("ask_px", .int64) (by decide))⟩
  | _ =>
    have hreport : ∀ tob, msg.toOutMsg ≠ .tob tob := by
      intro tob heq
      rw [EngineMsg.toOutMsg, hcls] at heq
      cases heq
    exact ⟨fun tob heq => absurd heq (hreport tob), fun tob heq => absurd heq (hreport tob),
      fun tob heq => absurd heq (hreport tob)⟩

/-- Every message names its epoch. -/
theorem epoch_lt (h : DecodedFrom data msg spans) : msg.natAttr "epoch" < 2 ^ 64 := by
  refine h.natAttr_lt ?_
  cases msg.cls <;> decide

end DecodedFrom

end Decoded

/-! ## The platform -/

/-- What the documentation of the libraries says of them. -/
structure Platform.Documented (platform : Platform) : Prop where
  typed : IsTypedDecoder platform.decodeError platform.limit platform.typed
  lib : platform.lib.Minimal

/-- The two codecs of a platform. -/
def Platform.IsArm (platform : Platform) (codec : Codec) : Prop :=
  codec = platform.tuned ∨ codec = platform.naive

/-- What the driver relies on in a codec. -/
structure Codec.Sound (codec : Codec) : Prop where
  /-- A frame is decoded to a message whose fields are in their domains, or refused. -/
  decode : ∀ raw, (∃ text, codec.decode raw = .error (.valueError text)) ∨
    ∃ msg, codec.decode raw = .ok msg ∧ msg.natAttr "epoch" < 2 ^ 64 ∧
      Received (FitsIdentifier maxSymbolLen) msg.toOutMsg
  /-- A message that passes the checks has a frame, which the engine reads as the same message. -/
  encode : ∀ msg, checkClientMessage msg = .ok () →
    ∃ frame, codec.encode msg = .ok frame ∧
      ∀ parse, Nlohmann.Correct parse → Delivers parse msg frame
  /-- Another message of the strategy is refused with a `ValueError`. -/
  refuse : ∀ msg : InMsg, checkClientMessage (toClientMsg msg) ≠ .ok () →
    ∃ exc, codec.encode (toClientMsg msg) = .error exc ∧ (exc.text codec.encodeError).isSome

/-- An exception that `except ValueError` catches. -/
def EncodeRaise.IsValue : EncodeRaise → Prop
  | valueError _ => True
  | unicodeEncodeError => True
  | typeError _ => False
  | library => False

theorem EncodeRaise.IsValue.text {exc : EncodeRaise} (h : exc.IsValue) (encodeError : Bytes) :
    (exc.text encodeError).isSome := by
  cases exc with
  | valueError text => rfl
  | unicodeEncodeError => rfl
  | typeError text => cases h
  | library => cases h

section Refusals

variable (tag : String) (m : Member)

theorem errorsIn_asInt (name : String) (value : PyObject) :
    (asInt tag name value).ErrorsIn EncodeRaise.IsValue := by
  cases value with
  | int z => exact .ok z
  | _ => exact .error trivial

theorem errorsIn_checkWireType : (checkWireType tag m).ErrorsIn EncodeRaise.IsValue := by
  rw [checkWireType]
  cases m.hint with
  | bool =>
    refine .map ?_ _
    cases m.value with
    | bool b => exact .ok b
    | _ => exact .error trivial
  | version =>
    refine .map ((errorsIn_asInt tag m.name m.value).bind fun version => ?_) _
    exact .ite (.error trivial) (.ite (.error trivial) (.ok version))
  | _ => exact .ok ()

theorem errorsIn_checkDomain : (checkDomain tag m).ErrorsIn EncodeRaise.IsValue := by
  rw [checkDomain]
  cases m.hint.domain with
  | none => exact .ok ()
  | some domain =>
    exact (errorsIn_asInt tag m.name m.value).bind fun _ => .ite (.ok ()) (.error trivial)

theorem errorsIn_checkIdentifier (hcap : m.hint = .str → (identifierCap m.name).isSome) :
    (checkIdentifier tag m).ErrorsIn EncodeRaise.IsValue := by
  rw [checkIdentifier]
  by_cases hhint : m.hint = .str
  · rw [if_pos hhint]
    obtain ⟨cap, hcap⟩ := Option.isSome_iff_exists.mp (hcap hhint)
    rw [hcap]
    refine .bind ?_ fun value => .bind ?_ fun size =>
      .ite (.error trivial) (.ite (.error trivial) (.ok ()))
    · cases m.value with
      | str s => exact .ok s
      | _ => exact .error trivial
    · rw [identifierSize]
      refine .ite (.ok _) (.ite (.error trivial) ?_)
      cases value.encode with
      | some t => exact .ok _
      | none => exact .error trivial
  · rw [if_neg hhint]
    exact .ok ()

end Refusals

/-- The checks refuse a message of the strategy with a `ValueError`. -/
theorem errorsIn_checkClientMessage (msg : InMsg) :
    (checkClientMessage (toClientMsg msg)).ErrorsIn EncodeRaise.IsValue := by
  have hmembers : ∀ (tag : String) (members : List Member),
      (∀ m ∈ members, m.hint = .str → (identifierCap m.name).isSome) →
        (members.forM (checkWireType tag) >>= fun _ => members.forM (checkDomain tag) >>= fun _ =>
          members.forM (checkIdentifier tag)).ErrorsIn EncodeRaise.IsValue := by
    intro tag members hcap
    refine .bind (.forM (errorsIn_checkWireType tag) members) fun _ =>
      .bind (.forM (errorsIn_checkDomain tag) members) fun _ => .forM_mem fun m hm => ?_
    exact errorsIn_checkIdentifier tag m (hcap m hm)
  cases msg with
  | newOrder o => exact hmembers _ _ (by simp [NewOrder.members, identifierCap])
  | cancelOrder c => exact hmembers _ _ (by simp [CancelOrder.members, identifierCap])

theorem Platform.IsArm.sound {platform : Platform} (h : platform.Documented) {codec : Codec}
    (hcodec : platform.IsArm codec) : codec.Sound where
  decode raw := by
    rcases decode_agrees h.typed raw with ⟨msg, htuned, hnaive⟩ | ⟨text, htuned, hnaive⟩
    · obtain ⟨spans, hdecoded⟩ := exists_decodedFrom hnaive
      refine Or.inr ⟨msg, ?_, hdecoded.epoch_lt, hdecoded.received⟩
      rcases hcodec with rfl | rfl
      · exact htuned
      · exact hnaive
    · refine Or.inl ⟨text, ?_⟩
      rcases hcodec with rfl | rfl
      · exact htuned
      · exact hnaive
  encode msg hcheck := by
    obtain ⟨frame, htuned, hnaive, -⟩ := encode_of_check h.lib Nlohmann.correct_domOf hcheck
    refine ⟨frame, ?_, fun parse hparse => ?_⟩
    · rcases hcodec with rfl | rfl
      · exact htuned
      · exact hnaive
    · obtain ⟨frame', htuned', -, hdelivers⟩ := encode_of_check h.lib hparse hcheck
      rw [htuned] at htuned'
      cases htuned'
      exact hdelivers
  refuse msg hnot := by
    have hencode : ∀ exc, checkClientMessage (toClientMsg msg) = .error exc →
        codec.encode (toClientMsg msg) = .error exc := by
      intro exc hcheck
      rcases hcodec with rfl | rfl
      · change encode platform.lib _ = _
        rw [encode, hcheck]
        rfl
      · change encodeNaive platform.lib _ = _
        rw [encodeNaive, hcheck]
        rfl
    rcases (errorsIn_checkClientMessage msg).cases with ⟨⟨⟩, hok⟩ | ⟨exc, hvalue, hcheck⟩
    · exact absurd hok hnot
    · exact ⟨exc, hencode exc hcheck, hvalue.text _⟩

/-! ## What is encoded -/

theorem isStr_ofBytes {t : Bytes} (h : Utf8.Valid t) : (PyObject.ofBytes t).IsStr t := by
  obtain ⟨s, hs⟩ := Str.exists_decode h
  refine ⟨s, ?_, Str.decode_eq_some_iff.mp hs⟩
  rw [PyObject.ofBytes, hs]
  rfl

theorem fits_str {name : String} {cap : ℕ} (hcap : identifierCap name = some cap) {t : Bytes}
    (h : FitsIdentifier cap t) : Member.Fits ⟨name, .str, .ofBytes t⟩ := by
  obtain ⟨s, hs, hencode⟩ := isStr_ofBytes h.2
  exact ⟨cap, s, t, hcap, hs, hencode, h.1⟩

theorem check_newOrder {o : MarketMaker.NewOrder} (h : FitsNewOrder o) :
    checkClientMessage (toClientMsg (.newOrder o)) = .ok () := by
  refine checkClientMessage_eq_ok_iff.mpr ⟨_, _, rfl, ?_⟩
  simp only [NewOrder.members, List.forall_mem_cons]
  have hv : Member.Fits ⟨"v", .version, .int o.v⟩ := congrArg (fun n : ℕ => PyObject.int n) h.v
  exact ⟨hv, ⟨_, rfl, h.seq⟩, ⟨_, rfl, h.epoch⟩, ⟨_, rfl, h.mdSeq⟩, fits_str rfl h.clId,
    fits_str rfl h.symbol, fits_str rfl h.side, ⟨_, rfl, h.px⟩, ⟨_, rfl, h.qty⟩, ⟨_, rfl⟩,
    fun m hm => by contradiction⟩

theorem check_cancelOrder {c : MarketMaker.CancelOrder} (h : FitsCancelOrder c) :
    checkClientMessage (toClientMsg (.cancelOrder c)) = .ok () := by
  refine checkClientMessage_eq_ok_iff.mpr ⟨_, _, rfl, ?_⟩
  simp only [CancelOrder.members, List.forall_mem_cons]
  have hv : Member.Fits ⟨"v", .version, .int c.v⟩ := congrArg (fun n : ℕ => PyObject.int n) h.v
  exact ⟨hv, ⟨_, rfl, h.seq⟩, ⟨_, rfl, h.epoch⟩, fits_str rfl h.clId, fun m hm => by contradiction⟩

/-- The ids of the strategy are short and plain. -/
theorem fitsIdentifier_clIdOf (side : Side) {n : ℕ} (h : n < 2 ^ 64) :
    FitsIdentifier maxClIdLen (clIdOf side n) := by
  have hdecimal : decimal (n : ℤ) = Json.decimal n := by
    change n.repr.toList.map _ = _
    rw [Nat.toList_repr]
    rfl
  have hlength : (Json.decimal n).length ≤ 20 :=
    Json.length_decimal_le (h.trans (by decide)) (by decide)
  have hprefix : (side.wire ++ ascii "-").length = 2 ∧
      ∀ c ∈ side.wire ++ ascii "-", (0x20 ≤ c ∧ c ≠ 0x7F) ∧ c < 0x80 := by
    cases side <;> decide +kernel
  have hchars : ∀ c ∈ clIdOf side n, (0x20 ≤ c ∧ c ≠ 0x7F) ∧ c < 0x80 := by
    intro c hc
    rw [clIdOf, hdecimal] at hc
    rcases List.mem_append.mp hc with hc | hc
    · exact hprefix.2 c hc
    · have hdigit := Json.isDigit_iff.mp (Json.digits_decimal n c hc)
      rw [UInt8.le_iff_toNat_le, UInt8.lt_iff_toNat_lt, ne_eq, ← UInt8.toNat_inj]
      simp only [UInt8.reduceToNat]
      omega
  refine ⟨⟨?_, fun c hc => (hchars c hc).1⟩, Json.valid_of_ascii fun c hc => (hchars c hc).2⟩
  rw [clIdOf, hdecimal, List.length_append, hprefix.1, maxClIdLen]
  omega

/-- A message of the strategy passes the checks, but for its quantity. -/
theorem check_of_issued {cfg : StrategyConfig} {bound seq epoch : ℕ} {msg : InMsg}
    (h : Issued (FitsIdentifier maxSymbolLen) cfg bound msg) (hbound : bound < 2 ^ 64)
    (hseq : seq < 2 ^ 64) (hepoch : epoch < 2 ^ 64)
    (hqty : FitsIdentifier maxSymbolLen cfg.symbol → InInt64 (min cfg.qty cfg.maxQty)) :
    checkClientMessage (toClientMsg (stampMsg seq epoch msg)) = .ok () := by
  cases h with
  | @newOrder m v mdSeq clId symbol heard side px qty =>
    obtain ⟨side, hside⟩ := side
    obtain ⟨side', n, hn, hclId⟩ := clId
    have hsideFits : FitsIdentifier maxSideLen side.wire := by
      cases side <;>
        exact ⟨⟨by decide +kernel, by decide +kernel⟩, Json.valid_of_ascii (by decide +kernel)⟩
    exact check_newOrder (o := { m with seq, epoch })
      { v, seq := hseq, epoch := hepoch, mdSeq
        clId := hclId ▸ fitsIdentifier_clIdOf side' (hn.trans_lt hbound)
        symbol := symbol ▸ heard
        side := hside ▸ hsideFits
        px
        qty := qty ▸ hqty heard }
  | @cancelOrder m v clId =>
    obtain ⟨side, n, hn, hclId⟩ := clId
    exact check_cancelOrder (c := { m with seq, epoch })
      { v, seq := hseq, epoch := hepoch
        clId := hclId ▸ fitsIdentifier_clIdOf side (hn.trans_lt hbound) }

end Client

end MarketMaker
