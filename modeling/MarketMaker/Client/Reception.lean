import MarketMaker.Client.Contiguity
import MarketMaker.Client.Spans
import MarketMaker.Codec.Encode

/-!
# From the engine to the client

A message that the engine encodes is decoded by either decoder of the client to the same message.
The five classes differ in their members alone, so the proof is one: a frame holds the tag, the
version and one member for each attribute (`members_eq`), every attribute whose object fits its
declared type (`EngineHint.Fits`) passes the checks before and behind `json.loads`, and what is read
under each name is what was written there.
-/

namespace MarketMaker

namespace Client

/-! ## The message as an object -/

/-- The objects of the attributes. -/
def EngineMsg.ofOutMsg : OutMsg → EngineMsg
  | .tob m =>
    { cls := .tob, v := m.v
      attrs :=
        [("seq", .int m.seq), ("epoch", .int m.epoch), ("md_seq", .int m.mdSeq),
          ("symbol", .str m.symbol), ("bid_px", .int m.bidPx), ("bid_qty", .int m.bidQty),
          ("ask_px", .int m.askPx), ("ask_qty", .int m.askQty)]
      names := rfl }
  | .orderAck m =>
    { cls := .orderAck, v := m.v
      attrs :=
        [("seq", .int m.seq), ("epoch", .int m.epoch), ("cl_id", .str m.clId),
          ("eng_id", .int m.engId), ("status", .str m.status), ("svc_ns", .int m.svcNs)]
      names := rfl }
  | .cancelAck m =>
    { cls := .cancelAck, v := m.v
      attrs :=
        [("seq", .int m.seq), ("epoch", .int m.epoch), ("cl_id", .str m.clId),
          ("eng_id", .int m.engId), ("status", .str m.status)]
      names := rfl }
  | .reject m =>
    { cls := .reject, v := m.v
      attrs :=
        [("seq", .int m.seq), ("epoch", .int m.epoch), ("cl_id", .str m.clId),
          ("code", .str m.code), ("reason", .str m.reason)]
      names := rfl }
  | .fill m =>
    { cls := .fill, v := m.v
      attrs :=
        [("seq", .int m.seq), ("epoch", .int m.epoch), ("cl_id", .str m.clId),
          ("eng_id", .int m.engId), ("px", .int m.px), ("qty", .int m.qty),
          ("leaves", .int m.leaves), ("exec_id", .int m.execId)]
      names := rfl }

/-- A message of the engine survives the translation. -/
theorem EngineMsg.toOutMsg_ofOutMsg (m : OutMsg) : (EngineMsg.ofOutMsg m).toOutMsg = m := by
  cases m <;> rfl

/-! ## What fits the wire -/

/-- A length that the codes and reasons of the engine keep. The wire sets no bound on them, and the
client checks none. -/
def maxTextLen : ℕ := 256

/-- An object that the client takes for a member of this type. -/
def EngineHint.Fits (name : String) : EngineHint → Loaded → Prop
  | .uint64, value => ∃ n : ℕ, value = .int n ∧ n < 2 ^ 64
  | .int64, value => ∃ z, value = .int z ∧ InInt64 z
  | .str, value => ∃ t, value = .str t ∧ FitsIdentifier ((identifierCap name).getD maxTextLen) t
  | .literal allowed, value => ∃ s ∈ allowed, value = .str (ascii s)

/-- Each attribute fits its declared type. -/
def EngineMsg.Fits (msg : EngineMsg) : Prop :=
  msg.v = 1 ∧ ∀ field ∈ msg.cls.fields, ∃ value,
    (field.1, value) ∈ msg.attrs ∧ field.2.Fits field.1 value

/-- The fields of a message are in the domains of the wire, apart from its counters and from the
service time. -/
structure FitsTob (m : Tob) : Prop where
  v : m.v = 1
  symbol : FitsIdentifier maxSymbolLen m.symbol
  bidPx : InInt64 m.bidPx
  bidQty : InInt64 m.bidQty
  askPx : InInt64 m.askPx
  askQty : InInt64 m.askQty

structure FitsOrderAck (m : OrderAck) : Prop where
  v : m.v = 1
  clId : FitsIdentifier maxClIdLen m.clId
  status : m.status = ascii "live"

structure FitsCancelAck (m : CancelAck) : Prop where
  v : m.v = 1
  clId : FitsIdentifier maxClIdLen m.clId
  status : m.status = ascii "cancelled"

structure FitsReject (m : Reject) : Prop where
  v : m.v = 1
  clId : FitsIdentifier maxClIdLen m.clId
  code : FitsIdentifier maxTextLen m.code
  reason : FitsIdentifier maxTextLen m.reason

structure FitsFill (m : Fill) : Prop where
  v : m.v = 1
  clId : FitsIdentifier maxClIdLen m.clId
  px : InInt64 m.px
  qty : InInt64 m.qty
  leaves : InInt64 m.leaves

def FitsFields : OutMsg → Prop
  | .tob m => FitsTob m
  | .orderAck m => FitsOrderAck m
  | .cancelAck m => FitsCancelAck m
  | .reject m => FitsReject m
  | .fill m => FitsFill m

/-- The numbers that the engine counts up: sequence, epoch and ids. -/
def countersOf : OutMsg → List ℕ
  | .tob m => [m.seq, m.epoch, m.mdSeq]
  | .orderAck m => [m.seq, m.epoch, m.engId]
  | .cancelAck m => [m.seq, m.epoch, m.engId]
  | .reject m => [m.seq, m.epoch]
  | .fill m => [m.seq, m.epoch, m.engId, m.execId]

/-- The counters and the service time of a message fit their machine types, a `uint64_t` and an
`int64_t`: here they are unbounded. -/
structure FitsMachine (m : OutMsg) : Prop where
  counters : ∀ n ∈ countersOf m, n < 2 ^ 64
  svcNs : ∀ ack, m = .orderAck ack → InInt64 ack.svcNs

/-- A message that is in the domains of the wire. -/
structure FitsOutMsg (m : OutMsg) : Prop extends FitsMachine m where
  fields : FitsFields m

/-- It fits its class. -/
theorem fits_ofOutMsg {m : OutMsg} (h : FitsOutMsg m) : (EngineMsg.ofOutMsg m).Fits := by
  obtain ⟨⟨hnumbers, hsvcNs⟩, hfields⟩ := h
  cases m with
  | tob m =>
    simp only [countersOf, List.forall_mem_cons] at hnumbers
    obtain ⟨hseq, hepoch, hmdSeq, -⟩ := hnumbers
    obtain ⟨hv, hsymbol, hbidPx, hbidQty, haskPx, haskQty⟩ := hfields
    refine ⟨congrArg _ hv, ?_⟩
    simp only [EngineMsg.ofOutMsg, EngineClass.fields, List.forall_mem_cons]
    exact ⟨⟨_, by simp, m.seq, rfl, hseq⟩, ⟨_, by simp, m.epoch, rfl, hepoch⟩,
      ⟨_, by simp, m.mdSeq, rfl, hmdSeq⟩, ⟨_, by simp, m.symbol, rfl, hsymbol⟩,
      ⟨_, by simp, m.bidPx, rfl, hbidPx⟩, ⟨_, by simp, m.bidQty, rfl, hbidQty⟩,
      ⟨_, by simp, m.askPx, rfl, haskPx⟩, ⟨_, by simp, m.askQty, rfl, haskQty⟩,
      fun field hfield => by contradiction⟩
  | orderAck m =>
    simp only [countersOf, List.forall_mem_cons] at hnumbers
    obtain ⟨hseq, hepoch, hengId, -⟩ := hnumbers
    obtain ⟨hv, hclId, hstatus⟩ := hfields
    refine ⟨congrArg _ hv, ?_⟩
    simp only [EngineMsg.ofOutMsg, EngineClass.fields, List.forall_mem_cons]
    exact ⟨⟨_, by simp, m.seq, rfl, hseq⟩, ⟨_, by simp, m.epoch, rfl, hepoch⟩,
      ⟨_, by simp, m.clId, rfl, hclId⟩, ⟨_, by simp, m.engId, rfl, hengId⟩,
      ⟨_, by simp, "live", by simp, congrArg _ hstatus⟩, ⟨_, by simp, m.svcNs, rfl, hsvcNs m rfl⟩,
      fun field hfield => by contradiction⟩
  | cancelAck m =>
    simp only [countersOf, List.forall_mem_cons] at hnumbers
    obtain ⟨hseq, hepoch, hengId, -⟩ := hnumbers
    obtain ⟨hv, hclId, hstatus⟩ := hfields
    refine ⟨congrArg _ hv, ?_⟩
    simp only [EngineMsg.ofOutMsg, EngineClass.fields, List.forall_mem_cons]
    exact ⟨⟨_, by simp, m.seq, rfl, hseq⟩, ⟨_, by simp, m.epoch, rfl, hepoch⟩,
      ⟨_, by simp, m.clId, rfl, hclId⟩, ⟨_, by simp, m.engId, rfl, hengId⟩,
      ⟨_, by simp, "cancelled", by simp, congrArg _ hstatus⟩, fun field hfield => by contradiction⟩
  | reject m =>
    simp only [countersOf, List.forall_mem_cons] at hnumbers
    obtain ⟨hseq, hepoch, -⟩ := hnumbers
    obtain ⟨hv, hclId, hcode, hreason⟩ := hfields
    refine ⟨congrArg _ hv, ?_⟩
    simp only [EngineMsg.ofOutMsg, EngineClass.fields, List.forall_mem_cons]
    exact ⟨⟨_, by simp, m.seq, rfl, hseq⟩, ⟨_, by simp, m.epoch, rfl, hepoch⟩,
      ⟨_, by simp, m.clId, rfl, hclId⟩, ⟨_, by simp, m.code, rfl, hcode⟩,
      ⟨_, by simp, m.reason, rfl, hreason⟩, fun field hfield => by contradiction⟩
  | fill m =>
    simp only [countersOf, List.forall_mem_cons] at hnumbers
    obtain ⟨hseq, hepoch, hengId, hexecId, -⟩ := hnumbers
    obtain ⟨hv, hclId, hpx, hqty, hleaves⟩ := hfields
    refine ⟨congrArg _ hv, ?_⟩
    simp only [EngineMsg.ofOutMsg, EngineClass.fields, List.forall_mem_cons]
    exact ⟨⟨_, by simp, m.seq, rfl, hseq⟩, ⟨_, by simp, m.epoch, rfl, hepoch⟩,
      ⟨_, by simp, m.clId, rfl, hclId⟩, ⟨_, by simp, m.engId, rfl, hengId⟩,
      ⟨_, by simp, m.px, rfl, hpx⟩, ⟨_, by simp, m.qty, rfl, hqty⟩,
      ⟨_, by simp, m.leaves, rfl, hleaves⟩, ⟨_, by simp, m.execId, rfl, hexecId⟩,
      fun field hfield => by contradiction⟩

/-! ## The frame -/

/-- The text of an object. -/
def Loaded.text : Loaded → Bytes
  | .int z => Json.intText z
  | .bool b => Json.boolText b
  | .str s => Json.stringText Nlohmann.hexUpper s
  | .other => ascii "null"

/-- The members of the frame of a message. -/
def EngineMsg.octets (msg : EngineMsg) : Fields :=
  (ascii "t", Json.stringText Nlohmann.hexUpper (ascii msg.cls.tag)) ::
    (ascii "v", Json.intText msg.v) :: msg.attrs.map fun item => (ascii item.1, item.2.text)

/-- Its members are written in the order of the class. -/
theorem members_eq (m : OutMsg) : Nlohmann.members m = (EngineMsg.ofOutMsg m).octets := by
  cases m <;> rfl

namespace EngineMsg

variable {msg : EngineMsg}

/-- The names in a frame are those of the class. -/
theorem names_octets (msg : EngineMsg) :
    msg.octets.map Prod.fst = ("t" :: "v" :: msg.cls.fields.map Prod.fst).map ascii := by
  rw [octets, ← msg.names]
  simp

/-- They differ, and each is short and needs no escape. -/
theorem names_spec (cls : EngineClass) :
    (("t" :: "v" :: cls.fields.map Prod.fst).map ascii).Nodup ∧
      ∀ name ∈ ("t" :: "v" :: cls.fields.map Prod.fst).map ascii,
        plainKey name = true ∧ name.length ≤ 16 := by
  cases cls <;> decide +kernel

/-- No member is there twice. -/
theorem nodup_octets (msg : EngineMsg) : (msg.octets.map Prod.fst).Nodup := by
  rw [names_octets]
  exact (names_spec msg.cls).1

/-- Their names need no escape. -/
theorem plain_octets (msg : EngineMsg) :
    ∀ m ∈ msg.octets, plainKey m.1 = true ∧ m.1.length ≤ 16 := by
  intro m hm
  refine (names_spec msg.cls).2 m.1 ?_
  rw [← names_octets]
  exact List.mem_map_of_mem hm

/-- Ten members at most. -/
theorem length_octets_le (msg : EngineMsg) : msg.octets.length ≤ 10 := by
  rw [← List.length_map (f := Prod.fst), names_octets]
  cases msg.cls <;> decide

/-- An attribute stands in the frame under its name, and nothing else does. -/
theorem mem_octets {name : String} {value : Loaded} (hattr : (name, value) ∈ msg.attrs)
    {span : Bytes} :
    (ascii name, span) ∈ msg.octets ↔ span = value.text := by
  have hmem : (ascii name, value.text) ∈ msg.octets := by
    refine List.mem_cons_of_mem _ (List.mem_cons_of_mem _ ?_)
    exact List.mem_map_of_mem (f := fun item : String × Loaded => (ascii item.1, item.2.text)) hattr
  have hlookup := fun span => List.lookup_eq_some_iff_mem msg.nodup_octets (k := ascii name)
    (v := span)
  constructor
  · intro h
    have hsame := (hlookup _).mpr h
    rw [(hlookup _).mpr hmem] at hsame
    exact (Option.some.inj hsame).symm
  · rintro rfl
    exact hmem

end EngineMsg

/-! ## Attributes that fit -/

namespace EngineHint.Fits

variable {name : String} {hint : EngineHint} {value : Loaded}

/-- A sign and a magnitude, put together again. -/
theorem signed_natAbs (z : ℤ) : Json.signed (z < 0) z.natAbs = z := by
  rw [Json.signed]
  by_cases hneg : z < 0
  · rw [if_pos (decide_eq_true hneg)]
    omega
  · rw [if_neg (by simpa using hneg)]
    omega

/-- What a member holds reads back as its object. -/
theorem ofVal_text (h : hint.Fits name value) : Loaded.ofVal (Json.valueOf value.text) = value := by
  have hnumber : ∀ z, Loaded.ofVal (Json.valueOf (Json.intText z)) = .int z := by
    intro z
    rw [Json.valueOf_intText, Loaded.ofVal, signed_natAbs]
  have hstr : ∀ t, Loaded.ofVal (Json.valueOf (Json.stringText Nlohmann.hexUpper t)) = .str t := by
    intro t
    rw [Json.valueOf_stringText Nlohmann.spells_hexUpper, Loaded.ofVal]
  cases hint with
  | uint64 =>
    obtain ⟨n, rfl, -⟩ := h
    exact hnumber n
  | int64 =>
    obtain ⟨z, rfl, -⟩ := h
    exact hnumber z
  | str =>
    obtain ⟨t, rfl, -⟩ := h
    exact hstr t
  | literal allowed =>
    obtain ⟨s, -, rfl⟩ := h
    exact hstr (ascii s)

/-- It is of the declared type. -/
theorem admits (h : hint.Fits name value) : hint.Admits (Json.valueOf value.text) := by
  cases hint with
  | uint64 =>
    obtain ⟨n, rfl, -⟩ := h
    exact ⟨_, _, Json.valueOf_intText n⟩
  | int64 =>
    obtain ⟨z, rfl, -⟩ := h
    exact ⟨_, _, Json.valueOf_intText z⟩
  | str =>
    obtain ⟨t, rfl, -⟩ := h
    exact ⟨t, Json.valueOf_stringText Nlohmann.spells_hexUpper t⟩
  | literal allowed =>
    obtain ⟨s, hs, rfl⟩ := h
    exact ⟨ascii s, List.mem_map_of_mem hs, Json.valueOf_stringText Nlohmann.spells_hexUpper _⟩

/-- An integer is in the domain of its member. -/
theorem accepts (h : hint.Fits name value) {low high : ℤ}
    (hdomain : hint.domain = some (low, high)) :
    hint.Accepts value.text := by
  cases hint with
  | uint64 =>
    obtain ⟨n, rfl, hn⟩ := h
    refine ⟨n, ?_, hn⟩
    rw [Loaded.text, Json.valueOf_intText]
    rfl
  | int64 =>
    obtain ⟨z, rfl, hz⟩ := h
    refine ⟨_, _, Json.valueOf_intText z, ?_⟩
    rwa [signed_natAbs]
  | str => cases hdomain
  | literal allowed => cases hdomain

/-- It is a value of the grammar and UTF-8. -/
theorem readable (h : hint.Fits name value)
    (hliteral : ∀ allowed, hint = .literal allowed → ∀ s ∈ allowed, Utf8.Valid (ascii s)) :
    Readable value.text := by
  have hstr : ∀ {t}, Utf8.Valid t → Readable (Json.stringText Nlohmann.hexUpper t) := fun ht =>
    ⟨Json.scalar_stringText Nlohmann.spells_hexUpper _,
      Json.valid_stringText Nlohmann.spells_hexUpper ht⟩
  cases hint with
  | uint64 =>
    obtain ⟨n, rfl, -⟩ := h
    exact readable_int n
  | int64 =>
    obtain ⟨z, rfl, -⟩ := h
    exact readable_int z
  | str =>
    obtain ⟨t, rfl, ht⟩ := h
    exact hstr ht.2
  | literal allowed =>
    obtain ⟨s, hs, rfl⟩ := h
    exact hstr (hliteral allowed rfl s hs)

/-- It is short. -/
theorem length_le (h : hint.Fits name value)
    (hcap : ∀ cap, identifierCap name = some cap → cap ≤ maxTextLen)
    (hliteral : ∀ allowed, hint = .literal allowed → ∀ s ∈ allowed, (ascii s).length ≤ maxTextLen) :
    value.text.length ≤ 6 * maxTextLen + 2 := by
  have hstr : ∀ {t : Bytes}, t.length ≤ maxTextLen →
      (Json.stringText Nlohmann.hexUpper t).length ≤ 6 * maxTextLen + 2 := fun ht =>
    (Json.length_stringText_le _ _).trans (by omega)
  cases hint with
  | uint64 =>
    obtain ⟨n, rfl, hn⟩ := h
    exact (length_uint64_le hn).trans (by decide)
  | int64 =>
    obtain ⟨z, rfl, hz⟩ := h
    exact (length_int64_le hz).trans (by decide)
  | str =>
    obtain ⟨t, rfl, ⟨ht, -⟩, -⟩ := h
    refine hstr (ht.trans ?_)
    cases hname : identifierCap name with
    | none => exact le_refl _
    | some cap => exact hcap cap hname
  | literal allowed =>
    obtain ⟨s, hs, rfl⟩ := h
    exact hstr (hliteral allowed rfl s hs)

end EngineHint.Fits

/-- The caps of identifiers are below that of texts. -/
theorem identifierCap_le {name : String} {cap : ℕ} (h : identifierCap name = some cap) :
    cap ≤ maxTextLen := by
  unfold identifierCap at h
  split at h <;> cases h <;> decide

/-- The tags of the classes and the literals of the schemas are ASCII and short. -/
theorem valid_words (cls : EngineClass) : ∀ s ∈ [cls.tag, "live", "cancelled"],
    Utf8.Valid (ascii s) ∧ (ascii s).length ≤ maxTextLen := by
  have hwords : ∀ s ∈ [cls.tag, "live", "cancelled"],
      (ascii s).all (· < 0x80) = true ∧ (ascii s).length ≤ maxTextLen := by
    cases cls <;> decide +kernel
  intro s hs
  refine ⟨Json.valid_of_ascii fun c hc => ?_, (hwords s hs).2⟩
  exact of_decide_eq_true (List.all_eq_true.mp (hwords s hs).1 c hc)

/-- Literals are ASCII. -/
theorem valid_literal {cls : EngineClass} {field : String × EngineHint}
    (hfield : field ∈ cls.fields)
    {allowed : List String} (h : field.2 = .literal allowed) :
    ∀ s ∈ allowed, Utf8.Valid (ascii s) ∧ (ascii s).length ≤ maxTextLen := by
  have hall : ∀ field ∈ cls.fields, ∀ allowed, field.2 = .literal allowed →
      allowed = ["live"] ∨ allowed = ["cancelled"] := by
    cases cls <;> simp [EngineClass.fields]
  intro s hs
  rcases hall field hfield allowed h with rfl | rfl
  · exact valid_words cls s (by simp [List.mem_singleton.mp hs])
  · exact valid_words cls s (by simp [List.mem_singleton.mp hs])

/-! ## The client accepts the frame -/

section Accepted

variable {decodeError : Bytes → Bytes} {limit : DigitLimit} {msg : EngineMsg}

/-- Every attribute is declared. -/
theorem EngineMsg.Fits.attr (h : msg.Fits) {item : String × Loaded} (hitem : item ∈ msg.attrs) :
    ∃ hint, (item.1, hint) ∈ msg.cls.fields ∧ hint.Fits item.1 item.2 := by
  have hname : item.1 ∈ msg.cls.fields.map Prod.fst := by
    rw [← msg.names]
    exact List.mem_map_of_mem hitem
  obtain ⟨⟨name, hint⟩, hfield, rfl⟩ := List.mem_map.mp hname
  obtain ⟨value, hvalue, hfits⟩ := h.2 _ hfield
  have hdistinct : (msg.attrs.map Prod.fst).Nodup := by
    rw [msg.names]
    exact DecodedFrom.nodup_fields _
  have hsame := (List.lookup_eq_some_iff_mem hdistinct).mpr hvalue
  rw [(List.lookup_eq_some_iff_mem hdistinct).mpr hitem] at hsame
  cases hsame
  exact ⟨hint, hfield, hfits⟩

/-- The tag of a frame. -/
theorem readable_tag (cls : EngineClass) :
    Readable (Json.stringText Nlohmann.hexUpper (ascii cls.tag)) ∧
      (Json.stringText Nlohmann.hexUpper (ascii cls.tag)).length ≤ 6 * maxTextLen + 2 := by
  obtain ⟨hvalid, htag⟩ := valid_words cls cls.tag List.mem_cons_self
  refine ⟨⟨Json.scalar_stringText Nlohmann.spells_hexUpper _,
    Json.valid_stringText Nlohmann.spells_hexUpper hvalid⟩, ?_⟩
  have hlength := Json.length_stringText_le Nlohmann.hexUpper (ascii cls.tag)
  omega

/-- Every member of the frame reads back and is short. -/
theorem EngineMsg.Fits.member (h : msg.Fits) : ∀ m ∈ msg.octets,
    Readable m.2 ∧ m.2.length ≤ 6 * maxTextLen + 2 := by
  refine List.forall_mem_cons.mpr ⟨readable_tag msg.cls, List.forall_mem_cons.mpr ⟨?_, ?_⟩⟩
  · rw [h.1]
    exact ⟨readable_int 1, by decide⟩
  · intro m hm
    obtain ⟨item, hitem, rfl⟩ := List.mem_map.mp hm
    obtain ⟨hint, hfield, hfits⟩ := h.attr hitem
    refine ⟨hfits.readable fun allowed hliteral s hs => ?_,
      hfits.length_le (fun cap hcap => identifierCap_le hcap) fun allowed hliteral s hs => ?_⟩
    · exact (valid_literal hfield hliteral s hs).1
    · exact (valid_literal hfield hliteral s hs).2

/-- So the frame is below its cap. -/
theorem EngineMsg.Fits.length_le (h : msg.Fits) :
    (Json.objectText msg.octets).length ≤ MAX_FRAME_BYTES := by
  have hbound := @Json.length_objectText_le msg.octets (6 * maxTextLen + 18) fun m hm => by
    have hname := (msg.plain_octets m hm).2
    have hvalue := (h.member m hm).2
    omega
  refine hbound.trans ?_
  have hcount := msg.length_octets_le
  calc (6 * maxTextLen + 18 + 4) * msg.octets.length + 2
      ≤ (6 * maxTextLen + 18 + 4) * 10 + 2 := by gcongr
    _ ≤ MAX_FRAME_BYTES := by decide

/-- The client takes it apart. -/
theorem EngineMsg.Fits.preflight (h : msg.Fits) (decodeError : Bytes → Bytes) :
    preflight decodeError (Json.objectText msg.octets) = .ok msg.octets := by
  rw [preflight_eq_ok_iff h.length_le, ← framePreflight_eq_ok_iff]
  have hplain : ∀ m ∈ msg.octets, plainKey m.1 = true := fun m hm => (msg.plain_octets m hm).1
  refine framePreflight_objectText (by simp [EngineMsg.octets]) hplain ?_ msg.nodup_octets ?_
  · exact fun m hm => (h.member m hm).1
  · exact msg.length_octets_le.trans (by decide)

/-- Its tag is read. -/
theorem readTag_octets (msg : EngineMsg) : readTag msg.octets = .ok msg.cls := by
  have hlookup : msg.octets.lookup (ascii "t") =
      some (Json.stringText Nlohmann.hexUpper (ascii msg.cls.tag)) := List.lookup_cons_self
  rw [readTag, hlookup]
  cases msg.cls <;> rfl

/-- Its version passes. -/
theorem EngineMsg.Fits.checkVersion (h : msg.Fits) : checkVersion limit msg.octets = .ok () := by
  have hlookup : msg.octets.lookup (ascii "v") = some (ascii "1") := by
    rw [List.lookup_eq_some_iff_mem msg.nodup_octets, EngineMsg.octets, h.1]
    exact List.mem_cons_of_mem _ List.mem_cons_self
  rw [Client.checkVersion, hlookup]
  rfl

/-- Its integers pass. -/
theorem EngineMsg.Fits.checkIntSpans (h : msg.Fits) :
    checkIntSpans limit msg.cls msg.octets = .ok () := by
  refine Except.forM_eq_ok_iff.mpr fun rule hrule => ?_
  obtain ⟨field, hfield, hspan⟩ := List.mem_filterMap.mp hrule
  obtain ⟨value, hvalue, hfits⟩ := h.2 field hfield
  have hlookup : msg.octets.lookup (ascii rule.name) = some value.text := by
    rw [(spanRule_cases hspan).1, List.lookup_eq_some_iff_mem msg.nodup_octets,
      EngineMsg.mem_octets hvalue]
  obtain ⟨⟨low, high⟩, hdomain, -⟩ := Option.map_eq_some_iff.mp hspan
  have hreadable := hfits.readable fun allowed hliteral s hs =>
    (valid_literal hfield hliteral s hs).1
  -- the span check is the grammar's, on the text that the encoder wrote
  rw [checkIntSpan_iff_accepts hspan (Json.Scalar.value (d := 0) hreadable.1) hlookup]
  exact hfits.accepts hdomain

/-- Both decoders let the frame through. -/
theorem EngineMsg.Fits.prepare (h : msg.Fits) :
    prepare decodeError limit (Json.objectText msg.octets) = .ok msg.cls := by
  rw [Client.prepare, h.preflight decodeError]
  change (readTag msg.octets >>= _) = _
  rw [readTag_octets]
  change (Client.checkVersion limit msg.octets >>= fun _ => _) = _
  rw [h.checkVersion]
  change (Client.checkIntSpans limit msg.cls msg.octets >>= fun _ => _) = _
  rw [h.checkIntSpans]
  rfl

/-- Its strings pass. -/
theorem EngineMsg.Fits.checkEngineStrings (h : msg.Fits) :
    checkEngineStrings msg.cls msg = .ok () := by
  refine Except.forM_eq_ok_iff.mpr fun field hfield => ?_
  obtain ⟨value, hvalue, hfits⟩ := h.2 field hfield
  have hlookup : msg.attrs.lookup field.1 = some value := by
    refine (List.lookup_eq_some_iff_mem ?_).mpr hvalue
    rw [msg.names]
    exact DecodedFrom.nodup_fields _
  obtain ⟨name, hint⟩ := field
  rw [checkEngineString, hlookup]
  cases hint with
  | str =>
    obtain ⟨t, rfl, ⟨hlength, hclean⟩, -⟩ := hfits
    -- a string within its cap and free of control octets passes both checks
    have hcap : (identifierCap name).any (t.length > ·) = false := by
      cases hcap : identifierCap name with
      | none => rfl
      | some cap =>
        rw [hcap, Option.getD_some] at hlength
        simpa using hlength
    have hcontrol : (t.any fun c => c < 0x20 || c = 0x7F) = false := by
      refine List.any_eq_false.mpr fun c hc => ?_
      simpa using hclean c hc
    dsimp only
    rw [hcap, if_neg (by decide), hcontrol, if_neg (by decide)]
  | _ => rfl

/-- The naive decoder returns the message. -/
theorem EngineMsg.Fits.decodeNaive (h : msg.Fits) :
    decodeNaive decodeError limit (Json.objectText msg.octets) = .ok msg := by
  have hprepare : Client.prepare decodeError limit (Json.objectText msg.octets) = .ok msg.cls :=
    h.prepare
  obtain ⟨spans, hprepared⟩ := isPrepared_of_prepare hprepare
  have haccept : Acceptable (Json.objectText msg.octets) msg.octets :=
    (preflight_eq_ok_iff h.length_le _).mp (h.preflight decodeError)
  obtain rfl := hprepared.accept.unique haccept
  rw [decodeNaive_eq hprepare]
  rcases readFields_cases decodeError limit hprepared with
    ⟨attrs, hread, -, hitems⟩ | ⟨-, field, hfield, hnot⟩
  -- either all fields are read, and each as it was written, or one is not admitted
  · have hsame : attrs.val = msg.attrs := by
      refine List.eq_of_forall_mem (f := valueAt msg.octets)
        (attrs.property.trans msg.names.symm) ?_ ?_
      · intro item hitem
        obtain ⟨span, hspan, hvalue⟩ := hitems item hitem
        rw [valueAt_eq msg.nodup_octets hspan, hvalue]
      · intro item hitem
        obtain ⟨hint, -, hfits⟩ := h.attr hitem
        rw [valueAt_eq msg.nodup_octets ((EngineMsg.mem_octets hitem).mpr rfl), hfits.ofVal_text]
    have hmsg : ({ cls := msg.cls, v := 1, attrs := attrs.val
                   names := attrs.property } : EngineMsg) =
        msg := EngineMsg.ext rfl h.1.symm hsame
    rw [hread]
    change (Client.checkEngineStrings msg.cls
      { cls := msg.cls, v := 1, attrs := attrs.val, names := attrs.property } >>= fun _ => _) = _
    rw [hmsg, h.checkEngineStrings]
    rfl
  · obtain ⟨value, hvalue, hfits⟩ := h.2 field hfield
    exact absurd hfits.admits (hnot _ ((EngineMsg.mem_octets hvalue).mpr rfl))

end Accepted

/-! ## The round trip -/

/-- A message in the domains of the wire is decoded by either codec as the object of its fields. -/
theorem decode_encode_eq {platform : Platform} (hplatform : platform.Documented) {codec : Codec}
    (hcodec : platform.IsArm codec) {m : OutMsg} (h : FitsOutMsg m) :
    codec.decode (Nlohmann.encode m) = .ok (EngineMsg.ofOutMsg m) := by
  have hfits := fits_ofOutMsg h
  have hnaive : decodeNaive platform.decodeError platform.limit (Nlohmann.encode m) =
      .ok (EngineMsg.ofOutMsg m) := by
    rw [Nlohmann.encode_eq, members_eq]
    exact hfits.decodeNaive
  -- the tuned codec agrees with the naive one
  rcases hcodec with rfl | rfl
  · rcases decode_agrees hplatform.typed (Nlohmann.encode m) with
      ⟨msg, htuned, hnaive'⟩ | ⟨text, -, hnaive'⟩
    · rw [hnaive] at hnaive'
      cases hnaive'
      exact htuned
    · rw [hnaive] at hnaive'
      cases hnaive'
  · exact hnaive

/-- What fits is decoded to what was encoded, with both codecs. -/
theorem decode_encode {platform : Platform} (hplatform : platform.Documented) {codec : Codec}
    (hcodec : platform.IsArm codec) {m : OutMsg} (h : FitsOutMsg m) :
    ∃ msg, codec.decode (Nlohmann.encode m) = .ok msg ∧ msg.toOutMsg = m :=
  ⟨_, decode_encode_eq hplatform hcodec h, EngineMsg.toOutMsg_ofOutMsg m⟩

/-- Both codecs of the client read a message of the engine back from its frame, as the same object;
so the frames of two messages differ. -/
theorem encode_readsBack (platform : Platform) (hplatform : platform.Documented) (m m' : OutMsg)
    (h : FitsOutMsg m) (h' : FitsOutMsg m') :
    (∃ msg, platform.tuned.decode (Nlohmann.encode m) = .ok msg ∧
        platform.naive.decode (Nlohmann.encode m) = .ok msg ∧ msg.toOutMsg = m) ∧
      (Nlohmann.encode m = Nlohmann.encode m' ↔ m = m') := by
  have htuned : platform.IsArm platform.tuned := Or.inl rfl
  refine ⟨⟨_, decode_encode_eq hplatform htuned h, decode_encode_eq hplatform (Or.inr rfl) h,
    EngineMsg.toOutMsg_ofOutMsg m⟩, fun hsame => ?_, congrArg _⟩
  have hread := decode_encode_eq hplatform htuned h
  rw [hsame, decode_encode_eq hplatform htuned h'] at hread
  rw [← EngineMsg.toOutMsg_ofOutMsg m, ← Except.ok.inj hread, EngineMsg.toOutMsg_ofOutMsg]

/-- A reject whose reason holds a quote and a letter that is no ASCII. -/
def quotedReject : OutMsg :=
  .reject { seq := 2, epoch := 1, clId := [], code := [0x58], reason := [0x61, 0x22, 0xC3, 0xA9] }

theorem fits_quotedReject : FitsOutMsg quotedReject where
  counters := by decide
  svcNs _ hack := by cases hack
  fields :=
    have hplain : ∀ c ∈ ([0x58, 0x61, 0x22, 0xC3, 0xA9] : Bytes), 0x20 ≤ c ∧ c ≠ 0x7F :=
      List.forall_iff_forall_mem.mp (by decide)
    { v := rfl
      clId := ⟨⟨by decide, fun c hc => absurd hc List.not_mem_nil⟩, Utf8.valid_nil⟩
      code := ⟨⟨by decide, fun c hc => hplain c
        (List.mem_cons.mpr (.inl (List.mem_singleton.mp hc)))⟩,
        ⟨['X'], by decide⟩⟩
      reason := ⟨⟨by decide, fun c hc => hplain c (List.mem_cons_of_mem _ hc)⟩,
        ⟨['a', '"', 'é'], by decide +kernel⟩⟩ }

theorem encode_readsBack_quotedReject : ∃ msg, Platform.plain.tuned.decode
      (ascii "\x7b\"t\":\"reject\",\"v\":1,\"seq\":2,\"epoch\":1,\"cl_id\":\"\"," ++
        ascii "\"code\":\"X\",\"reason\":\"a\\\"" ++ [0xC3, 0xA9] ++ ascii "\"\x7d") =
          .ok msg ∧ msg.toOutMsg = quotedReject := by
  have hframe : Nlohmann.encode quotedReject =
      ascii "\x7b\"t\":\"reject\",\"v\":1,\"seq\":2,\"epoch\":1,\"cl_id\":\"\"," ++
        ascii "\"code\":\"X\",\"reason\":\"a\\\"" ++ [0xC3, 0xA9] ++ ascii "\"\x7d" := by
    decide +kernel
  obtain ⟨⟨msg, htuned, -, hmsg⟩, -⟩ :=
    encode_readsBack .plain Platform.documented_plain quotedReject
    quotedReject fits_quotedReject fits_quotedReject
  exact ⟨msg, hframe ▸ htuned, hmsg⟩

end Client

end MarketMaker
