import Mathlib.Tactic.IntervalCases
import MarketMaker.Client.Rules

/-!
# The encoders of the client

`encode` and `encode_naive` of `mmclient/protocol.py`. The serializers of `msgspec` and of `json`
are parameters (`Serializers`). What the encoders rely on is `Serializers.Minimal`: both write a
message whose members hold strings, booleans and numbers of 64 bits as a JSON object without blanks,
in the order of the members, with no more escapes than the grammar asks for.

The frame of a message that passes the checks is then the same for both (`frame_of_fits`).
-/

namespace MarketMaker

namespace Client

/-! ## Minimal JSON -/

/-- The hexadecimal digits of both serializers. -/
def hexLower (n : ℕ) : UInt8 := if n < 10 then (0x30 + n).toUInt8 else (0x61 + n - 10).toUInt8

/-- An ASCII text as a `str`. -/
def Str.ofAscii (t : Bytes) : Str := t.map fun c => Fin.ofNat 0x110000 c.toNat

/-- A code point of a string: escaped if the grammar asks for it, raw if it does not. -/
def minimalChar (c : Fin 0x110000) : Str :=
  if c.val < 0x80 then Str.ofAscii (Json.escape hexLower c.val.toUInt8).render else [c]

/-- A string between its quotes. -/
def minimalStr (s : Str) : Str :=
  Str.ofAscii [0x22] ++ (s.flatMap minimalChar ++ Str.ofAscii [0x22])

/-- The text of an object that both serializers write. -/
def PyObject.minimal : PyObject → Option Str
  | .int z => if -2 ^ 63 ≤ z ∧ z < 2 ^ 64 then some (Str.ofAscii (Json.intText z)) else none
  | .bool b => some (Str.ofAscii (Json.boolText b))
  | .str s => if s.any Str.isSurrogate then none else some (minimalStr s)
  | .other => none

/-- One member of a JSON object. -/
def minimalMember (name : String) (text : Str) : Str :=
  minimalStr (Str.ofString name) ++ (Str.ofAscii [0x3A] ++ text)

/-- Members with a comma between them. -/
def joinMembers : List Str → Str
  | [] => []
  | [m] => m
  | m :: m' :: ms => m ++ (Str.ofAscii [0x2C] ++ joinMembers (m' :: ms))

/-- The text of a `dict`. -/
def minimalObject (payload : List (String × PyObject)) : Option Str :=
  (payload.mapM fun item : String × PyObject => item.2.minimal.map (minimalMember item.1)).map
    fun ms => Str.ofAscii [0x7B] ++ (joinMembers ms ++ Str.ofAscii [0x7D])

/-! ## The encoders -/

/-- The tag of a message and its members, as a `dict`. -/
def payload (tag : String) (members : List Member) : List (String × PyObject) :=
  ("t", .str (Str.ofString tag)) :: members.map fun m => (m.name, m.value)

/-- The serializers. -/
structure Serializers where
  /-- `msgspec.json.Encoder().encode`. -/
  msgspec : ClientMsg → Except EncodeRaise Bytes
  /-- `json.dumps` of a `dict`, with `separators=(",", ":")` and `ensure_ascii=False`. -/
  dumps : List (String × PyObject) → Except EncodeRaise Str

/-- Both serializers write minimal JSON: `msgspec` its UTF-8, with the tag as the first member. -/
structure Serializers.Minimal (lib : Serializers) : Prop where
  msgspec : ∀ msg tag members text frame, msg.schema = .ok (tag, members) →
    minimalObject (payload tag members) = some text → text.encode = some frame →
    lib.msgspec msg = .ok frame
  dumps : ∀ items text, minimalObject items = some text → lib.dumps items = .ok text

/-- Serializers that write minimal JSON and refuse the rest. -/
def Serializers.plain : Serializers where
  msgspec msg := do
    let (tag, members) ← msg.schema
    match (minimalObject (payload tag members)).bind Str.encode with
    | some frame => .ok frame
    | none => .error .library
  dumps items :=
    match minimalObject items with
    | some text => .ok text
    | none => .error .library

theorem Serializers.minimal_plain : Serializers.plain.Minimal where
  msgspec msg tag members text frame hschema htext hframe := by
    dsimp only [plain, bind, Except.bind]
    rw [hschema]
    dsimp only
    rw [htext, Option.bind_some, hframe]
  dumps items text htext := by
    dsimp only [plain]
    rw [htext]

section Code

variable (lib : Serializers)

/-- `encode`. -/
def encode (msg : ClientMsg) : Except EncodeRaise Bytes := do
  checkClientMessage msg
  lib.msgspec msg

/-- `encode_naive`. -/
def encodeNaive (msg : ClientMsg) : Except EncodeRaise Bytes := do
  checkClientMessage msg
  let (tag, members) ← msg.schema
  let text ← lib.dumps (payload tag members)
  match text.encode with
  | some frame => .ok frame
  | none => .error .unicodeEncodeError

end Code

/-! ## The frame -/

theorem spells_hexLower : Json.Spells hexLower := by
  intro n hn
  interval_cases n <;> rfl

theorem Str.encode_ofAscii {t : Bytes} (h : ∀ c ∈ t, c < 0x80) :
    (Str.ofAscii t).encode = some t := by
  induction t with
  | nil => rfl
  | cons c t ih =>
    have hc := UInt8.lt_iff_toNat_lt.mp (h c List.mem_cons_self)
    change c.toNat < 128 at hc
    have hval : (Fin.ofNat 0x110000 c.toNat).val = c.toNat := Nat.mod_eq_of_lt (by omega)
    have hnot : Str.isSurrogate (Fin.ofNat 0x110000 c.toNat) = false := by
      rw [Str.isSurrogate, hval, Bool.and_eq_false_iff, decide_eq_false_iff_not]
      exact Or.inl (by omega)
    have hrest := ih fun d hd => h d (List.mem_cons_of_mem c hd)
    have hone : Json.codePoint c.toNat = [c] := by
      rw [Json.codePoint_of_lt hc]
      simp
    have happend := Str.encode_append (Str.encode_singleton hnot) hrest
    rw [hval, hone] at happend
    exact happend

/-- A string is written with its UTF-8 escaped, octet by octet. -/
theorem encode_flatMap_minimalChar {s : Str} {t : Bytes} (h : s.encode = some t) :
    Str.encode (s.flatMap minimalChar) =
      some ((t.map (Json.escape hexLower)).flatMap Json.Piece.render) := by
  induction s generalizing t with
  | nil =>
    cases h
    rfl
  | cons c s ih =>
    rw [Str.encode] at h
    split_ifs at h with hc
    obtain ⟨u, hu, rfl⟩ := Option.map_eq_some_iff.mp h
    rw [List.flatMap_cons, List.map_append, List.flatMap_append]
    refine Str.encode_append ?_ (ih hu)
    rw [minimalChar]
    split_ifs with hascii
    · rw [Json.codePoint_of_lt hascii, List.map_singleton, List.flatMap_singleton]
      refine Str.encode_ofAscii ?_
      rcases Json.render_escape spells_hexLower c.val.toUInt8 with hrender | ⟨hnot, -⟩
      · exact hrender
      · refine absurd ?_ hnot
        rw [UInt8.lt_iff_toNat_lt, Nat.toUInt8_eq, UInt8.toNat_ofNat', Nat.mod_eq_of_lt (by omega)]
        exact hascii
    · have hc := Bool.not_eq_true _ |>.mp hc
      rw [Json.flatMap_render_of_ge
        (Json.codePoint_ge (Nat.not_lt.mp hascii) (isValidChar_of_not_surrogate hc))]
      exact Str.encode_singleton hc

/-! ## What fits is written -/

/-- The minimal text of an object, as octets. -/
def Spelled (value : PyObject) (t : Bytes) : Prop :=
  ∃ text, value.minimal = some text ∧ text.encode = some t

theorem spelled_int {z : ℤ} (hlow : -2 ^ 63 ≤ z) (hhigh : z < 2 ^ 64) :
    Spelled (.int z) (Json.intText z) :=
  ⟨_, if_pos ⟨hlow, hhigh⟩, Str.encode_ofAscii (Json.ascii_intText z)⟩

theorem spelled_bool (b : Bool) : Spelled (.bool b) (Json.boolText b) :=
  ⟨_, rfl, Str.encode_ofAscii (Json.ascii_boolText b)⟩

theorem encode_minimalStr {s : Str} {t : Bytes} (h : s.encode = some t) :
    (minimalStr s).encode = some (Json.stringText hexLower t) := by
  have hquote : (Str.ofAscii [0x22]).encode = some [0x22] := Str.encode_ofAscii (by simp)
  exact Str.encode_append hquote (Str.encode_append (encode_flatMap_minimalChar h) hquote)

theorem spelled_str {s : Str} {t : Bytes} (h : s.encode = some t) :
    Spelled (.str s) (Json.stringText hexLower t) := by
  refine ⟨minimalStr s, if_neg ?_, encode_minimalStr h⟩
  rw [← Str.encode_eq_none_iff, h]
  exact fun hnone => by contradiction

/-- A member of the frame. -/
def SpelledMember (m : String × PyObject) (member : Bytes × Bytes) : Prop :=
  ∃ name, (Str.ofString m.1).encode = some name ∧
    member.1 = (name.map (Json.escape hexLower)).flatMap Json.Piece.render ∧ Spelled m.2 member.2

theorem encode_minimalMember {name : String} {text : Str} {key t : Bytes}
    (hkey : (Str.ofString name).encode = some key) (ht : text.encode = some t) :
    (minimalMember name text).encode =
      some (Json.memberText ((key.map (Json.escape hexLower)).flatMap Json.Piece.render, t)) := by
  have hcolon : (Str.ofAscii [0x3A]).encode = some [0x3A] := Str.encode_ofAscii (by simp)
  have happend := Str.encode_append (encode_minimalStr hkey) (Str.encode_append hcolon ht)
  rw [minimalMember, happend, Json.stringText, Json.memberText]
  simp

theorem encode_joinMembers {texts : List Str} {members : List (Bytes × Bytes)}
    (h : List.Forall₂ (fun text member => Str.encode text = some (Json.memberText member)) texts
      members) :
    (joinMembers texts).encode = some (Json.membersText members) := by
  have hcomma : (Str.ofAscii [0x2C]).encode = some [0x2C] := Str.encode_ofAscii (by simp)
  induction h with
  | nil => rfl
  | @cons text member texts members hfirst hrest ih =>
    cases hrest with
    | nil => exact hfirst
    | cons h' hrest => exact Str.encode_append hfirst (Str.encode_append hcomma ih)

/-- Both serializers write the same octets. -/
theorem encode_minimalObject {items : List (String × PyObject)} {members : List (Bytes × Bytes)}
    (h : List.Forall₂ SpelledMember items members) :
    ∃ text, minimalObject items = some text ∧
      text.encode = some (Json.objectText members) := by
  have htexts : ∃ texts,
      (items.mapM fun item : String × PyObject => item.2.minimal.map (minimalMember item.1)) =
        some texts ∧
      List.Forall₂ (fun text member => Str.encode text = some (Json.memberText member)) texts
        members := by
    induction h with
    | nil => exact ⟨[], rfl, .nil⟩
    | @cons item member items members hmember _ ih =>
      obtain ⟨texts, hmap, hall⟩ := ih
      obtain ⟨key, hkey, hname, text, htext, hencode⟩ := hmember
      refine ⟨minimalMember item.1 text :: texts, ?_, .cons ?_ hall⟩
      · rw [List.mapM_cons, htext, hmap]
        rfl
      · rw [encode_minimalMember hkey hencode, ← hname]
  obtain ⟨texts, hmap, hall⟩ := htexts
  have hopen : (Str.ofAscii [0x7B]).encode = some [0x7B] := Str.encode_ofAscii (by simp)
  have hclose : (Str.ofAscii [0x7D]).encode = some [0x7D] := Str.encode_ofAscii (by simp)
  refine ⟨_, by rw [minimalObject, hmap]; rfl, ?_⟩
  exact Str.encode_append hopen (Str.encode_append (encode_joinMembers hall) hclose)

/-- A message that passes the checks is written by both encoders, as the same frame. -/
theorem encode_eq_encodeNaive {lib : Serializers} (hlib : lib.Minimal) {msg : ClientMsg}
    {tag : String} {members : List Member} {octets : List (Bytes × Bytes)}
    (hschema : msg.schema = .ok (tag, members))
    (hspelled : List.Forall₂ SpelledMember (payload tag members) octets)
    (hcheck : checkClientMessage msg = .ok ()) :
    encode lib msg = .ok (Json.objectText octets) ∧
      encodeNaive lib msg = .ok (Json.objectText octets) := by
  obtain ⟨text, htext, hencode⟩ := encode_minimalObject hspelled
  constructor
  · rw [encode, hcheck]
    exact hlib.msgspec msg tag members text _ hschema htext hencode
  · have hdumps := hlib.dumps (payload tag members) text htext
    rw [encodeNaive, hcheck, hschema]
    dsimp only [bind, Except.bind]
    rw [hdumps]
    dsimp only
    rw [hencode]

end Client

end MarketMaker
