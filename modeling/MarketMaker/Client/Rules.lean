import Mathlib.Data.Nat.Size
import MarketMaker.Codec.Inbound
import MarketMaker.Lib.Json.Writer

/-!
# The rules for what the client sends

`mmclient/_rules.py`, as far as the encoders use it: the three passes over the members of a message,
each derived from the types the members are declared with. Together they let through what fits its
declared type on the wire (`Member.Fits`) and nothing else.

A field may hold any object. A `str` is its code points here, since a `str` that is built in Python
may hold a surrogate and then has no UTF-8. -/

namespace MarketMaker

namespace Client

/-! ## Objects -/

/-- A `str`. -/
abbrev Str := List (Fin 0x110000)

instance neZeroCodePoints : NeZero 0x110000 := ⟨by decide⟩

namespace Str

/-- A literal of the source. -/
def ofString (s : String) : Str := s.toList.map fun c => Fin.ofNat 0x110000 c.toNat

def isSurrogate (c : Fin 0x110000) : Bool := 0xD800 ≤ c.val && c.val ≤ 0xDFFF

/-- `str.encode`, with `none` for its `UnicodeEncodeError`. -/
def encode : Str → Option Bytes
  | [] => some []
  | c :: s =>
    if isSurrogate c then none
    else (encode s).map fun t => Json.codePoint c.val ++ t

/-- `str.isascii`. -/
def isascii (s : Str) : Bool := s.all fun c => c.val < 0x80

end Str

/-- An object, as far as the checks tell objects apart: they ask for exact types. -/
inductive PyObject
  | int (z : ℤ)
  | bool (b : Bool)
  | str (s : Str)
  /-- An object of another type, be it a subclass of these. -/
  | other
  deriving DecidableEq, Repr

/-- An exception that leaves an encoder. -/
inductive EncodeRaise
  | valueError (text : Bytes)
  | typeError (text : Bytes)
  /-- The `ValueError` of `str.encode`. -/
  | unicodeEncodeError
  /-- Anything that a library raises. -/
  | library
  deriving DecidableEq, Repr

/-- `raise ValueError(text)`. -/
def EncodeRaise.value (text : String) : EncodeRaise := .valueError (ascii text)

/-! ## Messages -/

/-- The declared type of a member. -/
inductive Hint
  /-- `Literal[1]`. -/
  | version
  | uint64
  | int64
  | str
  | bool
  deriving DecidableEq, Repr

/-- A member of a message, with its declared type and the object it holds. -/
structure Member where
  name : String
  hint : Hint
  value : PyObject
  deriving DecidableEq, Repr

/-- `protocol.NewOrder`. -/
structure NewOrder where
  v : PyObject
  seq : PyObject
  epoch : PyObject
  mdSeq : PyObject
  clId : PyObject
  symbol : PyObject
  side : PyObject
  px : PyObject
  qty : PyObject
  postOnly : PyObject := .bool true
  deriving DecidableEq, Repr

/-- `protocol.CancelOrder`. -/
structure CancelOrder where
  v : PyObject
  seq : PyObject
  epoch : PyObject
  clId : PyObject
  deriving DecidableEq, Repr

/-- The members, in the order of their declaration. -/
def NewOrder.members (m : NewOrder) : List Member :=
  [⟨"v", .version, m.v⟩, ⟨"seq", .uint64, m.seq⟩, ⟨"epoch", .uint64, m.epoch⟩,
    ⟨"md_seq", .uint64, m.mdSeq⟩, ⟨"cl_id", .str, m.clId⟩, ⟨"symbol", .str, m.symbol⟩,
    ⟨"side", .str, m.side⟩, ⟨"px", .int64, m.px⟩, ⟨"qty", .int64, m.qty⟩,
    ⟨"post_only", .bool, m.postOnly⟩]

def CancelOrder.members (m : CancelOrder) : List Member :=
  [⟨"v", .version, m.v⟩, ⟨"seq", .uint64, m.seq⟩, ⟨"epoch", .uint64, m.epoch⟩,
    ⟨"cl_id", .str, m.clId⟩]

/-- What an encoder may be handed. -/
inductive ClientMsg
  | newOrder (m : NewOrder)
  | cancelOrder (m : CancelOrder)
  /-- A `Struct` of another type, be it a subclass of these. -/
  | foreign (typeName : Bytes)
  deriving DecidableEq, Repr

/-- What the registry of the rules has for the type of a message: its tag, and its members. -/
def ClientMsg.schema : ClientMsg → Except EncodeRaise (String × List Member)
  | newOrder m => .ok ("new_order", m.members)
  | cancelOrder m => .ok ("cancel_order", m.members)
  | foreign name =>
    .error (.typeError (name ++ ascii " is not a client message this codec encodes"))

/-! ## One member -/

/-- `_as_int`. -/
def asInt (tag name : String) : PyObject → Except EncodeRaise ℤ
  | .int z => .ok z
  | _ => .error (.value ("malformed: " ++ tag ++ "." ++ name ++ " is not an integer"))

/-- `_as_str`. -/
def asStr (tag name : String) : PyObject → Except EncodeRaise Str
  | .str s => .ok s
  | _ => .error (.value ("malformed: " ++ tag ++ "." ++ name ++ " is not a string"))

/-- `_as_bool`. -/
def asBool (tag name : String) : PyObject → Except EncodeRaise Bool
  | .bool b => .ok b
  | _ => .error (.value ("malformed: " ++ tag ++ "." ++ name ++ " is not a boolean"))

/-- The rejection of a number out of its domain. -/
def outsideDomain (tag name : String) : EncodeRaise :=
  .value ("malformed: " ++ tag ++ "." ++ name ++ " outside its wire integer domain")

/-- `_as_version`. -/
def asVersion (tag name : String) (value : PyObject) : Except EncodeRaise ℤ := do
  let version ← asInt tag name value
  -- the width of a number settles its domain, so that no oversized one is rendered
  if version < 0 ∨ version.natAbs.size > 64 then .error (outsideDomain tag name)
  else if version ≠ 1 then
    .error (.valueError (ascii "unsupported version: v=" ++ Json.intText version))
  else .ok version

/-- `_DOMAINS`. -/
def Hint.domain : Hint → Option (ℤ × ℤ)
  | .uint64 => some (0, 2 ^ 64 - 1)
  | .int64 => some (-2 ^ 63, 2 ^ 63 - 1)
  | _ => none

/-- `_IDENTIFIER_CAPS`. -/
def identifierCap : String → Option ℕ
  | "cl_id" => some 64
  | "symbol" => some 32
  | "side" => some 8
  | _ => none

/-- `_CONTROL_CHARS`. -/
def isControl (c : Fin 0x110000) : Bool := c.val ≤ 0x1F || c.val = 0x7F

/-- The size of an identifier in bytes, as `_check_identifiers` measures it. -/
def identifierSize (tag name : String) (value : Str) : Except EncodeRaise ℕ :=
  if value.isascii then .ok value.length
  else if value.any Str.isSurrogate then
    .error (.value ("malformed: unpaired surrogate in " ++ tag ++ "." ++ name))
  else
    match value.encode with
    | some t => .ok t.length
    | none => .error .unicodeEncodeError

/-! ## The passes -/

/-- `_check_wire_types`, at one member. -/
def checkWireType (tag : String) (m : Member) : Except EncodeRaise Unit :=
  match m.hint with
  | .bool => (asBool tag m.name m.value).map fun _ => ()
  | .version => (asVersion tag m.name m.value).map fun _ => ()
  | _ => .ok ()

/-- `_check_domains`, at one member. -/
def checkDomain (tag : String) (m : Member) : Except EncodeRaise Unit :=
  match m.hint.domain with
  | some (low, high) => do
    let value ← asInt tag m.name m.value
    if low ≤ value ∧ value ≤ high then .ok () else .error (outsideDomain tag m.name)
  | none => .ok ()

/-- `_check_identifiers`, at one member. A member of type `str` without a cap stops the import. -/
def checkIdentifier (tag : String) (m : Member) : Except EncodeRaise Unit :=
  if m.hint = .str then
    match identifierCap m.name with
    | none => .error (.typeError (ascii ("no identifier cap for " ++ tag ++ "." ++ m.name)))
    | some cap => do
      let value ← asStr tag m.name m.value
      let size ← identifierSize tag m.name value
      if size > cap then
        .error (.value ("malformed: " ++ tag ++ "." ++ m.name ++ " exceeds the length cap"))
      else if value.any isControl then
        .error (.value ("malformed: control byte in " ++ tag ++ "." ++ m.name))
      else .ok ()
  else .ok ()

/-- `_check_client_message`. -/
def checkClientMessage (msg : ClientMsg) : Except EncodeRaise Unit := do
  let (tag, members) ← msg.schema
  members.forM (checkWireType tag)
  members.forM (checkDomain tag)
  members.forM (checkIdentifier tag)

/-! ## Encoded strings -/

namespace Str

theorem encode_append {s s' : Str} {t t' : Bytes} (h : s.encode = some t)
    (h' : s'.encode = some t') : (s ++ s').encode = some (t ++ t') := by
  induction s generalizing t with
  | nil =>
    cases h
    exact h'
  | cons c s ih =>
    rw [encode] at h
    split_ifs at h with hc
    obtain ⟨u, hu, rfl⟩ := Option.map_eq_some_iff.mp h
    rw [List.cons_append, encode, if_neg hc, ih hu, Option.map_some, List.append_assoc]

/-- One code point. -/
theorem encode_singleton {c : Fin 0x110000} (hc : isSurrogate c = false) :
    encode [c] = some (Json.codePoint c.val) := by
  rw [encode, hc, if_neg (by decide), encode, Option.map_some, List.append_nil]

theorem encode_eq_none_iff {s : Str} : s.encode = none ↔ s.any isSurrogate = true := by
  induction s with
  | nil => simp [encode]
  | cons c s ih =>
    rw [encode, List.any_cons, Bool.or_eq_true]
    split_ifs with hc
    · simp [hc]
    · rw [Option.map_eq_none_iff, ih]
      simp [hc]

theorem valid_encode {s : Str} {t : Bytes} (h : s.encode = some t) : Utf8.Valid t := by
  induction s generalizing t with
  | nil =>
    cases h
    exact Utf8.valid_nil
  | cons c s ih =>
    rw [encode] at h
    split_ifs at h
    obtain ⟨u, hu, rfl⟩ := Option.map_eq_some_iff.mp h
    exact (Json.valid_codePoint_append c.val).mpr (ih hu)

/-- An ASCII string has a byte for each code point. -/
theorem length_encode_of_isascii {s : Str} (hascii : s.isascii = true) :
    ∃ t, s.encode = some t ∧ t.length = s.length := by
  induction s with
  | nil => exact ⟨[], rfl, rfl⟩
  | cons c s ih =>
    rw [isascii, List.all_cons, Bool.and_eq_true, decide_eq_true_eq] at hascii
    obtain ⟨t, ht, hlength⟩ := ih hascii.2
    have hc : isSurrogate c = false := by
      rw [isSurrogate, Bool.and_eq_false_iff, decide_eq_false_iff_not]
      exact Or.inl (by omega)
    refine ⟨[c.val.toUInt8] ++ t, ?_, by simp [hlength]⟩
    rw [encode, hc, if_neg (by decide), ht, Option.map_some, Json.codePoint_of_lt hascii.1]

end Str

/-- A control byte. -/
def IsControlByte (d : UInt8) : Prop := d < 0x20 ∨ d = 0x7F

theorem isValidChar_of_not_surrogate {c : Fin 0x110000} (hc : Str.isSurrogate c = false) :
    c.val.isValidChar := by
  have hlt := c.isLt
  rw [Str.isSurrogate, Bool.and_eq_false_iff, decide_eq_false_iff_not, decide_eq_false_iff_not]
    at hc
  unfold Nat.isValidChar
  omega

/-- The code points that the client looks for are the bytes that the engine looks for. -/
theorem exists_control_codePoint {c : Fin 0x110000} (hc : Str.isSurrogate c = false) :
    (∃ d ∈ Json.codePoint c.val, IsControlByte d) ↔ isControl c = true := by
  rw [isControl, Bool.or_eq_true, decide_eq_true_eq, decide_eq_true_eq]
  by_cases hascii : c.val < 0x80
  · have hnat : c.val.toUInt8.toNat = c.val := by
      rw [Nat.toUInt8_eq, UInt8.toNat_ofNat']
      omega
    simp only [Json.codePoint_of_lt hascii, List.mem_singleton, exists_eq_left]
    rw [IsControlByte, UInt8.lt_iff_toNat_lt, ← UInt8.toNat_inj, hnat]
    change c.val < 32 ∨ c.val = 127 ↔ _
    omega
  · have hge := Json.codePoint_ge (Nat.not_lt.mp hascii) (isValidChar_of_not_surrogate hc)
    refine iff_of_false ?_ (by omega)
    rintro ⟨d, hd, hlt | rfl⟩
    · exact absurd (UInt8.lt_trans hlt (by decide)) (UInt8.not_lt.mpr (hge d hd))
    · exact absurd (hge _ hd) (by decide)

theorem exists_control_encode {s : Str} {t : Bytes} (h : s.encode = some t) :
    (∃ d ∈ t, IsControlByte d) ↔ s.any isControl = true := by
  induction s generalizing t with
  | nil =>
    cases h
    simp
  | cons c s ih =>
    rw [Str.encode] at h
    split_ifs at h with hc
    obtain ⟨u, hu, rfl⟩ := Option.map_eq_some_iff.mp h
    rw [List.any_cons, Bool.or_eq_true, ← ih hu,
      ← exists_control_codePoint (Bool.not_eq_true _ |>.mp hc)]
    simp only [List.mem_append, or_and_right, exists_or]

/-! ## What passes -/

/-- An object that a member of its declared type can hold on the wire. -/
def Member.Fits (m : Member) : Prop :=
  match m.hint with
  | .version => m.value = .int 1
  | .uint64 => ∃ n : ℕ, m.value = .int n ∧ n < 2 ^ 64
  | .int64 => ∃ z, m.value = .int z ∧ InInt64 z
  | .str => ∃ cap s t, identifierCap m.name = some cap ∧ m.value = .str s ∧ s.encode = some t ∧
      IsIdentifier cap t
  | .bool => ∃ b, m.value = .bool b

theorem asInt_eq_ok_iff {tag name : String} {value : PyObject} {z : ℤ} :
    asInt tag name value = .ok z ↔ value = .int z := by
  cases value <;> simp [asInt]

theorem asVersion_eq_ok_iff {tag name : String} {value : PyObject} {z : ℤ} :
    asVersion tag name value = .ok z ↔ value = .int 1 ∧ z = 1 := by
  constructor
  · intro h
    obtain ⟨version, hint, h⟩ := Except.bind_eq_ok_iff.mp h
    rw [asInt_eq_ok_iff.mp hint]
    split_ifs at h with hwidth hone
    cases h
    exact ⟨congrArg _ (not_ne_iff.mp hone), not_ne_iff.mp hone⟩
  · rintro ⟨rfl, rfl⟩
    rfl

theorem asBool_eq_ok_iff {tag name : String} {value : PyObject} {b : Bool} :
    asBool tag name value = .ok b ↔ value = .bool b := by
  cases value <;> simp [asBool]

theorem asStr_eq_ok_iff {tag name : String} {value : PyObject} {s : Str} :
    asStr tag name value = .ok s ↔ value = .str s := by
  cases value <;> simp [asStr]

/-- An identifier is measured in the bytes of its UTF-8. -/
theorem identifierSize_eq_ok_iff {tag name : String} {s : Str} {n : ℕ} :
    identifierSize tag name s = .ok n ↔ ∃ t, s.encode = some t ∧ t.length = n := by
  unfold identifierSize
  split_ifs with hascii hsurrogate
  · obtain ⟨t, ht, hlength⟩ := Str.length_encode_of_isascii hascii
    simp [ht, hlength]
  · simp [Str.encode_eq_none_iff.mpr hsurrogate]
  · cases hencode : s.encode with
    | none => exact absurd (Str.encode_eq_none_iff.mp hencode) hsurrogate
    | some t => simp

theorem checkWireType_eq_ok_iff {tag : String} {m : Member} :
    checkWireType tag m = .ok () ↔
      (m.hint = .version → m.value = .int 1) ∧ (m.hint = .bool → ∃ b, m.value = .bool b) := by
  rw [checkWireType]
  cases hhint : m.hint with
  | version => simp [Except.map_eq_ok_iff, asVersion_eq_ok_iff]
  | bool => simp [Except.map_eq_ok_iff, asBool_eq_ok_iff]
  | uint64 => simp
  | int64 => simp
  | str => simp

theorem checkDomain_eq_ok_iff {tag : String} {m : Member} :
    checkDomain tag m = .ok () ↔
      ∀ domain, m.hint.domain = some domain →
        ∃ z, m.value = .int z ∧ domain.1 ≤ z ∧ z ≤ domain.2 := by
  rw [checkDomain]
  cases hdomain : m.hint.domain with
  | none => simp
  | some domain =>
    dsimp only
    rw [Except.bind_eq_ok_iff]
    simp only [asInt_eq_ok_iff, Option.some.injEq, forall_eq']
    refine exists_congr fun z => and_congr_right fun _ => ?_
    split_ifs with hrange
    · exact iff_of_true rfl hrange
    · exact iff_of_false (fun h => by contradiction) hrange

/-- The engine lets the same strings through. -/
theorem isIdentifier_iff {s : Str} {t : Bytes} (h : s.encode = some t) (cap : ℕ) :
    IsIdentifier cap t ↔ ¬t.length > cap ∧ ¬s.any isControl = true := by
  rw [← exists_control_encode h, IsIdentifier, not_lt]
  refine and_congr_right fun _ => ?_
  simp only [IsControlByte, not_exists, not_and, not_or, UInt8.not_lt, ne_eq]

theorem checkIdentifier_eq_ok_iff {tag : String} {m : Member} :
    checkIdentifier tag m = .ok () ↔
      (m.hint = .str → ∃ cap s t, identifierCap m.name = some cap ∧ m.value = .str s ∧
        s.encode = some t ∧ IsIdentifier cap t) := by
  rw [checkIdentifier]
  by_cases hhint : m.hint = .str
  · rw [if_pos hhint, imp_iff_right hhint]
    cases hcap : identifierCap m.name with
    | none => simp
    | some cap =>
      dsimp only
      simp only [Except.bind_eq_ok_iff, asStr_eq_ok_iff, identifierSize_eq_ok_iff]
      constructor
      · rintro ⟨s, hs, n, ⟨t, ht, rfl⟩, h⟩
        refine ⟨cap, s, t, rfl, hs, ht, (isIdentifier_iff ht cap).mpr ?_⟩
        split_ifs at h with hlength hcontrol
        exact ⟨hlength, hcontrol⟩
      · rintro ⟨cap', s, t, hcap', hs, ht, hident⟩
        cases hcap'
        obtain ⟨hlength, hcontrol⟩ := (isIdentifier_iff ht cap).mp hident
        refine ⟨s, hs, t.length, ⟨t, ht, rfl⟩, ?_⟩
        rw [if_neg hlength, if_neg hcontrol]
  · simp [hhint]

/-- The three passes together let through what fits. -/
theorem checks_eq_ok_iff {tag : String} {m : Member} :
    (checkWireType tag m = .ok () ∧ checkDomain tag m = .ok () ∧ checkIdentifier tag m = .ok ()) ↔
      m.Fits := by
  rw [checkWireType_eq_ok_iff, checkDomain_eq_ok_iff, checkIdentifier_eq_ok_iff, Member.Fits]
  cases m.hint with
  | version => simp [Hint.domain]
  | uint64 =>
    simp only [Hint.domain, Option.some.injEq, forall_eq', reduceCtorEq, false_implies, true_and,
      and_true]
    constructor
    · rintro ⟨z, hz, hlow, hhigh⟩
      exact ⟨z.toNat, by rw [hz, Int.toNat_of_nonneg hlow], by omega⟩
    · rintro ⟨n, hn, hlt⟩
      exact ⟨n, hn, by omega, by omega⟩
  | int64 =>
    simp only [Hint.domain, Option.some.injEq, forall_eq', reduceCtorEq, false_implies, true_and,
      and_true, InInt64]
    refine exists_congr fun z => and_congr_right fun _ => ?_
    omega
  | str => simp [Hint.domain]
  | bool => simp [Hint.domain]

theorem checkClientMessage_eq_ok_iff {msg : ClientMsg} :
    checkClientMessage msg = .ok () ↔
      ∃ tag members, msg.schema = .ok (tag, members) ∧ ∀ m ∈ members, m.Fits := by
  rw [checkClientMessage, Except.bind_eq_ok_iff, Prod.exists]
  refine exists_congr fun tag => exists_congr fun members => and_congr_right fun _ => ?_
  dsimp only
  rw [Except.andThen_eq_ok_iff, Except.andThen_eq_ok_iff, Except.forM_eq_ok_iff,
    Except.forM_eq_ok_iff, Except.forM_eq_ok_iff]
  constructor
  · rintro ⟨htypes, hdomains, hidentifiers⟩ m hm
    exact checks_eq_ok_iff.mp ⟨htypes m hm, hdomains m hm, hidentifiers m hm⟩
  · intro h
    have hchecks := fun m hm => (@checks_eq_ok_iff tag m).mpr (h m hm)
    exact ⟨fun m hm => (hchecks m hm).1, fun m hm => (hchecks m hm).2.1,
      fun m hm => (hchecks m hm).2.2⟩

end Client

end MarketMaker
