import MarketMaker.Client.Decode
import MarketMaker.Lib.Lookup

/-!
# The two decoders agree

On every frame `decode` and `decode_naive` return the same message or raise `ValueError` with the
same text, whatever else the frame holds, as long as the typed decoder does what `IsTypedDecoder`
says.

What `prepare` has let through is in `IsPrepared`: the members of the frame, an integer token within
its domain at each integer member, and the version. Behind it `json.loads` never fails
(`payloadOf_eq`), so the schema pass is all that is left to decide (`readFields_cases`).
-/

namespace MarketMaker

namespace Client

variable {decodeError : Bytes → Bytes} {limit : DigitLimit} {data : Bytes} {cls : EngineClass}
  {spans : Fields}

/-! ## Rejections -/

/-- `ValueError`, with some text. -/
def IsValueError (e : Raise) : Prop := ∃ text, e = valueError text

/-- `ValueError` is one. -/
theorem isValueError_valueError (text : Bytes) : IsValueError (valueError text) := ⟨text, rfl⟩

/-- An integer with too many digits is a `ValueError`. -/
theorem errorsIn_intOf (limit : DigitLimit) (token : Bytes) :
    (intOf limit token).ErrorsIn IsValueError := by
  exact .ite (.error (isValueError_valueError _)) (.ok _)

/-! ## Integer tokens -/

/-- `bytes.isdigit`: ASCII digits, and one at least. -/
theorem isdigit_iff {span : Bytes} : isdigit span = true ↔ span ≠ [] ∧ Json.Digits span := by
  rw [isdigit, Bool.and_eq_true, Bool.not_eq_true', List.isEmpty_eq_false_iff, List.all_eq_true]
  rfl

section IntTokens

variable {token ds : Bytes} {negative : Bool}

/-- The test of the client is that of the grammar. -/
theorem isIntegerToken_iff :
    isIntegerToken token = true ↔ ∃ negative ds, Json.IsIntToken token negative ds := by
  have hminus : token.take 1 = [0x2D] ↔ token.head? = some 0x2D := by
    cases token <;> simp
  rw [Json.exists_isIntToken_iff, isIntegerToken, List.drop_one]
  simp only [hminus]
  split_ifs <;> exact isdigit_iff

/-- `int` of an integer token. -/
theorem intValue_eq (h : Json.IsIntToken token negative ds) :
    intValue token = Json.signed negative (Json.natValue ds) := by
  obtain ⟨hne, hdigits, rfl⟩ := h
  cases negative with
  | false => exact if_neg (Json.head_ne_minus hne hdigits)
  | true => rfl

/-- The digits of an integer token, without its minus. -/
theorem digitCount_eq (h : Json.IsIntToken token negative ds) : digitCount token = ds.length := by
  obtain ⟨hne, hdigits, rfl⟩ := h
  rw [digitCount]
  cases negative with
  | false => rw [if_neg (by decide), if_neg (Json.head_ne_minus hne hdigits), Nat.sub_zero]
  | true => rfl

/-- What fits into fewer digits is below their power of ten. -/
theorem natValue_lt_pow (h : Json.IsIntToken token negative ds) {n : ℕ} (hn : ds.length ≤ n) :
    Json.natValue ds < 10 ^ n :=
  (Json.natValue_lt h.digits).trans_le (Nat.pow_le_pow_right (by decide) hn)

end IntTokens

/-- The two rules there are. -/
theorem spanRule_cases {field : String × EngineHint} {rule : SpanRule}
    (h : spanRule field = some rule) :
    rule.name = field.1 ∧
      (field.2.domain = some (0, 2 ^ 64 - 1) ∧ rule.isToken = isUnsignedIntegerToken ∧
          rule.low = 0 ∧ rule.high = 2 ^ 64 - 1 ∧ rule.digits = 20 ∨
        field.2.domain = some (-2 ^ 63, 2 ^ 63 - 1) ∧ rule.isToken = isIntegerToken ∧
          rule.low = -2 ^ 63 ∧ rule.high = 2 ^ 63 - 1 ∧ rule.digits = 19) := by
  have huint64 : decimalDigits (max (2 ^ 64 - 1) (-0)) = 20 := by decide +kernel
  have hint64 : decimalDigits (max (2 ^ 63 - 1) (- -2 ^ 63)) = 19 := by decide +kernel
  obtain ⟨name, hint⟩ := field
  cases hint with
  | uint64 =>
    cases h
    exact ⟨rfl, Or.inl ⟨rfl, rfl, rfl, rfl, huint64⟩⟩
  | int64 =>
    cases h
    exact ⟨rfl, Or.inr ⟨rfl, rfl, rfl, rfl, hint64⟩⟩
  | str => cases h
  | literal allowed => cases h

/-- A token that an integer member of this domain may hold. -/
def InWireDomain (low high : ℤ) (span : Bytes) : Prop :=
  ∃ negative ds, Json.IsIntToken span negative ds ∧ ds.length ≤ 20 ∧
    low ≤ Json.signed negative (Json.natValue ds) ∧ Json.signed negative (Json.natValue ds) ≤ high

/-- The rule lets through a token with too few digits to be out of the domain, and one that was
compared with the ends of it. -/
theorem checkIntSpan_ok {tag : String} {rule : SpanRule} {span : Bytes}
    (h : checkIntSpan limit tag spans rule = .ok ())
    (hspan : spans.lookup (ascii rule.name) = some span) :
    rule.isToken span = true ∧
      (digitCount span < rule.digits ∨
        digitCount span = rule.digits ∧ rule.low ≤ intValue span ∧ intValue span ≤ rule.high) := by
  rw [checkIntSpan, hspan] at h
  dsimp only at h
  split_ifs at h with htoken hfew hmany
  · exact ⟨by simpa using htoken, Or.inl hfew⟩
  · refine ⟨by simpa using htoken, Or.inr ⟨by omega, ?_⟩⟩
    obtain ⟨n, hn, hends⟩ := Except.bind_eq_ok_iff.mp h
    rw [intOf] at hn
    split_ifs at hn
    cases hn
    split_ifs at hends with hinside
    exact hinside

/-- A span that passes its check has a value in the domain of the wire. -/
theorem inWireDomain_of_checkIntSpan {tag : String} {field : String × EngineHint} {rule : SpanRule}
    {span : Bytes} {low high : ℤ} (hrule : spanRule field = some rule)
    (hdomain : field.2.domain = some (low, high))
    (hspan : spans.lookup (ascii field.1) = some span)
    (h : checkIntSpan limit tag spans rule = .ok ()) : InWireDomain low high span := by
  obtain ⟨hname, hcases⟩ := spanRule_cases hrule
  rw [← hname] at hspan
  obtain ⟨htoken, hdigits⟩ := checkIntSpan_ok h hspan
  rcases hcases with ⟨hfield, his, hlow, hhigh, hmost⟩ | ⟨hfield, his, hlow, hhigh, hmost⟩
  · rw [hdomain, Option.some.injEq, Prod.mk.injEq] at hfield
    rw [his] at htoken
    have hint := Json.IsIntToken.of_digits (isdigit_iff.mp htoken)
    rw [digitCount_eq hint, intValue_eq hint, hlow, hhigh, hmost] at hdigits
    rw [hfield.1, hfield.2]
    refine ⟨false, span, hint, by omega, ?_⟩
    rcases hdigits with hfew | ⟨-, hends⟩
    · have hlt := natValue_lt_pow hint (Nat.le_of_lt_succ hfew)
      rw [Json.signed, if_neg (by decide)]
      omega
    · exact hends
  · rw [hdomain, Option.some.injEq, Prod.mk.injEq] at hfield
    rw [his] at htoken
    obtain ⟨negative, ds, hint⟩ := isIntegerToken_iff.mp htoken
    rw [digitCount_eq hint, intValue_eq hint, hlow, hhigh, hmost] at hdigits
    rw [hfield.1, hfield.2]
    refine ⟨negative, ds, hint, by omega, ?_⟩
    rcases hdigits with hfew | ⟨-, hends⟩
    · have hlt := natValue_lt_pow hint (Nat.le_of_lt_succ hfew)
      rw [Json.signed]
      split_ifs <;> omega
    · exact hends

/-! ## What `prepare` lets through -/

/-- A frame of this class with these members. -/
structure IsPrepared (data : Bytes) (cls : EngineClass) (spans : Fields) : Prop where
  accept : Acceptable data spans
  tag : readTag spans = .ok cls
  version : (ascii "v", ascii "1") ∈ spans
  ints : ∀ field ∈ cls.fields, ∀ low high, field.2.domain = some (low, high) →
    ∀ span, (ascii field.1, span) ∈ spans → InWireDomain low high span

/-- The tag is read, or it is a `ValueError`. -/
theorem errorsIn_readTag (spans : Fields) : (readTag spans).ErrorsIn IsValueError := by
  rw [readTag]
  cases spans.lookup (ascii "t") with
  | none => exact .error (isValueError_valueError _)
  | some span =>
    refine .ite (.error (isValueError_valueError _)) ?_
    dsimp only
    cases EngineClass.ofTag (decodeStringSpan span) with
    | none => exact .error (isValueError_valueError _)
    | some cls => exact .ok cls

/-- So for the version. -/
theorem errorsIn_checkVersion (limit : DigitLimit) (spans : Fields) :
    (checkVersion limit spans).ErrorsIn IsValueError := by
  rw [checkVersion]
  cases spans.lookup (ascii "v") with
  | none => exact .error (isValueError_valueError _)
  | some version =>
    refine .ite (.error (isValueError_valueError _)) (.bind ?_ fun exceeds => ?_)
    · rw [exceedsUint64]
      exact .ite ((errorsIn_intOf limit version).map _) (.ok false)
    · exact .ite (.error (isValueError_valueError _))
        (.ite (.error (isValueError_valueError _)) (.ok ()))

/-- So for the span of an integer. -/
theorem errorsIn_checkIntSpan (limit : DigitLimit) (tag : String) (spans : Fields)
    (rule : SpanRule) : (checkIntSpan limit tag spans rule).ErrorsIn IsValueError := by
  rw [checkIntSpan]
  cases spans.lookup (ascii rule.name) with
  | none => exact .ok ()
  | some span =>
    refine .ite (.error (isValueError_valueError _))
      (.ite (.ok ()) (.ite (.error (isValueError_valueError _)) (.bind ?_ fun n => ?_)))
    · exact errorsIn_intOf limit span
    · exact .ite (.ok ()) (.error (isValueError_valueError _))

/-- The version that passes is written `1`. -/
theorem checkVersion_ok (h : checkVersion limit spans = .ok ()) :
    (ascii "v", ascii "1") ∈ spans := by
  rw [checkVersion] at h
  cases hspan : spans.lookup (ascii "v") with
  | none =>
    rw [hspan] at h
    cases h
  | some version =>
    rw [hspan] at h
    dsimp only at h
    rw [ite_eq_iff] at h
    obtain ⟨-, h⟩ | ⟨-, h⟩ := h
    · cases h
    · obtain ⟨exceeds, -, hspoken⟩ := Except.bind_eq_ok_iff.mp h
      split_ifs at hspoken with hexceeds hother
      rw [not_not.mp hother] at hspan
      exact List.mem_of_lookup_eq_some hspan

/-- So for all the checks before the decoder. -/
theorem errorsIn_prepare (decodeError : Bytes → Bytes) (limit : DigitLimit) (data : Bytes) :
    (prepare decodeError limit data).ErrorsIn IsValueError := by
  refine .bind ?_ fun spans => (errorsIn_readTag spans).bind fun cls => ?_
  · rcases preflight_cases decodeError data with ⟨spans, h, -⟩ | ⟨⟨text, h⟩, -⟩
    · rw [h]
      exact .ok spans
    · rw [h]
      exact .error (isValueError_valueError text)
  · refine (errorsIn_checkVersion limit spans).bind fun _ => .bind ?_ fun _ => .ok cls
    exact .forM (errorsIn_checkIntSpan limit cls.tag spans) _

/-- What passes them is prepared. -/
theorem isPrepared_of_prepare (h : prepare decodeError limit data = .ok cls) :
    ∃ spans, IsPrepared data cls spans := by
  rw [prepare] at h
  obtain ⟨spans, hspans, h⟩ := Except.bind_eq_ok_iff.mp h
  obtain ⟨cls', htag, h⟩ := Except.bind_eq_ok_iff.mp h
  obtain ⟨hversion, h⟩ := Except.andThen_eq_ok_iff.mp h
  obtain ⟨hints, h⟩ := Except.andThen_eq_ok_iff.mp h
  cases h
  have haccept : Acceptable data spans := by
    rcases preflight_cases decodeError data with ⟨spans', hok, haccept, -⟩ | ⟨⟨text, herror⟩, -⟩
    · rw [hspans] at hok
      cases hok
      exact haccept
    · rw [hspans] at herror
      cases herror
  refine ⟨spans, haccept, htag, checkVersion_ok hversion, ?_⟩
  intro field hfield low high hdomain span hspan
  have hlookup := (List.lookup_eq_some_iff_mem haccept.distinct).mpr hspan
  obtain ⟨rule, hrule⟩ : ∃ rule, spanRule field = some rule :=
    ⟨_, by rw [spanRule, hdomain, Option.map_some]⟩
  have hcheck := Except.forM_eq_ok_iff.mp hints _ (List.mem_filterMap.mpr ⟨field, hfield, hrule⟩)
  exact inWireDomain_of_checkIntSpan hrule hdomain hlookup hcheck

/-! ## What `json.loads` returns -/

/-- The object of an integer token, unless it has more digits than are converted. -/
def converted (limit : DigitLimit) (token : Bytes) : Loaded :=
  if limit.digits ≠ 0 ∧ digitCount token > limit.digits then .other else .int (intValue token)

/-- The object of a value in a frame that is loaded. -/
def loaded (limit : DigitLimit) (span : Bytes) : Loaded :=
  match Json.valueOf span with
  | .int _ _ => converted limit span
  | .string s => .str s
  | .bool b => .bool b
  | _ => .other

/-- A value is no longer than the text it is taken from. -/
theorem length_taken_le (t rest : Bytes) : (Json.taken t rest).length ≤ t.length := by
  rw [Json.taken, List.length_take]
  exact Nat.min_le_right _ _

/-- An integer token of a text is no longer than the text. -/
theorem length_le_of_mem_intTokens {n : ℕ} {t token : Bytes} (h : token ∈ intTokens n t) :
    token.length ≤ t.length := by
  induction n generalizing t with
  | zero => cases h
  | succ n ih =>
    cases t with
    | nil => cases h
    | cons c t =>
      rw [intTokens] at h
      split_ifs at h with hquote hnumber
      · cases hrest : Json.readString t with
        | none =>
          rw [hrest] at h
          cases h
        | some rest =>
          rw [hrest] at h
          obtain ⟨body, -, rfl⟩ := Json.readString_eq_some_iff.mp hrest
          have hle := ih h
          simp only [List.length_append, List.length_cons]
          omega
      · cases hrest : Json.readNumber (c :: t) with
        | none =>
          rw [hrest] at h
          cases h
        | some rest =>
          rw [hrest] at h
          obtain ⟨v, -, hsplit⟩ := Json.readNumber_sound hrest
          have hlength : rest.length ≤ (c :: t).length := by
            rw [hsplit, List.length_append]
            omega
          dsimp only at h
          split_ifs at h
          · rcases List.mem_cons.mp h with rfl | hmore
            · exact length_taken_le _ _
            · exact (ih hmore).trans hlength
          · exact (ih h).trans hlength
      · exact (ih h).trans (Nat.le_succ _)

section Loads

variable {parse : Bytes → Except Raise Loaded}

/-- A value loads as it is if its integers are converted. -/
theorem loadValue_eq {span : Bytes}
    (hparse : ∀ token, token.length ≤ span.length → parse token = .ok (converted limit token)) :
    loadValue parse span = .ok (loaded limit span) := by
  have htokens : (intTokens span.length span).forM (fun token => (parse token).map fun _ => ()) =
      .ok () := by
    rw [Except.forM_eq_ok_iff]
    intro token htoken
    rw [hparse token (length_le_of_mem_intTokens htoken)]
    rfl
  rw [loadValue, loaded]
  cases Json.valueOf span with
  | int negative magnitude => exact hparse span le_rfl
  | array => exact Except.andThen_eq_ok_iff.mpr ⟨htokens, rfl⟩
  | object => exact Except.andThen_eq_ok_iff.mpr ⟨htokens, rfl⟩
  | string s => rfl
  | bool b => rfl
  | null => rfl
  | float => rfl

/-- Under distinct names without escapes, each member is an item of its own. -/
theorem loadMembers_eq {members : Fields} {payload : Payload}
    (hdistinct : (payload.map Prod.fst ++ members.map Prod.fst).Nodup)
    (hnames : ∀ m ∈ members, Json.stringOf (m.1 ++ [0x22]) = m.1)
    (hvalues : ∀ m ∈ members, loadValue parse m.2 = .ok (loaded limit m.2)) :
    loadMembers parse members payload =
      .ok (payload ++ members.map fun m => (m.1, loaded limit m.2)) := by
  induction members generalizing payload with
  | nil => rw [loadMembers, List.map_nil, List.append_nil]
  | cons m members ih =>
    rw [List.forall_mem_cons] at hnames hvalues
    rw [List.map_cons, List.nodup_append] at hdistinct
    have hfresh : m.1 ∉ payload.map Prod.fst := fun hm =>
      hdistinct.2.2 m.1 hm m.1 List.mem_cons_self rfl
    rw [loadMembers, hvalues.1, hnames.1]
    change loadMembers parse members (payload.set m.1 (loaded limit m.2)) = _
    rw [Payload.set, if_neg hfresh, ih ?_ hnames.2 hvalues.2, List.append_assoc]
    · rfl
    · rw [List.map_append, List.map_singleton, List.append_assoc, List.singleton_append,
        List.nodup_append]
      exact hdistinct

end Loads

/-- On a frame behind the preflight, `json.loads` converts every integer or discards it. -/
theorem payloadOf_eq (haccept : Acceptable data spans) :
    payloadOf decodeError limit data = .ok (spans.map fun m => (m.1, loaded limit m.2)) := by
  have hloads : ∀ parse : Bytes → Except Raise Loaded,
      (∀ token, token.length ≤ data.length → parse token = .ok (converted limit token)) →
        loads parse decodeError data = .ok (spans.map fun m => (m.1, loaded limit m.2)) := by
    intro parse hparse
    have hbounds := haccept.text.bounds
    have hread : Json.document MAX_NESTING_DEPTH data = some spans :=
      Json.document_eq_some_iff.mpr haccept.text
    rw [loads, hread]
    refine loadMembers_eq (by simpa using haccept.distinct) ?_ ?_
    · exact fun m hm => Json.stringOf_of_not_mem (hbounds m hm).1 (haccept.noEscape m hm)
    · intro m hm
      exact loadValue_eq fun token htoken => hparse token (htoken.trans (hbounds m hm).2)
  rw [payloadOf]
  split_ifs with hshort
  · -- no token is longer than the frame
    refine hloads _ fun token htoken => ?_
    have hcount : ¬(limit.digits ≠ 0 ∧ digitCount token > limit.digits) := by
      rw [digitCount]
      omega
    rw [parseInt, intOf, if_neg hcount, converted, if_neg hcount]
    rfl
  · refine hloads _ fun token _ => ?_
    rw [intOrOversized, intOf, converted]
    split_ifs <;> rfl

/-! ## The schema pass -/

/-- The object that a JSON value converts to. -/
def Loaded.ofVal : Json.Val → Loaded
  | .int negative magnitude => .int (Json.signed negative magnitude)
  | .string s => .str s
  | .bool b => .bool b
  | _ => .other

/-- A JSON value is of the declared type. -/
def EngineHint.Admits : EngineHint → Json.Val → Prop
  | .uint64, value => ∃ negative magnitude, value = .int negative magnitude
  | .int64, value => ∃ negative magnitude, value = .int negative magnitude
  | .str, value => ∃ s, value = .string s
  | .literal allowed, value => ∃ s ∈ allowed.map ascii, value = .string s

/-- An object is of the declared type. -/
def EngineHint.Holds : EngineHint → Loaded → Prop
  | .uint64, value => ∃ z, value = .int z
  | .int64, value => ∃ z, value = .int z
  | .str, value => ∃ s, value = .str s
  | .literal allowed, value => ∃ s ∈ allowed.map ascii, value = .str s

/-- The check returns its object, or it raises `ValueError` for it. -/
def IsCheckOf (check : Loaded → Except Raise Loaded) (P : Loaded → Prop) : Prop :=
  ∀ value, (check value = .ok value ∧ P value) ∨
    (∃ text, check value = .error (valueError text)) ∧ ¬P value

/-- `_as_int` accepts integers. -/
theorem isCheckOf_asInt (tag name : String) :
    IsCheckOf (Loaded.asInt tag name) fun value => ∃ z, value = Loaded.int z := by
  intro value
  cases value with
  | int z => exact Or.inl ⟨rfl, z, rfl⟩
  | _ => exact Or.inr ⟨⟨_, rfl⟩, fun ⟨z, h⟩ => by contradiction⟩

/-- `_as_str` accepts strings. -/
theorem isCheckOf_asStr (tag name : String) :
    IsCheckOf (Loaded.asStr tag name) fun value => ∃ s, value = Loaded.str s := by
  intro value
  cases value with
  | str s => exact Or.inl ⟨rfl, s, rfl⟩
  | _ => exact Or.inr ⟨⟨_, rfl⟩, fun ⟨s, h⟩ => by contradiction⟩

/-- `_as_literal` accepts the allowed strings. -/
theorem isCheckOf_asLiteral (allowed : List String) (tag name : String) :
    IsCheckOf (Loaded.asLiteral allowed tag name) fun value =>
      ∃ s ∈ allowed.map ascii, value = Loaded.str s := by
  intro value
  cases value with
  | str s =>
    by_cases hs : s ∈ allowed.map ascii
    · exact Or.inl ⟨if_pos hs, s, hs, rfl⟩
    · refine Or.inr ⟨⟨_, if_neg hs⟩, ?_⟩
      rintro ⟨s', hs', ⟨⟩⟩
      exact hs hs'
  | _ => exact Or.inr ⟨⟨_, rfl⟩, fun ⟨s, hs, h⟩ => by contradiction⟩

/-- The check of a member lets through the objects of its declared type. -/
theorem EngineHint.isCheckOf_check (hint : EngineHint) (tag name : String) :
    IsCheckOf (hint.check tag name) hint.Holds := by
  cases hint with
  | uint64 => exact isCheckOf_asInt tag name
  | int64 => exact isCheckOf_asInt tag name
  | str => exact isCheckOf_asStr tag name
  | literal allowed => exact isCheckOf_asLiteral allowed tag name

/-- The pass reads what the payload has under each name, or there is a member that the payload does
not have or has with an object of another type. -/
theorem readFieldsLoop_cases (tag : String) (payload : Payload)
    (specs : List (String × EngineHint)) :
    (∃ attrs, readFieldsLoop tag payload specs = .ok attrs ∧
      (∀ field ∈ specs, ∃ value, payload.lookup (ascii field.1) = some value ∧
        field.2.Holds value) ∧
      ∀ item ∈ attrs.val, payload.lookup (ascii item.1) = some item.2) ∨
    (∃ text, readFieldsLoop tag payload specs = .error (valueError text)) ∧
      ∃ field ∈ specs, ∀ value, payload.lookup (ascii field.1) = some value →
        ¬field.2.Holds value := by
  induction specs with
  | nil => exact Or.inl ⟨_, rfl, by simp, by simp⟩
  | cons field specs ih =>
    obtain ⟨name, hint⟩ := field
    rw [readFieldsLoop]
    cases hvalue : payload.lookup (ascii name) with
    | none =>
      refine Or.inr ⟨⟨_, rfl⟩, _, List.mem_cons_self, fun value h => ?_⟩
      rw [hvalue] at h
      cases h
    | some value =>
      dsimp only
      rcases hint.isCheckOf_check tag name value with ⟨hok, hholds⟩ | ⟨⟨text, herror⟩, hnot⟩
      · rw [hok]
        rcases ih with ⟨attrs, hattrs, hfields, hitems⟩ | ⟨⟨text, herror⟩, field, hfield, hnot⟩
        · refine Or.inl ⟨⟨(name, value) :: attrs.val, congrArg (name :: ·) attrs.property⟩, ?_, ?_,
            ?_⟩
          · rw [hattrs]
            rfl
          · exact List.forall_mem_cons.mpr ⟨⟨value, hvalue, hholds⟩, hfields⟩
          · exact List.forall_mem_cons.mpr ⟨hvalue, hitems⟩
        · refine Or.inr ⟨⟨text, ?_⟩, field, List.mem_cons_of_mem _ hfield, hnot⟩
          rw [herror]
          rfl
      · refine Or.inr ⟨⟨text, ?_⟩, _, List.mem_cons_self, fun value' h => ?_⟩
        · rw [herror]
          rfl
        · rw [hvalue, Option.some.injEq] at h
          rwa [← h]

/-- What an integer member holds is converted, whatever the limit on digits. -/
theorem loaded_of_inWireDomain {span : Bytes} {low high : ℤ} (h : InWireDomain low high span) :
    loaded limit span = .ofVal (Json.valueOf span) ∧
      ∃ negative magnitude, Json.valueOf span = .int negative magnitude := by
  obtain ⟨negative, ds, htoken, hdigits, -⟩ := h
  have hfew : ¬(limit.digits ≠ 0 ∧ digitCount span > limit.digits) := by
    have hlimit := limit.eq_zero_or_ge
    rw [digitCount_eq htoken]
    omega
  refine ⟨?_, negative, _, htoken.valueOf_eq⟩
  rw [loaded, htoken.valueOf_eq]
  dsimp only
  rw [converted, if_neg hfew, intValue_eq htoken, Loaded.ofVal]

/-- A value loads as a string if it is one. -/
theorem loaded_eq_str_iff {span s : Bytes} :
    loaded limit span = .str s ↔ Json.valueOf span = .string s := by
  rw [loaded]
  cases Json.valueOf span with
  | string s' => simp
  | int negative magnitude =>
    dsimp only
    rw [converted]
    split_ifs <;> simp
  | _ => simp

section Admits

variable {hint : EngineHint} {span : Bytes}
  (hdomain : ∀ low high, hint.domain = some (low, high) → InWireDomain low high span)

include hdomain

/-- An object is of the declared type if the JSON value is, as long as integers are in their
domain. -/
theorem holds_loaded_iff : hint.Holds (loaded limit span) ↔ hint.Admits (Json.valueOf span) := by
  have hinteger : ∀ low high, hint.domain = some (low, high) →
      ((∃ z, loaded limit span = .int z) ↔
        ∃ negative magnitude, Json.valueOf span = .int negative magnitude) := by
    intro low high h
    obtain ⟨hloaded, negative, magnitude, hvalue⟩ := loaded_of_inWireDomain (hdomain low high h)
    rw [hloaded, hvalue]
    exact iff_of_true ⟨_, rfl⟩ ⟨_, _, rfl⟩
  cases hint with
  | uint64 => exact hinteger _ _ rfl
  | int64 => exact hinteger _ _ rfl
  | str => exact exists_congr fun s => loaded_eq_str_iff
  | literal allowed => exact exists_congr fun s => and_congr_right fun _ => loaded_eq_str_iff

/-- A value that is admitted loads as itself. -/
theorem loaded_eq_ofVal (limit : DigitLimit) (hadmits : hint.Admits (Json.valueOf span)) :
    loaded limit span = .ofVal (Json.valueOf span) := by
  cases hint with
  | uint64 => exact (loaded_of_inWireDomain (hdomain _ _ rfl)).1
  | int64 => exact (loaded_of_inWireDomain (hdomain _ _ rfl)).1
  | str =>
    obtain ⟨s, hs⟩ := hadmits
    rw [loaded_eq_str_iff.mpr hs, hs, Loaded.ofVal]
  | literal allowed =>
    obtain ⟨s, -, hs⟩ := hadmits
    rw [loaded_eq_str_iff.mpr hs, hs, Loaded.ofVal]

end Admits

/-- The schema pass over a frame of the class reads every member, as its JSON value converts, or
there is a member without a value of its declared type. -/
theorem readFields_cases (decodeError : Bytes → Bytes) (limit : DigitLimit)
    (h : IsPrepared data cls spans) :
    (∃ attrs, payloadOf decodeError limit data >>= readFields cls = .ok attrs ∧
      (∀ field ∈ cls.fields, ∃ span, (ascii field.1, span) ∈ spans ∧
        field.2.Admits (Json.valueOf span)) ∧
      ∀ item ∈ attrs.val, ∃ span, (ascii item.1, span) ∈ spans ∧
        item.2 = .ofVal (Json.valueOf span)) ∨
    (∃ text, payloadOf decodeError limit data >>= readFields cls = .error (valueError text)) ∧
      ∃ field ∈ cls.fields, ∀ span, (ascii field.1, span) ∈ spans →
        ¬field.2.Admits (Json.valueOf span) := by
  have hlookup : ∀ name value,
      (spans.map fun m => (m.1, loaded limit m.2)).lookup (ascii name) = some value ↔
        ∃ span, (ascii name, span) ∈ spans ∧ loaded limit span = value := by
    intro name value
    rw [List.lookup_map_snd, Option.map_eq_some_iff]
    simp only [List.lookup_eq_some_iff_mem h.accept.distinct]
  have hdomain : ∀ field ∈ cls.fields, ∀ span, (ascii field.1, span) ∈ spans →
      ∀ low high, field.2.domain = some (low, high) → InWireDomain low high span :=
    fun field hfield span hspan low high hlow => h.ints field hfield low high hlow span hspan
  rw [payloadOf_eq h.accept]
  change (∃ attrs, readFields cls _ = _ ∧ _) ∨ (∃ text, readFields cls _ = _) ∧ _
  rcases readFieldsLoop_cases cls.tag (spans.map fun m => (m.1, loaded limit m.2)) cls.fields with
    ⟨attrs, hattrs, hfields, hitems⟩ | ⟨herror, field, hfield, hnot⟩
  · have hadmits : ∀ field ∈ cls.fields, ∃ span, (ascii field.1, span) ∈ spans ∧
        field.2.Admits (Json.valueOf span) := by
      intro field hfield
      obtain ⟨value, hvalue, hholds⟩ := hfields field hfield
      obtain ⟨span, hspan, rfl⟩ := (hlookup _ _).mp hvalue
      exact ⟨span, hspan, (holds_loaded_iff (hdomain field hfield span hspan)).mp hholds⟩
    refine Or.inl ⟨attrs, hattrs, hadmits, fun item hitem => ?_⟩
    have hname : item.1 ∈ cls.fields.map Prod.fst := by
      rw [← attrs.property]
      exact List.mem_map_of_mem hitem
    obtain ⟨field, hfield, heq⟩ := List.mem_map.mp hname
    obtain ⟨span, hspan, hadmit⟩ := hadmits field hfield
    have hloaded := loaded_eq_ofVal (hdomain field hfield span hspan) limit hadmit
    have hitem := (hitems item hitem).symm.trans ((hlookup _ _).mpr ⟨span, heq ▸ hspan, rfl⟩)
    refine ⟨span, heq ▸ hspan, ?_⟩
    rw [← hloaded]
    exact Option.some.inj hitem
  · refine Or.inr ⟨herror, field, hfield, fun span hspan hadmit => ?_⟩
    refine hnot _ ((hlookup _ _).mpr ⟨span, hspan, rfl⟩) ?_
    exact (holds_loaded_iff (hdomain field hfield span hspan)).mpr hadmit

/-! ## The typed decoder -/

/-- What the typed decoder of msgspec makes of a frame of a class, given the members of the
frame. -/
structure IsTypedRead (members : Fields) (cls : EngineClass)
    (result : Option EngineMsg) : Prop where
  /-- It succeeds if and only if every declared member is there with a value of its declared
  type. -/
  isSome_iff : result.isSome = true ↔
    (∃ span, (ascii "v", span) ∈ members ∧ Json.valueOf span = .int false 1) ∧
      ∀ field ∈ cls.fields, ∃ span, (ascii field.1, span) ∈ members ∧
        field.2.Admits (Json.valueOf span)
  cls_eq : ∀ msg ∈ result, msg.cls = cls
  version : ∀ msg ∈ result, ∀ span, (ascii "v", span) ∈ members →
    Json.valueOf span = .int false 1 → msg.v = 1
  /-- It converts strings. -/
  str : ∀ msg ∈ result, ∀ item ∈ msg.attrs, ∀ span, (ascii item.1, span) ∈ members →
    ∀ s, Json.valueOf span = .string s → item.2 = .str s
  /-- It converts the integers in the domain of their member. -/
  int : ∀ msg ∈ result, ∀ item ∈ msg.attrs, ∀ span, (ascii item.1, span) ∈ members →
    ∀ hint low high, (item.1, hint) ∈ cls.fields → hint.domain = some (low, high) →
      ∀ negative magnitude, Json.valueOf span = .int negative magnitude →
        low ≤ Json.signed negative magnitude → Json.signed negative magnitude ≤ high →
          item.2 = .int (Json.signed negative magnitude)

/-- The decoder does so on every frame that `prepare` lets through. -/
def IsTypedDecoder (decodeError : Bytes → Bytes) (limit : DigitLimit)
    (dec : Bytes → Option EngineMsg) : Prop :=
  ∀ data cls members, prepare decodeError limit data = .ok cls →
    Json.ObjectText MAX_NESTING_DEPTH members data → IsTypedRead members cls (dec data)

/-- What the value of a member converts to. -/
def valueAt (spans : Fields) (name : String) : Option Loaded :=
  (spans.lookup (ascii name)).map fun span => .ofVal (Json.valueOf span)

/-- A member with a name of its own is found. -/
theorem valueAt_eq (hdistinct : (spans.map Prod.fst).Nodup) {name : String} {span : Bytes}
    (hspan : (ascii name, span) ∈ spans) :
    valueAt spans name = some (.ofVal (Json.valueOf span)) := by
  rw [valueAt, (List.lookup_eq_some_iff_mem hdistinct).mpr hspan, Option.map_some]

namespace IsTypedRead

variable {msg : EngineMsg}

/-- Each member of a message is what its JSON value converts to. -/
theorem item_eq (h : IsTypedRead spans cls (some msg)) (hprepared : IsPrepared data cls spans)
    {item : String × Loaded} (hitem : item ∈ msg.attrs) {hint : EngineHint}
    (hfield : (item.1, hint) ∈ cls.fields) {span : Bytes} (hspan : (ascii item.1, span) ∈ spans)
    (hadmits : hint.Admits (Json.valueOf span)) : item.2 = .ofVal (Json.valueOf span) := by
  have hinteger : ∀ low high, hint.domain = some (low, high) →
      item.2 = .ofVal (Json.valueOf span) := by
    intro low high hdomain
    obtain ⟨negative, ds, htoken, -, hlow, hhigh⟩ :=
      hprepared.ints _ hfield low high hdomain span hspan
    rw [htoken.valueOf_eq]
    exact h.int msg rfl item hitem span hspan hint low high hfield hdomain _ _ htoken.valueOf_eq
      hlow hhigh
  cases hint with
  | uint64 => exact hinteger _ _ rfl
  | int64 => exact hinteger _ _ rfl
  | str =>
    obtain ⟨s, hs⟩ := hadmits
    rw [hs]
    exact h.str msg rfl item hitem span hspan s hs
  | literal allowed =>
    obtain ⟨s, -, hs⟩ := hadmits
    rw [hs]
    exact h.str msg rfl item hitem span hspan s hs

/-- The message is the one that the schema pass reads. -/
theorem msg_eq (h : IsTypedRead spans cls (some msg)) (hprepared : IsPrepared data cls spans)
    {attrs : Attrs cls.fields}
    (hadmits : ∀ field ∈ cls.fields, ∃ span, (ascii field.1, span) ∈ spans ∧
      field.2.Admits (Json.valueOf span))
    (hattrs : ∀ item ∈ attrs.val, ∃ span, (ascii item.1, span) ∈ spans ∧
      item.2 = .ofVal (Json.valueOf span)) :
    msg = { cls, v := 1, attrs := attrs.val, names := attrs.property } := by
  obtain rfl := h.cls_eq msg rfl
  refine EngineMsg.ext rfl (h.version msg rfl _ hprepared.version (by decide)) ?_
  refine List.eq_of_forall_mem (f := valueAt spans) (msg.names.trans attrs.property.symm) ?_ ?_
  · intro item hitem
    have hname : item.1 ∈ msg.cls.fields.map Prod.fst := by
      rw [← msg.names]
      exact List.mem_map_of_mem hitem
    obtain ⟨⟨name, hint⟩, hfield, rfl⟩ := List.mem_map.mp hname
    obtain ⟨span, hspan, hadmit⟩ := hadmits _ hfield
    rw [valueAt_eq hprepared.accept.distinct hspan,
      h.item_eq hprepared hitem hfield hspan hadmit]
  · intro item hitem
    obtain ⟨span, hspan, hvalue⟩ := hattrs item hitem
    rw [valueAt_eq hprepared.accept.distinct hspan, hvalue]

end IsTypedRead

/-- So for the caps of the strings. -/
theorem errorsIn_checkEngineStrings (cls : EngineClass) (msg : EngineMsg) :
    (checkEngineStrings cls msg).ErrorsIn IsValueError := by
  refine .forM (fun field => ?_) _
  rw [checkEngineString]
  split
  · exact .ite (.error (isValueError_valueError _))
      (.ite (.error (isValueError_valueError _)) (.ok ()))
  · exact .ok ()

/-! ## A typed decoder -/

/-- A JSON value, read at its declared type. -/
def EngineHint.read : EngineHint → Json.Val → Option Loaded
  | .uint64, .int negative magnitude => some (.int (Json.signed negative magnitude))
  | .int64, .int negative magnitude => some (.int (Json.signed negative magnitude))
  | .str, .string s => some (.str s)
  | .literal allowed, .string s => if s ∈ allowed.map ascii then some (.str s) else none
  | _, _ => none

/-- The typed read accepts what is admitted. -/
theorem EngineHint.read_eq_some_iff {hint : EngineHint} {value : Json.Val} {object : Loaded} :
    hint.read value = some object ↔ hint.Admits value ∧ object = .ofVal value := by
  cases hint with
  | uint64 => cases value <;> simp [read, Admits, Loaded.ofVal, eq_comm]
  | int64 => cases value <;> simp [read, Admits, Loaded.ofVal, eq_comm]
  | str => cases value <;> simp [read, Admits, Loaded.ofVal, eq_comm]
  | literal allowed => cases value <;> simp [read, Admits, Loaded.ofVal, eq_comm]

/-- The members of a schema, each read at its declared type. -/
def typedFields (members : Fields) : (specs : List (String × EngineHint)) → Option (Attrs specs)
  | [] => some ⟨[], Attrs.names_nil⟩
  | (name, hint) :: specs => do
    let span ← members.lookup (ascii name)
    let value ← hint.read (Json.valueOf span)
    let fields ← typedFields members specs
    return ⟨(name, value) :: fields.val, fields.names_cons name hint value⟩

/-- A decoder over the tagged union of the classes. -/
def typedDecode (data : Bytes) : Option EngineMsg := do
  let members ← Json.document MAX_NESTING_DEPTH data
  let cls ← (readTag members).toOption
  let version ← members.lookup (ascii "v")
  if Json.valueOf version = .int false 1 then
    let fields ← typedFields members cls.fields
    return { cls, v := 1, attrs := fields.val, names := fields.names_fields }
  else none

/-- The typed decoder reads every declared member, or one of them is missing or not admitted. -/
theorem typedFields_cases (members : Fields) (specs : List (String × EngineHint)) :
    (∃ attrs, typedFields members specs = some attrs ∧
      (∀ field ∈ specs, ∃ span, members.lookup (ascii field.1) = some span ∧
        field.2.Admits (Json.valueOf span)) ∧
      ∀ item ∈ attrs.val, valueAt members item.1 = some item.2) ∨
    typedFields members specs = none ∧ ∃ field ∈ specs, ∀ span,
      members.lookup (ascii field.1) = some span → ¬field.2.Admits (Json.valueOf span) := by
  induction specs with
  | nil => exact Or.inl ⟨_, rfl, by simp, by simp⟩
  | cons field specs ih =>
    obtain ⟨name, hint⟩ := field
    rw [typedFields]
    cases hspan : members.lookup (ascii name) with
    | none =>
      refine Or.inr ⟨rfl, _, List.mem_cons_self, fun span h => ?_⟩
      rw [hspan] at h
      cases h
    | some span =>
      rw [Option.bind_eq_bind, Option.bind_some]
      cases hread : hint.read (Json.valueOf span) with
      | none =>
        refine Or.inr ⟨rfl, _, List.mem_cons_self, fun span' h hadmits => ?_⟩
        rw [hspan, Option.some.injEq] at h
        subst h
        have hsome := EngineHint.read_eq_some_iff.mpr ⟨hadmits, rfl⟩
        rw [hread] at hsome
        cases hsome
      | some value =>
        obtain ⟨hadmits, hvalue⟩ := EngineHint.read_eq_some_iff.mp hread
        rw [Option.bind_eq_bind, Option.bind_some]
        rcases ih with ⟨attrs, hattrs, hfields, hitems⟩ | ⟨hnone, field, hfield, hnot⟩
        · rw [hattrs]
          refine Or.inl ⟨_, rfl, List.forall_mem_cons.mpr ⟨⟨span, hspan, hadmits⟩, hfields⟩, ?_⟩
          refine List.forall_mem_cons.mpr ⟨?_, hitems⟩
          rw [valueAt, hspan, hvalue]
          rfl
        · rw [hnone]
          exact Or.inr ⟨rfl, field, List.mem_cons_of_mem _ hfield, hnot⟩

/-- The typed decoder of the model does what is asked of that of `msgspec`. -/
theorem isTypedDecoder_typedDecode (decodeError : Bytes → Bytes) (limit : DigitLimit) :
    IsTypedDecoder decodeError limit typedDecode := by
  intro data cls members hprepare htext
  obtain ⟨spans, hprepared⟩ := isPrepared_of_prepare hprepare
  have hread := Json.document_eq_some_iff.mpr htext
  obtain rfl : spans = members := by
    have hread' := Json.document_eq_some_iff.mpr hprepared.accept.text
    exact Option.some.inj (hread'.symm.trans hread)
  have hlookup := fun name span =>
    List.lookup_eq_some_iff_mem hprepared.accept.distinct (k := ascii name) (v := span)
  have hone : Json.valueOf (ascii "1") = .int false 1 := by decide
  have hdecode : typedDecode data = (typedFields spans cls.fields).map fun fields =>
      { cls, v := 1, attrs := fields.val, names := fields.property } := by
    rw [typedDecode, hread, Option.bind_eq_bind, Option.bind_some, hprepared.tag]
    change (spans.lookup (ascii "v")).bind _ = _
    rw [(hlookup _ _).mpr hprepared.version, Option.bind_some, if_pos hone]
    cases typedFields spans cls.fields <;> rfl
  rw [hdecode]
  rcases typedFields_cases spans cls.fields with
    ⟨attrs, hattrs, hfields, hitems⟩ | ⟨hnone, field, hfield, hnot⟩
  · rw [hattrs, Option.map_some]
    have hvalue : ∀ item ∈ attrs.val, ∀ span, (ascii item.1, span) ∈ spans →
        item.2 = .ofVal (Json.valueOf span) := by
      intro item hitem span hspan
      have hitem := hitems item hitem
      rw [valueAt_eq hprepared.accept.distinct hspan, Option.some.injEq] at hitem
      exact hitem.symm
    refine ⟨iff_of_true rfl ⟨⟨_, hprepared.version, hone⟩, fun field hfield => ?_⟩, ?_, ?_, ?_, ?_⟩
    · obtain ⟨span, hspan, hadmits⟩ := hfields field hfield
      exact ⟨span, (hlookup _ _).mp hspan, hadmits⟩
    · rintro msg ⟨⟩
      rfl
    · rintro msg ⟨⟩ - - -
      rfl
    · rintro msg ⟨⟩ item hitem span hspan s hs
      rw [hvalue item hitem span hspan, hs, Loaded.ofVal]
    · rintro msg ⟨⟩ item hitem span hspan - - - - - negative magnitude hint - -
      rw [hvalue item hitem span hspan, hint, Loaded.ofVal]
  · rw [hnone, Option.map_none]
    refine ⟨iff_of_false (by simp) ?_, ?_, ?_, ?_, ?_⟩
    · rintro ⟨-, hfields⟩
      obtain ⟨span, hspan, hadmits⟩ := hfields field hfield
      exact hnot span ((hlookup _ _).mpr hspan) hadmits
    all_goals
      intro msg hmsg
      cases hmsg

/-! ## Agreement -/

/-- `decode_naive` after its checks. -/
theorem decodeNaive_eq (hprepare : prepare decodeError limit data = .ok cls) :
    decodeNaive decodeError limit data =
      (payloadOf decodeError limit data >>= readFields cls) >>= fun fields => do
        let msg : EngineMsg := { cls, v := 1, attrs := fields.val, names := fields.property }
        checkEngineStrings cls msg
        return msg := by
  rw [decodeNaive, hprepare, bind_assoc]
  rfl

section Decode

variable {dec : Bytes → Option EngineMsg}

/-- `decode` after its checks, where the typed decoder succeeds. -/
theorem decode_of_some (hprepare : prepare decodeError limit data = .ok cls) {msg : EngineMsg}
    (hmsg : dec data = some msg) :
    decode decodeError limit dec data = do
      checkEngineStrings cls msg
      return msg := by
  rw [decode, hprepare]
  change (pure cls >>= _) = _
  rw [pure_bind, hmsg]

/-- `decode` after its checks, where the typed decoder fails. -/
theorem decode_of_none (hprepare : prepare decodeError limit data = .ok cls)
    (hnone : dec data = none) :
    decode decodeError limit dec data = .error (schemaError decodeError limit cls data) := by
  rw [decode, hprepare]
  change (pure cls >>= _) = _
  rw [pure_bind, hnone]
  rfl

/-- Every frame is decoded to the same message, or rejected with the same text. -/
theorem decode_agrees (hdec : IsTypedDecoder decodeError limit dec) (data : Bytes) :
    (∃ msg, decode decodeError limit dec data = .ok msg ∧
      decodeNaive decodeError limit data = .ok msg) ∨
    ∃ text, decode decodeError limit dec data = .error (valueError text) ∧
      decodeNaive decodeError limit data = .error (valueError text) := by
  rcases (errorsIn_prepare decodeError limit data).cases with ⟨cls, hprepare⟩ |
    ⟨e, ⟨text, rfl⟩, hprepare⟩
  swap
  · refine Or.inr ⟨text, ?_, ?_⟩
    · rw [decode, hprepare]
      rfl
    · rw [decodeNaive, hprepare]
      rfl
  obtain ⟨spans, hprepared⟩ := isPrepared_of_prepare hprepare
  have htyped := hdec data cls spans hprepare hprepared.accept.text
  rcases readFields_cases decodeError limit hprepared with
    ⟨attrs, hread, hadmits, hattrs⟩ | ⟨⟨text, hread⟩, field, hfield, hnot⟩
  · -- the typed decoder succeeds, with the message that the other one builds
    have hversion : Json.valueOf (ascii "1") = .int false 1 := by decide
    have hsome := htyped.isSome_iff.mpr ⟨⟨_, hprepared.version, hversion⟩, hadmits⟩
    obtain ⟨msg, hmsg⟩ := Option.isSome_iff_exists.mp hsome
    rw [hmsg] at htyped
    have hnaive : decodeNaive decodeError limit data = do
        checkEngineStrings cls msg
        return msg := by
      rw [decodeNaive_eq hprepare, hread, htyped.msg_eq hprepared hadmits hattrs]
      rfl
    rw [decode_of_some hprepare hmsg, hnaive]
    have herrors := (errorsIn_checkEngineStrings cls msg).bind fun _ => .ok msg
    rcases herrors.cases with ⟨msg', hcheck⟩ | ⟨e, ⟨text, rfl⟩, hcheck⟩
    · exact Or.inl ⟨msg', hcheck, hcheck⟩
    · exact Or.inr ⟨text, hcheck, hcheck⟩
  · -- it fails, and the error is what the schema pass says of the frame
    have hnone : dec data = none := by
      rw [← Option.not_isSome_iff_eq_none, htyped.isSome_iff]
      rintro ⟨-, hadmits⟩
      obtain ⟨span, hspan, hadmit⟩ := hadmits field hfield
      exact hnot span hspan hadmit
    refine Or.inr ⟨text, ?_, ?_⟩
    · rw [decode_of_none hprepare hnone, schemaError, hread]
    · rw [decodeNaive_eq hprepare, hread]
      rfl

end Decode

/-- A rejection, behind a member that no schema has. -/
def rejectFrame : Bytes :=
  ascii ("\x7b\"x\":[1e5,9],\"t\":\"reject\",\"v\":1,\"seq\":1,\"epoch\":0,\"cl_id\":\"\"," ++
    "\"code\":\"a\",\"reason\":\"b\"\x7d")

theorem decode_agrees_rejectFrame :
    ∃ msg, decode (fun _ => []) .default typedDecode rejectFrame = .ok msg ∧
      decodeNaive (fun _ => []) .default rejectFrame = .ok msg := by
  have haccepted : (decodeNaive (fun _ => []) .default rejectFrame).toOption.isSome = true := by
    decide +kernel
  rcases decode_agrees (isTypedDecoder_typedDecode (fun _ => []) .default) rejectFrame with
    h | ⟨text, -, hnaive⟩
  · exact h
  · rw [hnaive] at haccepted
    cases haccepted

end Client

end MarketMaker
