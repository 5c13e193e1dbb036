import MarketMaker.Codec.Nlohmann

/-!
# The tuned codec: decoding

`GlazeCodec::decode` of `codec_glaze.cpp`. The three reads that the library is asked for are
parameters, and `IsCorrect` says what the codec relies on: behind the preflight they read a frame as
what it denotes. Then both codecs decode every frame alike (`Glaze.decode_eq_nlohmann`).
-/

namespace MarketMaker

namespace Glaze

/-- The reads of the library. A read that fails is `none`. -/
structure Library where
  /-- `glz::read<kLax>` of a `TagProbe`. -/
  readTag : Bytes → Option (Option Bytes)
  /-- `glz::read<kStrict>` of a `NewOrder`. -/
  readNewOrder : Bytes → Option NewOrder
  /-- `glz::read<kStrict>` of a `CancelOrder`. -/
  readCancelOrder : Bytes → Option CancelOrder

/-- `integer_fields_are_integral`. -/
def integerFieldsAreIntegral (scan : FrameScan) (signedKeys unsignedKeys : List String) : Bool :=
  (signedKeys.all fun key =>
      (scan.find (ascii key)).isEmpty || isIntegerToken (scan.find (ascii key))) &&
    unsignedKeys.all fun key =>
      (scan.find (ascii key)).isEmpty || isUnsignedIntegerToken (scan.find (ascii key))

/-- `std::from_chars` into a `uint64_t`, of a whole token. -/
def fromChars (tok : Bytes) : Option ℕ :=
  let digits := tok.takeWhile isDecDigit
  if digits.isEmpty then none
  else if Json.natValue digits < 2 ^ 64 then some (Json.natValue digits)
  else none

section Code

variable (lib : Library)

/-- Whether the message is a `NewOrder`. -/
def schema (frame : Bytes) (scan : FrameScan) : Except Halt Bool :=
  let ttok := scan.find (ascii "t")
  if ttok = ascii "\"new_order\"" then .ok true
  else if ttok = ascii "\"cancel_order\"" then .ok false
  else
    match lib.readTag frame with
    | some (some tag) =>
      if tag ≠ tagNewOrder ∧ tag ≠ tagCancelOrder then
        .error (.reject ⟨.unknownType, ascii "unknown inbound t: " ++ sanitizedTag tag⟩)
      else .ok (tag = tagNewOrder)
    | _ => .error (malformed "t missing or not a string")

/-- The check of the version. -/
def checkVersion (scan : FrameScan) : Except Halt Unit :=
  let vtok := scan.find (ascii "v")
  if vtok.isEmpty || !isUnsignedIntegerToken vtok then
    .error (malformed "v missing or not an unsigned integer")
  else
    match fromChars vtok with
    | none => .error (malformed "v missing or not an unsigned integer")
    | some v =>
      if v ≠ 1 then .error (.reject ⟨.unsupportedVersion, ascii "v=" ++ Json.decimal v⟩)
      else .ok ()

/-- The integer fields of a `NewOrder` are integral. -/
def newOrderIsIntegral (scan : FrameScan) : Bool :=
  integerFieldsAreIntegral scan ["px", "qty"] ["seq", "epoch", "md_seq"]

/-- The integer fields of a `CancelOrder` are integral. -/
def cancelOrderIsIntegral (scan : FrameScan) : Bool :=
  integerFieldsAreIntegral scan [] ["seq", "epoch"]

/-- What follows the version. -/
def body (frame : Bytes) (scan : FrameScan) (isNew : Bool) : Except Halt InMsg :=
  if isNew then
    if !newOrderIsIntegral scan then .error (malformed "new_order: missing or mistyped field")
    else
      match lib.readNewOrder frame with
      | none => .error (malformed "new_order: missing or mistyped field")
      | some o => do
        checkNewOrderStrings o
        return .newOrder o
  else if !cancelOrderIsIntegral scan then
    .error (malformed "cancel_order: missing or mistyped field")
  else
    match lib.readCancelOrder frame with
    | none => .error (malformed "cancel_order: missing or mistyped field")
    | some c => do
      checkCancelOrderStrings c
      return .cancelOrder c

/-- `GlazeCodec::decode`. -/
def decode (frame : Bytes) : Except Halt InMsg := do
  let scan ← framePreflight frame
  let isNew ← schema lib frame scan
  checkVersion scan
  body lib frame scan isNew

end Code

/-! ## What a frame denotes -/

/-- The value of a field, if the frame has it. -/
def value (scan : FrameScan) (key : String) : Option Json.Val :=
  let span := scan.find (ascii key)
  if span.isEmpty then none else some (Json.valueOf span)

/-- The field is a number within a `uint64_t`. -/
def HasU64 (scan : FrameScan) (key : String) (n : ℕ) : Prop :=
  n < 2 ^ 64 ∧ ∃ negative magnitude, value scan key = some (.int negative magnitude) ∧
    Json.signed negative magnitude = n

/-- The field is a number within an `int64_t`. -/
def HasI64 (scan : FrameScan) (key : String) (z : ℤ) : Prop :=
  InInt64 z ∧ ∃ negative magnitude, value scan key = some (.int negative magnitude) ∧
    Json.signed negative magnitude = z

/-- The frame has every field of a `NewOrder`, with its type and within its range. -/
structure IsNewOrder (scan : FrameScan) (o : NewOrder) : Prop where
  v : HasU64 scan "v" o.v
  seq : HasU64 scan "seq" o.seq
  epoch : HasU64 scan "epoch" o.epoch
  mdSeq : HasU64 scan "md_seq" o.mdSeq
  clId : value scan "cl_id" = some (.string o.clId)
  symbol : value scan "symbol" = some (.string o.symbol)
  side : value scan "side" = some (.string o.side)
  px : HasI64 scan "px" o.px
  qty : HasI64 scan "qty" o.qty
  postOnly : value scan "post_only" = some (.bool o.postOnly)

/-- The frame has every field of a `CancelOrder`. -/
structure IsCancelOrder (scan : FrameScan) (c : CancelOrder) : Prop where
  v : HasU64 scan "v" c.v
  seq : HasU64 scan "seq" c.seq
  epoch : HasU64 scan "epoch" c.epoch
  clId : value scan "cl_id" = some (.string c.clId)

section Values

variable {scan : FrameScan} {key : String}

/-- A member is a `uint64` if it fits and has no minus, or is zero. -/
theorem hasU64_iff {negative : Bool} {magnitude n : ℕ}
    (hvalue : value scan key = some (.int negative magnitude)) :
    HasU64 scan key n ↔ n < 2 ^ 64 ∧ Json.signed negative magnitude = n := by
  rw [HasU64, hvalue]
  refine and_congr_right fun _ => ⟨?_, fun h => ⟨_, _, rfl, h⟩⟩
  rintro ⟨_, _, ⟨⟩, h⟩
  exact h

/-- A member is an `int64` if it fits. -/
theorem hasI64_iff {negative : Bool} {magnitude : ℕ} {z : ℤ}
    (hvalue : value scan key = some (.int negative magnitude)) :
    HasI64 scan key z ↔ InInt64 z ∧ Json.signed negative magnitude = z := by
  rw [HasI64, hvalue]
  refine and_congr_right fun _ => ⟨?_, fun h => ⟨_, _, rfl, h⟩⟩
  rintro ⟨_, _, ⟨⟩, h⟩
  exact h

/-- A member has one value. -/
theorem HasU64.unique {m n : ℕ} (h : HasU64 scan key m) (h' : HasU64 scan key n) : m = n := by
  obtain ⟨-, negative, magnitude, hvalue, hm⟩ := h
  have hn := ((hasU64_iff hvalue).mp h').2
  omega

/-- A member with a value is there. -/
theorem isEmpty_of_value {v : Json.Val} (h : value scan key = some v) :
    (scan.find (ascii key)).isEmpty = false := by
  rw [value] at h
  split_ifs at h with hempty
  exact Bool.not_eq_true _ |>.mp hempty

/-- So a `uint64` is there. -/
theorem HasU64.nonempty {n : ℕ} (h : HasU64 scan key n) :
    (scan.find (ascii key)).isEmpty = false := by
  obtain ⟨-, negative, magnitude, hvalue, -⟩ := h
  exact isEmpty_of_value hvalue

/-- So is an `int64`. -/
theorem HasI64.nonempty {z : ℤ} (h : HasI64 scan key z) :
    (scan.find (ascii key)).isEmpty = false := by
  obtain ⟨-, negative, magnitude, hvalue, -⟩ := h
  exact isEmpty_of_value hvalue

end Values

/-- The library reads a frame behind the preflight as what it denotes: the probe fails on a tag that
is neither a string nor `null`, and a strict read, which follows the checks of the tokens, where a
field is missing, of another type or out of its range. -/
structure Library.IsCorrect (lib : Library) : Prop where
  tag : ∀ frame scan, Acceptable frame scan → lib.readTag frame =
    match value scan "t" with
    | none => some none
    | some .null => some none
    | some (.string s) => some (some s)
    | some _ => none
  newOrder : ∀ frame scan, Acceptable frame scan → checkVersion scan = .ok () →
    newOrderIsIntegral scan = true → ∀ o, lib.readNewOrder frame = some o ↔ IsNewOrder scan o
  cancelOrder : ∀ frame scan, Acceptable frame scan → checkVersion scan = .ok () →
    cancelOrderIsIntegral scan = true →
      ∀ c, lib.readCancelOrder frame = some c ↔ IsCancelOrder scan c

end Glaze

/-! ## What the naive codec reads -/

namespace Nlohmann

open Glaze (value HasU64 HasI64 hasU64_iff hasI64_iff IsNewOrder IsCancelOrder)

section Fields

variable {parse : Parse} {frame : Bytes} {scan : FrameScan} {key : String}

/-- The token test accepts digits, and one at least. -/
theorem isUnsignedIntegerToken_iff {span : Bytes} :
    isUnsignedIntegerToken span = true ↔ span ≠ [] ∧ Json.Digits span := by
  rw [isUnsignedIntegerToken, Bool.and_eq_true, Bool.not_eq_true', List.isEmpty_eq_false_iff,
    List.all_eq_true]
  rfl

/-- The token test of the scanner is that of the grammar. -/
theorem isIntegerToken_iff {span : Bytes} :
    isIntegerToken span = true ↔ ∃ negative ds, Json.IsIntToken span negative ds := by
  rw [Json.exists_isIntToken_iff]
  cases span with
  | nil => simp [isIntegerToken]
  | cons c rest =>
    simp only [isIntegerToken, List.head?_cons, List.tail_cons, Option.some.injEq]
    split_ifs <;> exact isUnsignedIntegerToken_iff

/-- A field that the scan has is a member of the frame. -/
theorem mem_of_find (hspan : (scan.find (ascii key)).isEmpty = false) :
    (ascii key, scan.find (ascii key)) ∈ scan := by
  rw [FrameScan.find] at hspan ⊢
  cases hfind : List.find? (fun field : Bytes × Bytes => field.1 = ascii key) scan with
  | none =>
    rw [hfind] at hspan
    cases hspan
  | some field =>
    have hkey := List.find?_some hfind
    rw [decide_eq_true_eq] at hkey
    dsimp only
    rw [← hkey]
    exact List.mem_of_find?_eq_some hfind

/-- The library reads the value of a field as what it denotes. -/
theorem represents_value (hparse : Correct parse) (haccept : Acceptable frame scan)
    (key : String) :
    (value scan key = none ∧ parseField parse scan key = none) ∨
      ∃ v, value scan key = some v ∧ Represents (parseField parse scan key) v := by
  rw [value, parseField]
  cases hspan : (scan.find (ascii key)).isEmpty with
  | true => exact Or.inl ⟨rfl, rfl⟩
  | false =>
    obtain ⟨hvalue, hvalid⟩ := haccept.text.valid haccept.utf8 _ (mem_of_find hspan)
    exact Or.inr ⟨_, rfl, hparse _ hvalue hvalid⟩

/-- The parser reads a string where the frame has one. -/
theorem parseField_eq_string_iff (hparse : Correct parse) (haccept : Acceptable frame scan)
    {t : Bytes} :
    parseField parse scan key = some (.string t) ↔ value scan key = some (.string t) := by
  rcases represents_value hparse haccept key with ⟨hvalue, hfield⟩ | ⟨v, hvalue, hfield⟩
  · simp [hvalue, hfield]
  · rw [hvalue]
    rcases v with _ | b | ⟨_ | _, n⟩ | _ | u | _ | _ <;> simp only [Represents] at hfield <;>
      grind

/-- `get_str` reads strings. -/
theorem getStr_eq_some_iff (hparse : Correct parse) (haccept : Acceptable frame scan) {t : Bytes} :
    getStr parse scan key = some t ↔ value scan key = some (.string t) := by
  rw [← parseField_eq_string_iff hparse haccept, getStr]
  split <;> simp_all

/-- `get_bool` reads booleans. -/
theorem getBool_eq_some_iff (hparse : Correct parse) (haccept : Acceptable frame scan) {b : Bool} :
    getBool parse scan key = some b ↔ value scan key = some (.bool b) := by
  rw [getBool]
  rcases represents_value hparse haccept key with ⟨hvalue, hfield⟩ | ⟨v, hvalue, hfield⟩
  · simp [hvalue, hfield]
  · rw [hvalue]
    rcases v with _ | b' | ⟨_ | _, n⟩ | _ | u | _ | _ <;> simp only [Represents] at hfield <;>
      grind

/-- A field with an integer token. -/
theorem value_of_isIntToken {negative : Bool} {ds : Bytes}
    (h : Json.IsIntToken (scan.find (ascii key)) negative ds) :
    value scan key = some (.int negative (Json.natValue ds)) := by
  have hne : (scan.find (ascii key)).isEmpty = false := by
    rw [List.isEmpty_eq_false_iff, h.eq]
    split_ifs
    · exact List.cons_ne_nil _ _
    · exact h.nonempty
  rw [value, hne, ← h.valueOf_eq]
  rfl

/-- The value of a field with an integer token is represented. -/
theorem represents_token (hparse : Correct parse) (haccept : Acceptable frame scan)
    {negative : Bool} {ds : Bytes}
    (h : Json.IsIntToken (scan.find (ascii key)) negative ds) :
    Represents (parseField parse scan key) (.int negative (Json.natValue ds)) := by
  have hvalue := value_of_isIntToken h
  rcases represents_value hparse haccept key with ⟨hnone, -⟩ | ⟨v, hv, hfield⟩
  · rw [hvalue] at hnone
    cases hnone
  · rw [hvalue, Option.some.injEq] at hv
    rwa [← hv] at hfield

/-- An unsigned token is read as its number if that fits. -/
theorem getU64_of_represents {m n : ℕ}
    (htoken : isUnsignedIntegerToken (scan.find (ascii key)) = true)
    (hfield : Represents (parseField parse scan key) (.int false m)) :
    getU64 parse scan key = some n ↔ n < 2 ^ 64 ∧ m = n := by
  rw [getU64, htoken]
  simp only [Represents] at hfield
  split_ifs at hfield with hsmall
  · rw [hfield]
    simp only [Bool.not_true, Bool.false_eq_true, if_false, Option.some.injEq]
    omega
  · -- too large a number is no unsigned one
    rcases hfield with hfield | hfield <;> rw [hfield] <;>
      simp only [Bool.not_true, Bool.false_eq_true, if_false, reduceCtorEq, false_iff] <;> omega

/-- An integer token is read as its number if that fits. -/
theorem getI64_of_represents {negative : Bool} {m : ℕ} {z : ℤ}
    (htoken : isIntegerToken (scan.find (ascii key)) = true)
    (hfield : Represents (parseField parse scan key) (.int negative m)) :
    getI64 parse scan key = some z ↔ InInt64 z ∧ Json.signed negative m = z := by
  rw [getI64, htoken, InInt64, Json.signed]
  simp only [Bool.not_true, Bool.false_eq_true, if_false]
  cases negative with
  | false =>
    simp only [Represents] at hfield
    rw [if_neg (by decide)]
    split_ifs at hfield with hsmall
    · rw [hfield]
      dsimp only
      split_ifs with hlarge
      · simp only [false_iff]
        omega
      · rw [Option.some.injEq]
        omega
    · rcases hfield with hfield | hfield <;> rw [hfield] <;>
        simp only [reduceCtorEq, false_iff] <;> omega
  | true =>
    simp only [Represents] at hfield
    rw [if_pos rfl]
    split_ifs at hfield with hsmall
    · rw [hfield]
      dsimp only
      rw [Option.some.injEq]
      omega
    · rcases hfield with hfield | hfield <;> rw [hfield] <;>
        simp only [reduceCtorEq, false_iff] <;> omega

/-- `get_u64` reads digits of 64 bits. -/
theorem getU64_eq_some_iff (hparse : Correct parse) (haccept : Acceptable frame scan) {n : ℕ} :
    getU64 parse scan key = some n ↔
      isUnsignedIntegerToken (scan.find (ascii key)) = true ∧ HasU64 scan key n := by
  cases htoken : isUnsignedIntegerToken (scan.find (ascii key)) with
  | false => simp [getU64, htoken]
  | true =>
    have hint := Json.IsIntToken.of_digits (isUnsignedIntegerToken_iff.mp htoken)
    rw [getU64_of_represents htoken (represents_token hparse haccept hint),
      hasU64_iff (value_of_isIntToken hint), Json.signed, if_neg (by decide), and_iff_right rfl,
      Nat.cast_inj]

/-- `get_i64` reads integers of 64 bits. -/
theorem getI64_eq_some_iff (hparse : Correct parse) (haccept : Acceptable frame scan) {z : ℤ} :
    getI64 parse scan key = some z ↔
      isIntegerToken (scan.find (ascii key)) = true ∧ HasI64 scan key z := by
  cases htoken : isIntegerToken (scan.find (ascii key)) with
  | false => simp [getI64, htoken]
  | true =>
    obtain ⟨negative, ds, hint⟩ := isIntegerToken_iff.mp htoken
    rw [getI64_of_represents htoken (represents_token hparse haccept hint),
      hasI64_iff (value_of_isIntToken hint), and_iff_right rfl]

/-- The naive codec reads the fields of a `NewOrder` where the integer ones are integral and all are
what the frame denotes. -/
theorem newOrderFields_eq_some_iff (hparse : Correct parse) (haccept : Acceptable frame scan)
    {v : ℕ} (hv : HasU64 scan "v" v) {o : NewOrder} :
    newOrderFields parse scan v = some o ↔
      Glaze.newOrderIsIntegral scan = true ∧ IsNewOrder scan o := by
  simp only [newOrderFields, Option.bind_eq_bind, Option.bind_eq_some_iff,
    getU64_eq_some_iff hparse haccept, getI64_eq_some_iff hparse haccept,
    getStr_eq_some_iff hparse haccept, getBool_eq_some_iff hparse haccept]
  constructor
  · rintro ⟨seq, ⟨tseq, hseq⟩, epoch, ⟨tepoch, hepoch⟩, mdSeq, ⟨tmdSeq, hmdSeq⟩, clId, hclId,
      symbol, hsymbol, side, hside, px, ⟨tpx, hpx⟩, qty, ⟨tqty, hqty⟩, postOnly, hpostOnly, ⟨⟩⟩
    refine ⟨?_, hv, hseq, hepoch, hmdSeq, hclId, hsymbol, hside, hpx, hqty, hpostOnly⟩
    simp [Glaze.newOrderIsIntegral, Glaze.integerFieldsAreIntegral, tseq, tepoch, tmdSeq, tpx, tqty]
  · rintro ⟨hintegral, h⟩
    obtain rfl := h.v.unique hv
    simp only [Glaze.newOrderIsIntegral, Glaze.integerFieldsAreIntegral, List.all_cons,
      List.all_nil, h.px.nonempty, h.qty.nonempty, h.seq.nonempty, h.epoch.nonempty,
      h.mdSeq.nonempty, Bool.false_or, Bool.and_true, Bool.and_eq_true] at hintegral
    obtain ⟨⟨tpx, tqty⟩, tseq, tepoch, tmdSeq⟩ := hintegral
    exact ⟨_, ⟨tseq, h.seq⟩, _, ⟨tepoch, h.epoch⟩, _, ⟨tmdSeq, h.mdSeq⟩, _, h.clId, _, h.symbol, _,
      h.side, _, ⟨tpx, h.px⟩, _, ⟨tqty, h.qty⟩, _, h.postOnly, rfl⟩

/-- A cancel is read if its members have their types. -/
theorem cancelOrderFields_eq_some_iff (hparse : Correct parse) (haccept : Acceptable frame scan)
    {v : ℕ} (hv : HasU64 scan "v" v) {c : CancelOrder} :
    cancelOrderFields parse scan v = some c ↔
      Glaze.cancelOrderIsIntegral scan = true ∧ IsCancelOrder scan c := by
  simp only [cancelOrderFields, Option.bind_eq_bind, Option.bind_eq_some_iff,
    getU64_eq_some_iff hparse haccept, getStr_eq_some_iff hparse haccept]
  constructor
  · rintro ⟨seq, ⟨tseq, hseq⟩, epoch, ⟨tepoch, hepoch⟩, clId, hclId, ⟨⟩⟩
    refine ⟨?_, hv, hseq, hepoch, hclId⟩
    simp [Glaze.cancelOrderIsIntegral, Glaze.integerFieldsAreIntegral, tseq, tepoch]
  · rintro ⟨hintegral, h⟩
    obtain rfl := h.v.unique hv
    simp only [Glaze.cancelOrderIsIntegral, Glaze.integerFieldsAreIntegral, List.all_cons,
      List.all_nil, h.seq.nonempty, h.epoch.nonempty, Bool.false_or, Bool.true_and, Bool.and_true,
      Bool.and_eq_true] at hintegral
    exact ⟨_, ⟨hintegral.1, h.seq⟩, _, ⟨hintegral.2, h.epoch⟩, _, h.clId, rfl⟩

end Fields

end Nlohmann

/-! ## The two codecs -/

namespace Glaze

variable {parse : Nlohmann.Parse} {lib : Library} {frame : Bytes} {scan : FrameScan}

/-- The fast path of the tag reads it as the probe does, and the naive codec too. -/
theorem schema_eq (hparse : Nlohmann.Correct parse) (hlib : lib.IsCorrect)
    (haccept : Acceptable frame scan) :
    schema lib frame scan =
      match Nlohmann.parseField parse scan "t" with
      | some (.string tag) =>
        if tag ≠ tagNewOrder ∧ tag ≠ tagCancelOrder then
          .error (.reject ⟨.unknownType, ascii "unknown inbound t: " ++ sanitizedTag tag⟩)
        else .ok (tag = tagNewOrder)
      | _ => .error (malformed "t missing or not a string") := by
  have hstring : ∀ tag, value scan "t" = some (.string tag) →
      Nlohmann.parseField parse scan "t" = some (.string tag) := fun tag h =>
    (Nlohmann.parseField_eq_string_iff hparse haccept).mpr h
  rw [schema]
  split_ifs with hnew hcancel
  · rw [hstring tagNewOrder (by rw [value, hnew]; decide +kernel)]
    exact (if_neg fun h => h.1 rfl).symm
  · rw [hstring tagCancelOrder (by rw [value, hcancel]; decide +kernel)]
    exact (if_neg fun h => h.2 rfl).symm
  · rw [hlib.tag frame scan haccept]
    cases hvalue : value scan "t" with
    | none =>
      rcases Nlohmann.represents_value hparse haccept "t" with ⟨-, hfield⟩ | ⟨v, hv, -⟩
      · rw [hfield]
      · rw [hvalue] at hv
        cases hv
    | some v =>
      have hnot : (∀ tag, v ≠ .string tag) →
          ∀ tag, Nlohmann.parseField parse scan "t" ≠ some (.string tag) := by
        intro hv tag htag
        have heq := (Nlohmann.parseField_eq_string_iff hparse haccept).mp htag
        rw [hvalue, Option.some.injEq] at heq
        exact hv tag heq
      have hother : (∀ tag, v ≠ .string tag) → ∀ {α : Type} (f : Bytes → α) (x : α),
          (match Nlohmann.parseField parse scan "t" with
            | some (.string tag) => f tag
            | _ => x) = x := by
        intro hv α f x
        split
        · next tag htag => exact absurd htag (hnot hv tag)
        · rfl
      cases v with
      | string tag => rw [hstring tag hvalue]
      | null => exact (hother (by simp) _ _).symm
      | bool b => exact (hother (by simp) _ _).symm
      | int negative magnitude => exact (hother (by simp) _ _).symm
      | float => exact (hother (by simp) _ _).symm
      | array => exact (hother (by simp) _ _).symm
      | object => exact (hother (by simp) _ _).symm

/-- `from_chars` reads digits that fit. -/
theorem fromChars_digits {tok : Bytes} (hne : tok ≠ []) (h : Json.Digits tok) :
    fromChars tok = if Json.natValue tok < 2 ^ 64 then some (Json.natValue tok) else none := by
  have htake : tok.takeWhile isDecDigit = tok := List.takeWhile_eq_self_iff.mpr h
  rw [fromChars, htake, if_neg (by simpa using hne)]

/-- The version is what the naive codec reads. -/
theorem checkVersion_cases (hparse : Nlohmann.Correct parse) (haccept : Acceptable frame scan) :
    (Nlohmann.getU64 parse scan "v" = none ∧
      checkVersion scan = .error (malformed "v missing or not an unsigned integer")) ∨
    ∃ v, HasU64 scan "v" v ∧ Nlohmann.getU64 parse scan "v" = some v ∧
      checkVersion scan =
        if v ≠ 1 then .error (.reject ⟨.unsupportedVersion, ascii "v=" ++ Json.decimal v⟩)
        else .ok () := by
  have hread : ∀ n, Nlohmann.getU64 parse scan "v" = some n ↔
      isUnsignedIntegerToken (scan.find (ascii "v")) = true ∧ HasU64 scan "v" n :=
    fun _ => Nlohmann.getU64_eq_some_iff hparse haccept
  rw [checkVersion]
  cases htoken : isUnsignedIntegerToken (scan.find (ascii "v")) with
  | false =>
    rw [if_pos (by simp)]
    refine Or.inl ⟨?_, rfl⟩
    rw [Nlohmann.getU64, htoken]
    rfl
  | true =>
    obtain ⟨hne, hdigits⟩ := Nlohmann.isUnsignedIntegerToken_iff.mp htoken
    have hint := Json.IsIntToken.of_digits (Nlohmann.isUnsignedIntegerToken_iff.mp htoken)
    have hhas := fun n => hasU64_iff (n := n) (Nlohmann.value_of_isIntToken hint)
    rw [if_neg (by simp [hne]), fromChars_digits hne hdigits]
    split_ifs with hrange
    · have hv : HasU64 scan "v" (Json.natValue (scan.find (ascii "v"))) :=
        (hhas _).mpr ⟨hrange, rfl⟩
      exact Or.inr ⟨_, hv, (hread _).mpr ⟨htoken, hv⟩, rfl⟩
    · refine Or.inl ⟨?_, rfl⟩
      cases hget : Nlohmann.getU64 parse scan "v" with
      | none => rfl
      | some n =>
        obtain ⟨hn, heq⟩ := (hhas n).mp ((hread n).mp hget).2
        rw [Json.signed, if_neg (by decide)] at heq
        omega

/-- Behind the version, the strict read and the fields that the naive codec reads are the same. -/
theorem body_eq (hparse : Nlohmann.Correct parse) (hlib : lib.IsCorrect)
    (haccept : Acceptable frame scan) (hversion : checkVersion scan = .ok ()) {v : ℕ}
    (hv : HasU64 scan "v" v) (isNew : Bool) :
    body lib frame scan isNew = Nlohmann.body parse scan isNew v := by
  have hnew := fun o => Nlohmann.newOrderFields_eq_some_iff hparse haccept hv (o := o)
  have hcancel := fun c => Nlohmann.cancelOrderFields_eq_some_iff hparse haccept hv (c := c)
  rw [body, Nlohmann.body]
  cases isNew with
  | true =>
    cases hintegral : newOrderIsIntegral scan with
    | false =>
      have hnone : Nlohmann.newOrderFields parse scan v = none := by
        ext o
        simp [hnew, hintegral]
      rw [hnone]
      rfl
    | true =>
      have hsame : lib.readNewOrder frame = Nlohmann.newOrderFields parse scan v := by
        ext o
        rw [hlib.newOrder frame scan haccept hversion hintegral, hnew, and_iff_right hintegral]
      rw [hsame]
      rfl
  | false =>
    cases hintegral : cancelOrderIsIntegral scan with
    | false =>
      have hnone : Nlohmann.cancelOrderFields parse scan v = none := by
        ext c
        simp [hcancel, hintegral]
      rw [hnone]
      rfl
    | true =>
      have hsame : lib.readCancelOrder frame = Nlohmann.cancelOrderFields parse scan v := by
        ext c
        rw [hlib.cancelOrder frame scan haccept hversion hintegral, hcancel,
          and_iff_right hintegral]
      rw [hsame]
      rfl

/-- The two codecs decode every frame to the same message or the same reject. -/
theorem decode_eq (hparse : Nlohmann.Correct parse) (hlib : lib.IsCorrect) (frame : Bytes) :
    decode lib frame = Nlohmann.decode parse frame := by
  rw [decode, Nlohmann.decode]
  rcases framePreflight_cases frame with ⟨scan, hscan, haccept⟩ | ⟨⟨err, herr⟩, -⟩
  swap
  · rw [herr]
    rfl
  rw [hscan]
  change (schema lib frame scan >>= fun isNew => checkVersion scan >>= fun _ =>
    body lib frame scan isNew) = Nlohmann.envelope parse scan >>= fun p =>
      Nlohmann.body parse scan p.1 p.2
  rw [schema_eq hparse hlib haccept, Nlohmann.envelope]
  -- Without a string under `t` both sides are the same error.
  rcases Nlohmann.parseField parse scan "t" with _ | v
  · rfl
  cases v
  case string tag =>
    dsimp only
    split_ifs with hunknown
    · rfl
    · rcases checkVersion_cases hparse haccept with ⟨hnone, hversion⟩ | ⟨v, hv, hsome, hversion⟩
      · rw [hnone, hversion]
        rfl
      · rw [hsome]
        dsimp only
        split_ifs with hother
        · rw [hversion, if_pos hother]
          rfl
        · rw [if_neg hother] at hversion
          rw [hversion]
          exact body_eq hparse hlib haccept hversion hv _
  all_goals rfl

/-- An error of a codec. -/
def IsReject (halt : Halt) : Prop := ∃ err, halt = .reject err

/-- A refusal is one. -/
theorem isReject_reject (err : DecodeError) : IsReject (.reject err) := ⟨err, rfl⟩

/-- An identifier is refused, never more. -/
theorem errorsIn_checkIdentifier (text : Bytes) (name : String) (cap : ℕ) :
    (checkIdentifier text name cap).ErrorsIn IsReject :=
  .ite (.error (isReject_reject _)) (.ite (.error (isReject_reject _)) (.ok ()))

/-- So is a schema. -/
theorem errorsIn_schema (lib : Library) (frame : Bytes) (scan : FrameScan) :
    (schema lib frame scan).ErrorsIn IsReject := by
  refine .ite (.ok true) (.ite (.ok false) ?_)
  split
  · exact .ite (.error (isReject_reject _)) (.ok _)
  · exact .error (isReject_reject _)

/-- So is a version. -/
theorem errorsIn_checkVersion (scan : FrameScan) : (checkVersion scan).ErrorsIn IsReject := by
  refine .ite (.error (isReject_reject _)) ?_
  split
  · exact .error (isReject_reject _)
  · exact .ite (.error (isReject_reject _)) (.ok ())

/-- So is a body. -/
theorem errorsIn_body (lib : Library) (frame : Bytes) (scan : FrameScan) (isNew : Bool) :
    (body lib frame scan isNew).ErrorsIn IsReject := by
  refine .ite (.ite (.error (isReject_reject _)) ?_) (.ite (.error (isReject_reject _)) ?_)
  · split
    · exact .error (isReject_reject _)
    · refine .bind ?_ fun _ => .ok _
      refine .bind (errorsIn_checkIdentifier _ _ _) fun _ => .bind ?_ fun _ => ?_
      · exact errorsIn_checkIdentifier _ _ _
      · exact errorsIn_checkIdentifier _ _ _
  · split
    · exact .error (isReject_reject _)
    · exact .bind (errorsIn_checkIdentifier _ _ _) fun _ => .ok _

/-- The tuned codec returns a message or an error. -/
theorem errorsIn_decode (lib : Library) (frame : Bytes) :
    (decode lib frame).ErrorsIn IsReject := by
  refine .bind ?_ fun scan => (errorsIn_schema lib frame scan).bind fun isNew =>
    (errorsIn_checkVersion scan).bind fun _ => errorsIn_body lib frame scan isNew
  rcases framePreflight_cases frame with ⟨scan, h, -⟩ | ⟨⟨err, h⟩, -⟩
  · rw [h]
    exact .ok scan
  · rw [h]
    exact .error (isReject_reject err)

/-! ### A library that is correct -/

/-- A parser of values that is correct. -/
def domParse : Nlohmann.Parse := fun span => Nlohmann.domOf (Json.valueOf span)

/-- The parser of the model is as documented. -/
theorem correct_domParse : Nlohmann.Correct domParse := Nlohmann.correct_domOf

/-- Reads over the members of the frame. -/
def documentReads : Library where
  readTag frame :=
    match Json.document maxNestingDepth frame with
    | none => none
    | some scan =>
      match value scan "t" with
      | none => some none
      | some .null => some none
      | some (.string s) => some (some s)
      | some _ => none
  readNewOrder frame := do
    let scan ← Json.document maxNestingDepth frame
    let v ← Nlohmann.getU64 domParse scan "v"
    Nlohmann.newOrderFields domParse scan v
  readCancelOrder frame := do
    let scan ← Json.document maxNestingDepth frame
    let v ← Nlohmann.getU64 domParse scan "v"
    Nlohmann.cancelOrderFields domParse scan v

/-- So is its reader. -/
theorem documentReads_isCorrect : documentReads.IsCorrect := by
  have hread : ∀ {frame scan}, Acceptable frame scan →
      Json.document maxNestingDepth frame = some scan := fun h =>
    Json.document_eq_some_iff.mpr h.text
  have hversion : ∀ {frame scan}, Acceptable frame scan → checkVersion scan = .ok () →
      ∃ v, HasU64 scan "v" v ∧ Nlohmann.getU64 domParse scan "v" = some v := by
    intro frame scan haccept hok
    rcases checkVersion_cases correct_domParse haccept with ⟨-, herror⟩ | ⟨v, hv, hsome, -⟩
    · rw [hok] at herror
      cases herror
    · exact ⟨v, hv, hsome⟩
  constructor
  · intro frame scan haccept
    rw [documentReads]
    dsimp only
    rw [hread haccept]
  · intro frame scan haccept hok hintegral o
    obtain ⟨v, hv, hsome⟩ := hversion haccept hok
    have hfields := Nlohmann.newOrderFields_eq_some_iff correct_domParse haccept hv (o := o)
    rw [and_iff_right hintegral] at hfields
    rw [← hfields, documentReads]
    dsimp only
    rw [hread haccept, Option.bind_eq_bind, Option.bind_some, hsome]
    rfl
  · intro frame scan haccept hok hintegral c
    obtain ⟨v, hv, hsome⟩ := hversion haccept hok
    have hfields :=
      Nlohmann.cancelOrderFields_eq_some_iff correct_domParse haccept hv (c := c)
    rw [and_iff_right hintegral] at hfields
    rw [← hfields, documentReads]
    dsimp only
    rw [hread haccept, Option.bind_eq_bind, Option.bind_some, hsome]
    rfl

/-! ### Agreement -/

/-- Both codecs decode every frame to the same message, or reject it with the same code and text. -/
theorem decode_eq_nlohmann (hparse : Nlohmann.Correct parse) (hlib : lib.IsCorrect)
    (frame : Bytes) :
    (∃ msg, Nlohmann.decode parse frame = .ok msg ∧ decode lib frame = .ok msg) ∨
      ∃ err, Nlohmann.decode parse frame = .error (.reject err) ∧
        decode lib frame = .error (.reject err) := by
  rw [← decode_eq hparse hlib frame]
  rcases (errorsIn_decode lib frame).cases with ⟨msg, h⟩ | ⟨halt, ⟨err, rfl⟩, h⟩
  · exact Or.inl ⟨msg, h, h⟩
  · exact Or.inr ⟨err, h, h⟩

/-- A cancel whose tag is spelled with an escape. -/
def escapedCancel : Bytes :=
  ascii ("\x7b\"t\":\"cancel\\u005forder\",\"v\":1,\"seq\":7,\"epoch\":0,\"cl_id\":\"a\"," ++
    "\"px\":1e5\x7d")

theorem decode_eq_nlohmann_escapedCancel :
    ∃ msg, Nlohmann.decode domParse escapedCancel = .ok msg ∧
      decode documentReads escapedCancel = .ok msg := by
  have haccepted : (Nlohmann.decode domParse escapedCancel).toOption.isSome = true := by
    decide +kernel
  rcases decode_eq_nlohmann correct_domParse documentReads_isCorrect escapedCancel with
    h | ⟨err, hnaive, -⟩
  · exact h
  · rw [hnaive] at haccepted
    cases haccepted

end Glaze

end MarketMaker
