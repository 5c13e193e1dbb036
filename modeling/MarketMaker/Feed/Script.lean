import MarketMaker.Codec.Glaze
import MarketMaker.Feed.Loader

/-!
# Scenarios

What a scenario is, in terms of the grammar of JSON (`IsEvent`), and that the loader takes it as
just that. The array of a `set` is split at its commas with no regard to the grammar; the parts are
its elements whenever they pass for integers (`setTokens_eq`).
-/

namespace MarketMaker

namespace Feed

/-! ## Events -/

/-- An integer spelled without a sign, that an `int64` holds. -/
def IsField (token : Bytes) (z : ℤ) : Prop :=
  ∃ n : ℕ, Json.valueOf token = .int false n ∧ z = n ∧ z < 2 ^ 63

/-- The texts of JSON values in an array that is the value of a top-level key. -/
abbrev Element : Bytes → Prop := Json.Value (maxNestingDepth - 2)

/-- The one key of a line and its value say this event. -/
inductive IsEvent : FrameScan → FeedEvent → Prop
  | set {value : Bytes} {tokens : List Bytes} {bidPx bidQty askPx askQty : ℤ}
      (array : Json.IsArrayOf Element tokens value)
      (fields : List.Forall₂ IsField tokens [bidPx, bidQty, askPx, askQty]) :
      IsEvent [(ascii "set", value)] (.set bidPx bidQty askPx askQty)
  | halt {value : Bytes} {negative : Bool} {n : ℕ} {ms : ℤ}
      (token : Json.valueOf value = .int negative n) (eq : ms = Json.signed negative n)
      (pos : 1 ≤ ms) (day : ms ≤ 86400000) : IsEvent [(ascii "halt_ms", value)] (.halt ms)
  | drop : IsEvent [(ascii "drop", ascii "true")] .drop
  | finish : IsEvent [(ascii "end", ascii "true")] .finish

/-- A line of a scenario, and its event. -/
def IsLine (text : Bytes) (event : FeedEvent) : Prop :=
  ∃ scan, framePreflight text = .ok scan ∧ IsEvent scan event

/-! ## Integers -/

section Integers

variable {loc : Loc} {token name ds : Bytes} {negative : Bool} {z : ℤ}

/-- Digits are taken whole. -/
theorem isDecDigit_digits (h : Json.Digits ds) : ds.takeWhile isDecDigit = ds :=
  List.takeWhile_eq_self_iff.mpr h

/-- A token starts with a minus if it is negative. -/
theorem head_isIntToken (h : Json.IsIntToken token negative ds) :
    token.head? = some 0x2D ↔ negative = true := by
  rw [h.eq]
  cases negative with
  | true => exact iff_of_true rfl rfl
  | false => exact iff_of_false (Json.head_ne_minus h.nonempty h.digits) Bool.false_ne_true

/-- `from_chars` reads an integer token that fits. -/
theorem fromChars_isIntToken (h : Json.IsIntToken token negative ds) :
    fromChars token =
      if -2 ^ 63 ≤ Json.signed negative (Json.natValue ds) ∧
          Json.signed negative (Json.natValue ds) < 2 ^ 63
      then some (Json.signed negative (Json.natValue ds)) else none := by
  have hsign : decide (token.head? = some 0x2D) = negative := by
    cases negative with
    | true => exact decide_eq_true ((head_isIntToken h).mpr rfl)
    | false =>
      exact decide_eq_false fun hminus => Bool.false_ne_true ((head_isIntToken h).mp hminus)
  have hdigits : (if token.head? = some 0x2D then token.tail else token) = ds := by
    rw [h.eq]
    cases negative with
    | true => rfl
    | false => exact if_neg (Json.head_ne_minus h.nonempty h.digits)
  have hne : ds.isEmpty = false := List.isEmpty_eq_false_iff.mpr h.nonempty
  simp only [fromChars, hdigits, hsign, isDecDigit_digits h.digits, hne, Bool.false_eq_true,
    if_false]

/-- An integer token that an `int64` holds is read as its value. -/
theorem toI64_eq_ok_iff : toI64 loc token name = .ok z ↔
    ∃ negative n, Json.valueOf token = .int negative n ∧ z = Json.signed negative n ∧
      -2 ^ 63 ≤ z ∧ z < 2 ^ 63 := by
  rw [toI64]
  constructor
  · intro h
    split_ifs at h with hinteger
    · cases h
    rw [Bool.not_eq_true', Bool.not_eq_false] at hinteger
    obtain ⟨negative, ds, htoken⟩ := Nlohmann.isIntegerToken_iff.mp hinteger
    rw [fromChars_isIntToken htoken] at h
    split_ifs at h with hrange
    · cases h
      exact ⟨negative, _, htoken.valueOf_eq, rfl, hrange⟩
    · cases h
  · rintro ⟨negative, n, hvalue, rfl, hrange⟩
    obtain ⟨ds, htoken, rfl⟩ := Json.isIntToken_of_valueOf hvalue
    rw [Nlohmann.isIntegerToken_iff.mpr ⟨_, _, htoken⟩, fromChars_isIntToken htoken, if_pos hrange]
    rfl

/-- A field is read, and passes the check of its sign, when it is spelled without one. -/
theorem isField_iff : IsField token z ↔
    toI64 loc token name = .ok z ∧ token.head? ≠ some 0x2D := by
  rw [toI64_eq_ok_iff]
  constructor
  · rintro ⟨n, hvalue, rfl, hlt⟩
    obtain ⟨ds, htoken, rfl⟩ := Json.isIntToken_of_valueOf hvalue
    refine ⟨⟨false, _, hvalue, rfl, ?_, hlt⟩, fun h => ?_⟩
    · omega
    · exact Bool.false_ne_true ((head_isIntToken htoken).mp h)
  · rintro ⟨⟨negative, n, hvalue, rfl, -, hlt⟩, hhead⟩
    obtain ⟨ds, htoken, rfl⟩ := Json.isIntToken_of_valueOf hvalue
    cases negative with
    | true => exact absurd ((head_isIntToken htoken).mpr rfl) hhead
    | false => exact ⟨_, hvalue, rfl, hlt⟩

/-- A field is digits and a minus. -/
theorem IsField.digit (h : IsField token z) : ∀ c ∈ token, c = 0x2D ∨ Json.isDigit c = true := by
  obtain ⟨n, hvalue, -, -⟩ := h
  obtain ⟨ds, htoken, -⟩ := Json.isIntToken_of_valueOf hvalue
  exact fun c hc => htoken.mem hc

/-- The fields are read if each token is one. -/
theorem setFields_eq_ok_iff {pairs : List (Bytes × Bytes)} {fields : List ℤ} :
    setFields loc pairs = .ok fields ↔ List.Forall₂ IsField (pairs.map Prod.snd) fields := by
  induction pairs generalizing fields with
  | nil =>
    rw [setFields, List.map_nil, List.forall₂_nil_left_iff]
    constructor
    · rintro ⟨⟩
      rfl
    · rintro rfl
      rfl
  | cons pair pairs ih =>
    obtain ⟨name, token⟩ := pair
    rw [setFields, List.map_cons, List.forall₂_cons_left_iff, Except.bind_eq_ok_iff]
    constructor
    · rintro ⟨z, hread, hrest⟩
      by_cases hminus : token.head? = some 0x2D
      · rw [if_pos hminus] at hrest
        cases hrest
      · rw [if_neg hminus] at hrest
        obtain ⟨zs, hzs, hreturn⟩ := Except.bind_eq_ok_iff.mp hrest
        cases hreturn
        exact ⟨z, zs, isField_iff.mpr ⟨hread, hminus⟩, ih.mp hzs, rfl⟩
    · rintro ⟨z, zs, hfield, hzs, rfl⟩
      obtain ⟨hread, hminus⟩ := isField_iff.mp hfield
      refine ⟨z, hread, ?_⟩
      rw [if_neg hminus]
      exact Except.bind_eq_ok_iff.mpr ⟨zs, ih.mpr hzs, rfl⟩

end Integers

/-! ## The array of a `set` -/

section Array

variable {loc : Loc} {value body : Bytes} {tokens : List Bytes} {fields : List ℤ}

/-- The white space of the loader is that of the grammar. -/
theorem isWs_eq : (fun c : UInt8 => decide (c ∈ kJsonWs)) = Json.isWs := by
  funext c
  have hws : kJsonWs = [0x20, 0x09, 0x0A, 0x0D] := rfl
  simp [hws, Json.isWs, Bool.or_assoc]

/-- So is what it trims. -/
theorem trim_eq (t : Bytes) : trim t = Json.trim t := by
  rw [trim, isWs_eq, Json.trim]

/-- The body of an array is what is between its brackets, trimmed. -/
theorem setBody_eq : setBody (0x5B :: (body ++ [0x5D])) = Json.trim body := by
  have hlength : (0x5B :: (body ++ [0x5D])).length - 2 = body.length := by simp
  rw [setBody, hlength, FrameScanner.substr, List.drop_one, List.tail_cons, List.take_left, trim_eq]

/-- Its tokens are split at commas and trimmed. -/
theorem setTokens_setBody : setTokens (setBody (0x5B :: (body ++ [0x5D]))) =
    ((Json.trim body).splitOn 0x2C).map Json.trim := by
  rw [setBody_eq, setTokens]
  exact List.map_congr_left fun t _ => trim_eq t

/-- So no token holds a comma or a bracket. -/
theorem forall_digit_of_forall₂ (h : List.Forall₂ IsField tokens fields) :
    ∀ token ∈ tokens, ∀ c ∈ token, c = 0x2D ∨ Json.isDigit c = true := by
  induction h with
  | nil => exact fun token htoken => by contradiction
  | cons hfield _ ih => exact List.forall_mem_cons.mpr ⟨hfield.digit, ih⟩

/-- The parts of an array are its elements, if they pass for integers. -/
theorem setTokens_eq {d : ℕ} (harray : Json.IsArrayOf (Json.Value d) tokens value)
    (hbody : setBody value ≠ [])
    (hfields : List.Forall₂ IsField (setTokens (setBody value)) fields) :
    setTokens (setBody value) = tokens := by
  obtain ⟨body, ⟨hblank, rfl⟩ | helements, rfl⟩ := harray
  · have hempty : Json.trim body = [] := by
      have hdrop : body.dropWhile Json.isWs = [] := List.dropWhile_eq_nil_iff.mpr hblank
      rw [Json.trim, hdrop]
      rfl
    exact absurd (setBody_eq.trans hempty) hbody
  · have hparts := forall_digit_of_forall₂ hfields
    rw [setTokens_setBody] at hparts ⊢
    exact Json.splitOn_elementList_of_parts helements hparts

/-- So they are if the elements are integers. -/
theorem setTokens_eq_of_elements {P : Bytes → Prop} (harray : Json.IsArrayOf P tokens value)
    (hne : tokens ≠ []) (hfields : List.Forall₂ IsField tokens fields) :
    setTokens (setBody value) = tokens := by
  obtain ⟨body, ⟨-, rfl⟩ | helements, rfl⟩ := harray
  · exact absurd rfl hne
  · rw [setTokens_setBody]
    exact Json.splitOn_elementList_of_elements helements (forall_digit_of_forall₂ hfields)

/-- An array starts with its bracket, and no other value does. -/
theorem isArray_of_head {d : ℕ} (hvalue : Json.Value (d + 1) value)
    (hhead : value.head? = some 0x5B) : Json.IsArray (Json.Value d) value := by
  rcases hvalue with hscalar | harray | ⟨ms, body, -, rfl⟩
  · obtain ⟨c, t, rfl, -, -, hopen, -⟩ := hscalar.head
    exact absurd (Option.some.inj hhead) hopen
  · exact harray
  · exact absurd (Option.some.inj hhead) (by decide)

/-- What `parse_set` needs, apart from the grammar. -/
theorem parseSet_eq_ok_iff {event : FeedEvent} : parseSet loc value = .ok event ↔
    value.head? = some 0x5B ∧ setBody value ≠ [] ∧
      ∃ bidPx bidQty askPx askQty, event = .set bidPx bidQty askPx askQty ∧
        List.Forall₂ IsField (setTokens (setBody value)) [bidPx, bidQty, askPx, askQty] := by
  have hzip {tokens : List Bytes} (h : tokens.length = setNames.length) :
      (setNames.zip tokens).map Prod.snd = tokens := List.map_snd_zip h.le
  rw [parseSet]
  by_cases hhead : value.head? = some 0x5B
  · rw [if_neg (not_not_intro hhead)]
    dsimp only
    by_cases hempty : (setBody value).isEmpty
    · rw [if_pos hempty]
      refine iff_of_false (fun h => by contradiction) fun h => h.2.1 (List.isEmpty_iff.mp hempty)
    rw [if_neg hempty, Except.bind_eq_ok_iff]
    constructor
    · rintro ⟨fields, hfields, hrest⟩
      by_cases hlength : (setTokens (setBody value)).length = setNames.length
      · rw [if_neg (not_not_intro hlength)] at hrest
        cases hrest
        rw [setFields_eq_ok_iff, hzip hlength] at hfields
        have hfour : fields.length = 4 := hfields.length_eq.symm.trans hlength
        obtain ⟨bidPx, bidQty, askPx, askQty, rfl⟩ := List.length_eq_four.mp hfour
        exact ⟨hhead, fun h => hempty (List.isEmpty_iff.mpr h), bidPx, bidQty, askPx, askQty, rfl,
          hfields⟩
      · rw [if_pos hlength] at hrest
        cases hrest
    · rintro ⟨-, -, bidPx, bidQty, askPx, askQty, rfl, hfields⟩
      have hlength : (setTokens (setBody value)).length = setNames.length := hfields.length_eq
      refine ⟨[bidPx, bidQty, askPx, askQty], ?_, ?_⟩
      · rw [setFields_eq_ok_iff, hzip hlength]
        exact hfields
      · rw [if_neg (not_not_intro hlength)]
        rfl
  · rw [if_pos hhead]
    exact iff_of_false (fun h => by contradiction) fun h => hhead h.1

/-- A `set` is an array of four fields, and the parts are its elements. -/
theorem parseSet_iff {d : ℕ} {event : FeedEvent} (hvalue : Json.Value (d + 1) value) :
    parseSet loc value = .ok event ↔
      ∃ tokens bidPx bidQty askPx askQty, Json.IsArrayOf (Json.Value d) tokens value ∧
        List.Forall₂ IsField tokens [bidPx, bidQty, askPx, askQty] ∧
          event = .set bidPx bidQty askPx askQty := by
  rw [parseSet_eq_ok_iff]
  constructor
  · rintro ⟨hhead, hbody, bidPx, bidQty, askPx, askQty, rfl, hfields⟩
    obtain ⟨tokens, harray⟩ := Json.isArray_iff.mp (isArray_of_head hvalue hhead)
    rw [setTokens_eq harray hbody hfields] at hfields
    exact ⟨tokens, bidPx, bidQty, askPx, askQty, harray, hfields, rfl⟩
  · rintro ⟨tokens, bidPx, bidQty, askPx, askQty, harray, hfields, rfl⟩
    have hne : tokens ≠ [] := by
      rintro rfl
      cases hfields
    have htokens := setTokens_eq_of_elements harray hne hfields
    have hhead : value.head? = some 0x5B := by
      obtain ⟨body, -, rfl⟩ := harray
      rfl
    refine ⟨hhead, fun hempty => ?_, bidPx, bidQty, askPx, askQty, rfl, by rwa [htokens]⟩
    -- an empty body has one empty part
    have hone : setTokens [] = [[]] := rfl
    have hlength := hfields.length_eq
    rw [← htokens, hempty, hone] at hlength
    have hfour : 1 = 4 := hlength
    exact absurd hfour (by decide)

end Array

/-! ## Lines -/

section Lines

variable {loc : Loc} {value text : Bytes} {event : FeedEvent}

/-- A halt is an integer of the allowed range. -/
theorem parseHalt_eq_ok_iff : parseHalt loc value = .ok event ↔
    ∃ negative n ms, Json.valueOf value = .int negative n ∧ ms = Json.signed negative n ∧
      1 ≤ ms ∧ ms ≤ 86400000 ∧ event = .halt ms := by
  rw [parseHalt, Except.bind_eq_ok_iff]
  constructor
  · rintro ⟨ms, hread, hrest⟩
    obtain ⟨negative, n, hvalue, heq, -⟩ := toI64_eq_ok_iff.mp hread
    by_cases hpos : ms ≤ 0
    · rw [if_pos hpos] at hrest
      cases hrest
    rw [if_neg hpos] at hrest
    dsimp only at hrest
    by_cases hday : ms > maxHaltMs
    · rw [if_pos hday] at hrest
      cases hrest
    rw [if_neg hday] at hrest
    cases hrest
    exact ⟨negative, n, ms, hvalue, heq, by omega, not_lt.mp hday, rfl⟩
  · rintro ⟨negative, n, ms, hvalue, heq, hpos, hday, rfl⟩
    have hmax : maxHaltMs = 86400000 := rfl
    refine ⟨ms, toI64_eq_ok_iff.mpr ⟨negative, n, hvalue, heq, by omega, by omega⟩, ?_⟩
    rw [if_neg (by omega), if_neg (by omega)]
    rfl

/-- A flag has to be `true`. -/
theorem requireTrue_eq_ok_iff {name : Bytes} :
    requireTrue loc value name = .ok () ↔ value = ascii "true" := by
  rw [requireTrue]
  split_ifs with h
  · exact iff_of_false (fun h => by contradiction) h
  · exact iff_of_true rfl (not_not.mp h)

/-- So the event is given if it is. -/
theorem requireTrue_and_iff {name : Bytes} {said : FeedEvent} :
    (do requireTrue loc value name; return said) = .ok event ↔
      value = ascii "true" ∧ event = said := by
  rw [Except.andThen_eq_ok_iff, requireTrue_eq_ok_iff]
  exact and_congr_right fun _ =>
    ⟨fun h => (Except.ok.inj h).symm, fun h => congrArg Except.ok h.symm⟩

/-- Of one key. -/
theorem isEvent_singleton {key : Bytes} : IsEvent [(key, value)] event ↔
    key = ascii "set" ∧ (∃ tokens bidPx bidQty askPx askQty, Json.IsArrayOf Element tokens value ∧
        List.Forall₂ IsField tokens [bidPx, bidQty, askPx, askQty] ∧
          event = .set bidPx bidQty askPx askQty) ∨
      key = ascii "halt_ms" ∧ (∃ negative n ms, Json.valueOf value = .int negative n ∧
        ms = Json.signed negative n ∧ 1 ≤ ms ∧ ms ≤ 86400000 ∧ event = .halt ms) ∨
      key = ascii "drop" ∧ value = ascii "true" ∧ event = .drop ∨
      key = ascii "end" ∧ value = ascii "true" ∧ event = .finish := by
  constructor
  · rintro (⟨array, fields⟩ | ⟨token, eq, pos, day⟩ | _ | _)
    · exact Or.inl ⟨rfl, _, _, _, _, _, array, fields, rfl⟩
    · exact Or.inr (Or.inl ⟨rfl, _, _, _, token, eq, pos, day, rfl⟩)
    · exact Or.inr (Or.inr (Or.inl ⟨rfl, rfl, rfl⟩))
    · exact Or.inr (Or.inr (Or.inr ⟨rfl, rfl, rfl⟩))
  · rintro (⟨rfl, _, _, _, _, _, array, fields, rfl⟩ | ⟨rfl, _, _, _, token, eq, pos, day, rfl⟩ |
      ⟨rfl, rfl, rfl⟩ | ⟨rfl, rfl, rfl⟩)
    · exact .set array fields
    · exact .halt token eq pos day
    · exact .drop
    · exact .finish

/-- A line is parsed as its event. -/
theorem parseLine_eq_ok_iff : parseLine loc text = .ok event ↔ IsLine text event := by
  rw [IsLine, parseLine]
  rcases framePreflight_cases text with ⟨scan, hok, haccept⟩ | ⟨⟨err, herror⟩, -⟩
  · have hscan : (∃ scan, framePreflight text = .ok scan ∧ IsEvent scan event) ↔
        IsEvent scan event := by
      rw [hok]
      exact ⟨fun ⟨_, heq, hevent⟩ => Except.ok.inj heq ▸ hevent, fun h => ⟨scan, rfl, h⟩⟩
    rw [hscan, hok]
    rcases scan with _ | ⟨⟨key, value⟩, _ | ⟨field, fields⟩⟩
    · exact iff_of_false (fun h => by contradiction) fun h => by contradiction
    · have hvalue : Json.Value (maxNestingDepth - 2 + 1) value :=
        (haccept.text.valid haccept.utf8 _ List.mem_cons_self).1
      rw [isEvent_singleton]
      dsimp only
      -- no two of the four keys are the same
      split_ifs with hset hhalt hdrop hend
      · have hne : ascii "set" ≠ ascii "halt_ms" ∧ ascii "set" ≠ ascii "drop" ∧
            ascii "set" ≠ ascii "end" := by decide
        rw [parseSet_iff hvalue, hset]
        simp only [hne, true_and, false_and, or_false, Element]
      · have hne : ascii "halt_ms" ≠ ascii "drop" ∧ ascii "halt_ms" ≠ ascii "end" := by decide
        rw [hhalt] at hset ⊢
        rw [parseHalt_eq_ok_iff]
        simp only [hset, hne, true_and, false_and, false_or, or_false]
      · have hne : ascii "drop" ≠ ascii "end" := by decide
        rw [hdrop] at hset hhalt ⊢
        rw [requireTrue_and_iff]
        simp only [hset, hhalt, hne, true_and, false_and, false_or, or_false]
      · rw [hend] at hset hhalt hdrop ⊢
        rw [requireTrue_and_iff]
        simp only [hset, hhalt, hdrop, true_and, false_and, false_or]
      · simp only [hset, hhalt, hdrop, hend, false_and, or_false]
        exact iff_of_false (fun h => by contradiction) id
    · exact iff_of_false (fun h => by contradiction) fun h => by contradiction
  · rw [herror]
    refine iff_of_false (fun h => by contradiction) ?_
    rintro ⟨scan, hok, -⟩
    cases hok

/-- The errors of `reject` at a place. -/
def IsRejected (loc : Loc) (error : FeedError) : Prop := ∃ why, error = .rejected loc why

/-- A rejection names its line. -/
theorem errorsIn_reject {α : Type} (loc : Loc) (why : Bytes) :
    (reject loc why : Except FeedError α).ErrorsIn (IsRejected loc) := .error ⟨why, rfl⟩

/-- So does a token that is no number. -/
theorem errorsIn_toI64 (loc : Loc) (token name : Bytes) :
    (toI64 loc token name).ErrorsIn (IsRejected loc) := by
  rw [toI64]
  refine .ite (errorsIn_reject loc _) ?_
  cases fromChars token with
  | some z => exact .ok z
  | none => exact errorsIn_reject loc _

/-- So do fields. -/
theorem errorsIn_setFields (loc : Loc) (pairs : List (Bytes × Bytes)) :
    (setFields loc pairs).ErrorsIn (IsRejected loc) := by
  induction pairs with
  | nil => exact .ok []
  | cons pair pairs ih =>
    obtain ⟨name, token⟩ := pair
    refine (errorsIn_toI64 loc token name).bind fun z => ?_
    have hrest := ih.bind fun zs => Except.ErrorsIn.ok (z :: zs)
    exact .ite ((errorsIn_reject loc _).bind fun _ => hrest) hrest

/-- So does a book. -/
theorem errorsIn_parseSet (loc : Loc) (value : Bytes) :
    (parseSet loc value).ErrorsIn (IsRejected loc) := by
  rw [parseSet]
  refine .ite ((errorsIn_reject loc _).bind fun _ => ?_) ?_
  all_goals
    refine .ite ((errorsIn_reject loc _).bind fun _ => ?_) ?_
    all_goals
      refine (errorsIn_setFields loc _).bind fun fields => ?_
      exact .ite ((errorsIn_reject loc _).bind fun _ => .ok _) (.ok _)

/-- So does a halt. -/
theorem errorsIn_parseHalt (loc : Loc) (value : Bytes) :
    (parseHalt loc value).ErrorsIn (IsRejected loc) := by
  refine (errorsIn_toI64 loc value _).bind fun ms => ?_
  refine .ite ((errorsIn_reject loc _).bind fun _ => ?_) ?_
  all_goals exact .ite ((errorsIn_reject loc _).bind fun _ => .ok _) (.ok _)

/-- So does a flag. -/
theorem errorsIn_requireTrue (loc : Loc) (value name : Bytes) :
    (requireTrue loc value name).ErrorsIn (IsRejected loc) := .ite (errorsIn_reject loc _) (.ok ())

/-- So does every line. -/
theorem errorsIn_parseLine (loc : Loc) (text : Bytes) :
    (parseLine loc text).ErrorsIn (IsRejected loc) := by
  rw [parseLine]
  rcases framePreflight_cases text with ⟨scan, hok, -⟩ | ⟨⟨err, herror⟩, -⟩
  · rw [hok]
    rcases scan with _ | ⟨⟨key, value⟩, _ | ⟨field, fields⟩⟩
    · exact errorsIn_reject loc _
    · refine .ite (errorsIn_parseSet loc value)
        (.ite (errorsIn_parseHalt loc value) (.ite ?_ (.ite ?_
        (errorsIn_reject loc _))))
      · exact (errorsIn_requireTrue loc value _).bind fun _ => .ok _
      · exact (errorsIn_requireTrue loc value _).bind fun _ => .ok _
    · exact errorsIn_reject loc _
  · rw [herror]
    exact errorsIn_reject loc _

/-- A line that is not parsed is refused at its place. -/
theorem parseLine_cases (loc : Loc) (text : Bytes) :
    (∃ event, parseLine loc text = .ok event ∧ IsLine text event) ∨
      (∃ why, parseLine loc text = .error (.rejected loc why)) ∧ ∀ event, ¬ IsLine text event := by
  rcases (errorsIn_parseLine loc text).cases with ⟨event, hok⟩ | ⟨_, ⟨why, rfl⟩, herror⟩
  · exact Or.inl ⟨event, hok, parseLine_eq_ok_iff.mp hok⟩
  · refine Or.inr ⟨⟨why, herror⟩, fun event hline => ?_⟩
    rw [parseLine_eq_ok_iff.mpr hline] at herror
    cases herror

end Lines

/-! ## Scenarios -/

section Scenarios

variable {source : Bytes} {lineNo : ℕ} {ended : Bool} {lines : List Bytes} {events : List FeedEvent}

/-- A line says one event. -/
theorem IsLine.unique {text : Bytes} {event event' : FeedEvent} (h : IsLine text event)
    (h' : IsLine text event') : event = event' := by
  have hok : parseLine ⟨[], 0⟩ text = .ok event := parseLine_eq_ok_iff.mpr h
  rw [parseLine_eq_ok_iff.mpr h'] at hok
  exact (Except.ok.inj hok).symm

/-- A line of the scenario that is none, or that comes after an `end`. -/
def OffendsAfter (ended : Bool) (lines : List Bytes) (i : ℕ) : Prop :=
  ∃ line, lines[i]? = some line ∧ ((∀ event, ¬ IsLine line event) ∨ ended = true ∨
    ∃ j < i, ∃ earlier, lines[j]? = some earlier ∧ IsLine earlier .finish)

/-- A line of the whole scenario offends. -/
abbrev Offends (lines : List Bytes) (i : ℕ) : Prop := OffendsAfter false lines i

/-- The first line offends if it says nothing, or if the script has ended. -/
theorem offendsAfter_zero {line : Bytes} : OffendsAfter ended (line :: lines) 0 ↔
    (∀ event, ¬ IsLine line event) ∨ ended = true := by
  constructor
  · rintro ⟨_, ⟨⟩, hbad | hended | ⟨j, hj, -⟩⟩
    · exact Or.inl hbad
    · exact Or.inr hended
    · exact absurd hj (Nat.not_lt_zero j)
  · rintro (hbad | hended)
    · exact ⟨line, rfl, Or.inl hbad⟩
    · exact ⟨line, rfl, Or.inr (Or.inl hended)⟩

/-- Behind a line, what counts of it is whether it was an `end`. -/
theorem offendsAfter_succ {line : Bytes} {event : FeedEvent} (hline : IsLine line event) (i : ℕ) :
    OffendsAfter false (line :: lines) (i + 1) ↔ OffendsAfter (event = .finish) lines i := by
  constructor
  · rintro ⟨l, hl, hbad | hfalse | ⟨_ | j, hj, earlier, hearlier, hend⟩⟩
    · exact ⟨l, hl, Or.inl hbad⟩
    · exact absurd hfalse Bool.false_ne_true
    · cases hearlier
      exact ⟨l, hl, Or.inr (Or.inl (decide_eq_true (hline.unique hend)))⟩
    · exact ⟨l, hl, Or.inr (Or.inr ⟨j, Nat.lt_of_succ_lt_succ hj, earlier, hearlier, hend⟩)⟩
  · rintro ⟨l, hl, hbad | hfinish | ⟨j, hj, earlier, hearlier, hend⟩⟩
    · exact ⟨l, hl, Or.inl hbad⟩
    · rw [of_decide_eq_true hfinish] at hline
      exact ⟨l, hl, Or.inr (Or.inr ⟨0, Nat.succ_pos i, line, rfl, hline⟩)⟩
    · exact ⟨l, hl, Or.inr (Or.inr ⟨j + 1, Nat.succ_lt_succ hj, earlier, hearlier, hend⟩)⟩

/-- The loop loads every line, or stops at the first that offends. -/
theorem loadLines_cases (source : Bytes) (lineNo : ℕ) (ended : Bool) (lines : List Bytes) :
    (∃ events, loadLines source lineNo ended lines = .ok events ∧
        List.Forall₂ IsLine lines events ∧ FeedEvent.finish ∉ events.dropLast ∧
          (ended = true → lines = [])) ∨
      ∃ i why, loadLines source lineNo ended lines =
          .error (.rejected ⟨source, lineNo + i + 1⟩ why) ∧
        OffendsAfter ended lines i ∧ ∀ j < i, ¬ OffendsAfter ended lines j := by
  induction lines generalizing lineNo ended with
  | nil => exact Or.inl ⟨[], rfl, .nil, List.not_mem_nil, fun _ => rfl⟩
  | cons line lines ih =>
    rw [loadLines]
    cases ended with
    | true =>
      refine Or.inr ⟨0, _, rfl, offendsAfter_zero.mpr (Or.inr rfl), fun j hj => ?_⟩
      exact absurd hj (Nat.not_lt_zero j)
    | false =>
      dsimp only
      rw [if_neg Bool.false_ne_true]
      rcases parseLine_cases ⟨source, lineNo + 1⟩ line with ⟨event, hparse, hline⟩ |
        ⟨⟨why, hparse⟩, hbad⟩
      · rw [hparse]
        have hzero : ¬ OffendsAfter false (line :: lines) 0 := by
          rw [offendsAfter_zero]
          rintro (hnone | hfalse)
          · exact hnone event hline
          · exact Bool.false_ne_true hfalse
        rcases ih (lineNo + 1) (event = .finish) with ⟨events, hload, hevents, hfinish, hended⟩ |
          ⟨i, why, hload, hoffends, hfirst⟩
        · refine Or.inl ⟨event :: events, ?_, .cons hline hevents, ?_, fun h => by contradiction⟩
          · dsimp only [bind, Except.bind]
            rw [hload]
            rfl
          · -- an `end` is the last line
            cases events with
            | nil => exact List.not_mem_nil
            | cons e events =>
              rw [List.dropLast_cons_cons, List.mem_cons, not_or]
              refine ⟨fun heq => ?_, hfinish⟩
              rw [hended (decide_eq_true heq.symm)] at hevents
              cases hevents
        · refine Or.inr ⟨i + 1, why, ?_, (offendsAfter_succ hline i).mpr hoffends, fun j hj => ?_⟩
          · have hloc : lineNo + (i + 1) + 1 = lineNo + 1 + i + 1 := by omega
            dsimp only [bind, Except.bind]
            rw [hload, hloc]
          · cases j with
            | zero => exact hzero
            | succ j =>
              rw [offendsAfter_succ hline]
              exact hfirst j (Nat.lt_of_succ_lt_succ hj)
      · rw [hparse]
        refine Or.inr ⟨0, why, rfl, offendsAfter_zero.mpr (Or.inl hbad), fun j hj => ?_⟩
        exact absurd hj (Nat.not_lt_zero j)

/-- No line of a scenario offends. -/
theorem not_offends (h : List.Forall₂ IsLine lines events)
    (hfinish : FeedEvent.finish ∉ events.dropLast) (i : ℕ) : ¬ Offends lines i := by
  induction h generalizing i with
  | nil =>
    rintro ⟨line, hline, -⟩
    cases hline
  | @cons line event lines events hline hevents ih =>
    cases i with
    | zero =>
      rw [Offends, offendsAfter_zero]
      rintro (hnone | hfalse)
      · exact hnone event hline
      · exact Bool.false_ne_true hfalse
    | succ i =>
      rw [Offends, offendsAfter_succ hline]
      cases hevents with
      | nil =>
        rintro ⟨l, hl, -⟩
        cases hl
      | cons hl hls =>
        rw [List.dropLast_cons_cons, List.mem_cons, not_or] at hfinish
        rw [decide_eq_false fun heq : event = .finish => hfinish.1 heq.symm]
        exact ih hfinish.2 i

/-- So the lines say one script. -/
theorem forall₂_isLine_unique {events' : List FeedEvent} (h : List.Forall₂ IsLine lines events)
    (h' : List.Forall₂ IsLine lines events') : events = events' := by
  induction h generalizing events' with
  | nil =>
    cases h'
    rfl
  | cons hline _ ih =>
    cases h' with
    | cons hline' hlines' => rw [hline.unique hline', ih hlines']

/-- A script whose lines are read is loaded, unless it is empty. -/
theorem loadFeedStream_of_ok {stream label : Bytes}
    (h : loadLines label 0 false (getlines stream) = .ok events) :
    loadFeedStream stream label = if events = [] then .error (.noEvents label) else .ok events := by
  rw [loadFeedStream, h]
  cases events with
  | nil => rfl
  | cons event events => rfl

/-- The error of a line is that of the script. -/
theorem loadFeedStream_of_error {stream label : Bytes} {error : FeedError}
    (h : loadLines label 0 false (getlines stream) = .error error) :
    loadFeedStream stream label = .error error := by
  rw [loadFeedStream, h]
  rfl

/-- The loader takes a stream exactly when it is a scenario, one event a line; it names the first
line that offends when it does not; and the array of a `set` that it takes is split into its
elements. -/
theorem loadFeedStream_verdict (stream label : Bytes) :
    (∀ events, loadFeedStream stream label = .ok events ↔ getlines stream ≠ [] ∧
        List.Forall₂ IsLine (getlines stream) events ∧ FeedEvent.finish ∉ events.dropLast) ∧
      (∀ error, loadFeedStream stream label = .error error →
        getlines stream = [] ∧ error = .noEvents label ∨
          ∃ i why, error = .rejected ⟨label, i + 1⟩ why ∧ Offends (getlines stream) i ∧
            ∀ j < i, ¬ Offends (getlines stream) j) ∧
      ∀ line ∈ getlines stream, ∀ value, framePreflight line = .ok [(ascii "set", value)] →
        ∀ loc event, parseSet loc value = .ok event →
          Json.IsArrayOf Element (setTokens (setBody value)) value ∧
            ∀ tokens, Json.IsArrayOf Element tokens value →
              tokens = setTokens (setBody value) := by
  refine ⟨fun events => ?_, fun error herror => ?_, fun line _ value hline loc event hset => ?_⟩
  · rcases loadLines_cases label 0 false (getlines stream) with
      ⟨loaded, hload, hevents, hfinish, -⟩ | ⟨i, why, hload, hoffends, -⟩
    · rw [loadFeedStream_of_ok hload]
      constructor
      · intro h
        split_ifs at h with hempty
        cases h
        refine ⟨fun hnil => hempty ?_, hevents, hfinish⟩
        rw [hnil] at hevents
        cases hevents
        rfl
      · rintro ⟨hne, hall, -⟩
        rw [forall₂_isLine_unique hevents hall, if_neg]
        rintro rfl
        exact hne (List.forall₂_nil_right_iff.mp hall)
    · rw [loadFeedStream_of_error hload]
      refine iff_of_false (fun h => by contradiction) ?_
      rintro ⟨-, hall, hfinish⟩
      exact not_offends hall hfinish i hoffends
  · rcases loadLines_cases label 0 false (getlines stream) with
      ⟨loaded, hload, hevents, -, -⟩ | ⟨i, why, hload, hoffends, hfirst⟩
    · rw [loadFeedStream_of_ok hload] at herror
      split_ifs at herror with hempty
      cases herror
      rw [hempty] at hevents
      exact Or.inl ⟨List.forall₂_nil_right_iff.mp hevents, rfl⟩
    · rw [loadFeedStream_of_error hload] at herror
      cases herror
      exact Or.inr ⟨i, why, by rw [Nat.zero_add], hoffends, hfirst⟩
  · have haccept := framePreflight_eq_ok_iff.mp hline
    have hvalue : Json.Value (maxNestingDepth - 2 + 1) value :=
      (haccept.text.valid haccept.utf8 _ List.mem_cons_self).1
    obtain ⟨hhead, hbody, _, _, _, _, -, hfields⟩ := parseSet_eq_ok_iff.mp hset
    obtain ⟨tokens, harray⟩ := Json.isArray_iff.mp (isArray_of_head hvalue hhead)
    refine ⟨(setTokens_eq harray hbody hfields).symm ▸ harray, fun tokens' harray' => ?_⟩
    exact (setTokens_eq harray' hbody hfields).symm

end Scenarios

end Feed

end MarketMaker
