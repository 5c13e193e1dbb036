import MarketMaker.Client.Reception
import MarketMaker.Client.Tags

/-!
# What a rejection says

The reason of a reject that a session answers an undecodable frame with is the text of the codec. It
is short, it holds no control byte and it is UTF-8, whatever the frame holds: the texts of the
source are plain ASCII, the scanner adds an index within the frame, and the tag that is shown of a
frame of an unknown type is cut and cleaned.

A computation that ends in `Halt.outside`, `Halt.assertion` or `Halt.fuel` has no text. `Tells` asks
nothing of those, so that the walk over the scanner does not have to exclude them once more.
-/

namespace MarketMaker

open Client (FitsIdentifier maxTextLen)
open FrameScanner

namespace Link

/-! ## Plain texts -/

/-- Printable ASCII. -/
def Plain (t : Bytes) : Prop := ∀ c ∈ t, 0x20 ≤ c ∧ c < 0x7F

instance decidablePlain (t : Bytes) : Decidable (Plain t) :=
  List.decidableBAll (fun c => 0x20 ≤ c ∧ c < 0x7F) t

theorem Plain.append {s t : Bytes} (hs : Plain s) (ht : Plain t) : Plain (s ++ t) := fun c hc =>
  (List.mem_append.mp hc).elim (hs c) (ht c)

theorem Plain.valid {t : Bytes} (h : Plain t) : Utf8.Valid t :=
  Json.valid_of_ascii fun c hc => (h c hc).2.trans (by decide)

theorem Plain.fits {cap : ℕ} {t : Bytes} (h : Plain t) (hlength : t.length ≤ cap) :
    FitsIdentifier cap t :=
  ⟨⟨hlength, fun c hc => ⟨(h c hc).1, (h c hc).2.ne⟩⟩, h.valid⟩

theorem plain_decimal (n : ℕ) : Plain (Json.decimal n) := by
  intro c hc
  have hdigit := Json.isDigit_iff.mp (Json.digits_decimal n c hc)
  rw [UInt8.le_iff_toNat_le, UInt8.lt_iff_toNat_lt]
  simp only [UInt8.reduceToNat]
  omega

theorem ascii_toString (n : ℕ) : ascii (toString n) = Json.decimal n := by
  change n.repr.toList.map _ = _
  rw [Nat.toList_repr]
  rfl

/-- The texts of the scanner and of the codec. -/
def texts : List String :=
  ["empty frame", "truncated frame", "root is not an object", "trailing content after the frame",
    "expected ':'", "expected ',' or a matching close bracket", "expected a string key",
    "too many top-level keys", "nesting depth exceeds the limit", "invalid literal",
    "invalid number token", "invalid string escape or unterminated string",
    "unpaired surrogate escape in a string", "raw control byte inside a string",
    "raw control byte outside a string", "UTF-8 BOM", "invalid UTF-8",
    "escape sequence in a top-level key", "duplicate top-level key", "t missing or not a string",
    "v missing or not an unsigned integer", "new_order: missing or mistyped field",
    "cancel_order: missing or mistyped field", "cl_id exceeds the length cap",
    "symbol exceeds the length cap", "side exceeds the length cap", "control byte in cl_id",
    "control byte in symbol", "control byte in side", " (byte ", ")", "v=", "unknown inbound t: "]

theorem plain_texts : ∀ t ∈ texts, Plain (ascii t) ∧ (ascii t).length ≤ 64 := by decide +kernel

/-! ## The scanner -/

/-- If it is a rejection, its text can be shown. -/
def Tells (halt : Halt) : Prop := ∀ err, halt = .reject err → FitsIdentifier maxTextLen err.detail

theorem tells_outside : Tells .outside := fun _ h => by cases h

theorem tells_assertion : Tells .assertion := fun _ h => by cases h

theorem tells_fuel : Tells .fuel := fun _ h => by cases h

/-- A text of the source. -/
theorem tells_malformed {detail : String} (h : detail ∈ texts) : Tells (malformed detail) := by
  rintro err ⟨⟩
  exact (plain_texts _ h).1.fits ((plain_texts _ h).2.trans (by decide))

section Scanner

variable {f : Bytes} {s u : FrameScanner} {c : UInt8} {i j : ℕ}

/-- A text of the source, and an index. -/
theorem tells_reject {what : String} (h : what ∈ texts) (hi : s.i < 10 ^ 20) :
    Tells (s.reject what) := by
  rintro err ⟨⟩
  have hdigits : (Json.decimal s.i).length ≤ 20 := Json.length_decimal_le hi (by decide)
  obtain ⟨hwhat, hlength⟩ := plain_texts _ h
  obtain ⟨hopen, hopenLength⟩ := plain_texts " (byte " (by simp [texts])
  obtain ⟨hclose, hcloseLength⟩ := plain_texts ")" (by simp [texts])
  rw [ascii_toString]
  refine (((hwhat.append hopen).append (plain_decimal _)).append hclose).fits ?_
  simp only [List.length_append, maxTextLen]
  omega

theorem errorsIn_charAt (f : Bytes) (i : ℕ) : (charAt f i).ErrorsIn Tells := by
  rw [charAt]
  cases f[i]? with
  | some c => exact .ok c
  | none => exact .error tells_outside

theorem lt_of_charAt (h : charAt f i = .ok c) : i < f.length := by
  rw [charAt] at h
  cases hc : f[i]? with
  | none =>
    rw [hc] at h
    cases h
  | some d => exact (List.getElem?_eq_some_iff.mp hc).1

theorem errorsIn_scanHexLoop (f : Bytes) (k cu i : ℕ) : (scanHexLoop f k cu i).ErrorsIn Tells := by
  induction k generalizing cu i with
  | zero => exact .ok _
  | succ k ih =>
    refine .bind (errorsIn_charAt f i) fun c => ?_
    cases hexDigit c with
    | some d => exact ih _ _
    | none => exact .ok _

theorem errorsIn_scanHex4 (f : Bytes) (i : ℕ) : (scanHex4 f i).ErrorsIn Tells :=
  .ite (.ok _) (errorsIn_scanHexLoop f 4 0 i)

theorem errorsIn_scanUnicode (f : Bytes) (i : ℕ) : (scanUnicode f i).ErrorsIn Tells := by
  refine .bind (errorsIn_scanHex4 f i) fun first => ?_
  refine .ite (.ok _) (.ite (.ok _) (.ite ?_ (.ok _)))
  refine .ite (.ok _) (.bind (errorsIn_charAt f _) fun c => .bind (errorsIn_charAt f _) fun d => ?_)
  refine .ite (.ok _) (.bind (errorsIn_scanHex4 f _) fun second => ?_)
  exact .ite (.ok _) (.ite (.ok _) (.ok _))

theorem errorsIn_scanStringLoop (f : Bytes) (fuel i : ℕ) :
    (scanStringLoop f fuel i).ErrorsIn Tells := by
  induction fuel generalizing i with
  | zero => exact .error tells_fuel
  | succ fuel ih =>
    rw [scanStringLoop]
    cases f[i]? with
    | none => exact .ok _
    | some c =>
      refine .ite (.ok _) (.ite (.ok _) (.ite (ih _) ?_))
      cases f[i + 1]? with
      | none => exact .ok _
      | some e =>
        refine .ite (ih _) (.ite ?_ (.ok _))
        exact .bind (errorsIn_scanUnicode f _) fun res => .ite (ih _) (.ok _)

theorem errorsIn_scanString (f : Bytes) (i : ℕ) : (scanString f i).ErrorsIn Tells :=
  errorsIn_scanStringLoop f _ _

theorem errorsIn_scanNumber (f : Bytes) (i : ℕ) : (scanNumber f i).ErrorsIn Tells := by
  refine .bind (errorsIn_charAt f i) fun c => .ite (.ok _) ?_
  exact .bind (errorsIn_charAt f _) fun d => .ite (.ok _) (.ok _)

/-! ### The index stays within the frame -/

theorem scanHexLoop_le {k cu : ℕ} {res : ℕ × ℕ} (hi : i ≤ f.length)
    (h : scanHexLoop f k cu i = .ok res) : res.2 ≤ f.length := by
  induction k generalizing cu i with
  | zero =>
    cases h
    exact hi
  | succ k ih =>
    obtain ⟨c, hc, h⟩ := Except.bind_eq_ok_iff.mp h
    cases hdigit : hexDigit c with
    | some d =>
      rw [hdigit] at h
      exact ih (lt_of_charAt hc) h
    | none =>
      rw [hdigit] at h
      cases h
      exact hi

theorem scanHex4_le {res : ℕ × ℕ} (hi : i ≤ f.length) (h : scanHex4 f i = .ok res) :
    res.2 ≤ f.length := by
  rw [scanHex4] at h
  split_ifs at h
  · cases h
    exact hi
  · exact scanHexLoop_le hi h

theorem scanUnicode_le {res : Tok × ℕ} (hi : i ≤ f.length) (h : scanUnicode f i = .ok res) :
    res.2 ≤ f.length := by
  obtain ⟨⟨cu, j⟩, hfirst, h⟩ := Except.bind_eq_ok_iff.mp h
  have hj : j ≤ f.length := scanHex4_le hi hfirst
  dsimp only at h
  split_ifs at h with hbad hlow hhigh hshort
  · cases h
    exact hj
  · cases h
    exact hj
  · cases h
    exact hj
  · -- a high surrogate: the index moves past the next escape
    obtain ⟨c, hc, h⟩ := Except.bind_eq_ok_iff.mp h
    obtain ⟨d, hd, h⟩ := Except.bind_eq_ok_iff.mp h
    split_ifs at h
    · cases h
      exact hj
    · obtain ⟨⟨lo, k⟩, hsecond, h⟩ := Except.bind_eq_ok_iff.mp h
      have hk : k ≤ f.length := scanHex4_le (lt_of_charAt hd) hsecond
      dsimp only at h
      split_ifs at h
      all_goals
        cases h
        exact hk
  · cases h
    exact hj

theorem scanStringLoop_le {fuel : ℕ} {res : Tok × ℕ} (hi : i ≤ f.length)
    (h : scanStringLoop f fuel i = .ok res) : res.2 ≤ f.length := by
  induction fuel generalizing i with
  | zero => cases h
  | succ fuel ih =>
    rw [scanStringLoop] at h
    cases hc : f[i]? with
    | none =>
      rw [hc] at h
      cases h
      exact hi
    | some c =>
      have hlt : i < f.length := (List.getElem?_eq_some_iff.mp hc).1
      rw [hc] at h
      dsimp only at h
      split_ifs at h with hquote hcontrol hplain
      · cases h
        exact hlt
      · cases h
        exact hi
      · exact ih hlt h
      · cases he : f[i + 1]? with
        | none =>
          rw [he] at h
          cases h
          exact hlt
        | some e =>
          have hnext : i + 1 < f.length := (List.getElem?_eq_some_iff.mp he).1
          rw [he] at h
          dsimp only at h
          split_ifs at h with hshort hunicode
          · exact ih hnext h
          · obtain ⟨⟨t, j⟩, hescape, h⟩ := Except.bind_eq_ok_iff.mp h
            have hj : j ≤ f.length := scanUnicode_le hnext hescape
            dsimp only at h
            split_ifs at h
            · exact ih hj h
            · cases h
              exact hj
          · cases h
            exact hlt

theorem scanString_le {res : Tok × ℕ} (hi : i < f.length) (h : scanString f i = .ok res) :
    res.2 ≤ f.length := scanStringLoop_le hi h

theorem skipDigits_le (hi : i ≤ f.length) : skipDigits f i ≤ f.length :=
  (at_skipDigits ⟨hi, rfl⟩).1

theorem skipWs_le (hi : i ≤ f.length) : FrameScanner.skipWs f i ≤ f.length :=
  (at_skipWs ⟨hi, rfl⟩).1

theorem lt_of_any {p : UInt8 → Bool} (h : (f[i]?).any p = true) : i < f.length := by
  cases hc : f[i]? with
  | none =>
    rw [hc] at h
    cases h
  | some c => exact (List.getElem?_eq_some_iff.mp hc).1

theorem scanFraction_le (hi : i ≤ f.length) : (scanFraction f i).2 ≤ f.length := by
  rw [scanFraction]
  split_ifs with hdot hdigit
  · exact skipDigits_le (lt_of_any hdot)
  · exact lt_of_any hdot
  · exact hi

theorem scanExponent_le (hi : i ≤ f.length) : (scanExponent f i).2 ≤ f.length := by
  rw [scanExponent]
  split_ifs with hexp
  · have hnext : i + 1 ≤ f.length := lt_of_any hexp
    dsimp only
    have hsign : (if (f[i + 1]?).any (fun c => c = 0x2B || c = 0x2D) then i + 1 + 1 else i + 1) ≤
        f.length := by
      split_ifs with hsigned
      · exact lt_of_any hsigned
      · exact hnext
    generalize (if (f[i + 1]?).any (fun c => c = 0x2B || c = 0x2D) then i + 1 + 1 else i + 1) =
      k at hsign ⊢
    split_ifs
    · exact skipDigits_le hsign
    · exact hsign
  · exact hi

theorem scanNumber_le {res : Bool × ℕ} (h : scanNumber f i = .ok res) : res.2 ≤ f.length := by
  obtain ⟨c, hc, h⟩ := Except.bind_eq_ok_iff.mp h
  have hsign : (if c = 0x2D then i + 1 else i) ≤ f.length := by
    have hlt := lt_of_charAt hc
    split_ifs <;> omega
  dsimp only at h
  generalize (if c = 0x2D then i + 1 else i) = k at h hsign
  split_ifs at h with hdigit
  · cases h
    exact hsign
  · obtain ⟨d, hd, h⟩ := Except.bind_eq_ok_iff.mp h
    have hint : (if d = 0x30 then k + 1 else skipDigits f k) ≤ f.length := by
      split_ifs
      · exact lt_of_charAt hd
      · exact skipDigits_le hsign
    generalize (if d = 0x30 then k + 1 else skipDigits f k) = m at h hint
    have hfraction := scanFraction_le hint
    split_ifs at h
    · cases h
      exact hfraction
    · cases h
      exact scanExponent_le hfraction

/-! ### The cases of a round -/

section Round

variable (hf : f.length ≤ maxInboundMsgBytes)

include hf

/-- A text of the source, with an index that is hardly past the frame. -/
theorem tells_reject_le {what : String} (h : what ∈ texts) (hi : s.i ≤ f.length + 8) :
    Tells (s.reject what) := by
  refine tells_reject h ?_
  rw [maxInboundMsgBytes] at hf
  omega

theorem tells_stringError (t : Tok) (hi : s.i ≤ f.length) : Tells (s.stringError t) := by
  have hi : s.i ≤ f.length + 8 := hi.trans (Nat.le_add_right _ _)
  rw [stringError]
  split_ifs
  · exact tells_reject_le hf (by simp [texts]) hi
  · exact tells_reject_le hf (by simp [texts]) hi
  · exact tells_reject_le hf (by simp [texts]) hi

theorem errorsIn_valueDone (hi : s.i ≤ f.length + 8) : (valueDone f s).ErrorsIn Tells := by
  have hfull : Tells (s.reject "too many top-level keys") :=
    tells_reject_le hf (by simp [texts]) hi
  by_cases hmember : s.depth = 1 ∧ s.havePendingKey = true
  · by_cases hlt : s.valueStart < s.i
    · rw [valueDone_member hmember.1 hmember.2 hlt]
      exact .ite (.error hfull) (.ok _)
    · rw [valueDone, if_pos hmember, if_pos hlt]
      exact .error tells_assertion
  · rw [valueDone_plain hmember]
    exact .ok _

theorem errorsIn_close (hi : s.i < f.length) : (close f s).ErrorsIn Tells :=
  errorsIn_valueDone (s := { s with i := s.i + 1, depth := s.depth - 1 }) hf
    (Nat.le_add_right_of_le hi)

theorem errorsIn_objKey (hi : s.i < f.length) : (objKey f s c).ErrorsIn Tells := by
  refine .ite (.error ?_) (.bind_ok (errorsIn_scanString f s.i) fun res hres => ?_)
  · exact tells_reject_le hf (by simp [texts]) (by omega)
  · refine .ite (.error ?_) (.ok _)
    exact tells_stringError (s := { s with i := res.2 }) hf res.1 (scanString_le hi hres)

theorem errorsIn_scanLiteral {lit : Bytes} (hi : s.i < f.length) (hlit : lit.length ≤ 5) :
    (scanLiteral f s lit).ErrorsIn Tells := by
  refine .ite (.error ?_) ?_
  · exact tells_reject_le hf (by simp [texts]) (by omega)
  · refine errorsIn_valueDone (s := { s with i := s.i + lit.length }) hf ?_
    change s.i + lit.length ≤ f.length + 8
    omega

theorem errorsIn_valueCase (hi : s.i < f.length) : (valueCase f s c).ErrorsIn Tells := by
  have hstart : s.started.i < f.length := by rwa [started_i]
  have hsmall : s.started.i ≤ f.length + 8 := by omega
  rw [valueCase]
  dsimp only
  rw [show (if s.depth = 1 ∧ s.rootIsObject = true then { s with valueStart := s.i } else s) =
    s.started from rfl]
  refine .ite (.ite (.error ?_) (.ok _)) (.ite ?_
    (.ite ?_ (.ite ?_ (.ite ?_ (.ite (.error ?_) ?_)))))
  · exact tells_reject_le hf (by simp [texts]) hsmall
  · refine .bind_ok (errorsIn_scanString f _) fun res hres => ?_
    have hle := scanString_le hstart hres
    refine .ite (.error ?_) ?_
    · exact tells_stringError (s := { s.started with i := res.2 }) hf res.1 hle
    · exact errorsIn_valueDone (s := { s.started with i := res.2 }) hf (Nat.le_add_right_of_le hle)
  · exact errorsIn_scanLiteral hf hstart (by decide)
  · exact errorsIn_scanLiteral hf hstart (by decide)
  · exact errorsIn_scanLiteral hf hstart (by decide)
  · exact tells_reject_le hf (by simp [texts]) hsmall
  · refine .bind_ok (errorsIn_scanNumber f _) fun res hres => ?_
    have hle := Nat.le_add_right_of_le (k := 8) (scanNumber_le hres)
    refine .ite (.error ?_) ?_
    · exact tells_reject_le (s := { s.started with i := res.2 }) hf (by simp [texts]) hle
    · exact errorsIn_valueDone (s := { s.started with i := res.2 }) hf hle

theorem errorsIn_dispatch (hi : s.i < f.length) : (dispatch f s c).ErrorsIn Tells := by
  have hsmall : s.i ≤ f.length + 8 := by omega
  rw [dispatch]
  cases s.st with
  | objKeyOrClose => exact .ite (errorsIn_close hf hi) (errorsIn_objKey hf hi)
  | objKey => exact errorsIn_objKey hf hi
  | objColon =>
    refine .ite (.error ?_) (.ok _)
    exact tells_reject_le hf (by simp [texts]) hsmall
  | arrValueOrClose => exact .ite (errorsIn_close hf hi) (errorsIn_valueCase hf hi)
  | value => exact errorsIn_valueCase hf hi
  | afterValue =>
    refine .ite (.ok _) (.ite (errorsIn_close hf hi) (.error ?_))
    exact tells_reject_le hf (by simp [texts]) hsmall

theorem errorsIn_round (hi : s.i ≤ f.length) : (round f s).ErrorsIn Tells := by
  have hskip : FrameScanner.skipWs f s.i ≤ f.length + 8 := Nat.le_add_right_of_le (skipWs_le hi)
  rw [FrameScanner.round]
  dsimp only
  cases hc : f[FrameScanner.skipWs f s.i]? with
  | none =>
    refine .error ?_
    exact tells_reject_le (s := { s with i := FrameScanner.skipWs f s.i }) hf
      (by simp [texts]) hskip
  | some c =>
    have hlt : FrameScanner.skipWs f s.i < f.length := (List.getElem?_eq_some_iff.mp hc).1
    refine .ite (.error ?_) ?_
    · exact tells_reject_le (s := { s with i := FrameScanner.skipWs f s.i }) hf
        (by simp [texts]) hskip
    · exact errorsIn_dispatch (s := { s with i := FrameScanner.skipWs f s.i }) hf hlt

theorem errorsIn_loop {fuel : ℕ} (hi : s.i ≤ f.length) : (loop f fuel s).ErrorsIn Tells := by
  induction fuel generalizing s with
  | zero => exact .error tells_fuel
  | succ fuel ih =>
    refine .ite (.ok s) (.bind_ok (errorsIn_round hf hi) fun u hu => ?_)
    exact ih (round_lt hi hu).2

omit hf in
theorem loop_le {fuel : ℕ} (hi : s.i ≤ f.length) (h : loop f fuel s = .ok u) : u.i ≤ f.length := by
  induction fuel generalizing s with
  | zero => cases h
  | succ fuel ih =>
    rw [loop] at h
    split_ifs at h
    · cases h
      exact hi
    · obtain ⟨v, hv, h⟩ := Except.bind_eq_ok_iff.mp h
      exact ih (round_lt hi hv).2 h

theorem errorsIn_run : (run f).ErrorsIn Tells := by
  have hstart : FrameScanner.skipWs f 0 ≤ f.length := skipWs_le (Nat.zero_le _)
  rw [run]
  cases f[FrameScanner.skipWs f 0]? with
  | none =>
    refine .error ?_
    exact tells_reject_le (s := { i := FrameScanner.skipWs f 0 }) hf (by simp [texts])
      (Nat.le_add_right_of_le hstart)
  | some c =>
    refine .bind_ok (errorsIn_loop hf hstart) fun u hu => ?_
    have hend : FrameScanner.skipWs f u.i ≤ f.length + 8 :=
      Nat.le_add_right_of_le (skipWs_le (loop_le (s := { i := FrameScanner.skipWs f 0
                                                         rootIsObject := c = 0x7B }) hstart hu))
    dsimp only
    cases f[FrameScanner.skipWs f u.i]? with
    | some d =>
      refine .error ?_
      split_ifs
      · exact tells_reject_le (s := { u with i := FrameScanner.skipWs f u.i }) hf
          (by simp [texts]) hend
      · exact tells_reject_le (s := { u with i := FrameScanner.skipWs f u.i }) hf
          (by simp [texts]) hend
    | none =>
      refine .ite (.error ?_) (.ok _)
      exact tells_reject_le (s := { u with i := FrameScanner.skipWs f u.i }) hf
        (by simp [texts]) hend

theorem errorsIn_framePreflight : (framePreflight f).ErrorsIn Tells := by
  obtain ⟨valid, hvalid, -⟩ := utf8Valid_eq f
  refine .ite (.error (tells_malformed (by simp [texts]))) ?_
  refine .bind ?_ fun valid => .ite (.error (tells_malformed (by simp [texts]))) ?_
  · rw [hvalid]
    exact .ok valid
  · refine .bind (errorsIn_run hf) fun scan => ?_
    refine .ite (.error (tells_malformed (by simp [texts]))) ?_
    exact .ite (.error (tells_malformed (by simp [texts]))) (.ok scan)

end Round

end Scanner

/-! ## The codec -/

section Codec

open Nlohmann

variable {parse : Parse} {frame : Bytes} {scan : FrameScan}

theorem errorsIn_checkIdentifier {name : String} (hname : name ∈ ["cl_id", "symbol", "side"])
    (value : Bytes) (cap : ℕ) : (checkIdentifier value name cap).ErrorsIn Tells := by
  refine .ite (.error ?_) (.ite (.error ?_) (.ok ()))
  · refine tells_malformed ?_
    revert name
    simp [texts]
  · refine tells_malformed ?_
    revert name
    simp [texts]

/-- The tag that is shown is cut, cleaned and UTF-8. -/
theorem tells_unknownType {tag : Bytes} (h : Utf8.Valid tag) :
    Tells (.reject ⟨.unknownType, ascii "unknown inbound t: " ++ sanitizedTag tag⟩) := by
  have hshown := Client.isShown_sanitizedTag h
  have hhead := plain_texts "unknown inbound t: " (by simp [texts])
  rintro err ⟨⟩
  refine ⟨⟨?_, fun c hc => ?_⟩, hhead.1.valid.append hshown.valid⟩
  · have hsize := hshown.size
    have hellipsis : Client.ellipsis.length = 3 := rfl
    have hlength := hhead.2
    simp only [List.length_append, maxTextLen]
    omega
  · rcases List.mem_append.mp hc with hc | hc
    · exact ⟨(hhead.1 c hc).1, (hhead.1 c hc).2.ne⟩
    · have hclean := not_or.mp (hshown.clean c hc)
      exact ⟨not_lt.mp hclean.1, hclean.2⟩

/-- The text of a string field is UTF-8. -/
theorem valid_of_value (haccept : Acceptable frame scan) {key : String} {t : Bytes}
    (h : Glaze.value scan key = some (.string t)) : Utf8.Valid t := by
  obtain ⟨hvalue, hutf8⟩ :=
    haccept.text.valid haccept.utf8 _ (mem_of_find (Glaze.isEmpty_of_value h))
  rw [Glaze.value, Glaze.isEmpty_of_value h, if_neg (by decide), Option.some.injEq] at h
  exact Json.valid_of_valueOf_string hvalue hutf8 h

theorem errorsIn_envelope (hparse : Correct parse) (haccept : Acceptable frame scan) :
    (envelope parse scan).ErrorsIn Tells := by
  have hmissing : Tells (malformed "t missing or not a string") :=
    tells_malformed (by simp [texts])
  rw [envelope]
  split
  · next tag htag =>
    have hvalid := valid_of_value haccept ((parseField_eq_string_iff hparse haccept).mp htag)
    refine .ite (.error (tells_unknownType hvalid)) ?_
    cases hv : getU64 parse scan "v" with
    | none => exact .error (tells_malformed (by simp [texts]))
    | some v =>
      refine .ite (.error ?_) (.ok _)
      have hsmall : v < 2 ^ 64 := ((getU64_eq_some_iff hparse haccept).mp hv).2.1
      have hdigits : (Json.decimal v).length ≤ 20 :=
        Json.length_decimal_le (hsmall.trans (by decide)) (by decide)
      have hhead := plain_texts "v=" (by simp [texts])
      have hlength := hhead.2
      rintro err ⟨⟩
      refine (hhead.1.append (plain_decimal v)).fits ?_
      simp only [List.length_append, maxTextLen]
      omega
  · exact .error hmissing

theorem errorsIn_body (scan : FrameScan) (isNew : Bool) (v : ℕ) :
    (body parse scan isNew v).ErrorsIn Tells := by
  refine .ite ?_ ?_
  · cases newOrderFields parse scan v with
    | none => exact .error (tells_malformed (by simp [texts]))
    | some o =>
      refine .bind ?_ fun _ => .ok _
      refine .bind (errorsIn_checkIdentifier (by simp) _ _) fun _ => .bind ?_ fun _ => ?_
      · exact errorsIn_checkIdentifier (by simp) _ _
      · exact errorsIn_checkIdentifier (by simp) _ _
  · cases cancelOrderFields parse scan v with
    | none => exact .error (tells_malformed (by simp [texts]))
    | some c => exact .bind (errorsIn_checkIdentifier (by simp) _ _) fun _ => .ok _

/-- The text of every rejection can be shown. -/
theorem errorsIn_decode (hparse : Correct parse) (hsize : frame.length ≤ maxInboundMsgBytes) :
    (decode parse frame).ErrorsIn Tells := by
  refine .bind_ok (errorsIn_framePreflight hsize) fun scan hscan => ?_
  refine .bind (errorsIn_envelope hparse (framePreflight_eq_ok_iff.mp hscan)) fun head => ?_
  exact errorsIn_body scan head.1 head.2

/-! ## What is decoded -/

/-- A command whose order id is an identifier and whose price and quantity are `int64`s. -/
def Readable : InMsg → Prop
  | .newOrder o => FitsIdentifier maxClIdLen o.clId ∧ InInt64 o.px ∧ InInt64 o.qty
  | .cancelOrder c => FitsIdentifier maxClIdLen c.clId

/-- Every command that the codec decodes is one. -/
theorem readable_of_decode (hparse : Correct parse) {msg : InMsg}
    (h : decode parse frame = .ok msg) : Readable msg := by
  obtain ⟨scan, hscan, h⟩ := Except.bind_eq_ok_iff.mp h
  obtain ⟨⟨isNew, v⟩, henvelope, h⟩ := Except.bind_eq_ok_iff.mp h
  have haccept := framePreflight_eq_ok_iff.mp hscan
  have hv : Glaze.HasU64 scan "v" v := by
    rw [envelope] at henvelope
    split at henvelope
    · split_ifs at henvelope
      cases hv : getU64 parse scan "v" with
      | none =>
        rw [hv] at henvelope
        cases henvelope
      | some v' =>
        rw [hv] at henvelope
        dsimp only at henvelope
        split_ifs at henvelope
        cases henvelope
        exact ((getU64_eq_some_iff hparse haccept).mp hv).2
    · cases henvelope
  dsimp only at h
  rw [body] at h
  split_ifs at h
  · cases hfields : newOrderFields parse scan v with
    | none =>
      rw [hfields] at h
      cases h
    | some o =>
      rw [hfields] at h
      obtain ⟨hstrings, h⟩ := Except.andThen_eq_ok_iff.mp h
      cases h
      have ho := ((newOrderFields_eq_some_iff hparse haccept hv).mp hfields).2
      exact ⟨⟨(checkNewOrderStrings_eq_ok_iff.mp hstrings).1, valid_of_value haccept ho.clId⟩,
        ho.px.1, ho.qty.1⟩
  · cases hfields : cancelOrderFields parse scan v with
    | none =>
      rw [hfields] at h
      cases h
    | some c =>
      rw [hfields] at h
      obtain ⟨hstrings, h⟩ := Except.andThen_eq_ok_iff.mp h
      cases h
      have hc := ((cancelOrderFields_eq_some_iff hparse haccept hv).mp hfields).2
      exact ⟨checkCancelOrderStrings_eq_ok_iff.mp hstrings, valid_of_value haccept hc.clId⟩

end Codec

end Link

end MarketMaker
