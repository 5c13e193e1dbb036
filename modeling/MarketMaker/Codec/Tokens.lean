import MarketMaker.Codec.Preflight
import MarketMaker.Lib.Cursor
import MarketMaker.Lib.Json.Document

/-!
# The tokens of the scanner

Each token function of `FrameScanner` against the reader of the grammar. The scanner walks by index
and the reader by what is left of the text, which `At f i t` relates: at such an index a function of
the scanner reads nothing outside the frame, ends, succeeds exactly when the reader does and stops
where it does.
-/

/-- An unguarded read in front of an octet. -/
theorem Cursor.At.charAt {f t : List UInt8} {i : ℕ} {c : UInt8} (h : Cursor.At f i (c :: t)) :
    MarketMaker.charAt f i = .ok c := by
  rw [MarketMaker.charAt, h.getElem?_cons]

namespace MarketMaker

namespace FrameScanner

open Cursor (At)
open Json (Text)

variable {f : Bytes} {i j : ℕ} {c : UInt8} {t r : Text}

/-! ## Blanks and digits -/

/-- White space is skipped as by the reader. -/
theorem at_skipWs (h : At f i t) : At f (skipWs f i) (Json.skipWs t) := by
  fun_induction skipWs f i generalizing t with
  | case1 i c hc hws ih =>
    cases t with
    | nil =>
      rw [h.getElem?_nil] at hc
      cases hc
    | cons d t =>
      cases hc.symm.trans h.getElem?_cons
      have hblank : Json.isWs c = true := by simpa [Json.isWs, or_assoc] using hws
      rw [Json.skipWs, List.dropWhile_cons_of_pos hblank]
      exact ih h.tail
  | case2 i c hc hws =>
    cases t with
    | nil =>
      rw [h.getElem?_nil] at hc
      cases hc
    | cons d t =>
      cases hc.symm.trans h.getElem?_cons
      have hblank : Json.isWs c = false := by simpa [Json.isWs, and_assoc] using hws
      rw [Json.skipWs_cons hblank]
      exact h
  | case3 i hnone =>
    cases t with
    | nil => exact h
    | cons d t =>
      rw [h.getElem?_cons] at hnone
      cases hnone

/-- The digits are those of the grammar. -/
theorem isDecDigit_eq (c : UInt8) : isDecDigit c = Json.isDigit c := rfl

/-- Digits are skipped as by the reader. -/
theorem at_skipDigits (h : At f i t) : At f (skipDigits f i) (t.dropWhile Json.isDigit) := by
  fun_induction skipDigits f i generalizing t with
  | case1 i c hc hdigit ih =>
    cases t with
    | nil =>
      rw [h.getElem?_nil] at hc
      cases hc
    | cons d t =>
      cases hc.symm.trans h.getElem?_cons
      rw [isDecDigit_eq] at hdigit
      rw [List.dropWhile_cons_of_pos hdigit]
      exact ih h.tail
  | case2 i c hc hdigit =>
    cases t with
    | nil =>
      rw [h.getElem?_nil] at hc
      cases hc
    | cons d t =>
      cases hc.symm.trans h.getElem?_cons
      rw [isDecDigit_eq] at hdigit
      rw [List.dropWhile_cons_of_neg hdigit]
      exact h
  | case3 i hnone =>
    cases t with
    | nil => exact h
    | cons d t =>
      rw [h.getElem?_cons] at hnone
      cases hnone

/-! ## Numbers -/

/-- A scan of the frame succeeds exactly when the reader does, and stops where it does. -/
def Scans (f : Bytes) (res : Bool × ℕ) : Option Text → Prop
  | some r => res.1 = true ∧ At f res.2 r
  | none => res.1 = false

/-- A digit and those after it. -/
theorem scans_digits1 (h : At f i t) :
    Scans f (if (f[i]?).any isDecDigit then (true, skipDigits f i) else (false, i))
      (Json.digits1 t) := by
  rw [h.getElem?]
  cases t with
  | nil => rfl
  | cons c t =>
    rw [List.head?_cons, Option.any_some, isDecDigit_eq, Json.digits1]
    split_ifs with hc
    · have hskip := at_skipDigits h
      rw [List.dropWhile_cons_of_pos hc] at hskip
      exact ⟨rfl, hskip⟩
    · rfl

/-- So is a fraction. -/
theorem scans_scanFraction (h : At f i t) : Scans f (scanFraction f i) (Json.readFrac t) := by
  rw [scanFraction, h.getElem?]
  cases t with
  | nil => exact ⟨rfl, h⟩
  | cons c t =>
    rw [List.head?_cons, Option.any_some, Json.readFrac]
    by_cases hdot : c = 0x2E
    · rw [if_pos (by simpa using hdot), if_pos hdot]
      exact scans_digits1 h.tail
    · rw [if_neg (by simpa using hdot), if_neg hdot]
      exact ⟨rfl, h⟩

/-- So is the sign of an exponent. -/
theorem at_expSign (h : At f i t) :
    At f (if (f[i]?).any fun c => c = 0x2B || c = 0x2D then i + 1 else i) (Json.readExpSign t) := by
  rw [h.getElem?]
  cases t with
  | nil => exact h
  | cons c t =>
    rw [List.head?_cons, Option.any_some, Json.readExpSign]
    split_ifs
    · exact h.tail
    · exact h

/-- So is an exponent. -/
theorem scans_scanExponent (h : At f i t) : Scans f (scanExponent f i) (Json.readExp t) := by
  rw [scanExponent, h.getElem?]
  cases t with
  | nil => exact ⟨rfl, h⟩
  | cons c t =>
    rw [List.head?_cons, Option.any_some, Json.readExp]
    split_ifs
    · exact scans_digits1 (at_expSign h.tail)
    · exact ⟨rfl, h⟩

/-- So is a number. -/
theorem scans_scanNumber (h : At f i (c :: t)) :
    ∃ res, scanNumber f i = .ok res ∧ Scans f res (Json.readNumber (c :: t)) := by
  have hsign : At f (if c = 0x2D then i + 1 else i) (Json.readSign (c :: t)) := by
    rw [Json.readSign]
    split_ifs
    · exact h.tail
    · exact h
  generalize hi : (if c = 0x2D then i + 1 else i) = k at hsign
  rw [scanNumber, h.charAt, Json.readNumber]
  dsimp only [bind, Except.bind, pure, Except.pure]
  rw [hi, hsign.getElem?]
  cases ht : Json.readSign (c :: t) with
  | nil => exact ⟨_, rfl, rfl⟩
  | cons e u =>
    rw [ht] at hsign
    rw [List.head?_cons, Option.any_some, isDecDigit_eq, hsign.charAt, Json.readInt]
    dsimp only
    -- after the integer the two go on alike
    have hrest : ∀ k v, At f k v →
        Scans f (if (!(scanFraction f k).1) = true then scanFraction f k
          else scanExponent f (scanFraction f k).2) ((Json.readFrac v).bind Json.readExp) := by
      intro k v hk
      have hfrac := scans_scanFraction hk
      cases hread : Json.readFrac v with
      | none =>
        rw [hread] at hfrac
        rw [show (scanFraction f k).1 = false from hfrac]
        exact hfrac
      | some w =>
        rw [hread] at hfrac
        rw [hfrac.1]
        exact scans_scanExponent hfrac.2
    by_cases hdigit : Json.isDigit e = true
    · have hint : At f (if e = 0x30 then k + 1 else skipDigits f k)
          (if e = 0x30 then u else u.dropWhile Json.isDigit) := by
        split_ifs
        · exact hsign.tail
        · have hskip := at_skipDigits hsign
          rwa [List.dropWhile_cons_of_pos hdigit] at hskip
      have hread : (if e = 0x30 then some u
          else if Json.isDigit e = true then some (u.dropWhile Json.isDigit) else none) =
          some (if e = 0x30 then u else u.dropWhile Json.isDigit) := by
        split_ifs <;> rfl
      rw [hread, Option.bind_some, hdigit]
      have hscan := hrest _ _ hint
      rw [if_neg (by simp)]
      generalize (if e = 0x30 then k + 1 else skipDigits f k) = m at hscan ⊢
      generalize (if e = 0x30 then u else u.dropWhile Json.isDigit) = w at hscan ⊢
      split_ifs at hscan ⊢ with hfrac
      · exact ⟨_, rfl, hscan⟩
      · exact ⟨_, rfl, hscan⟩
    · have hzero : e ≠ 0x30 := by
        rintro rfl
        exact hdigit rfl
      rw [(Bool.not_eq_true _).mp hdigit]
      refine ⟨_, rfl, ?_⟩
      rw [if_neg hzero]
      rfl

/-! ## Strings -/

/-- The hex digits are those of the grammar. -/
theorem hexDigit_eq (c : UInt8) : hexDigit c = Json.hexVal c := by
  simp [hexDigit, Json.hexVal, Json.isDigit]

/-- A hex digit is below 16. -/
theorem hexVal_lt {d : ℕ} (h : Json.hexVal c = some d) : d < 16 := by
  simp only [Json.hexVal, Json.isDigit, Bool.and_eq_true, decide_eq_true_eq,
    UInt8.le_iff_toNat_le] at h
  split_ifs at h with hdigit hlower hupper
  · cases h
    have hle : c.toNat ≤ 0x39 := hdigit.2
    omega
  · cases h
    have hle : c.toNat ≤ 0x66 := hlower.2
    omega
  · cases h
    have hle : c.toNat ≤ 0x46 := hupper.2
    omega

/-- The digits of an escape are read, or one of them is none. -/
theorem scanHexLoop_cases {ds : Text} (h : At f i (ds ++ t)) (cu : ℕ) :
    ((∀ c ∈ ds, (Json.hexVal c).isSome) ∧
      scanHexLoop f ds.length cu i =
        .ok (ds.foldl (fun cu c => cu * 16 + (Json.hexVal c).getD 0) cu, i + ds.length)) ∨
    (∃ c ∈ ds, Json.hexVal c = none) ∧ ∃ j, scanHexLoop f ds.length cu i = .ok (0x110000, j) := by
  induction ds generalizing i cu with
  | nil => exact Or.inl ⟨by simp, rfl⟩
  | cons c ds ih =>
    rw [List.length_cons, scanHexLoop, h.charAt]
    dsimp only [bind, Except.bind, pure, Except.pure]
    rw [hexDigit_eq]
    cases hc : Json.hexVal c with
    | none => exact Or.inr ⟨⟨c, List.mem_cons_self, hc⟩, i, rfl⟩
    | some d =>
      dsimp only
      rw [← Nat.shiftLeft_add_eq_or_of_lt (hexVal_lt hc), Nat.shiftLeft_eq]
      rcases ih h.tail (cu * 2 ^ 4 + d) with ⟨hall, hscan⟩ | ⟨⟨e, he, hnone⟩, j, hscan⟩
      · refine Or.inl ⟨by simpa [hc] using hall, ?_⟩
        rw [hscan, List.foldl_cons, hc]
        simp [Nat.add_assoc, Nat.add_comm 1]
      · exact Or.inr ⟨⟨e, List.mem_cons_of_mem c he, hnone⟩, j, hscan⟩

/-- The four digits of an escape are read, or they are not there. -/
theorem scanHex4_cases (h : At f i t) :
    (∃ a b c d u, t = a :: b :: c :: d :: u ∧ (Json.Piece.unicode a b c d).Ok ∧
      scanHex4 f i = .ok (Json.Piece.codeUnit a b c d, i + 4)) ∨
    (∃ j, scanHex4 f i = .ok (0x110000, j)) ∧
      ∀ a b c d u, t = a :: b :: c :: d :: u → ¬(Json.Piece.unicode a b c d).Ok := by
  have hleft : f.length - i = t.length := by
    have hlength := h.length_eq
    omega
  rw [scanHex4, hleft]
  match t, h with
  | [], _ => exact Or.inr ⟨⟨i, rfl⟩, by simp⟩
  | [_], _ => exact Or.inr ⟨⟨i, rfl⟩, by simp⟩
  | [_, _], _ => exact Or.inr ⟨⟨i, rfl⟩, by simp⟩
  | [_, _, _], _ => exact Or.inr ⟨⟨i, rfl⟩, by simp⟩
  | a :: b :: c :: d :: u, h =>
    rw [if_neg (by simp)]
    rcases scanHexLoop_cases (t := u) (show At f i ([a, b, c, d] ++ u) from h) 0 with
      ⟨hall, hscan⟩ | ⟨⟨e, he, hnone⟩, j, hscan⟩
    · refine Or.inl ⟨a, b, c, d, u, rfl, by simpa [Json.Piece.Ok] using hall, ?_⟩
      rw [show (4 : ℕ) = [a, b, c, d].length from rfl, hscan]
      simp [Json.Piece.codeUnit]
    · refine Or.inr ⟨⟨j, hscan⟩, ?_⟩
      rintro _ _ _ _ _ ⟨⟩ hok
      simp only [List.mem_cons, List.not_mem_nil, or_false] at he
      rcases he with rfl | rfl | rfl | rfl <;> simp [Json.Piece.Ok, hnone] at hok

/-- A code unit has 16 bits. -/
theorem codeUnit_le (a b c d : UInt8) : Json.Piece.codeUnit a b c d ≤ 0xFFFF := by
  have hlt : ∀ c, (Json.hexVal c).getD 0 < 16 := by
    intro c
    cases hc : Json.hexVal c with
    | none => decide
    | some d => exact hexVal_lt hc
  have ha := hlt a
  have hb := hlt b
  have hc := hlt c
  have hd := hlt d
  rw [Json.Piece.codeUnit]
  omega

/-- The text after a token, or the failure of the reader. -/
def Lexes (f : Bytes) (res : Tok × ℕ) : Option Text → Prop
  | some r => res.1 = .ok ∧ At f res.2 r
  | none => res.1 ≠ .ok

/-- The escape of a second half, after the escape of a first one. -/
theorem scanLow_cases {p : Json.Piece} (hp : p.Ok) (hhigh : p.isHigh = true)
    (h : At f i (0x5C :: 0x75 :: t)) :
    ∃ lo j, scanHex4 f (i + 2) = .ok (lo, j) ∧
      ((∃ u, 0xDC00 ≤ lo ∧ lo ≤ 0xDFFF ∧ At f j u ∧ u.length < t.length ∧
        Json.readString (p.render ++ 0x5C :: 0x75 :: t) = Json.readString u) ∨
      (lo < 0xDC00 ∨ 0xDFFF < lo) ∧
        Json.readString (p.render ++ 0x5C :: 0x75 :: t) = none) := by
  have hnone : (∀ a b c d u, t = a :: b :: c :: d :: u → (Json.Piece.unicode a b c d).Ok →
      (Json.Piece.unicode a b c d).isLow = false) →
      Json.readString (p.render ++ 0x5C :: 0x75 :: t) = none := by
    intro hall
    refine Json.readString_high_append hp hhigh fun q hq hlow v heq => ?_
    cases q with
    | plain c => cases hlow
    | short c => cases hlow
    | unicode a b c d =>
      cases heq
      rw [hall a b c d v rfl hq] at hlow
      cases hlow
  rcases scanHex4_cases h.tail.tail with ⟨a, b, c, d, u, rfl, hok, hscan⟩ | ⟨⟨j, hscan⟩, hbad⟩
  · refine ⟨_, _, hscan, ?_⟩
    by_cases hlow : 0xDC00 ≤ Json.Piece.codeUnit a b c d ∧ Json.Piece.codeUnit a b c d ≤ 0xDFFF
    · refine Or.inl ⟨u, hlow.1, hlow.2, h.tail.tail.tail.tail.tail.tail,
        by simp only [List.length_cons]; omega, ?_⟩
      exact Json.readString_pair_append hp hhigh hok (by simpa [Json.Piece.isLow] using hlow) u
    · refine Or.inr ⟨by omega, hnone ?_⟩
      rintro _ _ _ _ _ ⟨⟩ -
      simpa [Json.Piece.isLow] using hlow
  · refine ⟨_, _, hscan, Or.inr ⟨Or.inr (by decide), hnone ?_⟩⟩
    intro a b c d u heq hok
    exact absurd hok (hbad a b c d u heq)

/-- A unicode escape is taken whole, with its partner if it has one, or the string has failed. -/
theorem scanUnicode_cases (h : At f i t) :
    ∃ tok j, scanUnicode f i = .ok (tok, j) ∧
      ((∃ u, tok = .ok ∧ At f j u ∧ u.length < t.length ∧
        Json.readString (0x5C :: 0x75 :: t) = Json.readString u) ∨
      tok ≠ .ok ∧ Json.readString (0x5C :: 0x75 :: t) = none) := by
  rcases scanHex4_cases h with ⟨a, b, c, d, u, rfl, hok, hscan⟩ | ⟨⟨j, hscan⟩, hbad⟩
  · have hu : At f (i + 4) u := h.tail.tail.tail.tail
    have hunit := codeUnit_le a b c d
    have hrender : (0x5C : UInt8) :: 0x75 :: a :: b :: c :: d :: u =
        (Json.Piece.unicode a b c d).render ++ u := rfl
    rw [scanUnicode, hscan]
    dsimp only [bind, Except.bind, pure, Except.pure]
    rw [if_neg (by omega), hrender]
    by_cases hlow : 0xDC00 ≤ Json.Piece.codeUnit a b c d ∧ Json.Piece.codeUnit a b c d ≤ 0xDFFF
    · have hislow : (Json.Piece.unicode a b c d).isLow = true := by
        simpa [Json.Piece.isLow] using hlow
      have hhigh : (Json.Piece.unicode a b c d).isHigh = false := by
        simp [Json.Piece.isHigh]
        omega
      rw [if_pos hlow, Json.readString_render_append hok hhigh, if_pos hislow]
      exact ⟨_, _, rfl, Or.inr ⟨by decide, rfl⟩⟩
    rw [if_neg hlow]
    by_cases hhigh : 0xD800 ≤ Json.Piece.codeUnit a b c d ∧ Json.Piece.codeUnit a b c d ≤ 0xDBFF
    · have hishigh : (Json.Piece.unicode a b c d).isHigh = true := by
        simpa [Json.Piece.isHigh] using hhigh
      have hleft : f.length - (i + 4) = u.length := by
        have hlength := hu.length_eq
        omega
      -- without a second escape next to it the first half stands alone
      have halone : (∀ v, u ≠ 0x5C :: 0x75 :: v) →
          Json.readString ((Json.Piece.unicode a b c d).render ++ u) = none := by
        intro hne
        refine Json.readString_high_append hok hishigh fun q _ hq v heq => ?_
        cases q with
        | plain c => cases hq
        | short c => cases hq
        | unicode a b c d => exact hne _ heq
      rw [if_pos hhigh, hleft]
      rcases u with _ | ⟨x, _ | ⟨y, v⟩⟩
      · exact ⟨_, _, rfl, Or.inr ⟨by decide, halone (by simp)⟩⟩
      · exact ⟨_, _, rfl, Or.inr ⟨by decide, halone (by simp)⟩⟩
      · rw [if_neg (by simp), hu.charAt, hu.tail.charAt]
        dsimp only
        by_cases hxy : x ≠ 0x5C ∨ y ≠ 0x75
        · rw [if_pos hxy]
          refine ⟨_, _, rfl, Or.inr ⟨by decide, halone ?_⟩⟩
          rintro w ⟨⟩
          simp at hxy
        · obtain ⟨rfl, rfl⟩ : x = 0x5C ∧ y = 0x75 := by
            simpa [not_or] using hxy
          obtain ⟨lo, j, hlo, ⟨w, hge, hle, hw, hlt, hread⟩ | ⟨hne, hread⟩⟩ :=
            scanLow_cases hok hishigh hu
          · rw [if_neg hxy, hlo]
            dsimp only
            rw [if_neg (by omega), if_neg (by omega)]
            refine ⟨_, _, rfl, Or.inl ⟨w, rfl, hw, ?_, hread⟩⟩
            simp only [List.length_cons]
            omega
          · rw [if_neg hxy, hlo, hread]
            dsimp only
            split_ifs
            · exact ⟨_, _, rfl, Or.inr ⟨by decide, rfl⟩⟩
            · exact ⟨_, _, rfl, Or.inr ⟨by decide, rfl⟩⟩
    · have hlow' : (Json.Piece.unicode a b c d).isLow = false := by
        simpa [Json.Piece.isLow] using hlow
      have hhigh' : (Json.Piece.unicode a b c d).isHigh = false := by
        simpa [Json.Piece.isHigh] using hhigh
      rw [if_neg hhigh, Json.readString_render_append hok hhigh', if_neg (by simp [hlow'])]
      exact ⟨_, _, rfl, Or.inl ⟨u, rfl, hu, by simp only [List.length_cons]; omega, rfl⟩⟩
  · rw [scanUnicode, hscan]
    refine ⟨_, _, rfl, Or.inr ⟨by decide, ?_⟩⟩
    exact Json.readString_unicode_none hbad

/-- A string is scanned as the reader reads it. -/
theorem lexes_scanStringLoop {fuel : ℕ} (h : At f i t) (hfuel : t.length < fuel) :
    ∃ res, scanStringLoop f fuel i = .ok res ∧ Lexes f res (Json.readString t) := by
  induction fuel generalizing i t with
  | zero => exact absurd hfuel (Nat.not_lt_zero _)
  | succ fuel ih =>
    rw [scanStringLoop, h.getElem?]
    cases t with
    | nil => exact ⟨_, rfl, Tok.noConfusion⟩
    | cons c t =>
      simp only [List.length_cons] at hfuel
      dsimp only [List.head?_cons]
      by_cases hquote : c = 0x22
      · subst hquote
        rw [if_pos rfl, Json.readString_quote]
        exact ⟨_, rfl, rfl, h.tail⟩
      rw [if_neg hquote]
      by_cases hraw : c < 0x20
      · rw [if_pos hraw, Json.readString_control hraw]
        exact ⟨_, rfl, Tok.noConfusion⟩
      rw [if_neg hraw]
      by_cases hslash : c ≠ 0x5C
      · have hok : (Json.Piece.plain c).Ok := ⟨UInt8.not_lt.mp hraw, hquote, hslash⟩
        have hread : Json.readString (c :: t) = Json.readString t :=
          Json.readString_render_append hok rfl t
        rw [if_pos hslash, hread]
        exact ih h.tail (by omega)
      rw [if_neg hslash]
      obtain rfl : c = 0x5C := not_not.mp hslash
      rw [h.tail.getElem?]
      cases t with
      | nil => exact ⟨_, rfl, Tok.noConfusion⟩
      | cons e t =>
        simp only [List.length_cons] at hfuel
        dsimp only [List.head?_cons]
        by_cases hshort : e ∈ shortEscapes
        · have hok : (Json.Piece.short e).Ok := hshort
          have hread : Json.readString (0x5C :: e :: t) = Json.readString t :=
            Json.readString_render_append hok rfl t
          rw [if_pos hshort, hread]
          exact ih h.tail.tail (by omega)
        rw [if_neg hshort]
        by_cases hu : e = 0x75
        · subst hu
          obtain ⟨tok, j, hscan, ⟨u, rfl, hat, hlt, hread⟩ | ⟨htok, hread⟩⟩ :=
            scanUnicode_cases h.tail.tail
          · rw [if_pos rfl, hscan, hread]
            exact ih hat (by omega)
          · rw [if_pos rfl, hscan, hread]
            exact ⟨_, if_neg htok, htok⟩
        · rw [if_neg hu, Json.readString_escape_none hshort hu]
          exact ⟨_, rfl, Tok.noConfusion⟩

/-- So with its first quote. -/
theorem lexes_scanString (h : At f i (0x22 :: t)) :
    ∃ res, scanString f i = .ok res ∧ Lexes f res (Json.readString t) := by
  refine lexes_scanStringLoop h.tail ?_
  have hlength := h.length_eq
  simp only [List.length_cons] at hlength
  omega

end FrameScanner

end MarketMaker
