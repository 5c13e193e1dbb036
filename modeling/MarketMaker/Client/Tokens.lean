import MarketMaker.Client.Preflight
import MarketMaker.Lib.Cursor
import MarketMaker.Lib.Json.Document

/-!
# The tokens of the client

What the patterns of `_preflight.py` match, in terms of the reader of the grammar. A number is the
one place where they differ: the pattern takes off `7` of `7.` where the reader fails. What is then
left starts with a point or an exponent mark, at which no token starts (`Dead`), so the scan fails
one token later. -/

namespace MarketMaker

namespace Client

open Cursor (At)
open Json (Text)
open Regex (match?)

variable {γ : Type} {data : Bytes} {pos : ℕ} {c : UInt8} {t u : Text}

/-- A match that leaves `rest`, with no group. -/
def leaves (rest : Option Text) : Option (Regex.Match γ) := rest.map fun u => ⟨u, []⟩

/-! ## Numbers -/

/-- `[0-9]+` reads digits. -/
theorem match?_digitRe_plus (t : Text) :
    match? (Regex.plus digitRe : Regex γ) t = leaves (Json.digits1 t) := by
  cases t with
  | nil => rfl
  | cons c t =>
    rw [Regex.plus, digitRe, Regex.match?_set_seq_cons, Regex.match?_star_set, Json.digits1]
    show (if Json.isDigit c = true then _ else _) = _
    split_ifs <;> rfl

/-- The fraction, if there is one. -/
theorem match?_fracRe (t : Text) :
    match? (fracRe : Regex γ) t = leaves (some ((Json.readFrac t).getD t)) := by
  rw [fracRe, Regex.match?_opt]
  cases t with
  | nil => rfl
  | cons c t =>
    rw [Regex.match?_char_seq_cons, match?_digitRe_plus, Json.readFrac]
    split_ifs
    · cases Json.digits1 t <;> rfl
    · rfl

/-- The sign and the digits of an exponent. -/
theorem match?_expDigits (t : Text) :
    match? (.seq (.opt (.oneOf [0x2D, 0x2B])) (.plus digitRe) : Regex γ) t =
      leaves (Json.digits1 (Json.readExpSign t)) := by
  have hsign : ∀ (c : UInt8) (t : Text), decide (c ∈ [0x2D, 0x2B]) = true →
      match? (.plus digitRe : Regex γ) (c :: t) = none := by
    intro c t hc
    simp only [decide_eq_true_eq, List.mem_cons, List.not_mem_nil, or_false] at hc
    rw [match?_digitRe_plus, Json.digits1]
    rcases hc with rfl | rfl <;> rfl
  cases t with
  | nil => rfl
  | cons c t =>
    rw [Regex.oneOf, Regex.match?_opt_set_seq hsign, match?_digitRe_plus, Json.readExpSign]
    congr 2
    by_cases hplus : c = 0x2B <;> by_cases hminus : c = 0x2D <;> simp [hplus, hminus]

/-- The exponent, if there is one. -/
theorem match?_expRe (t : Text) :
    match? (expRe : Regex γ) t = leaves (some ((Json.readExp t).getD t)) := by
  rw [expRe, Regex.match?_opt]
  cases t with
  | nil => rfl
  | cons c t =>
    rw [show (Regex.oneOf [0x65, 0x45] : Regex γ) = .set fun d => d ∈ [0x65, 0x45] from rfl,
      Regex.match?_set_seq_cons, match?_expDigits, Json.readExp]
    by_cases hmark : c = 0x65 ∨ c = 0x45
    · rw [if_pos (by simpa using hmark), if_pos (by simpa using hmark)]
      cases Json.digits1 (Json.readExpSign t) <;> rfl
    · rw [if_neg (by simpa using hmark), if_neg (by simpa using hmark)]
      rfl

/-- The integer part. -/
theorem match?_intRe (t : Text) : match? (intRe : Regex γ) t = leaves (Json.readInt t) := by
  rw [intRe, Regex.match?_alt]
  cases t with
  | nil => rfl
  | cons c t =>
    rw [Regex.match?_char_cons, Regex.match?_set_seq_cons, digitRe, Regex.match?_star_set,
      Json.readInt]
    by_cases hzero : c = 0x30
    · rw [if_pos hzero, if_pos hzero]
      rfl
    · have hdigit : (0x31 ≤ c && c ≤ 0x39) = Json.isDigit c := by
        rw [Json.isDigit]
        congr 1
        have hne : c.toNat ≠ 0x30 := fun h => hzero (UInt8.toNat_inj.mp h)
        simp only [UInt8.le_iff_toNat_le, UInt8.reduceToNat, decide_eq_decide]
        omega
      rw [if_neg hzero, if_neg hzero, hdigit]
      split_ifs <;> rfl

/-- What the pattern of a number leaves after its integer: the fraction and the exponent are left
out when they are not whole. -/
def afterInt (t : Text) : Text :=
  (Json.readExp ((Json.readFrac t).getD t)).getD ((Json.readFrac t).getD t)

/-- What the pattern of a number leaves. -/
def numberRest (t : Text) : Option Text := (Json.readInt (Json.readSign t)).map afterInt

/-- The number. -/
theorem match?_numberRe (t : Text) : match? (numberRe : Regex γ) t = leaves (numberRest t) := by
  -- once the integer is there, the rest of the pattern always matches
  have hafter : ∀ u : Text,
      match? (.seq fracRe expRe : Regex γ) u = leaves (some (afterInt u)) := by
    intro u
    rw [Regex.match?_seq_of_isSome (fun u => by rw [match?_expRe]; rfl), match?_fracRe]
    dsimp only [leaves, Option.map_some, Option.bind_some]
    rw [match?_expRe]
    rfl
  have hint : ∀ u : Text, match? (.seq intRe (.seq fracRe expRe) : Regex γ) u =
      leaves ((Json.readInt u).map afterInt) := by
    intro u
    rw [Regex.match?_seq_of_isSome (fun u => by rw [hafter]; rfl), match?_intRe]
    cases Json.readInt u with
    | none => rfl
    | some v =>
      dsimp only [leaves, Option.map_some, Option.bind_some]
      rw [hafter]
      rfl
  have hsign : ∀ (c : UInt8) (t : Text), decide (c = 0x2D) = true →
      match? (.seq intRe (.seq fracRe expRe) : Regex γ) (c :: t) = none := by
    intro c t hc
    rw [hint, of_decide_eq_true hc]
    rfl
  cases t with
  | nil => rfl
  | cons c t =>
    rw [numberRe, Regex.char, Regex.match?_opt_set_seq hsign, hint, numberRest, Json.readSign]
    congr 3
    by_cases hminus : c = 0x2D <;> simp [hminus]

/-- Where no token starts, after a number that goes on wrongly. -/
def Dead (t : Text) : Prop := ∃ c u, t = c :: u ∧ (c = 0x2E ∨ c = 0x65 ∨ c = 0x45)

/-- The pattern takes off the number the reader takes off, or it stops where no token starts. -/
theorem numberRest_cases (t : Text) :
    (∃ u, numberRest t = some u ∧
      (Json.readNumber t = some u ∨ Json.readNumber t = none ∧ Dead u)) ∨
      numberRest t = none ∧ Json.readNumber t = none := by
  rw [numberRest, Json.readNumber]
  cases Json.readInt (Json.readSign t) with
  | none => exact Or.inr ⟨rfl, rfl⟩
  | some u =>
    refine Or.inl ⟨afterInt u, rfl, ?_⟩
    rw [Option.bind_some, afterInt]
    cases hfrac : Json.readFrac u with
    | none =>
      -- a point without a digit
      cases u with
      | nil => cases hfrac
      | cons c u =>
        rw [Json.readFrac] at hfrac
        split_ifs at hfrac with hdot
        rw [Option.getD_none, hdot]
        exact Or.inr ⟨rfl, 0x2E, u, rfl, Or.inl rfl⟩
    | some v =>
      rw [Option.getD_some, Option.bind_some]
      cases hexp : Json.readExp v with
      | none =>
        -- an exponent mark without a digit
        cases v with
        | nil => cases hexp
        | cons c v =>
          rw [Json.readExp] at hexp
          split_ifs at hexp with hmark
          exact Or.inr ⟨rfl, c, v, rfl, Or.inr (by simpa using hmark)⟩
      | some w => exact Or.inl rfl

/-! ## Literals -/

/-- The three literals. -/
theorem match?_literalRe (c : UInt8) (t : Text) :
    match? (literalRe : Regex γ) (c :: t) =
      leaves (if c = 0x74 then Json.readLiteral [0x74, 0x72, 0x75, 0x65] (c :: t)
        else if c = 0x66 then Json.readLiteral [0x66, 0x61, 0x6C, 0x73, 0x65] (c :: t)
        else if c = 0x6E then Json.readLiteral [0x6E, 0x75, 0x6C, 0x6C] (c :: t)
        else none) := by
  have hlit : ∀ (d : UInt8) (ds : Text), match? (.literal d ds : Regex γ) (c :: t) =
      if c = d then leaves (Json.readLiteral (d :: ds) (c :: t)) else none := by
    intro d ds
    rw [Regex.match?_literal, Json.readLiteral]
    by_cases hd : c = d
    · rw [if_pos hd]
      split_ifs <;> rfl
    · rw [if_neg hd, if_neg]
      intro hpre
      exact hd (List.cons_prefix_cons.mp hpre).1.symm
  rw [literalRe, Regex.match?_alt, Regex.match?_alt, hlit, hlit, hlit]
  by_cases ht : c = 0x74
  · subst ht
    rw [if_pos rfl, if_pos rfl, if_neg (by decide), if_neg (by decide)]
    simp
  by_cases hf : c = 0x66
  · subst hf
    rw [if_neg ht, if_neg ht, if_pos rfl, if_pos rfl, if_neg (by decide)]
    simp
  · rw [if_neg ht, if_neg ht, if_neg hf, if_neg hf]
    split_ifs <;> rfl

/-! ## Strings -/

/-- What one round of the pattern of a string takes off. -/
def bodyRe : Regex γ :=
  .alt (.atomic (.plus ordinaryRe)) <| .seq (.char 0x5C) <|
    .alt (.oneOf [0x22, 0x5C, 0x2F, 0x62, 0x66, 0x6E, 0x72, 0x74]) (.seq (.char 0x75) hex4Re)

/-- Each round of a string takes something, so that the star ends. -/
theorem consumes_bodyRe : Regex.Consumes (bodyRe : Regex γ) :=
  .alt (.atomic (.seq (Regex.consumes_set _) _)) (.seq (Regex.consumes_set _) _)

/-- An octet of `ordinaryRe`. -/
def isOrdinary (c : UInt8) : Bool := c ≠ 0x22 && c ≠ 0x5C && 0x20 ≤ c

/-- Four hex digits. -/
theorem match?_hex4Re (t : Text) :
    match? (hex4Re : Regex γ) t =
      match t with
      | a :: b :: c :: d :: u =>
        if (Json.hexVal a).isSome && (Json.hexVal b).isSome && (Json.hexVal c).isSome &&
            (Json.hexVal d).isSome then leaves (some u)
        else none
      | _ => none := by
  have hhex : ∀ c : UInt8, (0x30 ≤ c && c ≤ 0x39 || 0x61 ≤ c && c ≤ 0x66 || 0x41 ≤ c && c ≤ 0x46) =
      (Json.hexVal c).isSome := by
    intro c
    rw [Json.hexVal, Json.isDigit]
    split_ifs with h₁ h₂ h₃ <;> simp_all
  match t with
  | [] => rfl
  | [a] => simp [hex4Re, Regex.match?_set_seq_cons]
  | [a, b] => simp [hex4Re, Regex.match?_set_seq_cons]
  | [a, b, c] => simp [hex4Re, Regex.match?_set_seq_cons]
  | a :: b :: c :: d :: u =>
    simp only [hex4Re, Regex.match?_set_seq_cons, Regex.match?_set_cons, hhex]
    cases (Json.hexVal a).isSome <;> cases (Json.hexVal b).isSome <;>
      cases (Json.hexVal c).isSome <;> cases (Json.hexVal d).isSome <;> rfl

/-- Less than four do not match. -/
theorem match?_hex4Re_none
    (h : ∀ a b c d u, t = a :: b :: c :: d :: u → ¬(Json.Piece.unicode a b c d).Ok) :
    match? (hex4Re : Regex γ) t = none := by
  rw [match?_hex4Re]
  split
  · next a b c d u =>
    refine if_neg fun hhex => h a b c d u rfl ?_
    simpa [Json.Piece.Ok, and_assoc] using hhex
  · rfl

/-- An octet of a string that is neither its end nor an escape. -/
theorem readPieces_ordinary (h : isOrdinary c = true) (t : Text) :
    Json.readPieces (c :: t) = (Json.readPieces t).map fun r => (.plain c :: r.1, r.2) := by
  simp only [isOrdinary, Bool.and_eq_true, decide_eq_true_eq] at h
  have hok : (Json.Piece.plain c).Ok := ⟨h.2, h.1.1, h.1.2⟩
  exact Json.readPieces_render_append hok t

/-- Ordinary characters are pieces of their own. -/
theorem readPieces_dropWhile_isOrdinary (t : Text) :
    (Json.readPieces t).map Prod.snd =
      (Json.readPieces (t.dropWhile isOrdinary)).map Prod.snd := by
  induction t with
  | nil => rfl
  | cons c t ih =>
    by_cases hc : isOrdinary c = true
    · rw [readPieces_ordinary hc, List.dropWhile_cons_of_pos hc, ← ih, Option.map_map]
      rfl
    · rw [List.dropWhile_cons_of_neg hc]

/-- One round takes off a run of ordinary octets or an escape. -/
theorem match?_bodyRe (t : Text) :
    match? (bodyRe : Regex γ) t =
      match t with
      | [] => none
      | c :: u =>
        if isOrdinary c then leaves (some (u.dropWhile isOrdinary))
        else if c = 0x5C then
          match u with
          | [] => none
          | e :: u =>
            if e ∈ Json.Piece.shorts then leaves (some u)
            else if e = 0x75 then match? (hex4Re : Regex γ) u
            else none
        else none := by
  rw [bodyRe, Regex.match?_alt, Regex.match?_atomic, Regex.plus, ordinaryRe]
  cases t with
  | nil => rfl
  | cons c u =>
    rw [Regex.match?_set_seq_cons, Regex.match?_star_set, Regex.match?_char_seq_cons]
    dsimp only
    by_cases hc : isOrdinary c = true
    · rw [if_pos hc, if_pos (by exact hc)]
      rfl
    · rw [if_neg hc, if_neg (by exact hc)]
      by_cases hslash : c = 0x5C
      · rw [if_pos hslash, if_pos hslash, Option.none_or, Regex.match?_alt]
        cases u with
        | nil => rfl
        | cons e u =>
          rw [Regex.oneOf, Regex.match?_set_cons, Regex.match?_char_seq_cons]
          dsimp only
          by_cases hshort : e ∈ Json.Piece.shorts
          · rw [if_pos hshort, if_pos (by exact decide_eq_true hshort)]
            rfl
          · rw [if_neg hshort, if_neg (by exact fun h => hshort (of_decide_eq_true h)),
              Option.none_or]
      · rw [if_neg hslash, if_neg hslash]
        rfl

/-- The rounds stop at the closing quote, or the string has none. -/
theorem match?_star_bodyRe (t : Text) :
    ∃ u, match? (.star bodyRe : Regex γ) t = leaves (some u) ∧
      (Json.readPieces t).map Prod.snd = if u.head? = some 0x22 then some u.tail else none := by
  induction hn : t.length using Nat.strong_induction_on generalizing t with
  | _ n ih =>
    -- a round that takes `t` to `v` changes neither side
    have hround : ∀ v : Text, v.length < t.length →
        match? (bodyRe : Regex γ) t = leaves (some v) →
        (Json.readPieces t).map Prod.snd = (Json.readPieces v).map Prod.snd →
        ∃ u, match? (.star bodyRe : Regex γ) t = leaves (some u) ∧
          (Json.readPieces t).map Prod.snd = if u.head? = some 0x22 then some u.tail else none := by
      intro v hlt hstep hread
      obtain ⟨u, hu, hiff⟩ := ih v.length (hn ▸ hlt) v rfl
      refine ⟨u, ?_, hread.trans hiff⟩
      rw [Regex.match?_star _ consumes_bodyRe, hstep]
      dsimp only [leaves, Option.map_some]
      rw [hu]
      rfl
    -- where no round is left the repetition stops
    have hstop : match? (bodyRe : Regex γ) t = none →
        (Json.readPieces t).map Prod.snd = (if t.head? = some 0x22 then some t.tail else none) →
        ∃ u, match? (.star bodyRe : Regex γ) t = leaves (some u) ∧
          (Json.readPieces t).map Prod.snd = if u.head? = some 0x22 then some u.tail else none := by
      intro hstep hread
      refine ⟨t, ?_, hread⟩
      rw [Regex.match?_star _ consumes_bodyRe, hstep]
      rfl
    have hbody := match?_bodyRe (γ := γ) t
    cases t with
    | nil => exact hstop rfl rfl
    | cons c t =>
      dsimp only at hbody
      by_cases hc : isOrdinary c = true
      · rw [if_pos hc] at hbody
        refine hround _ ?_ hbody ?_
        · exact Nat.lt_succ_of_le (List.length_dropWhile_le _ _)
        · rw [readPieces_dropWhile_isOrdinary, List.dropWhile_cons_of_pos hc]
      rw [if_neg hc] at hbody
      by_cases hquote : c = 0x22
      · subst hquote
        refine hstop hbody ?_
        rw [Json.readPieces_quote]
        rfl
      by_cases hslash : c = 0x5C
      · subst hslash
        rw [if_pos rfl] at hbody
        cases t with
        | nil => exact hstop hbody (by rw [Json.readPieces_slash]; rfl)
        | cons e t =>
          dsimp only at hbody
          by_cases hshort : e ∈ Json.Piece.shorts
          · rw [if_pos hshort] at hbody
            have hok : (Json.Piece.short e).Ok := hshort
            refine hround t (by simp only [List.length_cons]; omega) hbody ?_
            rw [show (0x5C : UInt8) :: e :: t = (Json.Piece.short e).render ++ t from rfl,
              Json.readPieces_render_append hok, Option.map_map]
            rfl
          rw [if_neg hshort] at hbody
          by_cases hu : e = 0x75
          · subst hu
            rw [if_pos rfl] at hbody
            by_cases hdigits : ∃ a b c d v, t = a :: b :: c :: d :: v ∧
                (Json.Piece.unicode a b c d).Ok
            · obtain ⟨a, b, c, d, v, rfl, hok⟩ := hdigits
              rw [match?_hex4Re] at hbody
              dsimp only at hbody
              rw [if_pos (by simpa [Json.Piece.Ok, and_assoc] using hok)] at hbody
              refine hround v (by simp only [List.length_cons]; omega) hbody ?_
              rw [show (0x5C : UInt8) :: 0x75 :: a :: b :: c :: d :: v =
                (Json.Piece.unicode a b c d).render ++ v from rfl,
                Json.readPieces_render_append hok, Option.map_map]
              rfl
            · have hbad : ∀ a b c d u, t = a :: b :: c :: d :: u →
                  ¬(Json.Piece.unicode a b c d).Ok := fun a b c d u heq hok =>
                hdigits ⟨a, b, c, d, u, heq, hok⟩
              rw [match?_hex4Re_none hbad] at hbody
              refine hstop hbody ?_
              rw [Json.readPieces_unicode_none hbad]
              rfl
          · rw [if_neg hu] at hbody
            refine hstop hbody ?_
            rw [Json.readPieces_cons]
            dsimp only
            rw [if_neg (by decide), if_neg (by decide), if_pos rfl, if_neg hshort, if_neg hu]
            rfl
      · rw [if_neg hslash] at hbody
        have hraw : c < 0x20 := by
          simp only [isOrdinary, Bool.and_eq_true, decide_eq_true_eq, not_and] at hc
          exact UInt8.not_le.mp (hc ⟨hquote, hslash⟩)
        refine hstop hbody ?_
        rw [Json.readPieces_control hquote hraw, if_neg (by simpa using hquote)]
        rfl

/-- The pattern of a string takes off its pieces and the quotes. -/
theorem match?_stringRe (t : Text) :
    match? (stringRe : Regex γ) t =
      match t with
      | [] => none
      | c :: u => if c = 0x22 then leaves ((Json.readPieces u).map Prod.snd) else none := by
  cases t with
  | nil => rfl
  | cons c t =>
    rw [show (stringRe : Regex γ) = .seq (.char 0x22) (.seq (.atomic (.star bodyRe)) (.char 0x22))
      from rfl, Regex.match?_char_seq_cons]
    dsimp only
    split_ifs with hquote
    · obtain ⟨u, hu, hread⟩ := match?_star_bodyRe (γ := γ) t
      rw [Regex.match?_atomic_seq, hu, hread]
      dsimp only [leaves, Option.map_some, Option.bind_some]
      cases u with
      | nil => rfl
      | cons d u =>
        rw [Regex.match?_char_cons]
        by_cases hd : d = 0x22
        · rw [if_pos hd, if_pos (by simp [hd])]
          rfl
        · rw [if_neg hd, if_neg (by simpa using hd)]
          rfl
    · rfl

/-! ## Escapes -/

/-- A check passes, or raises. -/
def Checks (res : Except Raise Unit) : Bool → Prop
  | true => res = .ok ()
  | false => ∃ e, res = .error (.valueError e)

/-- An escape starts with a backslash. -/
theorem match?_ESCAPE_other (h : c ≠ 0x5C) (t : Text) : match? ESCAPE (c :: t) = none := by
  rw [ESCAPE, Regex.match?_char_seq_cons, if_neg h]

/-- A short escape is taken whole. -/
theorem match?_ESCAPE_short (h : c ∈ Json.Piece.shorts) (t : Text) :
    match? ESCAPE (0x5C :: c :: t) = leaves (some t) := by
  have hu : c ≠ 0x75 := by
    rintro rfl
    exact absurd h (by decide)
  have hline : c ≠ 0x0A := by
    rintro rfl
    exact absurd h (by decide)
  rw [ESCAPE, Regex.match?_char_seq_cons, if_pos rfl, Regex.match?_alt, Regex.match?_char_seq_cons,
    if_neg hu, Regex.match?_set_cons, if_pos (by simpa using hline)]
  rfl

/-- So is the escape of a code point, with its digits noted. -/
theorem match?_ESCAPE_unicode {a b c d : UInt8} (h : (Json.Piece.unicode a b c d).Ok) (t : Text) :
    match? ESCAPE (0x5C :: 0x75 :: a :: b :: c :: d :: t) =
      some ⟨t, [((), a :: b :: c :: d :: t, t)]⟩ := by
  rw [ESCAPE, Regex.match?_char_seq_cons, if_pos rfl, Regex.match?_alt, Regex.match?_char_seq_cons,
    if_pos rfl, Regex.match?_group, match?_hex4Re]
  dsimp only
  rw [if_pos (by simpa [Json.Piece.Ok, and_assoc] using h)]
  rfl

/-- A first half whose place has gone by stays without its second. -/
theorem checkEscapesLoop_stale {token : Bytes} {ms : List (Bytes × Regex.Match Unit)} {p : ℕ}
    (h : ∀ m ∈ ms, p ≠ token.length - m.1.length) :
    ∃ e, checkEscapesLoop token ms (some p) = .error (.valueError e) := by
  cases ms with
  | nil => exact ⟨_, rfl⟩
  | cons m ms =>
    obtain ⟨start, m⟩ := m
    rw [checkEscapesLoop, if_pos]
    · exact ⟨_, rfl⟩
    · have hne := h (start, m) List.mem_cons_self
      simp [Ne.symm hne]

/-- A low surrogate by its code is one by its piece. -/
theorem isLowCode_codeUnit (a b c d : UInt8) :
    isLowCode (some (Json.Piece.codeUnit a b c d)) = (Json.Piece.unicode a b c d).isLow := by
  simp only [isLowCode, Option.any_some, Json.Piece.isLow]
  congr 1
  rw [decide_eq_decide]
  omega

/-- So is a high one. -/
theorem isHighCode_codeUnit (a b c d : UInt8) :
    isHighCode (some (Json.Piece.codeUnit a b c d)) = (Json.Piece.unicode a b c d).isHigh := by
  simp only [isHighCode, Option.any_some, Json.Piece.isHigh]
  congr 1
  rw [decide_eq_decide]
  omega

/-- The code of an escape is read off its digits. -/
theorem escapeCode_unicode (a b c d : UInt8) (t : Text) :
    escapeCode ⟨t, [((), a :: b :: c :: d :: t, t)]⟩ = some (Json.Piece.codeUnit a b c d) := by
  have hbetween : between (a :: b :: c :: d :: t) t = [a, b, c, d] := by
    simp [between, show t.length + 1 + 1 + 1 + 1 - t.length = 4 by omega]
  simp [escapeCode, hbetween, int16, Json.Piece.codeUnit]

/-- The next piece is the second half of a pair, and the others are paired. -/
def pairsNext : List Json.Piece → Bool
  | q :: qs => q.isLow && Json.Paired qs
  | [] => false

/-- A high surrogate is paired with what comes next. -/
theorem paired_high {p : Json.Piece} (h : p.isHigh = true) (ps : List Json.Piece) :
    Json.Paired (p :: ps) = pairsNext ps := by
  cases ps with
  | nil => simp [Json.Paired, h, pairsNext]
  | cons q qs => exact Json.paired_high_cons h q qs

/-- Without a backslash there is no escape. -/
theorem findAll_ESCAPE_eq_nil {n : ℕ} (h : 0x5C ∉ t) : ESCAPE.findAll n t = [] := by
  induction n generalizing t with
  | zero => rfl
  | succ n ih =>
    cases t with
    | nil => rfl
    | cons c t =>
      obtain ⟨hc, ht⟩ := not_or.mp (mt List.mem_cons.mpr h)
      rw [Regex.findAll, match?_ESCAPE_other (Ne.symm hc)]
      exact ih ht

/-- The pairing of `_check_escapes`, from the pieces that are left: without a pending half they have
to be paired, with one that ends here the next has to be its second half. -/
theorem checks_escapes {token tail : Bytes} (htail : 0x5C ∉ tail) {ps : List Json.Piece}
    (hok : ∀ p ∈ ps, p.Ok) {n : ℕ} (hn : (ps.flatMap Json.Piece.render ++ tail).length ≤ n)
    (hle : (ps.flatMap Json.Piece.render ++ tail).length ≤ token.length) :
    Checks (checkEscapesLoop token (ESCAPE.findAll n (ps.flatMap Json.Piece.render ++ tail)) none)
        (Json.Paired ps) ∧
      Checks (checkEscapesLoop token (ESCAPE.findAll n (ps.flatMap Json.Piece.render ++ tail))
          (some (token.length - (ps.flatMap Json.Piece.render ++ tail).length)))
        (pairsNext ps) := by
  -- on the pieces; the two halves are the loop with no surrogate pending and with one
  induction ps generalizing n with
  | nil =>
    rw [List.flatMap_nil, List.nil_append, findAll_ESCAPE_eq_nil htail]
    exact ⟨rfl, _, rfl⟩
  | cons p ps ih =>
    rw [List.flatMap_cons, List.append_assoc] at hn hle ⊢
    generalize hrest : ps.flatMap Json.Piece.render ++ tail = rest at hn hle ih ⊢
    have hps : ∀ q ∈ ps, q.Ok := fun q hq => hok q (List.mem_cons_of_mem p hq)
    cases n with
    | zero =>
      cases p <;> simp [Json.Piece.render] at hn
    | succ n =>
      cases p with
      | plain c =>
        -- no escape here, so one that is pending does not end where the next one starts
        have hslash : c ≠ 0x5C := (hok _ List.mem_cons_self).2.2
        simp only [Json.Piece.render, List.cons_append, List.nil_append, List.length_cons]
          at hn hle ⊢
        rw [Regex.findAll, match?_ESCAPE_other hslash]
        refine ⟨?_, checkEscapesLoop_stale fun m hm => ?_⟩
        · rw [Json.paired_cons rfl]
          exact (ih hps (by omega) (by omega)).1
        · have hstart := Regex.length_findAll_le (m := m.2) hm
          omega
      | short e =>
        have hshort : e ∈ Json.Piece.shorts := hok _ List.mem_cons_self
        simp only [Json.Piece.render, List.cons_append, List.nil_append, List.length_cons]
          at hn hle ⊢
        rw [Regex.findAll, match?_ESCAPE_short hshort]
        dsimp only [leaves, Option.map_some]
        refine ⟨?_, ?_⟩
        · rw [Json.paired_cons rfl]
          exact (ih hps (by omega) (by omega)).1
        · rw [checkEscapesLoop, if_pos (by simp [escapeCode, isLowCode])]
          exact ⟨_, rfl⟩
      | unicode a b c d =>
        have hunicode : (Json.Piece.unicode a b c d).Ok := hok _ List.mem_cons_self
        simp only [Json.Piece.render, List.cons_append, List.nil_append, List.length_cons]
          at hn hle ⊢
        rw [Regex.findAll, match?_ESCAPE_unicode hunicode]
        dsimp only
        rw [checkEscapesLoop, checkEscapesLoop, escapeCode_unicode]
        dsimp only
        rw [isLowCode_codeUnit, isHighCode_codeUnit]
        -- a surrogate that is high becomes the one pending, a low one answers it
        obtain ⟨hfree, hpending⟩ := ih hps (n := n) (by omega) (by omega)
        constructor
        · cases hlow : (Json.Piece.unicode a b c d).isLow with
          | true =>
            have hhigh : (Json.Piece.unicode a b c d).isHigh = false := by
              rw [← Bool.not_eq_true]
              intro hhigh
              rw [Json.Piece.isLow_of_isHigh hhigh] at hlow
              cases hlow
            rw [Json.paired_cons hhigh, hlow]
            exact ⟨_, rfl⟩
          | false =>
            cases hhigh : (Json.Piece.unicode a b c d).isHigh with
            | true =>
              rw [paired_high hhigh]
              exact hpending
            | false =>
              rw [Json.paired_cons hhigh, hlow]
              exact hfree
        · rw [pairsNext]
          cases hlow : (Json.Piece.unicode a b c d).isLow with
          | true =>
            rw [if_neg (by simp), Bool.true_and]
            exact hfree
          | false =>
            rw [if_pos (by simp)]
            exact ⟨_, rfl⟩

/-- `_check_escapes` passes a string whose escapes of surrogates are paired. -/
theorem checks_checkEscapes {ps : List Json.Piece} (hok : ∀ p ∈ ps, p.Ok) :
    Checks (checkEscapes (0x22 :: (ps.flatMap Json.Piece.render ++ [0x22]))) (Json.Paired ps) := by
  rw [checkEscapes, List.length_cons, Regex.findAll, match?_ESCAPE_other (by decide)]
  exact (checks_escapes (by decide) hok le_rfl (Nat.le_succ _)).1

/-! ## Tokens -/

/-- The punctuation of `_TOKEN`. -/
def puncts : List UInt8 := [0x7B, 0x7D, 0x5B, 0x5D, 0x3A, 0x2C]

/-- `_TOKEN` after its blanks. -/
def tokenRe : Regex Kind :=
  .alt (.group .str stringRe) <| .alt (.group .num numberRe) <| .alt (.group .lit literalRe) <|
    .group .punct (.oneOf puncts)

/-- A match that is one group. -/
def grouped (kind : Kind) (u : Text) (rest : Option Text) : Option (Regex.Match Kind) :=
  rest.map fun r => ⟨r, [(kind, u, r)]⟩

/-- A group notes its kind and leaves the rest. -/
theorem match?_group_leaves {kind : Kind} {r : Regex Kind} {rest : Option Text}
    (h : match? r u = leaves rest) : match? (.group kind r) u = grouped kind u rest := by
  rw [Regex.match?_group, h, leaves, grouped, Option.map_map]
  rfl

/-- A number starts with a minus or a digit. -/
theorem numberRest_none (h : (c = 0x2D || Json.isDigit c) = false) (t : Text) :
    numberRest (c :: t) = none := by
  simp only [Bool.or_eq_false_iff, decide_eq_false_iff_not] at h
  have hzero : c ≠ 0x30 := by
    rintro rfl
    exact absurd h.2 (by decide)
  rw [numberRest, Json.readSign, if_neg h.1, Json.readInt, if_neg hzero, h.2]
  rfl

/-- The literal a text may start with. -/
def literalRest (c : UInt8) (t : Text) : Option Text :=
  if c = 0x74 then Json.readLiteral [0x74, 0x72, 0x75, 0x65] (c :: t)
  else if c = 0x66 then Json.readLiteral [0x66, 0x61, 0x6C, 0x73, 0x65] (c :: t)
  else if c = 0x6E then Json.readLiteral [0x6E, 0x75, 0x6C, 0x6C] (c :: t)
  else none

/-- The token is decided by its first character. -/
theorem match?_tokenRe (c : UInt8) (t : Text) :
    match? tokenRe (c :: t) =
      (grouped .str (c :: t) (if c = 0x22 then (Json.readPieces t).map Prod.snd else none)).or
        ((grouped .num (c :: t) (numberRest (c :: t))).or
          ((grouped .lit (c :: t) (literalRest c t)).or
            (grouped .punct (c :: t) (if c ∈ puncts then some t else none)))) := by
  have hstring : match? (stringRe : Regex Kind) (c :: t) =
      leaves (if c = 0x22 then (Json.readPieces t).map Prod.snd else none) := by
    rw [match?_stringRe]
    dsimp only
    split_ifs <;> rfl
  have hpunct : match? (.oneOf puncts : Regex Kind) (c :: t) =
      leaves (if c ∈ puncts then some t else none) := by
    rw [Regex.oneOf, Regex.match?_set_cons]
    by_cases hc : c ∈ puncts
    · rw [if_pos (decide_eq_true hc), if_pos hc]
      rfl
    · rw [if_neg (by simpa using hc), if_neg hc]
      rfl
  rw [tokenRe, Regex.match?_alt, Regex.match?_alt, Regex.match?_alt, match?_group_leaves hstring,
    match?_group_leaves (match?_numberRe (c :: t)), match?_group_leaves (match?_literalRe c t),
    match?_group_leaves hpunct]
  rfl

/-- `_TOKEN` skips the blanks, as none of its alternatives starts with one. -/
theorem match?_TOKEN (t : Text) : match? TOKEN t = match? tokenRe (Json.skipWs t) := by
  have hblank : ∀ c : UInt8, decide (c ∈ WS) = Json.isWs c := by
    intro c
    simp [WS, Json.isWs, Bool.or_assoc]
  have hnone : ∀ (c : UInt8) (t : Text), decide (c ∈ WS) = true →
      match? tokenRe (c :: t) = none := by
    intro c t hc
    rw [match?_tokenRe]
    simp only [WS, decide_eq_true_eq, List.mem_cons, List.not_mem_nil, or_false] at hc
    rcases hc with rfl | rfl | rfl | rfl <;> rfl
  rw [show TOKEN = .seq (.star (.set fun d => decide (d ∈ WS))) tokenRe from rfl,
    Regex.match?_star_set_seq hnone, Json.skipWs]
  congr 2
  funext d
  exact hblank d

/-- A token of the text `u`, which leaves `rest`. -/
structure Lexed (data : Bytes) (u : Text) (tok : Token) (rest : Text) : Prop where
  split : u = tok.text ++ rest
  start : At data tok.start u
  pos : At data tok.pos rest
  str : tok.kind = .str → ∃ body, Json.IsBody body ∧ tok.text = 0x22 :: (body ++ [0x22])
  notStr : tok.kind ≠ .str → u.head? ≠ some 0x22
  scalar : tok.kind ≠ .punct →
    (Json.readScalar u = some rest ∨ Json.readScalar u = none ∧ Dead rest) ∧
      ∀ c ∈ puncts, u.head? ≠ some c
  punct : tok.kind = .punct → ∃ c ∈ puncts, tok.text = [c]

/-- No token starts here. -/
structure NoToken (u : Text) : Prop where
  scalar : Json.readScalar u = none
  punct : ∀ c ∈ puncts, u.head? ≠ some c

/-- The text between two positions. -/
theorem between_append (v rest : Bytes) : between (v ++ rest) rest = v := by
  simp [between]

/-- The token at a position, once its pattern has matched. -/
theorem token_of_match (kind : Kind) {v rest : Text} (h : At data pos t)
    (hskip : Json.skipWs t = v ++ rest)
    (hmatch : match? tokenRe (v ++ rest) = grouped kind (v ++ rest) (some rest)) :
    ∃ tok : Token, tok.kind = kind ∧ tok.text = v ∧ At data tok.start (v ++ rest) ∧
      At data tok.pos rest ∧
      token data pos =
        if kind = .str && 0x5C ∈ v then checkEscapes v >>= fun _ => .ok tok else .ok tok := by
  have hsuffix : (v ++ rest) <:+ data := by
    rw [← hskip]
    exact (List.dropWhile_suffix _).trans h.suffix
  refine ⟨⟨kind, v, data.length - (v ++ rest).length, data.length - rest.length⟩, rfl, rfl,
    At.of_suffix hsuffix, At.of_suffix ((List.suffix_append v rest).trans hsuffix), ?_⟩
  rw [token, h.2, match?_TOKEN, hskip, hmatch]
  dsimp only [grouped, Option.map_some, List.getLast?_singleton]
  rw [between_append]
  split_ifs <;> rfl

/-- Where nothing matches the lexer raises. -/
theorem token_of_noMatch (h : At data pos t) (hmatch : match? tokenRe (Json.skipWs t) = none) :
    ∃ e, token data pos = .error (.valueError e) := by
  rw [token, h.2, match?_TOKEN, hmatch]
  exact ⟨_, rfl⟩

/-- Without a backslash there is nothing to pair. -/
theorem paired_of_not_mem {ps : List Json.Piece} (h : 0x5C ∉ ps.flatMap Json.Piece.render) :
    Json.Paired ps = true := by
  induction ps with
  | nil => rfl
  | cons p ps ih =>
    rw [List.flatMap_cons, List.mem_append, not_or] at h
    cases p with
    | plain c =>
      rw [Json.paired_cons rfl]
      exact ih h.2
    | short e => exact absurd List.mem_cons_self h.1
    | unicode a b c d => exact absurd List.mem_cons_self h.1

/-- A string is lexed as the grammar reads it. -/
theorem token_string (h : At data pos t) (hskip : Json.skipWs t = 0x22 :: u) :
    (∃ tok rest, token data pos = .ok tok ∧ Lexed data (0x22 :: u) tok rest) ∨
      (∃ e, token data pos = .error (.valueError e)) ∧ NoToken (0x22 :: u) := by
  have hre := match?_tokenRe 0x22 u
  have hnumber : numberRest (0x22 :: u) = none := numberRest_none rfl u
  rw [if_pos rfl, hnumber] at hre
  have hscalar : Json.readScalar (0x22 :: u) = Json.readString u := rfl
  have hheads : ∀ d ∈ puncts, ((0x22 : UInt8) :: u).head? ≠ some d := by
    rintro d hd heq
    cases heq
    exact absurd hd (by decide)
  cases hread : Json.readPieces u with
  | none =>
    rw [hread] at hre
    refine Or.inr ⟨token_of_noMatch h (by rw [hskip]; exact hre), ?_, hheads⟩
    rw [hscalar, Json.readString, hread]
    rfl
  | some r =>
    obtain ⟨ps, rest⟩ := r
    obtain ⟨hok, rfl⟩ := Json.readPieces_sound hread
    have hsplit : (0x22 : UInt8) :: (ps.flatMap Json.Piece.render ++ 0x22 :: rest) =
        0x22 :: (ps.flatMap Json.Piece.render ++ [0x22]) ++ rest := by simp
    have hchecks := checks_checkEscapes hok
    rw [hread, hsplit] at hre
    obtain ⟨tok, hkind, htext, hstart, hpos, htoken⟩ :=
      token_of_match .str h (hskip.trans hsplit) hre
    cases hpaired : Json.Paired ps with
    | true =>
      have hstring : Json.readString (ps.flatMap Json.Piece.render ++ 0x22 :: rest) = some rest :=
        Json.readString_eq_some_iff.mpr ⟨_, ⟨ps, hok, hpaired, rfl⟩, rfl⟩
      rw [hpaired] at hchecks
      refine Or.inl ⟨tok, rest, ?_, by rw [hsplit, htext], by rwa [hsplit], hpos, ?_, ?_, ?_, ?_⟩
      · rw [htoken, show checkEscapes _ = _ from hchecks]
        split_ifs <;> rfl
      · exact fun _ => ⟨_, ⟨ps, hok, hpaired, rfl⟩, htext⟩
      · exact fun hne => absurd hkind hne
      · exact fun _ => ⟨Or.inl (hscalar.trans hstring), hheads⟩
      · rw [hkind]
        exact fun h => (by contradiction)
    | false =>
      rw [hpaired] at hchecks
      obtain ⟨e, he⟩ := hchecks
      have hslash : 0x5C ∈ 0x22 :: (ps.flatMap Json.Piece.render ++ [0x22]) := by
        by_contra hno
        have hbody : 0x5C ∉ ps.flatMap Json.Piece.render := fun hmem =>
          hno (List.mem_cons_of_mem _ (List.mem_append_left _ hmem))
        rw [paired_of_not_mem hbody] at hpaired
        cases hpaired
      refine Or.inr ⟨⟨e, ?_⟩, ?_, hheads⟩
      · rw [htoken, if_pos (by simpa using hslash), he]
        rfl
      · rw [hscalar, Json.readString, hread, Option.bind_some]
        exact if_neg (by simp [hpaired])

/-- What follows a number is a suffix. -/
theorem numberRest_suffix {rest : Text} (h : numberRest t = some rest) : rest <:+ t := by
  have hmatch := match?_numberRe (γ := Unit) t
  rw [h] at hmatch
  exact Regex.rest_suffix (numberRe : Regex Unit) (m := ⟨rest, []⟩) (List.mem_of_mem_head? hmatch)

/-- A number is lexed as the grammar reads it. -/
theorem token_number (h : At data pos t) (hskip : Json.skipWs t = c :: u)
    (hc : (c = 0x2D || Json.isDigit c) = true) :
    (∃ tok rest, token data pos = .ok tok ∧ Lexed data (c :: u) tok rest) ∨
      (∃ e, token data pos = .error (.valueError e)) ∧ NoToken (c :: u) := by
  have hother : c ≠ 0x22 ∧ c ≠ 0x74 ∧ c ≠ 0x66 ∧ c ≠ 0x6E ∧ c ∉ puncts := by
    have hne : c ∉ (0x22 :: 0x74 :: 0x66 :: 0x6E :: puncts) := by
      intro hmem
      have hall : ((0x22 :: 0x74 :: 0x66 :: 0x6E :: puncts).all
          fun d => !(d = 0x2D || Json.isDigit d)) = true := by
        decide
      have hno := List.all_eq_true.mp hall c hmem
      rw [hc] at hno
      cases hno
    simpa [not_or] using hne
  obtain ⟨hquote, ht, hf, hn, hpunct⟩ := hother
  have hscalar : Json.readScalar (c :: u) = Json.readNumber (c :: u) := by
    rw [Json.readScalar, if_neg hquote, if_neg ht, if_neg hf, if_neg hn, if_pos hc]
  have hliteral : literalRest c u = none := by
    rw [literalRest, if_neg ht, if_neg hf, if_neg hn]
  have hheads : ∀ d ∈ puncts, (c :: u).head? ≠ some d := by
    rintro d hd heq
    cases heq
    exact hpunct hd
  have hre := match?_tokenRe c u
  rw [if_neg hquote, hliteral, if_neg hpunct] at hre
  rcases numberRest_cases (c :: u) with ⟨rest, hrest, hread⟩ | ⟨hrest, hread⟩
  · rw [hrest] at hre
    obtain ⟨v, hv⟩ := numberRest_suffix hrest
    rw [← hscalar] at hread
    rw [← hv] at hre hskip hread hheads ⊢
    obtain ⟨tok, hkind, htext, hstart, hpos, htoken⟩ :=
      token_of_match .num h hskip hre
    refine Or.inl ⟨tok, rest, htoken, by rw [htext], hstart, hpos, ?_, ?_, ?_, ?_⟩
    · rw [hkind]
      exact fun h => (by contradiction)
    · rw [hv]
      exact fun _ => by simpa using hquote
    · exact fun _ => ⟨hread, hheads⟩
    · rw [hkind]
      exact fun h => (by contradiction)
  · rw [hrest] at hre
    exact Or.inr ⟨token_of_noMatch h (by rw [hskip]; exact hre), hscalar.trans hread, hheads⟩

/-- A token is read where the reader finds a scalar or a punctuation, or a number that goes on
wrongly; elsewhere the scan raises. -/
theorem token_cases (h : At data pos t) :
    (∃ tok rest, token data pos = .ok tok ∧ Lexed data (Json.skipWs t) tok rest) ∨
      (∃ e, token data pos = .error (.valueError e)) ∧ NoToken (Json.skipWs t) := by
  cases hskip : Json.skipWs t with
  | nil =>
    refine Or.inr ⟨token_of_noMatch h (by rw [hskip]; rfl), rfl, ?_⟩
    simp
  | cons c u =>
    have hre := match?_tokenRe c u
    by_cases hquote : c = 0x22
    · subst hquote
      exact token_string h hskip
    by_cases hnumber : (c = 0x2D || Json.isDigit c) = true
    · exact token_number h hskip hnumber
    rw [Bool.not_eq_true] at hnumber
    rw [if_neg hquote, numberRest_none hnumber] at hre
    have hscalar : Json.readScalar (c :: u) = literalRest c u := by
      rw [Json.readScalar, if_neg hquote, literalRest, hnumber]
      rfl
    by_cases hpunct : c ∈ puncts
    · have hliteral : literalRest c u = none := by
        simp only [puncts, List.mem_cons, List.not_mem_nil, or_false] at hpunct
        rcases hpunct with rfl | rfl | rfl | rfl | rfl | rfl <;> rfl
      rw [hliteral, if_pos hpunct] at hre
      obtain ⟨tok, hkind, htext, hstart, hpos, htoken⟩ :=
        token_of_match .punct (v := [c]) h hskip hre
      refine Or.inl ⟨tok, u, htoken, by rw [htext]; rfl, hstart, hpos, ?_, ?_, ?_, ?_⟩
      · rw [hkind]
        exact fun h => (by contradiction)
      · exact fun _ => by simpa using hquote
      · rw [hkind]
        exact fun h => absurd rfl h
      · exact fun _ => ⟨c, hpunct, htext⟩
    have hheads : ∀ d ∈ puncts, (c :: u).head? ≠ some d := by
      rintro d hd heq
      cases heq
      exact hpunct hd
    rw [if_neg hpunct] at hre
    cases hliteral : literalRest c u with
    | none =>
      rw [hliteral] at hre hscalar
      exact Or.inr ⟨token_of_noMatch h (by rw [hskip]; exact hre), hscalar, hheads⟩
    | some rest =>
      rw [hliteral] at hre hscalar
      obtain ⟨v, -, hv⟩ := Json.readScalar_sound hscalar
      rw [hv] at hre hskip hscalar hheads ⊢
      obtain ⟨tok, hkind, htext, hstart, hpos, htoken⟩ :=
        token_of_match .lit h hskip hre
      refine Or.inl ⟨tok, rest, htoken, by rw [htext], hstart, hpos, ?_, ?_, ?_, ?_⟩
      · rw [hkind]
        exact fun h => (by contradiction)
      · rw [← hv]
        exact fun _ => by simpa using hquote
      · exact fun _ => ⟨Or.inl hscalar, hheads⟩
      · rw [hkind]
        exact fun h => (by contradiction)

end Client

end MarketMaker
