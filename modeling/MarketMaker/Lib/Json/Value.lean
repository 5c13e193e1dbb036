import MarketMaker.Lib.Json.Decimal
import MarketMaker.Lib.Json.Reader
import MarketMaker.Lib.Utf8

/-!
# What a JSON value denotes

`valueOf` is the value of a text in the grammar. A string denotes its octets with the escapes
resolved; an integral number denotes its magnitude and keeps the sign it is spelled with, since
readers tell `-0` from `0`. Containers and other numbers are told apart and not taken apart.
-/

namespace Json

/-- A value. -/
inductive Val
  | null
  | bool (b : Bool)
  /-- A number without fraction and exponent. -/
  | int (negative : Bool) (magnitude : ℕ)
  /-- Any other number. -/
  | float
  | string (s : Text)
  | array
  | object
  deriving DecidableEq, Repr

/-! ## Strings -/

/-- The octet that a two-character escape stands for. -/
def Piece.shortOctet (c : UInt8) : UInt8 :=
  if c = 0x62 then 0x08
  else if c = 0x66 then 0x0C
  else if c = 0x6E then 0x0A
  else if c = 0x72 then 0x0D
  else if c = 0x74 then 0x09
  else c

/-- The octets of a code point. -/
def codePoint (n : ℕ) : Text := String.utf8EncodeChar (Char.ofNat n)

/-- The code point of a surrogate pair. -/
def pairCode (high low : ℕ) : ℕ := 0x10000 + (high - 0xD800) * 0x400 + (low - 0xDC00)

/-- The octets that pieces stand for. -/
def resolve : List Piece → Text
  | [] => []
  | .plain c :: ps => c :: resolve ps
  | .short c :: ps => Piece.shortOctet c :: resolve ps
  | .unicode a b c d :: ps =>
    if (Piece.unicode a b c d).isHigh then
      match ps with
      | .unicode a' b' c' d' :: ps =>
        codePoint (pairCode (Piece.codeUnit a b c d) (Piece.codeUnit a' b' c' d')) ++ resolve ps
      | ps => resolve ps
    else codePoint (Piece.codeUnit a b c d) ++ resolve ps

/-- The octets of a string, given the text after its opening quote. -/
def stringOf (t : Text) : Text :=
  match readPieces t with
  | some r => resolve r.1
  | none => []

/-! ## Values -/

/-- A number without fraction and exponent. -/
def isIntegral (t : Text) : Bool := !(readSign t).isEmpty && (readSign t).all isDigit

/-- The value of a text. -/
def valueOf (t : Text) : Val :=
  match t with
  | [] => .null
  | c :: rest =>
    if c = 0x22 then .string (stringOf rest)
    else if c = 0x74 then .bool true
    else if c = 0x66 then .bool false
    else if c = 0x6E then .null
    else if c = 0x5B then .array
    else if c = 0x7B then .object
    else if isIntegral t then .int (c = 0x2D) (natValue (readSign t))
    else .float

/-- A string is its pieces, resolved. -/
theorem stringOf_render {ps : List Piece} (h : ∀ p ∈ ps, p.Ok) :
    stringOf (ps.flatMap Piece.render ++ [0x22]) = resolve ps := by
  rw [stringOf, readPieces_complete h []]

/-- Without an escape, a string denotes its text. -/
theorem stringOf_of_not_mem {t : Text} (h : IsBody t) (hslash : 0x5C ∉ t) :
    stringOf (t ++ [0x22]) = t := by
  obtain ⟨ps, hok, -, rfl⟩ := h
  rw [stringOf_render hok]
  clear hok
  induction ps with
  | nil => rfl
  | cons p ps ih =>
    rw [List.flatMap_cons, List.mem_append, not_or] at hslash
    rw [List.flatMap_cons]
    cases p with
    | plain c =>
      rw [resolve, ih hslash.2]
      rfl
    | short c => exact absurd List.mem_cons_self hslash.1
    | unicode a b c d => exact absurd List.mem_cons_self hslash.1

/-- A digit opens no other value. -/
theorem valueOf_digits {t : Text} (hne : t ≠ []) (h : Digits t) :
    valueOf t = .int false (natValue t) := by
  cases t with
  | nil => exact absurd rfl hne
  | cons c ds =>
    have hc := isDigit_iff.mp (h c List.mem_cons_self)
    have hother : ∀ d : UInt8, (d.toNat < 0x30 ∨ 0x39 < d.toNat) → c ≠ d := by
      rintro d hd rfl
      omega
    have hsign : readSign (c :: ds) = c :: ds := if_neg (hother 0x2D (by decide))
    have hintegral : isIntegral (c :: ds) = true := by
      rw [isIntegral, hsign, Bool.and_eq_true, List.all_eq_true]
      exact ⟨rfl, h⟩
    simp only [valueOf, hintegral, hsign, hother 0x22 (by decide), hother 0x74 (by decide),
      hother 0x66 (by decide), hother 0x6E (by decide), hother 0x5B (by decide),
      hother 0x7B (by decide), hother 0x2D (by decide), if_false, if_true, decide_false]

/-- A minus makes the integer negative. -/
theorem valueOf_minus {ds : Text} (hne : ds ≠ []) (h : Digits ds) :
    valueOf (0x2D :: ds) = .int true (natValue ds) := by
  have hsign : readSign (0x2D :: ds) = ds := rfl
  have hintegral : isIntegral (0x2D :: ds) = true := by
    rw [isIntegral, hsign, Bool.and_eq_true, List.all_eq_true]
    refine ⟨?_, h⟩
    cases ds with
    | nil => exact absurd rfl hne
    | cons d ds => rfl
  rw [valueOf, if_neg (by decide), if_neg (by decide), if_neg (by decide), if_neg (by decide),
    if_neg (by decide), if_neg (by decide), if_pos hintegral, hsign]
  rfl

/-! ## Integer tokens -/

/-- The number with this sign and magnitude. -/
def signed (negative : Bool) (magnitude : ℕ) : ℤ := if negative then -magnitude else magnitude

/-- A token of digits, behind a minus if it is negative. -/
structure IsIntToken (token : Text) (negative : Bool) (ds : Text) : Prop where
  nonempty : ds ≠ []
  digits : Digits ds
  eq : token = if negative then 0x2D :: ds else ds

/-- Digits do not start with a minus. -/
theorem head_ne_minus {ds : Text} (hne : ds ≠ []) (hdigits : Digits ds) :
    ds.head? ≠ some 0x2D := by
  cases ds with
  | nil => exact absurd rfl hne
  | cons c ds =>
    intro h
    have hc := hdigits c List.mem_cons_self
    rw [List.head?_cons, Option.some.injEq] at h
    rw [h] at hc
    exact absurd hc (by decide)

/-- Digits are a token without a minus. -/
theorem IsIntToken.of_digits {ds : Text} (h : ds ≠ [] ∧ Digits ds) : IsIntToken ds false ds :=
  ⟨h.1, h.2, rfl⟩

/-- What is left of an integer token behind its minus, if it has one, is digits. -/
theorem exists_isIntToken_iff {token : Text} :
    (∃ negative ds, IsIntToken token negative ds) ↔
      if token.head? = some 0x2D then token.tail ≠ [] ∧ Digits token.tail
      else token ≠ [] ∧ Digits token := by
  constructor
  · rintro ⟨negative, ds, hne, hdigits, rfl⟩
    cases negative with
    | true => exact ⟨hne, hdigits⟩
    | false => exact (if_neg (head_ne_minus hne hdigits)).mpr ⟨hne, hdigits⟩
  · intro h
    split_ifs at h with hminus
    · exact ⟨true, token.tail, h.1, h.2, (List.cons_head?_tail hminus).symm⟩
    · exact ⟨false, token, .of_digits h⟩

/-- An integer token has the value of its digits and sign. -/
theorem IsIntToken.valueOf_eq {token ds : Text} {negative : Bool}
    (h : IsIntToken token negative ds) : valueOf token = .int negative (natValue ds) := by
  obtain ⟨hne, hdigits, rfl⟩ := h
  cases negative with
  | false => exact valueOf_digits hne hdigits
  | true => exact valueOf_minus hne hdigits

/-- A text with an integer for its value is an integer token. -/
theorem isIntToken_of_valueOf {t : Text} {negative : Bool} {n : ℕ}
    (h : valueOf t = .int negative n) : ∃ ds, IsIntToken t negative ds ∧ natValue ds = n := by
  cases t with
  | nil => cases h
  | cons c rest =>
    rw [valueOf] at h
    split_ifs at h with h1 h2 h3 h4 h5 h6 hintegral
    rw [isIntegral, Bool.and_eq_true, Bool.not_eq_true', List.isEmpty_eq_false_iff,
      List.all_eq_true] at hintegral
    obtain ⟨hsign, hn⟩ := Val.int.inj h
    refine ⟨_, ⟨hintegral.1, hintegral.2, ?_⟩, hn⟩
    rw [← hsign, readSign]
    by_cases hminus : c = 0x2D
    · simp [hminus]
    · simp [hminus]

/-- It holds nothing else. -/
theorem IsIntToken.mem {token ds : Text} {negative : Bool} (h : IsIntToken token negative ds)
    {c : UInt8} (hc : c ∈ token) : c = 0x2D ∨ isDigit c = true := by
  rw [h.eq] at hc
  split_ifs at hc
  · exact (List.mem_cons.mp hc).imp_right (h.digits c)
  · exact Or.inr (h.digits c hc)

/-- A minus is no digit. -/
theorem not_isDigit_minus : isDigit 0x2D ≠ true := by decide

/-- The digits of an integer token of the grammar start with no zero. -/
theorem IsIntToken.isInt_of_number {token ds : Text} {negative : Bool}
    (h : IsIntToken token negative ds) (hnumber : IsNumber token) : IsInt ds := by
  obtain ⟨sign, int, frac, exp, rfl, hsign, hint, hfrac, hexp⟩ := hnumber
  -- a fraction or an exponent would be in the way
  have hno : ∀ c ∈ frac ++ exp, c = 0x2D ∨ isDigit c = true := fun c hc =>
    h.mem (List.mem_append_right sign (List.mem_append_right int hc))
  obtain rfl : frac = [] := by
    rcases hfrac with rfl | ⟨c, fs, rfl, -⟩
    · rfl
    · exact absurd (hno 0x2E (by simp)) (by decide)
  obtain rfl : exp = [] := by
    rcases hexp with rfl | ⟨e, s, c, es, rfl, rfl | rfl, -⟩
    · rfl
    · exact absurd (hno 0x65 (by simp)) (by decide)
    · exact absurd (hno 0x45 (by simp)) (by decide)
  have heq := h.eq
  rw [List.append_nil, List.append_nil] at heq
  obtain ⟨c, is, rfl, hc⟩ : ∃ c is, int = c :: is ∧ isDigit c = true := by
    rcases hint with rfl | ⟨c, is, rfl, -, hc, -⟩
    · exact ⟨0x30, [], rfl, rfl⟩
    · exact ⟨c, is, rfl, hc⟩
  -- the token has a sign just when it is negative
  rcases hsign with rfl | rfl
  · cases negative with
    | false =>
      have hds : c :: is = ds := heq
      exact hds ▸ hint
    | true =>
      have hminus : c = 0x2D := (List.cons.inj heq).1
      exact absurd (hminus ▸ hc) not_isDigit_minus
  · cases negative with
    | false =>
      have hds : 0x2D :: c :: is = ds := heq
      exact absurd (h.digits 0x2D (hds ▸ List.mem_cons_self)) not_isDigit_minus
    | true =>
      have hds : c :: is = ds := (List.cons.inj heq).2
      exact hds ▸ hint

/-- A value of blanks, commas and the octets of integers is a number. -/
theorem Value.isNumber {d : ℕ} {v : Text} (h : Value d v)
    (hplain : ∀ c ∈ v, c = 0x2C ∨ isWs c = true ∨ c = 0x2D ∨ isDigit c = true) : IsNumber v := by
  have hscalar : Scalar v := by
    cases d with
    | zero => exact h
    | succ d =>
      rcases h with hscalar | ⟨body, -, rfl⟩ | ⟨ms, body, -, rfl⟩
      · exact hscalar
      · exact absurd (hplain 0x5B List.mem_cons_self) (by decide)
      · exact absurd (hplain 0x7B List.mem_cons_self) (by decide)
  rcases hscalar with hliteral | hnumber | ⟨body, -, rfl⟩
  · simp only [literals, List.mem_cons, List.not_mem_nil, or_false] at hliteral
    rcases hliteral with rfl | rfl | rfl
    · exact absurd (hplain 0x74 List.mem_cons_self) (by decide)
    · exact absurd (hplain 0x66 List.mem_cons_self) (by decide)
    · exact absurd (hplain 0x6E List.mem_cons_self) (by decide)
  · exact hnumber
  · exact absurd (hplain 0x22 List.mem_cons_self) (by decide)

/-- A value that is an integer token is a number of the grammar. -/
theorem IsIntToken.isNumber_of_value {token ds : Text} {negative : Bool} {d : ℕ}
    (h : IsIntToken token negative ds) (hvalue : Value d token) : IsNumber token :=
  hvalue.isNumber fun _ hc => Or.inr (Or.inr (h.mem hc))

/-! ## Validity -/

/-- A code point in front changes nothing of the validity. -/
theorem valid_codePoint_append (n : ℕ) {t : Text} :
    Utf8.Valid (codePoint n ++ t) ↔ Utf8.Valid t :=
  Utf8.valid_append_iff (Utf8.isChar_utf8EncodeChar _)

/-- Neither does an ASCII octet. -/
theorem valid_ascii_cons {c : UInt8} (hc : c < 0x80) {t : Text} :
    Utf8.Valid (c :: t) ↔ Utf8.Valid t :=
  Utf8.valid_append_iff (g := [c]) hc

/-- Nor do several. -/
theorem valid_ascii_append {s : Text} (hs : ∀ c ∈ s, c < 0x80) {t : Text} :
    Utf8.Valid (s ++ t) ↔ Utf8.Valid t := by
  induction s with
  | nil => rfl
  | cons c s ih =>
    rw [List.cons_append, valid_ascii_cons (hs c List.mem_cons_self),
      ih fun d hd => hs d (List.mem_cons_of_mem c hd)]

/-- ASCII is valid. -/
theorem valid_of_ascii {s : Text} (hs : ∀ c ∈ s, c < 0x80) : Utf8.Valid s := by
  have happend := valid_ascii_append hs (t := [])
  rw [List.append_nil] at happend
  exact happend.mpr Utf8.valid_nil

/-- Plain characters resolve to themselves. -/
theorem resolve_plain_append (ds : Text) (ps : List Piece) :
    resolve (ds.map .plain ++ ps) = ds ++ resolve ps := by
  induction ds with
  | nil => rfl
  | cons d ds ih => rw [List.map_cons, List.cons_append, resolve, ih, List.cons_append]

/-- Octets of a character that spans several are pieces of their own. -/
theorem exists_plain_of_flatMap_render {ps : List Piece} {ds rest : Text}
    (hds : ∀ d ∈ ds, 0x80 ≤ d) (h : ps.flatMap Piece.render = ds ++ rest) :
    ∃ qs, ps = ds.map .plain ++ qs ∧ qs.flatMap Piece.render = rest := by
  induction ds generalizing ps with
  | nil => exact ⟨ps, rfl, h⟩
  | cons d ds ih =>
    have hd := hds d List.mem_cons_self
    cases ps with
    | nil => cases h
    | cons p ps =>
      rw [List.flatMap_cons] at h
      cases p with
      | plain c =>
        obtain ⟨rfl, htail⟩ := List.cons.inj h
        obtain ⟨qs, rfl, hqs⟩ := ih (fun e he => hds e (List.mem_cons_of_mem c he)) htail
        exact ⟨qs, rfl, hqs⟩
      | short c =>
        obtain ⟨rfl, -⟩ := List.cons.inj h
        exact absurd hd (by decide)
      | unicode a b c e =>
        obtain ⟨rfl, -⟩ := List.cons.inj h
        exact absurd hd (by decide)

/-- The octets of a character that is no ASCII are none either. -/
theorem tail_ge_of_isChar {a : UInt8} {g : Text} (h : Utf8.IsChar (a :: g)) (ha : ¬a < 0x80) :
    ∀ d ∈ a :: g, 0x80 ≤ d := by
  have hfirst : 0x80 ≤ a := UInt8.not_lt.mp ha
  have hbound : ∀ {b c : UInt8}, c ≤ b → 0x80 ≤ c → 0x80 ≤ b := fun h h' => UInt8.le_trans h' h
  match g, h with
  | [], h => exact absurd h ha
  | [b], h => simp [hfirst, h.2.1]
  | [b, c], h =>
    have hb : 0x80 ≤ b := by
      rcases h.1 with ⟨-, hb, -⟩ | ⟨-, hb, -⟩ | ⟨-, hb, -⟩
      · exact hbound hb (by decide)
      · exact hb
      · exact hb
    simp [hfirst, hb, h.2.1]
  | [b, c, d], h =>
    have hb : 0x80 ≤ b := by
      rcases h.1 with ⟨-, hb, -⟩ | ⟨-, hb, -⟩ | ⟨-, hb, -⟩
      · exact hbound hb (by decide)
      · exact hb
      · exact hb
    simp [hfirst, hb, h.2.1.1, h.2.2.1]

/-- A valid text splits before an ASCII octet into valid texts. -/
theorem valid_of_append_cons {s t : Text} {c : UInt8} (hc : c < 0x80)
    (h : Utf8.Valid (s ++ c :: t)) : Utf8.Valid s ∧ Utf8.Valid t := by
  induction hn : s.length using Nat.strongRecOn generalizing s with
  | ind n ih =>
    subst hn
    cases s with
    | nil => exact ⟨Utf8.valid_nil, (valid_ascii_cons hc).mp h⟩
    | cons a s =>
      by_cases ha : a < 0x80
      · obtain ⟨hs, ht⟩ := ih s.length (Nat.lt_succ_self _) ((valid_ascii_cons ha).mp h) rfl
        exact ⟨(valid_ascii_cons ha).mpr hs, ht⟩
      · obtain ⟨g, rest, hg, heq, hvalid⟩ := Utf8.valid_cons_iff.mp h
        cases g with
        | nil => exact absurd hg Utf8.not_isChar_nil
        | cons a' g =>
          obtain ⟨hhead, htext⟩ := List.cons.inj heq
          subst hhead
          have htail := tail_ge_of_isChar hg ha
          -- the character ends before the ASCII octet
          obtain ⟨u, rfl, rfl⟩ : ∃ u, s = g ++ u ∧ rest = u ++ c :: t := by
            rcases List.append_eq_append_iff.mp htext with ⟨u, hu, hrest⟩ | ⟨u, hu, hrest⟩
            · cases u with
              | nil => exact ⟨[], by simpa using hu.symm, by simpa using hrest.symm⟩
              | cons d u =>
                obtain ⟨rfl, -⟩ := List.cons.inj hrest
                have hge := htail c (by rw [hu]; simp)
                exact absurd hc (UInt8.not_lt.mpr hge)
            · exact ⟨u, hu, hrest⟩
          have hlength : u.length < (a :: (g ++ u)).length := by
            simp only [List.length_cons, List.length_append]
            omega
          obtain ⟨hu, ht⟩ := ih u.length hlength hvalid rfl
          refine ⟨?_, ht⟩
          rw [← List.cons_append, Utf8.valid_append_iff hg]
          exact hu

/-- White space is ASCII. -/
theorem isWs_ascii {c : UInt8} (h : isWs c = true) : c < 0x80 := by
  simp only [isWs, Bool.or_eq_true, decide_eq_true_eq] at h
  rcases h with ((rfl | rfl) | rfl) | rfl <;> decide

/-- White space behind changes nothing of the validity. -/
theorem valid_of_append_ws {s t : Text} (ht : Ws t) (h : Utf8.Valid (s ++ t)) : Utf8.Valid s := by
  cases t with
  | nil => rwa [List.append_nil] at h
  | cons c t => exact (valid_of_append_cons (isWs_ascii (ht c List.mem_cons_self)) h).1

/-! ## The members of a valid text -/

section Members

variable {P : Text → Prop} {ms : List (Text × Text)} {t : Text}

/-- The value of a member of a valid text is valid. -/
theorem Member.valid {key v : Text} (h : Member P key v t) (hvalid : Utf8.Valid t) :
    P v ∧ Utf8.Valid v := by
  obtain ⟨ha, hbody, hb, hv, hstart, hd⟩ := h
  have hkey := (valid_of_append_cons (by decide) hvalid).2
  have hcolon := (valid_of_append_cons (by decide) hkey).2
  have hrest := (valid_of_append_cons (by decide) hcolon).2
  have hvalue := (valid_ascii_append fun c hc => isWs_ascii (hstart c hc)).mp hrest
  exact ⟨hv, valid_of_append_ws hd hvalue⟩

/-- So are those of several. -/
theorem Members.valid (hms : Members P ms t) (hvalid : Utf8.Valid t) :
    ∀ m ∈ ms, P m.2 ∧ Utf8.Valid m.2 := by
  induction hms with
  | last member => exact List.forall_mem_singleton.mpr (member.valid hvalid)
  | cons member _ ih =>
    obtain ⟨hmember, hmore⟩ := valid_of_append_cons (by decide) hvalid
    exact List.forall_mem_cons.mpr ⟨member.valid hmember, ih hmore⟩

/-- The values of the members of a valid text are values and valid. -/
theorem ObjectText.valid {d : ℕ} (h : ObjectText d ms t) (hvalid : Utf8.Valid t) :
    ∀ m ∈ ms, Value (d - 1) m.2 ∧ Utf8.Valid m.2 := by
  obtain ⟨-, a, object, b, ha, -, ⟨body, ⟨-, rfl⟩ | hms, rfl⟩, rfl⟩ := h
  · exact fun m hm => by contradiction
  · rw [valid_ascii_append fun c hc => isWs_ascii (ha c hc), List.cons_append,
      valid_ascii_cons (by decide), List.append_assoc] at hvalid
    exact hms.valid (valid_of_append_cons (by decide) hvalid).1

end Members

/-- A code point past the ASCII ones has no ASCII octet. -/
theorem codePoint_ge {n : ℕ} (h : 0x80 ≤ n) (hvalid : n.isValidChar) :
    ∀ d ∈ codePoint n, 0x80 ≤ d := by
  have hchar := Utf8.isChar_utf8EncodeChar (Char.ofNat n)
  have hlength := String.length_utf8EncodeChar (Char.ofNat n)
  have hval : (Char.ofNat n).val.toNat = n := by
    rw [Char.ofNat, dif_pos hvalid]
    rfl
  rw [codePoint]
  cases hoctets : String.utf8EncodeChar (Char.ofNat n) with
  | nil => exact fun d hd => by contradiction
  | cons a g =>
    rw [hoctets] at hchar hlength
    refine tail_ge_of_isChar hchar fun ha => ?_
    -- one octet is what an ASCII code point takes
    rw [List.length_cons, hchar.length_eq, Utf8.width, if_pos ha, eq_comm,
      Char.utf8Size_eq_one_iff] at hlength
    have hle := UInt32.le_iff_toNat_le.mp hlength
    rw [hval] at hle
    change n ≤ 127 at hle
    omega

/-- A short escape is ASCII, and so is its octet. -/
theorem shorts_ascii : ∀ c ∈ Piece.shorts, c < 0x80 ∧ Piece.shortOctet c < 0x80 := by
  intro c hc
  simp only [Piece.shorts, List.mem_cons, List.not_mem_nil, or_false] at hc
  rcases hc with rfl | rfl | rfl | rfl | rfl | rfl | rfl | rfl <;> decide

/-- A hex digit is ASCII. -/
theorem hexVal_ascii {c : UInt8} (h : (hexVal c).isSome) : c < 0x80 := by
  rw [UInt8.lt_iff_toNat_lt]
  unfold hexVal at h
  split_ifs at h with h₁ h₂ h₃
  · have hdigit := isDigit_iff.mp h₁
    change c.toNat < 128
    omega
  · rw [Bool.and_eq_true, decide_eq_true_eq, decide_eq_true_eq] at h₂
    have hle := UInt8.le_iff_toNat_le.mp h₂.2
    change c.toNat ≤ 102 at hle
    change c.toNat < 128
    omega
  · rw [Bool.and_eq_true, decide_eq_true_eq, decide_eq_true_eq] at h₃
    have hle := UInt8.le_iff_toNat_le.mp h₃.2
    change c.toNat ≤ 70 at hle
    change c.toNat < 128
    omega
  · cases h

/-- An escape is ASCII. -/
theorem render_unicode_ascii {a b c d : UInt8} (h : (Piece.unicode a b c d).Ok) :
    ∀ e ∈ (Piece.unicode a b c d).render, e < 0x80 := by
  intro e he
  simp only [Piece.render, List.mem_cons, List.not_mem_nil, or_false] at he
  rcases he with rfl | rfl | rfl | rfl | rfl | rfl
  · decide
  · decide
  · exact hexVal_ascii h.1
  · exact hexVal_ascii h.2.1
  · exact hexVal_ascii h.2.2.1
  · exact hexVal_ascii h.2.2.2

/-- An escape stands for a character, together with the next one if it is half of a pair. -/
theorem resolve_unicode (a b c d : UInt8) (ps : List Piece) :
    resolve (.unicode a b c d :: ps) = resolve ps ∨
    (∃ n, resolve (.unicode a b c d :: ps) = codePoint n ++ resolve ps) ∨
    ∃ n q qs, ps = q :: qs ∧ (q.Ok → ∀ e ∈ q.render, e < 0x80) ∧
      resolve (.unicode a b c d :: ps) = codePoint n ++ resolve qs := by
  by_cases h : (Piece.unicode a b c d).isHigh = true
  · rw [resolve.eq_def]
    dsimp only
    rw [if_pos h]
    match ps with
    | [] => exact Or.inl rfl
    | .plain _ :: _ => exact Or.inl rfl
    | .short _ :: _ => exact Or.inl rfl
    | .unicode _ _ _ _ :: qs =>
      exact Or.inr (Or.inr ⟨_, _, qs, rfl, render_unicode_ascii, rfl⟩)
  · rw [resolve.eq_def]
    dsimp only
    rw [if_neg h]
    exact Or.inr (Or.inl ⟨_, rfl⟩)

/-- The octets of a string are valid if its text is. -/
theorem valid_resolve {ps : List Piece} (hok : ∀ p ∈ ps, p.Ok)
    (hvalid : Utf8.Valid (ps.flatMap Piece.render)) : Utf8.Valid (resolve ps) := by
  induction hn : ps.length using Nat.strongRecOn generalizing ps with
  | ind n ih =>
    subst hn
    cases ps with
    | nil => exact Utf8.valid_nil
    | cons p ps =>
      have hp := hok p List.mem_cons_self
      have hps : ∀ q ∈ ps, q.Ok := fun q hq => hok q (List.mem_cons_of_mem p hq)
      rw [List.flatMap_cons] at hvalid
      have hrest := fun (qs : List Piece) (hlt : qs.length < (p :: ps).length) hqs hq =>
        @ih qs.length hlt qs hqs hq rfl
      cases p with
      | short c =>
        obtain ⟨hc, hoctet⟩ := shorts_ascii c hp
        rw [resolve, valid_ascii_cons hoctet]
        refine hrest ps (by simp) hps ?_
        rw [Piece.render] at hvalid
        exact (valid_ascii_append (s := [0x5C, c]) (by simp [hc])).mp hvalid
      | unicode a b c d =>
        have hvalid := (valid_ascii_append (render_unicode_ascii hp)).mp hvalid
        rcases resolve_unicode a b c d ps with h | ⟨n, h⟩ | ⟨n, e, qs, rfl, he, h⟩
        · rw [h]
          exact hrest ps (by simp) hps hvalid
        · rw [h, valid_codePoint_append]
          exact hrest ps (by simp) hps hvalid
        · rw [h, valid_codePoint_append]
          rw [List.flatMap_cons, valid_ascii_append (he (hps e List.mem_cons_self))] at hvalid
          have hlt : qs.length < (Piece.unicode a b c d :: e :: qs).length := by
            simp only [List.length_cons]
            omega
          exact hrest qs hlt (fun q hq => hps q (List.mem_cons_of_mem e hq)) hvalid
      | plain c =>
        rw [resolve]
        by_cases hc : c < 0x80
        · rw [valid_ascii_cons hc]
          exact hrest ps (by simp) hps ((valid_ascii_cons hc).mp hvalid)
        · -- the rest of the character stands in the pieces that follow
          obtain ⟨g, rest, hg, heq, hvalid⟩ := Utf8.valid_cons_iff.mp hvalid
          cases g with
          | nil => exact absurd hg Utf8.not_isChar_nil
          | cons c' g =>
            obtain ⟨rfl, hpieces⟩ := List.cons.inj heq
            have htail : ∀ d ∈ g, 0x80 ≤ d := fun d hd =>
              tail_ge_of_isChar hg hc d (List.mem_cons_of_mem c hd)
            obtain ⟨qs, rfl, rfl⟩ := exists_plain_of_flatMap_render htail hpieces
            rw [resolve_plain_append, ← List.cons_append, Utf8.valid_append_iff hg]
            refine hrest qs ?_ (fun q hq => hps q (List.mem_append_right _ hq)) hvalid
            simp only [List.length_cons, List.length_append]
            omega

/-- A string starts with a quote. -/
theorem head_of_valueOf_string {v s : Text} (h : valueOf v = .string s) :
    ∃ rest, v = 0x22 :: rest ∧ s = stringOf rest := by
  rw [valueOf.eq_def] at h
  cases v with
  | nil => cases h
  | cons c rest =>
    dsimp only at h
    split_ifs at h with hquote
    cases h
    exact ⟨rest, by rw [hquote], rfl⟩

/-- A value with the quotes of a string is a string. -/
theorem Value.isBody {d : ℕ} {rest : Text} (h : Value d (0x22 :: rest)) :
    ∃ body, IsBody body ∧ rest = body ++ [0x22] := by
  have hscalar : Scalar (0x22 :: rest) := by
    cases d with
    | zero => exact h
    | succ d =>
      rcases h with hscalar | ⟨body, -, heq⟩ | ⟨ms, body, -, heq⟩
      · exact hscalar
      · exact absurd (List.cons.inj heq).1 (by decide)
      · exact absurd (List.cons.inj heq).1 (by decide)
  rcases hscalar with hliteral | hnumber | ⟨body, hbody, heq⟩
  · simp [literals] at hliteral
  · obtain ⟨c, t, heq, hc⟩ := hnumber.head
    obtain rfl := (List.cons.inj heq).1
    exact absurd hc (by decide)
  · exact ⟨body, hbody, (List.cons.inj heq).2⟩

/-- The octets of a string in a valid text are valid. -/
theorem valid_of_valueOf_string {d : ℕ} {v s : Text} (h : Value d v) (hvalid : Utf8.Valid v)
    (hs : valueOf v = .string s) : Utf8.Valid s := by
  obtain ⟨rest, rfl, rfl⟩ := head_of_valueOf_string hs
  obtain ⟨body, ⟨ps, hok, -, rfl⟩, rfl⟩ := h.isBody
  rw [stringOf_render hok]
  rw [valid_ascii_cons (by decide)] at hvalid
  exact valid_resolve hok (valid_of_append_cons (by decide) hvalid).1

end Json
