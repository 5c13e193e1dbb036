import MarketMaker.Lib.Json.Value

/-!
# Writing JSON

Texts without blanks: numbers in their shortest spelling, strings with the escapes that the grammar
asks for and no others, objects with their members in order. Each is a text of the grammar whose
value is what was written.
-/

namespace Json

variable {hex : ℕ → UInt8}

/-! ## Scalars -/

/-- The digits of a number after its sign. -/
def intText : ℤ → Text
  | .ofNat n => decimal n
  | .negSucc n => 0x2D :: decimal (n + 1)

def boolText (b : Bool) : Text :=
  if b then [0x74, 0x72, 0x75, 0x65] else [0x66, 0x61, 0x6C, 0x73, 0x65]

/-- An integer is written as a number of the grammar. -/
theorem isNumber_intText (z : ℤ) : IsNumber (intText z) := by
  cases z with
  | ofNat n => exact ⟨[], _, [], [], by simp [intText], Or.inl rfl, isInt_decimal n, Or.inl rfl,
      Or.inl rfl⟩
  | negSucc n => exact ⟨[0x2D], _, [], [], by simp [intText], Or.inr rfl, isInt_decimal (n + 1),
      Or.inl rfl, Or.inl rfl⟩

/-- It reads back as itself. -/
theorem valueOf_intText (z : ℤ) : valueOf (intText z) = .int (z < 0) z.natAbs := by
  cases z with
  | ofNat n =>
    rw [intText, valueOf_digits (decimal_ne_nil n) (digits_decimal n), natValue_decimal]
    rfl
  | negSucc n =>
    rw [intText, valueOf_minus (decimal_ne_nil _) (digits_decimal _), natValue_decimal]
    have hneg : decide (Int.negSucc n < 0) = true := decide_eq_true (Int.negSucc_lt_zero n)
    rw [hneg]
    rfl

/-- A boolean reads back as itself. -/
theorem valueOf_boolText (b : Bool) : valueOf (boolText b) = .bool b := by cases b <;> rfl

/-- It is written as a literal. -/
theorem boolText_mem_literals (b : Bool) : boolText b ∈ literals := by cases b <;> decide

/-! ## Strings -/

/-- `hex` spells the hexadecimal digits. -/
def Spells (hex : ℕ → UInt8) : Prop := ∀ n < 16, hexVal (hex n) = some n

/-- The octets with a two-character escape that writers use, and what follows its backslash. -/
def shortcuts : List (UInt8 × UInt8) :=
  [(0x22, 0x22), (0x5C, 0x5C), (0x08, 0x62), (0x09, 0x74), (0x0A, 0x6E), (0x0C, 0x66), (0x0D, 0x72)]

/-- The piece that stands for an octet of a string. -/
def escape (hex : ℕ → UInt8) (c : UInt8) : Piece :=
  match shortcuts.find? fun s => s.1 = c with
  | some s => .short s.2
  | none =>
    if c < 0x20 then .unicode 0x30 0x30 (hex (c.toNat / 16)) (hex (c.toNat % 16)) else .plain c

/-- A string between its quotes. -/
def stringText (hex : ℕ → UInt8) (t : Text) : Text :=
  0x22 :: ((t.map (escape hex)).flatMap Piece.render ++ [0x22])

/-- The code unit of a control octet. -/
theorem codeUnit_control (hhex : Spells hex) {c : UInt8} (h : c < 0x20) :
    Piece.codeUnit 0x30 0x30 (hex (c.toNat / 16)) (hex (c.toNat % 16)) = c.toNat := by
  have hlt : c.toNat < 0x20 := UInt8.lt_iff_toNat_lt.mp h
  have hzero : hexVal 0x30 = some 0 := rfl
  rw [Piece.codeUnit, hzero, hhex _ (by omega), hhex _ (by omega)]
  simp only [Option.getD_some]
  omega

/-- Every short escape is one of the grammar, and stands for its octet. -/
theorem shortcuts_spec :
    ∀ s ∈ shortcuts, s.2 ∈ Piece.shorts ∧ Piece.shortOctet s.2 = s.1 ∧ s.1 < 0x80 := by
  intro s hs
  simp only [shortcuts, List.mem_cons, List.not_mem_nil, or_false] at hs
  rcases hs with rfl | rfl | rfl | rfl | rfl | rfl | rfl <;> decide

/-- How an octet is written. -/
theorem escape_cases (hex : ℕ → UInt8) (c : UInt8) :
    (∃ e, e ∈ Piece.shorts ∧ Piece.shortOctet e = c ∧ c < 0x80 ∧ escape hex c = .short e) ∨
    (c < 0x20 ∧
      escape hex c = .unicode 0x30 0x30 (hex (c.toNat / 16)) (hex (c.toNat % 16))) ∨
    (0x20 ≤ c ∧ c ≠ 0x22 ∧ c ≠ 0x5C ∧ escape hex c = .plain c) := by
  rw [escape]
  cases hfind : shortcuts.find? fun s => s.1 = c with
  | some s =>
    obtain ⟨hshort, hoctet, hascii⟩ := shortcuts_spec s (List.mem_of_find?_eq_some hfind)
    have hself : s.1 = c := of_decide_eq_true (List.find?_some hfind :)
    rw [hself] at hoctet hascii
    exact Or.inl ⟨s.2, hshort, hoctet, hascii, rfl⟩
  | none =>
    dsimp only
    by_cases hcontrol : c < 0x20
    · exact Or.inr (Or.inl ⟨hcontrol, if_pos hcontrol⟩)
    · refine Or.inr (Or.inr ⟨UInt8.not_lt.mp hcontrol, ?_, ?_, if_neg hcontrol⟩)
      · rintro rfl
        exact absurd hfind (by decide)
      · rintro rfl
        exact absurd hfind (by decide)

/-- What is escaped is a piece of the grammar. -/
theorem escape_ok (hhex : Spells hex) (c : UInt8) : (escape hex c).Ok := by
  rcases escape_cases hex c with ⟨e, hshort, -, -, h⟩ | ⟨hcontrol, h⟩ | ⟨hraw, hquote, hslash, h⟩
  · rw [h]
    exact hshort
  · have hlt : c.toNat < 0x20 := UInt8.lt_iff_toNat_lt.mp hcontrol
    rw [h]
    refine ⟨rfl, rfl, ?_, ?_⟩
    · rw [hhex _ (by omega)]
      rfl
    · rw [hhex _ (by omega)]
      rfl
  · rw [h]
    exact ⟨hraw, hquote, hslash⟩

/-- No octet is written as half of a surrogate pair. -/
theorem escape_no_surrogate (hhex : Spells hex) (c : UInt8) :
    (escape hex c).isHigh = false ∧ (escape hex c).isLow = false := by
  rcases escape_cases hex c with ⟨e, -, -, -, h⟩ | ⟨hcontrol, h⟩ | ⟨-, -, -, h⟩
  · rw [h]
    exact ⟨rfl, rfl⟩
  · have hlt : c.toNat < 0x20 := UInt8.lt_iff_toNat_lt.mp hcontrol
    rw [h]
    simp only [Piece.isHigh, Piece.isLow, codeUnit_control hhex hcontrol, Bool.and_eq_false_iff,
      decide_eq_false_iff_not]
    omega
  · rw [h]
    exact ⟨rfl, rfl⟩

/-- No surrogate is written. -/
theorem paired_map_escape (hhex : Spells hex) (t : Text) : Paired (t.map (escape hex)) = true := by
  induction t with
  | nil => rfl
  | cons c t ih =>
    obtain ⟨hhigh, hlow⟩ := escape_no_surrogate hhex c
    rw [List.map_cons, Paired.eq_def]
    dsimp only
    rw [hhigh, hlow]
    exact ih

/-- An ASCII code point is one octet. -/
theorem codePoint_of_lt {n : ℕ} (h : n < 0x80) : codePoint n = [n.toUInt8] := by
  have hvalid : n.isValidChar := Or.inl (by omega)
  have hval : (Char.ofNat n).val.toNat = n := by
    rw [Char.ofNat, dif_pos hvalid]
    rfl
  rw [codePoint, String.utf8EncodeChar, hval, if_pos (by omega)]

/-- The pieces stand for the octets they were written for. -/
theorem resolve_map_escape (hhex : Spells hex) (t : Text) : resolve (t.map (escape hex)) = t := by
  induction t with
  | nil => rfl
  | cons c t ih =>
    rw [List.map_cons]
    rcases escape_cases hex c with ⟨e, -, hoctet, -, h⟩ | ⟨hcontrol, h⟩ | ⟨-, -, -, h⟩
    · rw [h, resolve, ih, hoctet]
    · have hlt : c.toNat < 0x20 := UInt8.lt_iff_toNat_lt.mp hcontrol
      have hhigh := (escape_no_surrogate hhex c).1
      rw [h] at hhigh ⊢
      rw [resolve.eq_def]
      dsimp only
      rw [hhigh, if_neg (by decide), codeUnit_control hhex hcontrol, codePoint_of_lt (by omega), ih]
      simp
    · rw [h, resolve, ih]

/-- The escaped octets are the body of a string. -/
theorem isBody_map_escape (hhex : Spells hex) (t : Text) :
    IsBody ((t.map (escape hex)).flatMap Piece.render) := by
  refine ⟨t.map (escape hex), fun p hp => ?_, paired_map_escape hhex t, rfl⟩
  obtain ⟨c, -, rfl⟩ := List.mem_map.mp hp
  exact escape_ok hhex c

/-- A string reads back as its octets. -/
theorem valueOf_stringText (hhex : Spells hex) (t : Text) :
    valueOf (stringText hex t) = .string t := by
  have hok : ∀ p ∈ t.map (escape hex), p.Ok := fun p hp => by
    obtain ⟨c, -, rfl⟩ := List.mem_map.mp hp
    exact escape_ok hhex c
  rw [stringText, valueOf, if_pos rfl, stringOf_render hok, resolve_map_escape hhex]

/-! ## Objects -/

def memberText (m : Text × Text) : Text := 0x22 :: (m.1 ++ 0x22 :: 0x3A :: m.2)

def membersText : List (Text × Text) → Text
  | [] => []
  | [m] => memberText m
  | m :: m' :: ms => memberText m ++ 0x2C :: membersText (m' :: ms)

def objectText (ms : List (Text × Text)) : Text := 0x7B :: (membersText ms ++ [0x7D])

/-- An integer is a scalar. -/
theorem scalar_intText (z : ℤ) : Scalar (intText z) := Or.inr (Or.inl (isNumber_intText z))

/-- A boolean is a scalar. -/
theorem scalar_boolText (b : Bool) : Scalar (boolText b) := Or.inl (boolText_mem_literals b)

/-- A string is a scalar. -/
theorem scalar_stringText (hhex : Spells hex) (t : Text) : Scalar (stringText hex t) :=
  Or.inr (Or.inr ⟨_, isBody_map_escape hhex t, rfl⟩)

/-- A scalar is a value at every depth. -/
theorem Scalar.value {d : ℕ} {t : Text} (h : Scalar t) : Value d t := by
  cases d with
  | zero => exact h
  | succ d => exact Or.inl h

/-- A written member is one of the grammar. -/
theorem member_memberText {P : Text → Prop} {m : Text × Text} (hkey : IsBody m.1) (hvalue : P m.2) :
    Member P m.1 m.2 (memberText m) := by
  have hws : Ws [] := fun c hc => by contradiction
  have hmember := Member.mk hws hkey hws hvalue hws hws
  rw [List.nil_append, List.nil_append, List.nil_append, List.append_nil] at hmember
  exact hmember

/-- Written members are members of the grammar, in their order. -/
theorem members_membersText {P : Text → Prop} {ms : List (Text × Text)} (hne : ms ≠ [])
    (h : ∀ m ∈ ms, IsBody m.1 ∧ P m.2) : Members P ms (membersText ms) := by
  induction ms with
  | nil => exact absurd rfl hne
  | cons m ms ih =>
    obtain ⟨hkey, hvalue⟩ := h m List.mem_cons_self
    have hmember := member_memberText hkey hvalue
    cases ms with
    | nil => exact .last hmember
    | cons m' ms =>
      exact .cons hmember (ih (by simp) fun x hx => h x (List.mem_cons_of_mem m hx))

/-- What is written reads as an object with these members. -/
theorem isObjectText_objectText {d : ℕ} {ms : List (Text × Text)} (hne : ms ≠ [])
    (h : ∀ m ∈ ms, IsBody m.1 ∧ Value d m.2) : ObjectText (d + 1) ms (objectText ms) := by
  have hws : Ws [] := fun c hc => by contradiction
  refine ⟨Nat.succ_pos d, [], objectText ms, [], hws, hws, ?_, by simp⟩
  exact ⟨_, Or.inr (members_membersText hne h), rfl⟩

/-! ## Validity -/

/-- A digit is ASCII. -/
theorem ascii_of_isDigit {c : UInt8} (h : isDigit c = true) : c < 0x80 :=
  hexVal_ascii (c := c) (by rw [hexVal, if_pos h]; rfl)

/-- An integer is written in ASCII. -/
theorem ascii_intText (z : ℤ) : ∀ c ∈ intText z, c < 0x80 := by
  have hdigits : ∀ n, ∀ c ∈ decimal n, c < 0x80 := fun n c hc =>
    ascii_of_isDigit (digits_decimal n c hc)
  cases z with
  | ofNat n => exact hdigits n
  | negSucc n =>
    rw [intText, List.forall_mem_cons]
    exact ⟨by decide, hdigits (n + 1)⟩

/-- So is a boolean. -/
theorem ascii_boolText (b : Bool) : ∀ c ∈ boolText b, c < 0x80 := by
  intro c hc
  cases b <;> simp only [boolText, List.mem_cons, List.not_mem_nil, or_false, if_true,
    Bool.false_eq_true, if_false] at hc
  · rcases hc with rfl | rfl | rfl | rfl | rfl <;> decide
  · rcases hc with rfl | rfl | rfl | rfl <;> decide

/-- An integer is valid UTF-8. -/
theorem valid_intText (z : ℤ) : Utf8.Valid (intText z) := valid_of_ascii (ascii_intText z)

/-- So is a boolean. -/
theorem valid_boolText (b : Bool) : Utf8.Valid (boolText b) := valid_of_ascii (ascii_boolText b)

/-- An ASCII octet is written in ASCII, and the others as they are. -/
theorem render_escape (hhex : Spells hex) (c : UInt8) :
    (∀ d ∈ (escape hex c).render, d < 0x80) ∨ (¬c < 0x80 ∧ escape hex c = .plain c) := by
  rcases escape_cases hex c with ⟨e, hshort, -, -, h⟩ | ⟨-, h⟩ | ⟨-, -, -, h⟩
  · left
    rw [h]
    simp [Piece.render, (shorts_ascii e hshort).1]
  · left
    have hok := escape_ok hhex c
    rw [h] at hok ⊢
    exact render_unicode_ascii hok
  · by_cases hc : c < 0x80
    · left
      rw [h]
      simp [Piece.render, hc]
    · exact Or.inr ⟨hc, h⟩

/-- Octets that are no ASCII are written as they are. -/
theorem flatMap_render_of_ge {t : Text} (h : ∀ d ∈ t, 0x80 ≤ d) :
    (t.map (escape hex)).flatMap Piece.render = t := by
  have hplain : ∀ d ∈ t, (escape hex d).render = [d] := fun d hd => by
    rcases escape_cases hex d with ⟨e, -, -, hlt, -⟩ | ⟨hlt, -⟩ | ⟨-, -, -, hescape⟩
    · exact absurd hlt (UInt8.not_lt.mpr (h d hd))
    · exact absurd (UInt8.lt_trans hlt (by decide)) (UInt8.not_lt.mpr (h d hd))
    · rw [hescape, Piece.render]
  rw [List.flatMap_map, List.flatMap_congr hplain, List.flatMap_singleton']

/-- Escaping keeps UTF-8 valid. -/
theorem valid_flatMap_render (hhex : Spells hex) {t : Text} (h : Utf8.Valid t) :
    Utf8.Valid ((t.map (escape hex)).flatMap Piece.render) := by
  induction hn : t.length using Nat.strongRecOn generalizing t with
  | ind n ih =>
    subst hn
    cases t with
    | nil => exact Utf8.valid_nil
    | cons c t =>
      by_cases hc : c < 0x80
      · rw [List.map_cons, List.flatMap_cons]
        rcases render_escape hhex c with hrender | ⟨hnot, -⟩
        · rw [valid_ascii_append hrender]
          exact ih t.length (Nat.lt_succ_self _) ((valid_ascii_cons hc).mp h) rfl
        · exact absurd hc hnot
      · -- a character that is no ASCII is written as it is
        obtain ⟨g, rest, hg, heq, hvalid⟩ := Utf8.valid_cons_iff.mp h
        cases g with
        | nil => exact absurd hg Utf8.not_isChar_nil
        | cons c' g =>
          obtain ⟨rfl, -⟩ := List.cons.inj heq
          rw [heq]
          have hrender := @flatMap_render_of_ge hex _ (tail_ge_of_isChar hg hc)
          rw [List.map_append, List.flatMap_append, hrender, Utf8.valid_append_iff hg]
          refine ih rest.length ?_ hvalid rfl
          rw [heq, List.length_append, List.length_cons]
          omega

/-- So a written string is valid UTF-8. -/
theorem valid_stringText (hhex : Spells hex) {t : Text} (h : Utf8.Valid t) :
    Utf8.Valid (stringText hex t) := by
  rw [stringText, valid_ascii_cons (by decide)]
  exact (valid_flatMap_render hhex h).append (valid_of_ascii (by simp))

/-- So is a written member. -/
theorem valid_memberText {m : Text × Text} (hkey : Utf8.Valid m.1) (hvalue : Utf8.Valid m.2) :
    Utf8.Valid (memberText m) := by
  rw [memberText, valid_ascii_cons (by decide)]
  refine hkey.append ?_
  rwa [valid_ascii_cons (by decide), valid_ascii_cons (by decide)]

/-- So is a written object. -/
theorem valid_objectText {ms : List (Text × Text)}
    (h : ∀ m ∈ ms, Utf8.Valid m.1 ∧ Utf8.Valid m.2) : Utf8.Valid (objectText ms) := by
  rw [objectText, valid_ascii_cons (by decide)]
  refine Utf8.Valid.append ?_ (valid_of_ascii (by simp))
  fun_induction membersText ms with
  | case1 => exact Utf8.valid_nil
  | case2 m =>
    obtain ⟨hkey, hvalue⟩ := h m List.mem_cons_self
    exact valid_memberText hkey hvalue
  | case3 m m' ms ih =>
    obtain ⟨hkey, hvalue⟩ := h m List.mem_cons_self
    refine (valid_memberText hkey hvalue).append ((valid_ascii_cons (by decide)).mpr ?_)
    exact ih fun x hx => h x (List.mem_cons_of_mem m hx)

/-! ## Lengths -/

/-- A sign and the digits. -/
theorem length_intText_le {z : ℤ} {k : ℕ} (h : z.natAbs < 10 ^ k) (hk : 0 < k) :
    (intText z).length ≤ k + 1 := by
  cases z with
  | ofNat n => exact Nat.le_succ_of_le (length_decimal_le h hk)
  | negSucc n => exact Nat.succ_le_succ (length_decimal_le h hk)

/-- `false` is the longest. -/
theorem length_boolText_le (b : Bool) : (boolText b).length ≤ 5 := by cases b <;> decide

/-- An escape takes six octets at most. -/
theorem length_stringText_le (hex : ℕ → UInt8) (t : Text) :
    (stringText hex t).length ≤ 6 * t.length + 2 := by
  have hrender : ((t.map (escape hex)).flatMap Piece.render).length ≤ 6 * t.length := by
    induction t with
    | nil => exact Nat.le_refl 0
    | cons c t ih =>
      have hpiece : (escape hex c).render.length ≤ 6 := by
        cases escape hex c <;> simp [Piece.render]
      rw [List.map_cons, List.flatMap_cons, List.length_append, List.length_cons]
      omega
  rw [stringText, List.length_cons, List.length_append, List.length_singleton]
  omega

/-- A member takes four octets besides its key and value. -/
theorem length_objectText_le {ms : List (Text × Text)} {k : ℕ}
    (h : ∀ m ∈ ms, m.1.length + m.2.length ≤ k) :
    (objectText ms).length ≤ (k + 4) * ms.length + 2 := by
  have hmember : ∀ m ∈ ms, (memberText m).length ≤ k + 3 := fun m hm => by
    have hm := h m hm
    simp only [memberText, List.length_cons, List.length_append]
    omega
  have hmembers : (membersText ms).length ≤ (k + 4) * ms.length := by
    clear h
    fun_induction membersText ms with
    | case1 => exact Nat.le_refl 0
    | case2 m => exact Nat.le_trans (hmember m List.mem_cons_self) (by simp)
    | case3 m m' ms ih =>
      have hm := hmember m List.mem_cons_self
      have hrest := ih fun x hx => hmember x (List.mem_cons_of_mem m hx)
      rw [List.length_cons, Nat.mul_succ, List.length_append, List.length_cons]
      omega
  rw [objectText, List.length_cons, List.length_append, List.length_singleton]
  omega

end Json
