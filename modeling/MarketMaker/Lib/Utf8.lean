import Mathlib.Data.List.Basic
import Mathlib.Data.Nat.Notation
import Mathlib.Tactic.SplitIfs

/-!
# UTF-8

An octet string is valid when it is the encoding of a list of characters, a `Char` being a Unicode
scalar value. `IsChar` is the table of RFC 3629 for the octets of one character; it
describes exactly the encodings (`isChar_utf8EncodeChar`, `IsChar.exists_utf8EncodeChar`). The first
octet tells the number of octets, so a valid string has one way to be taken apart, character by
character. -/

namespace Utf8

/-- The octets of a list of characters. -/
def Valid (t : List UInt8) : Prop := ∃ cs : List Char, t = cs.flatMap String.utf8EncodeChar

theorem valid_iff_isValidUTF8 (t : List UInt8) : Valid t ↔ t.toByteArray.IsValidUTF8 := by
  constructor
  · rintro ⟨cs, rfl⟩
    exact ⟨cs, rfl⟩
  · rintro ⟨cs, hcs⟩
    exact ⟨cs, List.toByteArray_inj.mp hcs⟩

instance : DecidablePred Valid := fun t => decidable_of_iff _ (valid_iff_isValidUTF8 t).symm

/-! ## One character -/

/-- `UTF8-tail`. -/
def IsTail (c : UInt8) : Prop := 0x80 ≤ c ∧ c ≤ 0xBF

instance : DecidablePred IsTail := fun _ => inferInstanceAs (Decidable (_ ∧ _))

/-- `UTF8-char`, by the number of octets. -/
def IsChar : List UInt8 → Prop
  | [a] => a < 0x80
  | [a, b] => (0xC2 ≤ a ∧ a ≤ 0xDF) ∧ IsTail b
  | [a, b, c] =>
    (a = 0xE0 ∧ 0xA0 ≤ b ∧ b ≤ 0xBF ∨ (0xE1 ≤ a ∧ a ≤ 0xEC ∨ a = 0xEE ∨ a = 0xEF) ∧ IsTail b ∨
      a = 0xED ∧ 0x80 ≤ b ∧ b ≤ 0x9F) ∧ IsTail c
  | [a, b, c, d] =>
    (a = 0xF0 ∧ 0x90 ≤ b ∧ b ≤ 0xBF ∨ (0xF1 ≤ a ∧ a ≤ 0xF3) ∧ IsTail b ∨
      a = 0xF4 ∧ 0x80 ≤ b ∧ b ≤ 0x8F) ∧ IsTail c ∧ IsTail d
  | _ => False

theorem isChar_utf8EncodeChar (c : Char) : IsChar (String.utf8EncodeChar c) := by
  have hvalid := c.valid
  rw [UInt32.isValidChar, Nat.isValidChar] at hvalid
  rw [String.utf8EncodeChar]
  generalize c.val.toNat = v at *
  split_ifs
  · simp only [IsChar, UInt8.lt_iff_toNat_lt, UInt8.toNat_ofNat', UInt8.reduceToNat]
    omega
  · simp only [IsChar, IsTail, UInt8.le_iff_toNat_le, UInt8.toNat_ofNat', UInt8.reduceToNat]
    omega
  · simp only [IsChar, IsTail, UInt8.le_iff_toNat_le, UInt8.toNat_ofNat', ← UInt8.toNat_inj,
      UInt8.reduceToNat]
    omega
  · simp only [IsChar, IsTail, UInt8.le_iff_toNat_le, UInt8.toNat_ofNat', ← UInt8.toNat_inj,
      UInt8.reduceToNat]
    omega

/-- Every scalar value is one of a character. -/
theorem exists_char {v : ℕ} (h : v.isValidChar) : ∃ c : Char, c.val.toNat = v := by
  have hlt : v < UInt32.size := by
    rw [Nat.isValidChar] at h
    rw [UInt32.size]
    omega
  refine ⟨⟨UInt32.ofNatLT v hlt, ?_⟩, ?_⟩
  · rw [UInt32.isValidChar]
    simpa using h
  · simp

theorem IsChar.exists_utf8EncodeChar {g : List UInt8} (h : IsChar g) :
    ∃ c : Char, String.utf8EncodeChar c = g := by
  match g, h with
  | [a], h =>
    simp only [IsChar, UInt8.lt_iff_toNat_lt, UInt8.reduceToNat] at h
    have hvalid : a.toNat.isValidChar := by
      rw [Nat.isValidChar]
      omega
    obtain ⟨ch, hch⟩ := exists_char hvalid
    refine ⟨ch, ?_⟩
    rw [String.utf8EncodeChar, hch, if_pos (by omega)]
    simp
  | [a, b], h =>
    simp only [IsChar, IsTail, UInt8.le_iff_toNat_le, UInt8.reduceToNat] at h
    have hvalid : ((a.toNat - 0xC0) * 64 + (b.toNat - 0x80)).isValidChar := by
      rw [Nat.isValidChar]
      omega
    obtain ⟨ch, hch⟩ := exists_char hvalid
    refine ⟨ch, ?_⟩
    rw [String.utf8EncodeChar, hch, if_neg (by omega), if_pos (by omega)]
    simp only [List.cons.injEq, ← UInt8.toNat_inj, UInt8.toNat_ofNat', and_true]
    omega
  | [a, b, c], h =>
    simp only [IsChar, IsTail, UInt8.le_iff_toNat_le, ← UInt8.toNat_inj, UInt8.reduceToNat] at h
    have hvalid : ((a.toNat - 0xE0) * 4096 + (b.toNat - 0x80) * 64 +
        (c.toNat - 0x80)).isValidChar := by
      rw [Nat.isValidChar]
      omega
    obtain ⟨ch, hch⟩ := exists_char hvalid
    refine ⟨ch, ?_⟩
    rw [String.utf8EncodeChar, hch, if_neg (by omega), if_neg (by omega), if_pos (by omega)]
    simp only [List.cons.injEq, ← UInt8.toNat_inj, UInt8.toNat_ofNat', and_true]
    omega
  | [a, b, c, d], h =>
    simp only [IsChar, IsTail, UInt8.le_iff_toNat_le, ← UInt8.toNat_inj, UInt8.reduceToNat] at h
    have hvalid : ((a.toNat - 0xF0) * 262144 + (b.toNat - 0x80) * 4096 + (c.toNat - 0x80) * 64 +
        (d.toNat - 0x80)).isValidChar := by
      rw [Nat.isValidChar]
      omega
    obtain ⟨ch, hch⟩ := exists_char hvalid
    refine ⟨ch, ?_⟩
    rw [String.utf8EncodeChar, hch, if_neg (by omega), if_neg (by omega), if_neg (by omega)]
    simp only [List.cons.injEq, ← UInt8.toNat_inj, UInt8.toNat_ofNat', and_true]
    omega

/-- The number of octets, by the first one. -/
def width (a : UInt8) : ℕ :=
  if a < 0x80 then 1 else if a < 0xE0 then 2 else if a < 0xF0 then 3 else 4

theorem IsChar.length_eq {a : UInt8} {g : List UInt8} (h : IsChar (a :: g)) :
    g.length + 1 = width a := by
  simp only [width, UInt8.lt_iff_toNat_lt, UInt8.reduceToNat]
  match g, h with
  | [], h =>
    simp only [IsChar, UInt8.lt_iff_toNat_lt, UInt8.reduceToNat] at h
    simp [h]
  | [b], h =>
    simp only [IsChar, UInt8.le_iff_toNat_le, UInt8.reduceToNat] at h
    rw [if_neg (by omega), if_pos (by omega)]
    rfl
  | [b, c], h =>
    simp only [IsChar, UInt8.le_iff_toNat_le, ← UInt8.toNat_inj, UInt8.reduceToNat] at h
    rw [if_neg (by omega), if_neg (by omega), if_pos (by omega)]
    rfl
  | [b, c, d], h =>
    simp only [IsChar, UInt8.le_iff_toNat_le, ← UInt8.toNat_inj, UInt8.reduceToNat] at h
    rw [if_neg (by omega), if_neg (by omega), if_neg (by omega)]
    rfl

theorem not_isChar_nil : ¬IsChar [] := id

/-- No encoding starts another one. -/
theorem IsChar.append_inj {g g' t t' : List UInt8} (h : IsChar g) (h' : IsChar g')
    (heq : g ++ t = g' ++ t') : g = g' ∧ t = t' := by
  refine List.append_inj heq ?_
  cases g with
  | nil => exact absurd h not_isChar_nil
  | cons a g =>
    cases g' with
    | nil => exact absurd h' not_isChar_nil
    | cons a' g' =>
      obtain ⟨rfl, -⟩ := List.cons.inj heq
      rw [List.length_cons, List.length_cons, h.length_eq, h'.length_eq]

/-! ## Strings -/

theorem valid_nil : Valid [] := ⟨[], rfl⟩

theorem Valid.append {s t : List UInt8} (hs : Valid s) (ht : Valid t) : Valid (s ++ t) := by
  obtain ⟨cs, rfl⟩ := hs
  obtain ⟨ds, rfl⟩ := ht
  exact ⟨cs ++ ds, List.flatMap_append.symm⟩

/-- The first character comes off a string that is not empty. -/
theorem valid_cons_iff {a : UInt8} {t : List UInt8} :
    Valid (a :: t) ↔ ∃ g rest, IsChar g ∧ a :: t = g ++ rest ∧ Valid rest := by
  constructor
  · rintro ⟨cs, hcs⟩
    cases cs with
    | nil => cases hcs
    | cons c cs => exact ⟨_, _, isChar_utf8EncodeChar c, hcs, cs, rfl⟩
  · rintro ⟨g, rest, hg, heq, cs, rfl⟩
    obtain ⟨c, rfl⟩ := hg.exists_utf8EncodeChar
    exact ⟨c :: cs, heq⟩

theorem valid_append_iff {g t : List UInt8} (h : IsChar g) : Valid (g ++ t) ↔ Valid t := by
  cases g with
  | nil => exact absurd h not_isChar_nil
  | cons a g =>
    rw [List.cons_append, valid_cons_iff]
    constructor
    · rintro ⟨g', rest, hg', heq, hrest⟩
      obtain ⟨-, rfl⟩ := h.append_inj hg' heq
      exact hrest
    · intro ht
      exact ⟨a :: g, t, h, rfl, ht⟩

/-! ## Scalar values -/

/-- A Unicode scalar value. -/
def IsScalar (v : ℕ) : Prop := v ≤ 0xD7FF ∨ 0xE000 ≤ v ∧ v ≤ 0x10FFFF

/-- The octets of a scalar value, in the shortest form. -/
def encodeScalar (v : ℕ) : List UInt8 :=
  if v ≤ 0x7F then [v.toUInt8]
  else if v ≤ 0x7FF then [(0xC0 + v / 64).toUInt8, (0x80 + v % 64).toUInt8]
  else if v ≤ 0xFFFF then
    [(0xE0 + v / 4096).toUInt8, (0x80 + v / 64 % 64).toUInt8, (0x80 + v % 64).toUInt8]
  else
    [(0xF0 + v / 262144).toUInt8, (0x80 + v / 4096 % 64).toUInt8, (0x80 + v / 64 % 64).toUInt8,
      (0x80 + v % 64).toUInt8]

theorem isScalar_iff_isValidChar {v : ℕ} : IsScalar v ↔ v.isValidChar := by
  rw [IsScalar, Nat.isValidChar]
  omega

theorem isScalar_toNat (c : Char) : IsScalar c.toNat := isScalar_iff_isValidChar.mpr c.valid

theorem utf8EncodeChar_eq (c : Char) : String.utf8EncodeChar c = encodeScalar c.toNat := by
  have hscalar := isScalar_toNat c
  rw [String.utf8EncodeChar, encodeScalar]
  rw [Char.toNat] at *
  generalize c.val.toNat = v at *
  rw [IsScalar] at hscalar
  -- the octets of a scalar value need no masks
  split_ifs with h1 h2 h3
  · rfl
  · rw [@Nat.mod_eq_of_lt (v / 64) _ (by omega), Nat.add_comm, Nat.add_comm (v % 64)]
  · rw [@Nat.mod_eq_of_lt (v / 4096) _ (by omega)]
    simp only [Nat.add_comm]
  · rw [@Nat.mod_eq_of_lt (v / 262144) _ (by omega)]
    simp only [Nat.add_comm]

/-- The valid strings are those of scalar values. -/
theorem valid_iff_encodeScalar {t : List UInt8} :
    Valid t ↔ ∃ vs : List ℕ, (∀ v ∈ vs, IsScalar v) ∧ t = vs.flatMap encodeScalar := by
  constructor
  · rintro ⟨cs, rfl⟩
    refine ⟨cs.map Char.toNat, fun v hv => ?_, ?_⟩
    · obtain ⟨c, -, rfl⟩ := List.mem_map.mp hv
      exact isScalar_toNat c
    · rw [List.flatMap_map]
      exact List.flatMap_congr fun c _ => utf8EncodeChar_eq c
  · rintro ⟨vs, hvs, rfl⟩
    induction vs with
    | nil => exact valid_nil
    | cons v vs ih =>
      obtain ⟨c, hc⟩ := exists_char (isScalar_iff_isValidChar.mp (hvs v List.mem_cons_self))
      have hvalid : Valid (String.utf8EncodeChar c) := ⟨[c], (List.flatMap_singleton ..).symm⟩
      rw [utf8EncodeChar_eq, Char.toNat, hc] at hvalid
      exact hvalid.append (ih fun w hw => hvs w (List.mem_cons_of_mem v hw))

/-! ## Cutting a string -/

/-- The first octet of a character is no tail, and the others are. -/
theorem IsChar.tails {a : UInt8} {g : List UInt8} (h : IsChar (a :: g)) :
    ¬IsTail a ∧ ∀ c ∈ g, IsTail c := by
  match g, h with
  | [], h =>
    simp only [IsChar, IsTail, UInt8.lt_iff_toNat_lt, UInt8.le_iff_toNat_le, UInt8.reduceToNat,
      List.not_mem_nil, false_implies, implies_true, and_true] at *
    omega
  | [b], h =>
    simp only [IsChar, IsTail, UInt8.le_iff_toNat_le, UInt8.reduceToNat, List.forall_mem_singleton]
      at *
    omega
  | [b, c], h =>
    simp only [IsChar, IsTail, UInt8.le_iff_toNat_le, ← UInt8.toNat_inj, UInt8.reduceToNat,
      List.forall_mem_cons, List.not_mem_nil, false_implies, implies_true, and_true] at *
    omega
  | [b, c, d], h =>
    simp only [IsChar, IsTail, UInt8.le_iff_toNat_le, ← UInt8.toNat_inj, UInt8.reduceToNat,
      List.forall_mem_cons, List.not_mem_nil, false_implies, implies_true, and_true] at *
    omega

/-- A part of a character is not valid. -/
theorem IsChar.not_valid_take {g : List UInt8} (h : IsChar g) {n : ℕ} (hpos : 0 < n)
    (hlt : n < g.length) : ¬Valid (g.take n) := by
  cases g with
  | nil => exact absurd h not_isChar_nil
  | cons a g =>
    obtain ⟨m, rfl⟩ := Nat.exists_eq_succ_of_ne_zero (Nat.ne_of_gt hpos)
    rw [List.take_succ_cons, valid_cons_iff]
    rintro ⟨g', rest, hg', heq, -⟩
    cases g' with
    | nil => exact not_isChar_nil hg'
    | cons a' g' =>
      -- its first octet asks for more octets than are left
      rw [List.cons_append, List.cons.injEq] at heq
      obtain ⟨rfl, htake⟩ := heq
      have hlength := congrArg List.length htake
      rw [List.length_take, List.length_append] at hlength
      have hwidth := h.length_eq
      have hwidth' := hg'.length_eq
      rw [List.length_cons] at hlt
      omega

/-- A string is cut between two characters where no tail follows. -/
theorem valid_take_iff {t : List UInt8} (h : Valid t) (n : ℕ) :
    Valid (t.take n) ↔ ∀ c, t[n]? = some c → ¬IsTail c := by
  obtain ⟨cs, rfl⟩ := h
  induction cs generalizing n with
  | nil => simp [valid_nil]
  | cons c cs ih =>
    have hchar := isChar_utf8EncodeChar c
    rw [List.flatMap_cons]
    generalize String.utf8EncodeChar c = g at hchar
    rcases Nat.lt_or_ge n g.length with hlt | hge
    · rw [List.take_append_of_le_length (Nat.le_of_lt hlt), List.getElem?_append_left hlt]
      cases n with
      | zero =>
        refine iff_of_true valid_nil fun d hd => ?_
        cases g with
        | nil => cases hd
        | cons a g =>
          cases hd
          exact hchar.tails.1
      | succ n =>
        refine iff_of_false (hchar.not_valid_take n.succ_pos hlt) fun h => ?_
        cases g with
        | nil => cases hlt
        | cons a g =>
          rw [List.getElem?_cons_succ] at h
          have hn : n < g.length := Nat.lt_of_succ_lt_succ hlt
          exact h _ (List.getElem?_eq_getElem hn) (hchar.tails.2 _ (List.getElem_mem hn))
    · rw [List.take_append, List.take_of_length_le hge, List.getElem?_append_right hge,
        valid_append_iff hchar]
      exact ih (n - g.length)

/-! ## Decoding -/

/-- The characters of a valid string. -/
def decode (t : List UInt8) : Option (List Char) :=
  t.toByteArray.utf8Decode?.map Array.toList

theorem decode_eq_some_iff {t : List UInt8} {cs : List Char} :
    decode t = some cs ↔ t = cs.flatMap String.utf8EncodeChar := by
  rw [decode, Option.map_eq_some_iff]
  constructor
  · rintro ⟨chars, hchars, rfl⟩
    obtain ⟨ds, hds⟩ := ByteArray.isSome_utf8Decode?_iff.mp (Option.isSome_of_eq_some hchars)
    rw [hds, List.utf8Decode?_utf8Encode, Option.some.injEq] at hchars
    rw [← hchars]
    exact List.toByteArray_inj.mp hds
  · rintro rfl
    exact ⟨cs.toArray, List.utf8Decode?_utf8Encode, List.toList_toArray⟩

end Utf8
