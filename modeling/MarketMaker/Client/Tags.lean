import MarketMaker.Client.Preflight
import MarketMaker.Client.Rules
import Mathlib.Order.Bounds.Basic

/-!
# How an unknown tag is shown

`sanitized_tag` of `frame_preflight.cpp` cuts the octets of a tag and then cleans them.
`_sanitized_tag` of `mmclient/_preflight.py` cleans the code points and then cuts their UTF-8. Both
show the same text (`IsShown`): the longest clean prefix of at most 32 octets that ends between two
code points, and an ellipsis if that is not all of the tag.
-/

namespace MarketMaker

namespace Client

/-! ## The client's function -/

namespace Str

/-- A character as a code point. -/
def ofChar (c : Char) : Fin 0x110000 := Fin.ofNat 0x110000 c.toNat

/-- `bytes.decode`, with `none` for its `UnicodeDecodeError`. -/
def decode (t : Bytes) : Option Str := (Utf8.decode t).map (List.map ofChar)

end Str

/-- A code point of a tag, as it is shown. -/
def shownChar (ch : Fin 0x110000) : Fin 0x110000 :=
  if ch.val < 0x20 ∨ ch.val = 0x7F then 0x3F else ch

/-- `_sanitized_tag` of a `str`, with `none` if a conversion to or from UTF-8 fails. -/
def sanitizedTagStr (tag : Str) : Option Str := do
  let clean : Str := tag.map shownChar
  let raw ← clean.encode
  if raw.length ≤ MAX_TAG_DETAIL then return clean
  let head ← Str.decode (raw.take (tagCut raw MAX_TAG_DETAIL))
  return head ++ [0x2026]

/-! ## Code points -/

namespace Str

theorem val_ofChar (c : Char) : (ofChar c).val = c.toNat := by
  have hscalar := Utf8.isScalar_toNat c
  rw [Utf8.IsScalar] at hscalar
  exact Nat.mod_eq_of_lt (by omega)

theorem isSurrogate_ofChar (c : Char) : isSurrogate (ofChar c) = false := by
  have hscalar := Utf8.isScalar_toNat c
  rw [Utf8.IsScalar] at hscalar
  rw [isSurrogate, val_ofChar, Bool.and_eq_false_iff, decide_eq_false_iff_not,
    decide_eq_false_iff_not]
  omega

theorem codePoint_ofChar (c : Char) : Json.codePoint (ofChar c).val = String.utf8EncodeChar c := by
  rw [val_ofChar, Json.codePoint, Char.ofNat_toNat]

/-- Every code point that is no surrogate is a character. -/
theorem exists_ofChar {c : Fin 0x110000} (h : isSurrogate c = false) : ∃ ch, c = ofChar ch := by
  obtain ⟨ch, hch⟩ := Utf8.exists_char (isValidChar_of_not_surrogate h)
  refine ⟨ch, Fin.ext ?_⟩
  rw [val_ofChar]
  exact hch.symm

theorem encode_eq_some_iff {s : Str} {t : Bytes} :
    s.encode = some t ↔ ∃ cs : List Char, s = cs.map ofChar ∧
      t = cs.flatMap String.utf8EncodeChar := by
  constructor
  · intro h
    induction s generalizing t with
    | nil =>
      cases h
      exact ⟨[], rfl, rfl⟩
    | cons c s ih =>
      rw [encode] at h
      split_ifs at h with hc
      obtain ⟨u, hu, rfl⟩ := Option.map_eq_some_iff.mp h
      obtain ⟨cs, rfl, rfl⟩ := ih hu
      obtain ⟨ch, rfl⟩ := exists_ofChar (Bool.not_eq_true _ |>.mp hc)
      exact ⟨ch :: cs, rfl, by rw [codePoint_ofChar, List.flatMap_cons]⟩
  · rintro ⟨cs, rfl, rfl⟩
    induction cs with
    | nil => rfl
    | cons c cs ih =>
      rw [List.map_cons, encode, isSurrogate_ofChar, if_neg (by decide), ih, codePoint_ofChar]
      rfl

/-- Decoding undoes encoding. -/
theorem decode_eq_some_iff {s : Str} {t : Bytes} : decode t = some s ↔ s.encode = some t := by
  rw [encode_eq_some_iff, decode, Option.map_eq_some_iff]
  refine exists_congr fun cs => ?_
  rw [Utf8.decode_eq_some_iff, and_comm, eq_comm]

theorem exists_decode {t : Bytes} (h : Utf8.Valid t) : ∃ s, decode t = some s := by
  obtain ⟨cs, hcs⟩ := h
  exact ⟨_, decode_eq_some_iff.mpr (encode_eq_some_iff.mpr ⟨cs, rfl, hcs⟩)⟩

end Str

/-! ## Clean text -/

/-- An octet that is shown as it is. -/
theorem shownByte_of_ge {c : UInt8} (h : 0x80 ≤ c) : shownByte c = c := by
  refine if_neg ?_
  rintro (hlt | rfl)
  · exact absurd (UInt8.lt_of_le_of_lt h hlt) (by decide)
  · exact absurd h (by decide)

/-- Cleaning a code point is cleaning its octets. -/
theorem codePoint_shownChar {ch : Fin 0x110000} (h : Str.isSurrogate ch = false) :
    Str.isSurrogate (shownChar ch) = false ∧
      Json.codePoint (shownChar ch).val = (Json.codePoint ch.val).map shownByte := by
  by_cases hascii : ch.val < 0x80
  · have hnat : ch.val.toUInt8.toNat = ch.val := by
      rw [Nat.toUInt8_eq, UInt8.toNat_ofNat']
      omega
    have hcontrol : ch.val.toUInt8 < 0x20 ∨ ch.val.toUInt8 = 0x7F ↔ ch.val < 0x20 ∨
        ch.val = 0x7F := by
      rw [UInt8.lt_iff_toNat_lt, ← UInt8.toNat_inj, hnat]
      rfl
    rw [Json.codePoint_of_lt hascii, List.map_singleton, shownByte, shownChar]
    by_cases hshown : ch.val < 0x20 ∨ ch.val = 0x7F
    · rw [if_pos hshown, if_pos (hcontrol.mpr hshown)]
      exact ⟨rfl, Json.codePoint_of_lt (by decide)⟩
    · rw [if_neg hshown, if_neg (mt hcontrol.mp hshown)]
      exact ⟨h, Json.codePoint_of_lt hascii⟩
  · have hsame : shownChar ch = ch := if_neg (by omega)
    have hge := Json.codePoint_ge (Nat.not_lt.mp hascii) (isValidChar_of_not_surrogate h)
    rw [hsame]
    refine ⟨h, ?_⟩
    calc Json.codePoint ch.val = (Json.codePoint ch.val).map id := (List.map_id _).symm
      _ = (Json.codePoint ch.val).map shownByte :=
        List.map_congr_left fun c hc => (shownByte_of_ge (hge c hc)).symm

theorem encode_shown {s : Str} {t : Bytes} (h : s.encode = some t) :
    Str.encode (s.map shownChar) = some (t.map shownByte) := by
  induction s generalizing t with
  | nil =>
    cases h
    rfl
  | cons c s ih =>
    rw [Str.encode] at h
    split_ifs at h with hc
    obtain ⟨u, hu, rfl⟩ := Option.map_eq_some_iff.mp h
    obtain ⟨hshown, hcode⟩ := codePoint_shownChar (Bool.not_eq_true _ |>.mp hc)
    rw [List.map_cons, Str.encode, hshown, if_neg (by decide), ih hu, hcode, List.map_append]
    rfl

/-! ## The cut -/

/-- The test of the engine for an octet that continues a sequence. -/
theorem isTail_iff {c : UInt8} : c &&& 0xC0 = 0x80 ↔ Utf8.IsTail c := by
  have hmask : ∀ n < 256, n &&& 0xC0 = 0x80 ↔ 0x80 ≤ n ∧ n ≤ 0xBF := by decide +kernel
  rw [← UInt8.toNat_inj, UInt8.toNat_and, Utf8.IsTail, UInt8.le_iff_toNat_le, UInt8.le_iff_toNat_le]
  exact hmask c.toNat c.toNat_lt

/-- The test of the client. -/
theorem UTF8_TAIL_iff {c : UInt8} : UTF8_TAIL c = true ↔ Utf8.IsTail c := by
  rw [UTF8_TAIL, Utf8.IsTail, Bool.and_eq_true, decide_eq_true_eq, decide_eq_true_eq,
    UInt8.lt_iff_toNat_lt, UInt8.le_iff_toNat_le, UInt8.le_iff_toNat_le]
  change 128 ≤ c.toNat ∧ c.toNat < 192 ↔ 128 ≤ c.toNat ∧ c.toNat ≤ 191
  omega

theorem tagCut_succ (tag : Bytes) (n : ℕ) :
    MarketMaker.tagCut tag (n + 1) =
      if (tag[n + 1]?).any (Utf8.IsTail ·) then MarketMaker.tagCut tag n else n + 1 := by
  rw [MarketMaker.tagCut]
  cases tag[n + 1]? with
  | none => rfl
  | some c => simp [isTail_iff]

/-- The end of a tag is no place to step back from. -/
theorem tagCut_length (tag : Bytes) : MarketMaker.tagCut tag tag.length = tag.length := by
  cases tag with
  | nil => rfl
  | cons c tag =>
    rw [List.length_cons, tagCut_succ, List.getElem?_eq_none (by simp)]
    rfl

/-- Both loops stop at the same place. -/
theorem tagCut_eq (tag : Bytes) (n : ℕ) : tagCut tag n = MarketMaker.tagCut tag n := by
  induction n with
  | zero => rfl
  | succ n ih =>
    rw [tagCut, tagCut_succ, ih]
    cases tag[n + 1]? with
    | none => rfl
    | some c => simp [UTF8_TAIL_iff]

/-- A clean octet continues a sequence just when the octet did. -/
theorem isTail_shownByte {c : UInt8} : Utf8.IsTail (shownByte c) ↔ Utf8.IsTail c := by
  rw [shownByte]
  split_ifs with hcontrol
  · refine iff_of_false (by decide) fun htail => ?_
    have hsame := shownByte_of_ge htail.1
    rw [shownByte, if_pos hcontrol] at hsame
    rw [← hsame] at htail
    exact absurd htail (by decide)
  · rfl

/-- Cleaning moves no cut. -/
theorem tagCut_map_shownByte (tag : Bytes) (n : ℕ) :
    MarketMaker.tagCut (tag.map shownByte) n = MarketMaker.tagCut tag n := by
  induction n with
  | zero => rfl
  | succ n ih =>
    rw [tagCut_succ, tagCut_succ, ih, List.getElem?_map]
    cases tag[n + 1]? with
    | none => rfl
    | some c => simp [isTail_shownByte]

/-- The cut is the last place between two characters, up to where it starts to look. -/
theorem isGreatest_tagCut {tag : Bytes} (h : Utf8.Valid tag) (n : ℕ) :
    IsGreatest {m | m ≤ n ∧ Utf8.Valid (tag.take m)} (MarketMaker.tagCut tag n) := by
  induction n with
  | zero => exact ⟨⟨le_rfl, Utf8.valid_nil⟩, fun m hm => hm.1⟩
  | succ n ih =>
    rw [tagCut_succ]
    have hcut : Utf8.Valid (tag.take (n + 1)) ↔ ¬(tag[n + 1]?).any (Utf8.IsTail ·) = true := by
      rw [Utf8.valid_take_iff h]
      cases tag[n + 1]? with
      | none => simp
      | some c => simp
    split_ifs with htail
    · obtain ⟨⟨hle, hvalid⟩, hmost⟩ := ih
      refine ⟨⟨hle.trans n.le_succ, hvalid⟩, fun m hm => ?_⟩
      rcases Nat.le_succ_iff.mp hm.1 with hm' | rfl
      · exact hmost ⟨hm', hm.2⟩
      · exact absurd htail (hcut.mp hm.2)
    · exact ⟨⟨le_rfl, hcut.mpr htail⟩, fun m hm => hm.1⟩

/-! ## What is shown -/

theorem valid_map_shownByte {t : Bytes} (h : Utf8.Valid t) : Utf8.Valid (t.map shownByte) := by
  obtain ⟨s, hs⟩ := Str.exists_decode h
  exact Str.valid_encode (encode_shown (Str.decode_eq_some_iff.mp hs))

theorem not_isControlByte_shownByte (c : UInt8) : ¬IsControlByte (shownByte c) := by
  rw [shownByte]
  split_ifs with hcontrol
  · exact not_or.mpr ⟨by decide, by decide⟩
  · exact hcontrol

/-- The ellipsis. -/
def ellipsis : Bytes := [0xE2, 0x80, 0xA6]

/-- The text that stands for a tag. -/
structure IsShown (tag out : Bytes) : Prop where
  valid : Utf8.Valid out
  clean : ∀ c ∈ out, ¬IsControlByte c
  size : out.length ≤ 32 + ellipsis.length
  longest : ∃ head, out = head ++ (if head.length < tag.length then ellipsis else []) ∧
    head <+: tag.map shownByte ∧ head.length ≤ 32 ∧ Utf8.Valid head ∧
    ∀ other, other <+: tag.map shownByte → other.length ≤ 32 → Utf8.Valid other →
      other.length ≤ head.length

/-- The place at which both sides cut a tag. -/
theorem isShown_sanitizedTag {tag : Bytes} (h : Utf8.Valid tag) :
    IsShown tag (MarketMaker.sanitizedTag tag) := by
  have hclean := valid_map_shownByte h
  obtain ⟨⟨hle, hvalid⟩, hmost⟩ := isGreatest_tagCut hclean (min tag.length maxTagDetailBytes)
  rw [tagCut_map_shownByte] at hle hvalid hmost
  rw [MarketMaker.sanitizedTag, List.map_take]
  generalize MarketMaker.tagCut tag (min tag.length maxTagDetailBytes) = cut at *
  have hcap : maxTagDetailBytes = 32 := rfl
  have hlength : ((tag.map shownByte).take cut).length = cut := by
    rw [List.length_take, List.length_map]
    omega
  have hellipsis : Utf8.Valid (if cut < tag.length then ellipsis else []) := by
    split_ifs
    · exact ⟨['…'], rfl⟩
    · exact Utf8.valid_nil
  refine ⟨hvalid.append hellipsis, fun c hc => ?_, ?_, _, ?_, List.take_prefix _ _, ?_, hvalid, ?_⟩
  · rcases List.mem_append.mp hc with hc | hc
    · obtain ⟨d, -, rfl⟩ := List.mem_map.mp (List.mem_of_mem_take hc)
      exact not_isControlByte_shownByte d
    · split_ifs at hc
      · rw [List.mem_cons, List.mem_cons, List.mem_singleton] at hc
        rcases hc with rfl | rfl | rfl <;> exact not_or.mpr ⟨by decide, by decide⟩
      · exact absurd hc List.not_mem_nil
  · rw [List.length_append, hlength]
    split_ifs
    · exact Nat.add_le_add (by omega) le_rfl
    · exact Nat.add_le_add (by omega) (Nat.zero_le _)
  · rw [hlength]
    rfl
  · omega
  · intro other hother hsize hvalid'
    rw [hlength]
    have hfits := hother.length_le
    rw [List.length_map] at hfits
    refine hmost ⟨le_min hfits hsize, ?_⟩
    rwa [← List.prefix_iff_eq_take.mp hother]

/-- The octets that the client shows are those of the engine. -/
theorem encode_sanitizedTagStr {s : Str} {tag : Bytes} (h : s.encode = some tag) :
    ∃ shown, sanitizedTagStr s = some shown ∧
      shown.encode = some (MarketMaker.sanitizedTag tag) := by
  have hclean := encode_shown h
  have hcap : MAX_TAG_DETAIL = maxTagDetailBytes := rfl
  have hvalid := valid_map_shownByte (Str.valid_encode h)
  have hcut := isGreatest_tagCut hvalid (min tag.length maxTagDetailBytes)
  rw [tagCut_map_shownByte] at hcut
  obtain ⟨⟨hle, hhead⟩, -⟩ := hcut
  rw [sanitizedTagStr, MarketMaker.sanitizedTag, List.map_take, hclean, Option.bind_eq_bind,
    Option.bind_some, tagCut_eq, tagCut_map_shownByte, hcap, List.length_map]
  by_cases hshort : tag.length ≤ maxTagDetailBytes
  · rw [if_pos hshort, min_eq_left hshort, tagCut_length, if_neg (Nat.lt_irrefl _), List.append_nil,
      List.take_of_length_le (by rw [List.length_map])]
    exact ⟨_, rfl, hclean⟩
  · rw [if_neg hshort]
    rw [min_eq_right (by omega)] at hle hhead ⊢
    obtain ⟨head, hdecode⟩ := Str.exists_decode hhead
    rw [hdecode, if_pos (by omega)]
    exact ⟨_, rfl, Str.encode_append (Str.decode_eq_some_iff.mp hdecode) rfl⟩

/-- The two functions show every tag alike, and it is the text that stands for the tag. -/
theorem sanitizedTag_agree {tag : Bytes} (h : Utf8.Valid tag) :
    ∃ s shown, Str.decode tag = some s ∧ sanitizedTagStr s = some shown ∧
      shown.encode = some (MarketMaker.sanitizedTag tag) ∧
        IsShown tag (MarketMaker.sanitizedTag tag) := by
  obtain ⟨s, hs⟩ := Str.exists_decode h
  obtain ⟨shown, hshown, hencode⟩ := encode_sanitizedTagStr (Str.decode_eq_some_iff.mp hs)
  exact ⟨s, shown, hs, hshown, hencode, isShown_sanitizedTag h⟩

/-- Octet 32 of this tag is inside a sequence. -/
theorem sanitizedTag_agree_straddling :
    ∃ s shown, Str.decode (0x61 :: (List.replicate 16 [0xC3, 0xA9]).flatten) = some s ∧
      sanitizedTagStr s = some shown ∧
      shown.encode =
        some (MarketMaker.sanitizedTag (0x61 :: (List.replicate 16 [0xC3, 0xA9]).flatten)) ∧
      IsShown (0x61 :: (List.replicate 16 [0xC3, 0xA9]).flatten)
        (MarketMaker.sanitizedTag (0x61 :: (List.replicate 16 [0xC3, 0xA9]).flatten)) :=
  sanitizedTag_agree ⟨'a' :: List.replicate 16 'é', by decide⟩

end Client

end MarketMaker
