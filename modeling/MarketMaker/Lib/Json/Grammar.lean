import Mathlib.Data.List.Basic
import Mathlib.Data.Nat.Notation

/-!
# The grammar of JSON

RFC 8259 over octets. A text is a list of octets; that it is UTF-8 is stated apart, so an octet
above 0x7F stands in a string for a part of an unescaped character.

`Value d` holds of the values whose containers nest at most `d` deep, by recursion on `d`: it is a
scalar, or a container around values that nest one less deep. A string is a list of `Piece`s, and
the escapes that spell a surrogate come in pairs (`Paired`). -/

namespace Json

/-- A text, as octets. -/
abbrev Text := List UInt8

/-! ## Characters -/

/-- A blank. -/
def isWs (c : UInt8) : Bool := c = 0x20 || c = 0x09 || c = 0x0A || c = 0x0D

def isDigit (c : UInt8) : Bool := 0x30 ≤ c && c ≤ 0x39

/-- The value of a hexadecimal digit. -/
def hexVal (c : UInt8) : Option ℕ :=
  if isDigit c then some (c.toNat - 0x30)
  else if 0x61 ≤ c && c ≤ 0x66 then some (c.toNat - 0x61 + 10)
  else if 0x41 ≤ c && c ≤ 0x46 then some (c.toNat - 0x41 + 10)
  else none

/-- `ws`. -/
def Ws (t : Text) : Prop := ∀ c ∈ t, isWs c = true

def Digits (t : Text) : Prop := ∀ c ∈ t, isDigit c = true

/-! ## Numbers -/

/-- `int`: zero, or digits that do not start with it. -/
def IsInt (t : Text) : Prop :=
  t = [0x30] ∨ ∃ c ds, t = c :: ds ∧ c ≠ 0x30 ∧ isDigit c = true ∧ Digits ds

/-- `[ frac ]`. -/
def IsFrac (t : Text) : Prop :=
  t = [] ∨ ∃ c ds, t = 0x2E :: c :: ds ∧ isDigit c = true ∧ Digits ds

/-- `[ exp ]`. -/
def IsExp (t : Text) : Prop :=
  t = [] ∨ ∃ e sign c ds, t = e :: (sign ++ c :: ds) ∧ (e = 0x65 ∨ e = 0x45) ∧
    (sign = [] ∨ sign = [0x2B] ∨ sign = [0x2D]) ∧ isDigit c = true ∧ Digits ds

/-- `number`. -/
def IsNumber (t : Text) : Prop :=
  ∃ sign int frac exp, t = sign ++ (int ++ (frac ++ exp)) ∧ (sign = [] ∨ sign = [0x2D]) ∧
    IsInt int ∧ IsFrac frac ∧ IsExp exp

/-! ## Strings -/

/-- A part of a string. -/
inductive Piece
  /-- An unescaped octet. -/
  | plain (c : UInt8)
  /-- A two-character escape. -/
  | short (c : UInt8)
  /-- An escape with four hexadecimal digits. -/
  | unicode (a b c d : UInt8)
  deriving DecidableEq, Repr

namespace Piece

/-- The characters that follow a backslash in a two-character escape. -/
def shorts : List UInt8 := [0x22, 0x5C, 0x2F, 0x62, 0x66, 0x6E, 0x72, 0x74]

def render : Piece → Text
  | plain c => [c]
  | short c => [0x5C, c]
  | unicode a b c d => [0x5C, 0x75, a, b, c, d]

/-- The piece is one the grammar has. -/
def Ok : Piece → Prop
  | plain c => 0x20 ≤ c ∧ c ≠ 0x22 ∧ c ≠ 0x5C
  | short c => c ∈ shorts
  | unicode a b c d =>
    (hexVal a).isSome ∧ (hexVal b).isSome ∧ (hexVal c).isSome ∧ (hexVal d).isSome

/-- The code unit of four hexadecimal digits. -/
def codeUnit (a b c d : UInt8) : ℕ :=
  (((hexVal a).getD 0 * 16 + (hexVal b).getD 0) * 16 + (hexVal c).getD 0) * 16 + (hexVal d).getD 0

/-- An escape of the first half of a surrogate pair. -/
def isHigh : Piece → Bool
  | unicode a b c d => 0xD800 ≤ codeUnit a b c d && codeUnit a b c d ≤ 0xDBFF
  | _ => false

/-- An escape of the second half. -/
def isLow : Piece → Bool
  | unicode a b c d => 0xDC00 ≤ codeUnit a b c d && codeUnit a b c d ≤ 0xDFFF
  | _ => false

end Piece

/-- Every escape of a surrogate belongs to an adjacent pair. -/
def Paired : List Piece → Bool
  | [] => true
  | p :: ps =>
    if p.isLow then false
    else if p.isHigh then
      match ps with
      | q :: qs => q.isLow && Paired qs
      | [] => false
    else Paired ps

/-- The text between the quotes of a string. -/
def IsBody (t : Text) : Prop :=
  ∃ ps, (∀ p ∈ ps, p.Ok) ∧ Paired ps = true ∧ t = ps.flatMap Piece.render

/-! ## Values -/

/-- `true`, `false` and `null`. -/
def literals : List Text :=
  [[0x74, 0x72, 0x75, 0x65], [0x66, 0x61, 0x6C, 0x73, 0x65], [0x6E, 0x75, 0x6C, 0x6C]]

/-- A value that is no container. -/
def Scalar (t : Text) : Prop :=
  t ∈ literals ∨ IsNumber t ∨ ∃ body, IsBody body ∧ t = 0x22 :: (body ++ [0x22])

/-- `value *( value-separator value )`. -/
inductive Elements (P : Text → Prop) : Text → Prop
  | last {a v b : Text} (before : Ws a) (value : P v) (after : Ws b) : Elements P (a ++ (v ++ b))
  | cons {a v b rest : Text} (before : Ws a) (value : P v) (after : Ws b)
      (more : Elements P rest) : Elements P (a ++ (v ++ (b ++ 0x2C :: rest)))

/-- One `member`, with its key and its value. -/
inductive Member (P : Text → Prop) (key v : Text) : Text → Prop
  | mk {a b c d : Text} (before : Ws a) (body : IsBody key) (colon : Ws b) (value : P v)
      (start : Ws c) (after : Ws d) :
      Member P key v (a ++ 0x22 :: (key ++ 0x22 :: (b ++ 0x3A :: (c ++ (v ++ d)))))

/-- `member *( value-separator member )`, with the keys and the values. -/
inductive Members (P : Text → Prop) : List (Text × Text) → Text → Prop
  | last {key v t : Text} (member : Member P key v t) : Members P [(key, v)] t
  | cons {key v t rest : Text} {ms : List (Text × Text)} (member : Member P key v t)
      (more : Members P ms rest) : Members P ((key, v) :: ms) (t ++ 0x2C :: rest)

theorem Members.mono {P Q : Text → Prop} (h : ∀ v, P v → Q v) {ms : List (Text × Text)} {t : Text}
    (hms : Members P ms t) : Members Q ms t := by
  induction hms with
  | last member =>
    obtain ⟨before, body, colon, value, start, after⟩ := member
    exact .last ⟨before, body, colon, h _ value, start, after⟩
  | cons member _ ih =>
    obtain ⟨before, body, colon, value, start, after⟩ := member
    exact .cons ⟨before, body, colon, h _ value, start, after⟩ ih

/-- `array`. -/
def IsArray (P : Text → Prop) (t : Text) : Prop :=
  ∃ body, (Ws body ∨ Elements P body) ∧ t = 0x5B :: (body ++ [0x5D])

/-- `object`, with its members. -/
def IsObject (P : Text → Prop) (ms : List (Text × Text)) (t : Text) : Prop :=
  ∃ body, (Ws body ∧ ms = [] ∨ Members P ms body) ∧ t = 0x7B :: (body ++ [0x7D])

/-- `value`, with containers that nest at most `d` deep. -/
def Value : ℕ → Text → Prop
  | 0, t => Scalar t
  | d + 1, t => Scalar t ∨ IsArray (Value d) t ∨ ∃ ms, IsObject (Value d) ms t

/-- A `JSON-text` that is an object, with its members, whose containers nest at most `d` deep. -/
def ObjectText (d : ℕ) (ms : List (Text × Text)) (t : Text) : Prop :=
  0 < d ∧ ∃ a object b, Ws a ∧ Ws b ∧ IsObject (Value (d - 1)) ms object ∧
    t = a ++ (object ++ b)

/-! ## The members of an object -/

/-- The keys of members are bodies of strings, and their values stand in the text. -/
theorem Members.bounds {P : Text → Prop} {ms : List (Text × Text)} {t : Text}
    (hms : Members P ms t) : ∀ m ∈ ms, IsBody m.1 ∧ m.2.length ≤ t.length := by
  induction hms with
  | last member =>
    obtain ⟨before, body, colon, value, start, after⟩ := member
    simp only [List.forall_mem_singleton, List.length_append, List.length_cons]
    exact ⟨body, by omega⟩
  | cons member _ ih =>
    obtain ⟨before, body, colon, value, start, after⟩ := member
    rw [List.forall_mem_cons]
    simp only [List.length_append, List.length_cons] at ih ⊢
    refine ⟨⟨body, by omega⟩, fun m hm => ⟨(ih m hm).1, ?_⟩⟩
    have hle := (ih m hm).2
    omega

theorem ObjectText.bounds {d : ℕ} {ms : List (Text × Text)} {t : Text} (h : ObjectText d ms t) :
    ∀ m ∈ ms, IsBody m.1 ∧ m.2.length ≤ t.length := by
  obtain ⟨-, a, object, b, -, -, ⟨body, ⟨-, rfl⟩ | hms, rfl⟩, rfl⟩ := h
  · exact fun m hm => by contradiction
  · intro m hm
    obtain ⟨hbody, hle⟩ := hms.bounds m hm
    refine ⟨hbody, ?_⟩
    simp only [List.length_append, List.length_cons]
    omega

end Json
