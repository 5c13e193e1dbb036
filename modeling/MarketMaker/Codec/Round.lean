import MarketMaker.Codec.Tokens

/-!
# The rounds of the scanner

What each case of the `switch` of `FrameScanner::run` does at an octet, in terms of the reader of
the grammar, and that every round moves the index forward. So the bound of the loop is never
reached: `finish` is the loop run to its end, and it unfolds by rounds. -/

namespace MarketMaker

namespace FrameScanner

open Cursor (At)
open Json (Text)

variable {f : Bytes} {s u : FrameScanner} {c : UInt8} {t : Text}

/-! ## The cases of a round -/

/-- The state in which a value starts. -/
def started (s : FrameScanner) : FrameScanner :=
  if s.depth = 1 ∧ s.rootIsObject = true then { s with valueStart := s.i } else s

/-- Noting the start of a value moves nothing. -/
@[simp]
theorem started_i (s : FrameScanner) : s.started.i = s.i := by
  rw [started]
  split_ifs <;> rfl

/-- Nor does it nest. -/
@[simp]
theorem started_depth (s : FrameScanner) : s.started.depth = s.depth := by
  rw [started]
  split_ifs <;> rfl

/-- At the root the start is noted. -/
theorem started_root (hdepth : s.depth = 1) (hroot : s.rootIsObject = true) :
    s.started = { s with valueStart := s.i } := if_pos ⟨hdepth, hroot⟩

/-- Elsewhere it is not. -/
theorem started_of_not (h : ¬(s.depth = 1 ∧ s.rootIsObject = true)) : s.started = s := if_neg h

/-- A container is opened. -/
def opened (s : FrameScanner) (c : UInt8) : FrameScanner :=
  { s with
    objectMask :=
      if c = 0x7B then s.objectMask ||| 1#64 <<< s.depth
      else s.objectMask &&& ~~~(1#64 <<< s.depth)
    depth := s.depth + 1
    i := s.i + 1
    st := if c = 0x7B then .objKeyOrClose else .arrValueOrClose }

/-- A bracket opens a level, if one is left. -/
theorem valueCase_open (hc : c = 0x7B ∨ c = 0x5B) :
    valueCase f s c =
      if s.depth = maxNestingDepth then
        .error (s.started.reject "nesting depth exceeds the limit")
      else .ok (s.started.opened c) := by
  rw [valueCase]
  dsimp only
  rw [if_pos hc, show (if s.depth = 1 ∧ s.rootIsObject = true then { s with valueStart := s.i }
    else s) = s.started from rfl, opened, started_depth]

/-- A literal is scanned or refused. -/
theorem scanLiteral_cases {lit : Text} (h : At f s.i t) :
    (∃ rest j, Json.readLiteral lit t = some rest ∧ At f j rest ∧
      scanLiteral f s lit = valueDone f { s with i := j }) ∨
    Json.readLiteral lit t = none ∧ ∃ e, scanLiteral f s lit = .error (.reject e) := by
  have hsubstr : substr f s.i lit.length = t.take lit.length := by rw [substr, h.2]
  rw [scanLiteral, hsubstr]
  by_cases hlit : lit <+: t
  · obtain ⟨rest, rfl⟩ := hlit
    refine Or.inl ⟨rest, _, Json.readLiteral_eq_some_iff.mpr rfl, h.append, ?_⟩
    rw [List.take_left, if_neg (not_not.mpr rfl)]
  · refine Or.inr ⟨if_neg hlit, _, if_pos fun heq => hlit ?_⟩
    rw [← heq]
    exact List.take_prefix _ _

/-- A scalar is taken off, or refused. -/
theorem valueCase_scalar (h : At f s.i (c :: t)) (hbrace : c ≠ 0x7B) (hbracket : c ≠ 0x5B) :
    (∃ rest j, Json.readScalar (c :: t) = some rest ∧ At f j rest ∧
      valueCase f s c = valueDone f { s.started with i := j }) ∨
    Json.readScalar (c :: t) = none ∧ ∃ e, valueCase f s c = .error (.reject e) := by
  have hat : At f s.started.i (c :: t) := by rwa [started_i]
  rw [valueCase]
  dsimp only
  rw [show (if s.depth = 1 ∧ s.rootIsObject = true then { s with valueStart := s.i } else s) =
    s.started from rfl, if_neg (not_or.mpr ⟨hbrace, hbracket⟩), Json.readScalar]
  -- the scanner and the reader ask the same questions in the same order
  by_cases hquote : c = 0x22
  · subst hquote
    obtain ⟨⟨tok, j⟩, hscan, hlex⟩ := lexes_scanString hat
    rw [if_pos rfl, if_pos rfl, hscan]
    dsimp only [bind, Except.bind]
    cases hread : Json.readString t with
    | none =>
      rw [hread] at hlex
      rw [if_pos (show tok ≠ .ok from hlex)]
      exact Or.inr ⟨rfl, _, rfl⟩
    | some rest =>
      rw [hread] at hlex
      obtain ⟨rfl, hj⟩ : tok = .ok ∧ At f j rest := hlex
      rw [if_neg (not_not.mpr rfl)]
      exact Or.inl ⟨rest, j, rfl, hj, rfl⟩
  rw [if_neg hquote, if_neg hquote]
  by_cases ht : c = 0x74
  · rw [if_pos ht, if_pos ht]
    exact scanLiteral_cases hat
  rw [if_neg ht, if_neg ht]
  by_cases hf : c = 0x66
  · rw [if_pos hf, if_pos hf]
    exact scanLiteral_cases hat
  rw [if_neg hf, if_neg hf]
  by_cases hn : c = 0x6E
  · rw [if_pos hn, if_pos hn]
    exact scanLiteral_cases hat
  rw [if_neg hn, if_neg hn]
  -- what is left is a number, or no value at all
  by_cases hnumber : c ≠ 0x2D ∧ isDecDigit c = false
  · rw [if_pos hnumber, if_neg (by simpa [isDecDigit_eq] using hnumber)]
    exact Or.inr ⟨rfl, _, rfl⟩
  · have hread : (decide (c = 0x2D) || Json.isDigit c) = true := by
      rw [isDecDigit_eq] at hnumber
      by_contra hno
      exact hnumber (by simpa using hno)
    obtain ⟨⟨ok, j⟩, hscan, hres⟩ := scans_scanNumber hat
    rw [if_neg hnumber, if_pos hread, hscan]
    dsimp only [bind, Except.bind]
    cases hnum : Json.readNumber (c :: t) with
    | none =>
      rw [hnum] at hres
      obtain rfl : ok = false := hres
      exact Or.inr ⟨rfl, _, rfl⟩
    | some rest =>
      rw [hnum] at hres
      obtain ⟨rfl, hj⟩ : ok = true ∧ At f j rest := hres
      exact Or.inl ⟨rest, j, rfl, hj, rfl⟩

/-- The key of a member of the root object is kept. -/
def keyed (s : FrameScanner) (key : Bytes) : FrameScanner :=
  if s.depth = 1 ∧ s.rootIsObject = true then { s with pendingKey := key, havePendingKey := true }
  else s

/-- A key is kept at the root only. -/
theorem keyed_of_not (h : ¬(s.depth = 1 ∧ s.rootIsObject = true)) (key : Bytes) :
    s.keyed key = s := if_neg h

/-- A key is taken off, or refused. -/
theorem objKey_cases (h : At f s.i (0x22 :: t)) :
    (∃ key rest j, Json.readString t = some rest ∧ t = key ++ 0x22 :: rest ∧ At f j rest ∧
      objKey f s 0x22 = .ok { s.keyed key with i := j, st := .objColon }) ∨
    Json.readString t = none ∧ ∃ e, objKey f s 0x22 = .error (.reject e) := by
  obtain ⟨⟨tok, j⟩, hscan, hlex⟩ := lexes_scanString h
  rw [objKey, if_neg (not_not.mpr rfl), hscan]
  dsimp only [bind, Except.bind]
  cases hread : Json.readString t with
  | none =>
    rw [hread] at hlex
    rw [if_pos (show tok ≠ .ok from hlex)]
    exact Or.inr ⟨rfl, _, rfl⟩
  | some rest =>
    rw [hread] at hlex
    obtain ⟨rfl, hj⟩ : tok = .ok ∧ At f j rest := hlex
    obtain ⟨key, -, rfl⟩ := Json.readString_eq_some_iff.mp hread
    refine Or.inl ⟨key, rest, j, rfl, rfl, hj, ?_⟩
    -- the key ends one octet before what is left starts
    have hquote : At f (j - 1) (0x22 :: rest) := by
      have hstart : At f (s.i + 1 + key.length) (0x22 :: rest) := h.tail.append
      have hend := hstart.tail.index_eq hj
      rwa [← hend, Nat.add_sub_cancel]
    have hkey : substr f (s.i + 1) (j - 1 - (s.i + 1)) = key := h.tail.take_eq hquote
    rw [if_neg (not_not.mpr rfl), hkey, keyed]
    split_ifs <;> rfl

/-! ## The end of a value -/

/-- The value is no member of the root object. -/
theorem valueDone_plain (h : ¬(s.depth = 1 ∧ s.havePendingKey = true)) :
    valueDone f s =
      .ok (if s.depth = 0 then { s with done := true } else { s with st := .afterValue }) := by
  rw [valueDone, if_neg h]
  dsimp only [bind, Except.bind, pure, Except.pure]
  split_ifs <;> rfl

/-- The value is a member of the root object. -/
theorem valueDone_member (hdepth : s.depth = 1) (hkey : s.havePendingKey = true)
    (hlt : s.valueStart < s.i) :
    valueDone f s =
      if s.out.length = maxTopLevelKeys then .error (s.reject "too many top-level keys")
      else
        .ok
          { s with
            out := s.out ++ [(s.pendingKey, substr f s.valueStart (s.i - s.valueStart))]
            havePendingKey := false
            st := .afterValue } := by
  rw [valueDone, if_pos ⟨hdepth, hkey⟩, if_neg (not_not.mpr hlt)]
  split_ifs
  · rfl
  · dsimp only [bind, Except.bind, pure, Except.pure]
    rw [if_neg (by rw [hdepth]; decide)]

/-- The end of a value moves nothing. -/
theorem valueDone_i (h : valueDone f s = .ok u) : u.i = s.i := by
  by_cases hmember : s.depth = 1 ∧ s.havePendingKey = true
  · by_cases hlt : s.valueStart < s.i
    · rw [valueDone_member hmember.1 hmember.2 hlt] at h
      split_ifs at h
      cases h
      rfl
    · rw [valueDone, if_pos hmember, if_pos hlt] at h
      cases h
  · rw [valueDone_plain hmember] at h
    cases h
    split_ifs <;> rfl

/-! ## Progress -/

/-- A string takes its quote at least. -/
theorem length_readString_lt {rest : Text} (h : Json.readString t = some rest) :
    rest.length < t.length := by
  obtain ⟨body, -, rfl⟩ := Json.readString_eq_some_iff.mp h
  simp only [List.length_append, List.length_cons]
  omega

/-- A scalar takes something. -/
theorem length_readScalar_lt {rest : Text} (h : Json.readScalar t = some rest) :
    rest.length < t.length := by
  obtain ⟨v, hv, rfl⟩ := Json.readScalar_sound h
  obtain ⟨c, v, rfl, -⟩ := hv.head
  simp only [List.length_append, List.length_cons]
  omega

/-- A value moves the scanner on. -/
theorem valueCase_lt (h : At f s.i (c :: t)) (hok : valueCase f s c = .ok u) :
    s.i < u.i ∧ u.i ≤ f.length := by
  by_cases hopen : c = 0x7B ∨ c = 0x5B
  · rw [valueCase_open hopen] at hok
    split_ifs at hok
    cases hok
    rw [show (s.started.opened c).i = s.started.i + 1 from rfl, started_i]
    exact ⟨Nat.lt_succ_self _, h.tail.1⟩
  · obtain ⟨hbrace, hbracket⟩ := not_or.mp hopen
    rcases valueCase_scalar h hbrace hbracket with ⟨rest, j, hread, hj, heq⟩ | ⟨-, e, heq⟩
    · rw [heq] at hok
      rw [valueDone_i hok]
      exact ⟨h.index_lt hj (length_readScalar_lt hread), hj.1⟩
    · rw [heq] at hok
      cases hok

/-- So does a key. -/
theorem objKey_lt (h : At f s.i (c :: t)) (hok : objKey f s c = .ok u) :
    s.i < u.i ∧ u.i ≤ f.length := by
  by_cases hquote : c = 0x22
  · subst hquote
    rcases objKey_cases h with ⟨key, rest, j, hread, -, hj, heq⟩ | ⟨-, e, heq⟩
    · rw [heq] at hok
      cases hok
      have hlt := length_readString_lt hread
      exact ⟨h.index_lt hj (by simp only [List.length_cons]; omega), hj.1⟩
    · rw [heq] at hok
      cases hok
  · rw [objKey, if_pos hquote] at hok
    cases hok

/-- So does a bracket that closes. -/
theorem close_lt (h : At f s.i (c :: t)) (hok : close f s = .ok u) :
    s.i < u.i ∧ u.i ≤ f.length := by
  rw [valueDone_i hok]
  exact ⟨Nat.lt_succ_self _, h.tail.1⟩

/-- Every case moves the index forward. -/
theorem dispatch_lt (h : At f s.i (c :: t)) (hok : dispatch f s c = .ok u) :
    s.i < u.i ∧ u.i ≤ f.length := by
  rw [dispatch] at hok
  split at hok
  · split_ifs at hok
    · exact close_lt h hok
    · exact objKey_lt h hok
  · exact objKey_lt h hok
  · split_ifs at hok
    cases hok
    exact ⟨Nat.lt_succ_self _, h.tail.1⟩
  · split_ifs at hok
    · exact close_lt h hok
    · exact valueCase_lt h hok
  · exact valueCase_lt h hok
  · rw [afterCase] at hok
    split_ifs at hok
    all_goals first
      | exact close_lt h hok
      | cases hok; exact ⟨Nat.lt_succ_self _, h.tail.1⟩

/-- A round at the next octet that is no blank. -/
theorem round_eq (h : At f s.i t) :
    round f s =
      match Json.skipWs t with
      | [] => .error ({ s with i := skipWs f s.i }.reject "truncated frame")
      | c :: _ =>
        if c < 0x20 then
          .error ({ s with i := skipWs f s.i }.reject "raw control byte outside a string")
        else dispatch f { s with i := skipWs f s.i } c := by
  rw [round]
  dsimp only
  rw [(at_skipWs h).getElem?]
  cases Json.skipWs t <;> rfl

/-- So does every round of the loop, which is why the fuel suffices. -/
theorem round_lt (hle : s.i ≤ f.length) (hok : round f s = .ok u) :
    s.i < u.i ∧ u.i ≤ f.length := by
  have h : At f s.i (f.drop s.i) := ⟨hle, rfl⟩
  have hskip := at_skipWs h
  rw [round_eq h] at hok
  cases ht : Json.skipWs (f.drop s.i) with
  | nil =>
    rw [ht] at hok
    cases hok
  | cons c t =>
    rw [ht] at hok hskip
    dsimp only at hok
    split_ifs at hok
    have hlt := dispatch_lt (s := { s with i := skipWs f s.i }) hskip hok
    have hmono : s.i ≤ skipWs f s.i := by
      have hs := h.length_eq
      have hw := hskip.length_eq
      have hless := Json.length_skipWs_le (f.drop s.i)
      rw [ht] at hless
      omega
    exact ⟨Nat.lt_of_le_of_lt hmono hlt.1, hlt.2⟩

/-- The loop, run to its end. -/
def finish (f : Bytes) (s : FrameScanner) : Except Halt FrameScanner :=
  loop f (f.length + 1 - s.i) s

/-- The bound of the loop does not matter when it is past the rest of the frame. -/
theorem loop_eq_finish {fuel : ℕ} (hle : s.i ≤ f.length) (hfuel : f.length < fuel + s.i) :
    loop f fuel s = finish f s := by
  have hboth : ∀ n m, ∀ s : FrameScanner, s.i ≤ f.length → f.length < n + s.i → f.length < m + s.i →
      loop f n s = loop f m s := by
    intro n
    induction n with
    | zero =>
      intro m s hle hn
      omega
    | succ n ih =>
      intro m s hle hn hm
      cases m with
      | zero => omega
      | succ m =>
        rw [loop, loop]
        split_ifs
        · rfl
        · cases hround : round f s with
          | error e => rfl
          | ok u =>
            obtain ⟨hlt, hle'⟩ := round_lt hle hround
            exact ih m u hle' (by omega) (by omega)
  exact hboth _ _ s hle hfuel (by omega)

/-- One round of what is left. -/
theorem finish_eq (hle : s.i ≤ f.length) (hdone : s.done = false) :
    finish f s = round f s >>= finish f := by
  obtain ⟨n, hn⟩ : ∃ n, f.length + 1 - s.i = n + 1 := ⟨f.length - s.i, by omega⟩
  rw [finish, hn, loop, hdone]
  rw [if_neg (by decide)]
  cases hround : round f s with
  | error e => rfl
  | ok u =>
    obtain ⟨hlt, hle'⟩ := round_lt hle hround
    exact loop_eq_finish hle' (by omega)

end FrameScanner

end MarketMaker
