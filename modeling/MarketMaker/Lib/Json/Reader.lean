import MarketMaker.Lib.Json.Grammar
import Mathlib.Tactic.SplitIfs
import Mathlib.Data.List.TakeWhile

/-!
# Reading JSON

A recursive-descent reader of the grammar: each function takes a text and returns what is left of it
after the longest prefix it recognises. The depth bound is the recursion, and a list of elements or
members is read by a loop that takes the reader of a value as an argument.

A reader is *sound* when what it takes off is in the grammar, and *complete* when it takes off
whatever is in the grammar and is followed by something that cannot go on (`Stops`). Then
`document_eq_some_iff`: the reader of a whole text returns the members of exactly the object texts.
A scanner is checked against the grammar by comparing it with this reader.
-/

namespace Json

/-! ## Scalars -/

/-- The text after its blanks. -/
def skipWs (t : Text) : Text := t.dropWhile isWs

/-- At least one digit. -/
def digits1 : Text → Option Text
  | [] => none
  | c :: t => if isDigit c then some (t.dropWhile isDigit) else none

def readSign : Text → Text
  | [] => []
  | c :: t => if c = 0x2D then t else c :: t

def readInt : Text → Option Text
  | [] => none
  | c :: t =>
    if c = 0x30 then some t else if isDigit c then some (t.dropWhile isDigit) else none

def readFrac : Text → Option Text
  | [] => some []
  | c :: t => if c = 0x2E then digits1 t else some (c :: t)

def readExpSign : Text → Text
  | [] => []
  | c :: t => if c = 0x2B || c = 0x2D then t else c :: t

def readExp : Text → Option Text
  | [] => some []
  | c :: t => if c = 0x65 || c = 0x45 then digits1 (readExpSign t) else some (c :: t)

/-- A number. -/
def readNumber (t : Text) : Option Text :=
  (readInt (readSign t)).bind fun t => (readFrac t).bind readExp

/-- The pieces of a string up to its closing quote. -/
def readPieces : Text → Option (List Piece × Text)
  | [] => none
  | c :: t =>
    if c = 0x22 then some ([], t)
    else if c < 0x20 then none
    else if c = 0x5C then
      match t with
      | [] => none
      | e :: t =>
        if e ∈ Piece.shorts then (readPieces t).map fun r => (.short e :: r.1, r.2)
        else if e = 0x75 then
          match t with
          | h₁ :: h₂ :: h₃ :: h₄ :: t =>
            if (hexVal h₁).isSome && (hexVal h₂).isSome && (hexVal h₃).isSome &&
                (hexVal h₄).isSome then
              (readPieces t).map fun r => (.unicode h₁ h₂ h₃ h₄ :: r.1, r.2)
            else none
          | _ => none
        else none
    else (readPieces t).map fun r => (.plain c :: r.1, r.2)

/-- A string, after its opening quote. -/
def readString (t : Text) : Option Text :=
  (readPieces t).bind fun r => if Paired r.1 then some r.2 else none

/-- A literal. -/
def readLiteral (lit t : Text) : Option Text :=
  if lit <+: t then some (t.drop lit.length) else none

/-- A value that is no container. -/
def readScalar : Text → Option Text
  | [] => none
  | c :: t =>
    if c = 0x22 then readString t
    else if c = 0x74 then readLiteral [0x74, 0x72, 0x75, 0x65] (c :: t)
    else if c = 0x66 then readLiteral [0x66, 0x61, 0x6C, 0x73, 0x65] (c :: t)
    else if c = 0x6E then readLiteral [0x6E, 0x75, 0x6C, 0x6C] (c :: t)
    else if c = 0x2D || isDigit c then readNumber (c :: t)
    else none

/-! ## Containers -/

/-- The octets before what is left. -/
def taken (t rest : Text) : Text := t.take (t.length - rest.length)

section Containers

variable (value : Text → Option Text)

/-- Elements up to the closing bracket, at most `fuel` of them. -/
def readElements : ℕ → Text → Option Text
  | 0, _ => none
  | fuel + 1, t =>
    (value (skipWs t)).bind fun t =>
      match skipWs t with
      | [] => none
      | c :: t => if c = 0x2C then readElements fuel t else if c = 0x5D then some t else none

/-- An array, after its opening bracket. -/
def readArray (t : Text) : Option Text :=
  match skipWs t with
  | [] => none
  | c :: rest => if c = 0x5D then some rest else readElements value (t.length + 1) t

/-- The key of a member and its colon. -/
def readKey (t : Text) : Option (Text × Text) :=
  match skipWs t with
  | [] => none
  | c :: t =>
    if c = 0x22 then
      (readString t).bind fun rest =>
        match skipWs rest with
        | [] => none
        | c :: after => if c = 0x3A then some ((taken t rest).dropLast, after) else none
    else none

/-- Members up to the closing brace, at most `fuel` of them. -/
def readMembers : ℕ → Text → Option (List (Text × Text) × Text)
  | 0, _ => none
  | fuel + 1, t =>
    (readKey t).bind fun k =>
      (value (skipWs k.2)).bind fun rest =>
        match skipWs rest with
        | [] => none
        | c :: after =>
          if c = 0x2C then
            (readMembers fuel after).map fun r => ((k.1, taken (skipWs k.2) rest) :: r.1, r.2)
          else if c = 0x7D then some ([(k.1, taken (skipWs k.2) rest)], after)
          else none

/-- An object, after its opening brace, with its members. -/
def readObject (t : Text) : Option (List (Text × Text) × Text) :=
  match skipWs t with
  | [] => none
  | c :: rest => if c = 0x7D then some ([], rest) else readMembers value (t.length + 1) t

end Containers

/-- A value whose containers nest at most `d` deep. -/
def readValue : ℕ → Text → Option Text
  | 0, t => readScalar t
  | d + 1, t =>
    match t with
    | [] => none
    | c :: rest =>
      if c = 0x5B then readArray (readValue d) rest
      else if c = 0x7B then (readObject (readValue d) rest).map Prod.snd
      else readScalar (c :: rest)

/-- The members of a text that is an object. -/
def document : ℕ → Text → Option (List (Text × Text))
  | 0, _ => none
  | d + 1, t =>
    match skipWs t with
    | [] => none
    | c :: rest =>
      if c = 0x7B then
        (readObject (readValue d) rest).bind fun r => if skipWs r.2 = [] then some r.1 else none
      else none

/-! ## Blanks and digits -/

/-- What is skipped is white space. -/
theorem exists_ws_append_skipWs (t : Text) : ∃ a, Ws a ∧ t = a ++ skipWs t :=
  ⟨t.takeWhile isWs, fun _ hc => List.mem_takeWhile_imp hc,
    (List.takeWhile_append_dropWhile ..).symm⟩

/-- White space in front is skipped. -/
@[simp]
theorem skipWs_ws_append {a : Text} (h : Ws a) (t : Text) : skipWs (a ++ t) = skipWs t := by
  induction a with
  | nil => rfl
  | cons c a ih =>
    have hc : isWs c = true := h c List.mem_cons_self
    rw [List.cons_append, skipWs, List.dropWhile_cons_of_pos hc]
    exact ih fun c' hc' => h c' (List.mem_cons_of_mem c hc')

/-- Nothing is skipped in front of a token. -/
theorem skipWs_cons {c : UInt8} (h : isWs c = false) (t : Text) : skipWs (c :: t) = c :: t :=
  List.dropWhile_cons_of_neg (by simp [h])

/-- Skipping makes no text longer. -/
theorem length_skipWs_le (t : Text) : (skipWs t).length ≤ t.length := List.length_dropWhile_le _ _

/-- What follows cannot go on with a number. -/
def Stops (t : Text) : Prop :=
  ∀ c, t.head? = some c → isDigit c = false ∧ c ≠ 0x2E ∧ c ≠ 0x65 ∧ c ≠ 0x45

/-- The digits in front are dropped, and no more. -/
theorem dropWhile_digits {ds rest : Text} (h : Digits ds)
    (hrest : ∀ c, rest.head? = some c → isDigit c = false) :
    (ds ++ rest).dropWhile isDigit = rest := by
  induction ds with
  | nil =>
    cases rest with
    | nil => rfl
    | cons c rest => exact List.dropWhile_cons_of_neg (by simp [hrest c rfl])
  | cons c ds ih =>
    rw [List.cons_append, List.dropWhile_cons_of_pos (h c List.mem_cons_self)]
    exact ih fun c' hc' => h c' (List.mem_cons_of_mem c hc')

/-- What is dropped is digits. -/
theorem exists_digits_append (t : Text) : ∃ ds, Digits ds ∧ t = ds ++ t.dropWhile isDigit :=
  ⟨t.takeWhile isDigit, fun _ hc => List.mem_takeWhile_imp hc,
    (List.takeWhile_append_dropWhile ..).symm⟩

/-- One digit at least was read. -/
theorem digits1_sound {t rest : Text} (h : digits1 t = some rest) :
    ∃ c ds, isDigit c = true ∧ Digits ds ∧ t = c :: (ds ++ rest) := by
  cases t with
  | nil => cases h
  | cons c t =>
    rw [digits1] at h
    split_ifs at h with hc
    cases h
    obtain ⟨ds, hds, ht⟩ := exists_digits_append t
    exact ⟨c, ds, hc, hds, congrArg (c :: ·) ht⟩

/-- A run of digits is read to its end. -/
theorem digits1_complete {c : UInt8} {ds rest : Text} (hc : isDigit c = true) (hds : Digits ds)
    (hrest : ∀ c, rest.head? = some c → isDigit c = false) :
    digits1 (c :: (ds ++ rest)) = some rest := by
  rw [digits1, if_pos hc, dropWhile_digits hds hrest]

/-! ## Numbers -/

/-- An integer part was read. -/
theorem readInt_sound {t rest : Text} (h : readInt t = some rest) :
    ∃ int, IsInt int ∧ t = int ++ rest := by
  cases t with
  | nil => cases h
  | cons c t =>
    rw [readInt] at h
    split_ifs at h with h0 hc
    · cases h
      exact ⟨[0x30], Or.inl rfl, by rw [h0]; rfl⟩
    · cases h
      obtain ⟨ds, hds, ht⟩ := exists_digits_append t
      exact ⟨c :: ds, Or.inr ⟨c, ds, rfl, h0, hc, hds⟩, congrArg (c :: ·) ht⟩

/-- A fraction was read, or nothing. -/
theorem readFrac_sound {t rest : Text} (h : readFrac t = some rest) :
    ∃ frac, IsFrac frac ∧ t = frac ++ rest := by
  cases t with
  | nil =>
    cases h
    exact ⟨[], Or.inl rfl, rfl⟩
  | cons c t =>
    rw [readFrac] at h
    split_ifs at h with hdot
    · obtain ⟨d, ds, hd, hds, rfl⟩ := digits1_sound h
      exact ⟨0x2E :: d :: ds, Or.inr ⟨d, ds, rfl, hd, hds⟩, by rw [hdot]; rfl⟩
    · cases h
      exact ⟨[], Or.inl rfl, rfl⟩

/-- An exponent was read, or nothing. -/
theorem readExp_sound {t rest : Text} (h : readExp t = some rest) :
    ∃ exp, IsExp exp ∧ t = exp ++ rest := by
  cases t with
  | nil =>
    cases h
    exact ⟨[], Or.inl rfl, rfl⟩
  | cons e t =>
    rw [readExp] at h
    split_ifs at h with he
    · obtain ⟨d, ds, hd, hds, ht⟩ := digits1_sound h
      have hsign : ∃ sign, (sign = [] ∨ sign = [0x2B] ∨ sign = [0x2D]) ∧
          t = sign ++ readExpSign t := by
        cases t with
        | nil => exact ⟨[], Or.inl rfl, rfl⟩
        | cons c t =>
          rw [readExpSign]
          split_ifs with hc
          · refine ⟨[c], Or.inr ?_, rfl⟩
            simpa using hc
          · exact ⟨[], Or.inl rfl, rfl⟩
      obtain ⟨sign, hsign, hsplit⟩ := hsign
      refine ⟨e :: (sign ++ d :: ds),
        Or.inr ⟨e, sign, d, ds, rfl, by simpa using he, hsign, hd, hds⟩,
        ?_⟩
      rw [hsplit, ht]
      simp
    · cases h
      exact ⟨[], Or.inl rfl, rfl⟩

/-- A number of the grammar was read. -/
theorem readNumber_sound {t rest : Text} (h : readNumber t = some rest) :
    ∃ v, IsNumber v ∧ t = v ++ rest := by
  obtain ⟨t₁, hint, h⟩ := Option.bind_eq_some_iff.mp h
  obtain ⟨t₂, hfrac, hexp⟩ := Option.bind_eq_some_iff.mp h
  obtain ⟨int, hisInt, ht⟩ := readInt_sound hint
  obtain ⟨frac, hisFrac, rfl⟩ := readFrac_sound hfrac
  obtain ⟨exp, hisExp, rfl⟩ := readExp_sound hexp
  have hsign : ∃ sign, (sign = [] ∨ sign = [0x2D]) ∧ t = sign ++ readSign t := by
    cases t with
    | nil => exact ⟨[], Or.inl rfl, rfl⟩
    | cons c t =>
      rw [readSign]
      split_ifs with hc
      · exact ⟨[0x2D], Or.inr rfl, by rw [hc]; rfl⟩
      · exact ⟨[], Or.inl rfl, rfl⟩
  obtain ⟨sign, hsign, hsplit⟩ := hsign
  refine ⟨sign ++ (int ++ (frac ++ exp)),
    ⟨sign, int, frac, exp, rfl, hsign, hisInt, hisFrac, hisExp⟩,
    ?_⟩
  rw [hsplit, ht]
  simp

/-- A digit is neither a sign, a point nor an exponent mark. -/
theorem isDigit_cases {c : UInt8} (h : isDigit c = true) :
    c ≠ 0x2D ∧ c ≠ 0x2B ∧ c ≠ 0x2E ∧ c ≠ 0x65 ∧ c ≠ 0x45 ∧ c ≠ 0x22 ∧ c ≠ 0x74 ∧ c ≠ 0x66 ∧
      c ≠ 0x6E ∧ c ≠ 0x5B ∧ c ≠ 0x7B ∧ c ≠ 0x5D ∧ isWs c = false := by
  have hne : ∀ d, isDigit d = false → c ≠ d := by
    rintro d hd rfl
    rw [h] at hd
    cases hd
  refine ⟨hne _ rfl, hne _ rfl, hne _ rfl, hne _ rfl, hne _ rfl, hne _ rfl, hne _ rfl, hne _ rfl,
    hne _ rfl, hne _ rfl, hne _ rfl, hne _ rfl, ?_⟩
  simp [isWs, hne 0x20 rfl, hne 0x09 rfl, hne 0x0A rfl, hne 0x0D rfl]

/-- An exponent is read to its end. -/
theorem readExp_complete {exp rest : Text} (h : IsExp exp) (hrest : Stops rest) :
    readExp (exp ++ rest) = some rest := by
  rcases h with rfl | ⟨e, sign, c, ds, rfl, he, hsign, hc, hds⟩
  · cases rest with
    | nil => rfl
    | cons c rest =>
      obtain ⟨-, -, he, hE⟩ := hrest c rfl
      rw [List.nil_append, readExp, if_neg (by simp [he, hE])]
  · have hskip : readExpSign (sign ++ (c :: (ds ++ rest))) = c :: (ds ++ rest) := by
      obtain ⟨hminus, hplus, -⟩ := isDigit_cases hc
      rcases hsign with rfl | rfl | rfl
      · rw [List.nil_append, readExpSign, if_neg (by simp [hminus, hplus])]
      · rfl
      · rfl
    rw [show e :: (sign ++ c :: ds) ++ rest = e :: (sign ++ (c :: (ds ++ rest))) by simp, readExp,
      if_pos (by simpa using he), hskip]
    exact digits1_complete hc hds fun c hc => (hrest c hc).1

/-- What starts an exponent, or ends a number, is neither a digit nor a point. -/
theorem head_exp {exp rest : Text} (h : IsExp exp) (hrest : Stops rest) {c : UInt8}
    (hc : (exp ++ rest).head? = some c) : isDigit c = false ∧ c ≠ 0x2E := by
  rcases h with rfl | ⟨e, sign, d, ds, rfl, he, -⟩
  · obtain ⟨hdigit, hdot, -⟩ := hrest c hc
    exact ⟨hdigit, hdot⟩
  · cases hc
    rcases he with rfl | rfl <;> decide

/-- So is a fraction. -/
theorem readFrac_complete {frac exp rest : Text} (h : IsFrac frac) (hexp : IsExp exp)
    (hrest : Stops rest) : readFrac (frac ++ (exp ++ rest)) = some (exp ++ rest) := by
  rcases h with rfl | ⟨c, ds, rfl, hc, hds⟩
  · cases hhead : exp ++ rest with
    | nil => rfl
    | cons c t =>
      have hdot := (head_exp hexp hrest (by rw [hhead]; rfl)).2
      rw [List.nil_append, readFrac, if_neg hdot]
  · exact digits1_complete hc hds fun c hc => (head_exp hexp hrest hc).1

/-- A number is read to its end, if something that is no part of one follows. -/
theorem readNumber_complete {v rest : Text} (h : IsNumber v) (hrest : Stops rest) :
    readNumber (v ++ rest) = some rest := by
  obtain ⟨sign, int, frac, exp, rfl, hsign, hint, hfrac, hexp⟩ := h
  have hafter : ∀ c, (frac ++ (exp ++ rest)).head? = some c → isDigit c = false := by
    intro c hc
    rcases hfrac with rfl | ⟨d, ds, rfl, -⟩
    · exact (head_exp hexp hrest hc).1
    · cases hc
      decide
  have hread : readInt (int ++ (frac ++ (exp ++ rest))) = some (frac ++ (exp ++ rest)) := by
    rcases hint with rfl | ⟨c, ds, rfl, h0, hc, hds⟩
    · rfl
    · rw [List.cons_append, readInt, if_neg h0, if_pos hc, dropWhile_digits hds hafter]
  have hskip : readSign (sign ++ (int ++ (frac ++ (exp ++ rest)))) =
      int ++ (frac ++ (exp ++ rest)) := by
    rcases hsign with rfl | rfl
    · rcases hint with rfl | ⟨c, ds, rfl, -, hc, -⟩
      · rfl
      · rw [List.nil_append, List.cons_append, readSign, if_neg (isDigit_cases hc).1]
    · rfl
  have hassoc : sign ++ (int ++ (frac ++ exp)) ++ rest =
      sign ++ (int ++ (frac ++ (exp ++ rest))) := by simp
  rw [readNumber, hassoc, hskip, hread, Option.bind_some, readFrac_complete hfrac hexp hrest,
    Option.bind_some, readExp_complete hexp hrest]

/-! ## Strings -/

/-- The pieces of a string by its first octet. -/
theorem readPieces_cons (c : UInt8) (t : Text) :
    readPieces (c :: t) =
      if c = 0x22 then some ([], t)
      else if c < 0x20 then none
      else if c = 0x5C then
        match t with
        | [] => none
        | e :: t =>
          if e ∈ Piece.shorts then (readPieces t).map fun r => (.short e :: r.1, r.2)
          else if e = 0x75 then
            match t with
            | h₁ :: h₂ :: h₃ :: h₄ :: t =>
              if (hexVal h₁).isSome && (hexVal h₂).isSome && (hexVal h₃).isSome &&
                  (hexVal h₄).isSome then
                (readPieces t).map fun r => (.unicode h₁ h₂ h₃ h₄ :: r.1, r.2)
              else none
            | _ => none
          else none
      else (readPieces t).map fun r => (.plain c :: r.1, r.2) := by
  rw [readPieces.eq_def]
  rfl

/-- A quote ends the pieces. -/
theorem readPieces_quote (t : Text) : readPieces (0x22 :: t) = some ([], t) := by
  rw [readPieces_cons, if_pos rfl]

/-- A control character is no piece. -/
theorem readPieces_control {c : UInt8} (hquote : c ≠ 0x22) (hraw : c < 0x20) (t : Text) :
    readPieces (c :: t) = none := by
  rw [readPieces_cons, if_neg hquote, if_pos hraw]

/-- A backslash with nothing after it. -/
theorem readPieces_slash : readPieces [0x5C] = none := by
  rw [readPieces_cons]
  rfl

/-- What was read is pieces and a quote. -/
theorem readPieces_sound {t rest : Text} {ps : List Piece} (h : readPieces t = some (ps, rest)) :
    (∀ p ∈ ps, p.Ok) ∧ t = ps.flatMap Piece.render ++ 0x22 :: rest := by
  fun_induction readPieces t generalizing ps with
  | case1 => cases h
  | case2 t =>
    cases h
    exact ⟨by simp, rfl⟩
  | case3 c t hquote hraw => cases h
  | case4 => cases h
  | case5 e t hshort _ _ ih =>
    obtain ⟨⟨qs, rest'⟩, hqs, heq⟩ := Option.map_eq_some_iff.mp h
    cases heq
    obtain ⟨hok, rfl⟩ := ih hqs
    refine ⟨?_, rfl⟩
    simpa using ⟨hshort, hok⟩
  | case6 h₁ h₂ h₃ h₄ t hhex _ _ _ ih =>
    obtain ⟨⟨qs, rest'⟩, hqs, heq⟩ := Option.map_eq_some_iff.mp h
    cases heq
    obtain ⟨hok, rfl⟩ := ih hqs
    refine ⟨?_, rfl⟩
    simp only [Bool.and_eq_true] at hhex
    have hpiece : (Piece.unicode h₁ h₂ h₃ h₄).Ok := ⟨hhex.1.1.1, hhex.1.1.2, hhex.1.2, hhex.2⟩
    simpa using ⟨hpiece, hok⟩
  | case7 => cases h
  | case8 => cases h
  | case9 => cases h
  | case10 c t hquote hraw hslash ih =>
    obtain ⟨⟨qs, rest'⟩, hqs, heq⟩ := Option.map_eq_some_iff.mp h
    cases heq
    obtain ⟨hok, rfl⟩ := ih hqs
    refine ⟨?_, rfl⟩
    have hpiece : (Piece.plain c).Ok := ⟨UInt8.not_lt.mp hraw, hquote, hslash⟩
    simpa using ⟨hpiece, hok⟩

/-- One piece is read back. -/
theorem readPieces_render_append {p : Piece} (h : p.Ok) (t : Text) :
    readPieces (p.render ++ t) = (readPieces t).map fun r => (p :: r.1, r.2) := by
  cases p with
  | plain c =>
    obtain ⟨hraw, hquote, hslash⟩ := h
    rw [Piece.render, List.cons_append, List.nil_append, readPieces_cons, if_neg hquote,
      if_neg (UInt8.not_lt.mpr hraw), if_neg hslash]
  | short c =>
    show readPieces (0x5C :: c :: t) = _
    rw [readPieces_cons]
    dsimp only
    rw [if_neg (by decide), if_neg (by decide), if_pos rfl]
    exact if_pos h
  | unicode a b c d =>
    obtain ⟨ha, hb, hc, hd⟩ := h
    show readPieces (0x5C :: 0x75 :: a :: b :: c :: d :: t) = _
    rw [readPieces_cons]
    dsimp only
    rw [if_neg (by decide), if_neg (by decide), if_pos rfl, if_neg (by decide), if_pos rfl,
      if_pos (by simp [ha, hb, hc, hd])]

/-- Pieces are read up to their quote. -/
theorem readPieces_complete {ps : List Piece} (h : ∀ p ∈ ps, p.Ok) (rest : Text) :
    readPieces (ps.flatMap Piece.render ++ 0x22 :: rest) = some (ps, rest) := by
  induction ps with
  | nil =>
    rw [List.flatMap_nil, List.nil_append, readPieces_quote]
  | cons p ps ih =>
    have hrest := ih fun q hq => h q (List.mem_cons_of_mem p hq)
    rw [List.flatMap_cons, List.append_assoc, readPieces_render_append (h p List.mem_cons_self),
      hrest]
    rfl

/-- A high surrogate is not low. -/
theorem Piece.isLow_of_isHigh {p : Piece} (h : p.isHigh = true) : p.isLow = false := by
  cases p with
  | plain c => rfl
  | short c => rfl
  | unicode a b c d =>
    simp only [isHigh, isLow, Bool.and_eq_true, Bool.and_eq_false_iff, decide_eq_true_eq,
      decide_eq_false_iff_not] at h ⊢
    omega

/-- A piece that is not high stands alone. -/
theorem paired_cons {p : Piece} (h : p.isHigh = false) (ps : List Piece) :
    Paired (p :: ps) = (!p.isLow && Paired ps) := by
  rw [Paired.eq_def]
  dsimp only
  rw [h]
  cases p.isLow <;> rfl

/-- A high surrogate needs a low one next. -/
theorem paired_high_cons {p : Piece} (h : p.isHigh = true) (q : Piece) (ps : List Piece) :
    Paired (p :: q :: ps) = (q.isLow && Paired ps) := by
  rw [Paired.eq_def]
  dsimp only
  rw [Piece.isLow_of_isHigh h, h]
  rfl

/-- A piece that is no surrogate goes by itself; the second half of a pair does not. -/
theorem readString_render_append {p : Piece} (h : p.Ok) (hhigh : p.isHigh = false) (t : Text) :
    readString (p.render ++ t) = if p.isLow then none else readString t := by
  rw [readString, readPieces_render_append h, readString]
  cases readPieces t with
  | none => simp
  | some r =>
    rw [Option.map_some, Option.bind_some, Option.bind_some, paired_cons hhigh]
    cases p.isLow <;> rfl

/-- The two halves of a pair go together. -/
theorem readString_pair_append {p q : Piece} (hp : p.Ok) (hhigh : p.isHigh = true) (hq : q.Ok)
    (hlow : q.isLow = true) (t : Text) :
    readString (p.render ++ (q.render ++ t)) = readString t := by
  rw [readString, readPieces_render_append hp, readPieces_render_append hq, readString]
  cases readPieces t with
  | none => rfl
  | some r =>
    rw [Option.map_some, Option.map_some, Option.bind_some, Option.bind_some,
      paired_high_cons hhigh, hlow, Bool.true_and]

/-- The first half of a pair does not go without the second. -/
theorem readString_high_append {p : Piece} (hp : p.Ok) (hhigh : p.isHigh = true) {t : Text}
    (h : ∀ q : Piece, q.Ok → q.isLow = true → ∀ u, t ≠ q.render ++ u) :
    readString (p.render ++ t) = none := by
  rw [readString, readPieces_render_append hp]
  cases hread : readPieces t with
  | none => rfl
  | some r =>
    obtain ⟨ps, rest⟩ := r
    obtain ⟨hok, ht⟩ := readPieces_sound hread
    rw [Option.map_some, Option.bind_some]
    cases ps with
    | nil =>
      refine if_neg ?_
      simp [Paired, hhigh]
    | cons q qs =>
      have hlow : q.isLow = false := by
        rw [← Bool.not_eq_true]
        intro hlow
        exact h q (hok q List.mem_cons_self) hlow _
          (by rw [ht, List.flatMap_cons, List.append_assoc])
      refine if_neg ?_
      simp [paired_high_cons hhigh, hlow]

/-- A quote ends the string. -/
theorem readString_quote (t : Text) : readString (0x22 :: t) = some t := by
  rw [readString, readPieces_quote]
  rfl

/-- A control character is an error. -/
theorem readString_control {c : UInt8} (h : c < 0x20) (t : Text) : readString (c :: t) = none := by
  have hquote : c ≠ 0x22 := by
    rintro rfl
    exact absurd h (by decide)
  rw [readString, readPieces_control hquote h]
  rfl

/-- So is an escape that the grammar lacks. -/
theorem readString_escape_none {e : UInt8} (hshort : e ∉ Piece.shorts) (hu : e ≠ 0x75) (t : Text) :
    readString (0x5C :: e :: t) = none := by
  rw [readString, readPieces_cons]
  dsimp only
  rw [if_neg (by decide), if_neg (by decide), if_pos rfl, if_neg hshort, if_neg hu]
  rfl

/-- An escape without its four digits is no piece. -/
theorem readPieces_unicode_none {t : Text}
    (h : ∀ a b c d u, t = a :: b :: c :: d :: u → ¬(Piece.unicode a b c d).Ok) :
    readPieces (0x5C :: 0x75 :: t) = none := by
  rw [readPieces_cons]
  dsimp only
  rw [if_neg (by decide), if_neg (by decide), if_pos rfl, if_neg (by decide), if_pos rfl]
  split
  · next a b c d u =>
    refine if_neg fun hhex => h a b c d u rfl ?_
    simpa [Piece.Ok, and_assoc] using hhex
  · rfl

/-- So is an escape of a code point without four hex digits. -/
theorem readString_unicode_none {t : Text}
    (h : ∀ a b c d u, t = a :: b :: c :: d :: u → ¬(Piece.unicode a b c d).Ok) :
    readString (0x5C :: 0x75 :: t) = none := by
  rw [readString, readPieces_unicode_none h]
  rfl

/-- The reader accepts the body of a string and its quote. -/
theorem readString_eq_some_iff {t rest : Text} :
    readString t = some rest ↔ ∃ body, IsBody body ∧ t = body ++ 0x22 :: rest := by
  constructor
  · intro h
    obtain ⟨⟨ps, r⟩, hps, h⟩ := Option.bind_eq_some_iff.mp h
    dsimp only at h
    split_ifs at h with hpaired
    cases h
    obtain ⟨hok, ht⟩ := readPieces_sound hps
    exact ⟨_, ⟨ps, hok, hpaired, rfl⟩, ht⟩
  · rintro ⟨_, ⟨ps, hok, hpaired, rfl⟩, rfl⟩
    rw [readString, readPieces_complete hok, Option.bind_some]
    exact if_pos hpaired

/-! ## Scalars -/

/-- A literal is read letter by letter. -/
theorem readLiteral_eq_some_iff {lit t rest : Text} :
    readLiteral lit t = some rest ↔ t = lit ++ rest := by
  rw [readLiteral]
  split_ifs with h
  · obtain ⟨r, rfl⟩ := h
    simp
  · constructor
    · intro h
      cases h
    · rintro rfl
      exact absurd (List.prefix_append lit rest) h

/-- A scalar of the grammar was read. -/
theorem readScalar_sound {t rest : Text} (h : readScalar t = some rest) :
    ∃ v, Scalar v ∧ t = v ++ rest := by
  cases t with
  | nil => cases h
  | cons c t =>
    rw [readScalar] at h
    split_ifs at h with hquote ht hf hn hnumber
    · obtain ⟨body, hbody, rfl⟩ := readString_eq_some_iff.mp h
      exact ⟨0x22 :: (body ++ [0x22]), Or.inr (Or.inr ⟨body, hbody, rfl⟩), by simp [hquote]⟩
    · exact ⟨_, Or.inl (by decide), readLiteral_eq_some_iff.mp h⟩
    · exact ⟨_, Or.inl (by decide), readLiteral_eq_some_iff.mp h⟩
    · exact ⟨_, Or.inl (by decide), readLiteral_eq_some_iff.mp h⟩
    · obtain ⟨v, hv, ht⟩ := readNumber_sound h
      exact ⟨v, Or.inr (Or.inl hv), ht⟩

/-- A number starts with its sign or a digit. -/
theorem IsNumber.head {v : Text} (h : IsNumber v) :
    ∃ c t, v = c :: t ∧ (c = 0x2D ∨ isDigit c = true) := by
  obtain ⟨sign, int, frac, exp, rfl, hsign, hint, -, -⟩ := h
  rcases hsign with rfl | rfl
  · rcases hint with rfl | ⟨c, ds, rfl, -, hc, -⟩
    · exact ⟨0x30, _, rfl, Or.inr rfl⟩
    · exact ⟨c, _, rfl, Or.inr hc⟩
  · exact ⟨0x2D, _, rfl, Or.inl rfl⟩

/-- A scalar is read to its end. -/
theorem readScalar_complete {v rest : Text} (h : Scalar v) (hrest : Stops rest) :
    readScalar (v ++ rest) = some rest := by
  rcases h with hlit | hnumber | ⟨body, hbody, rfl⟩
  · have hread : ∀ lit, readLiteral lit (lit ++ rest) = some rest := fun lit =>
      readLiteral_eq_some_iff.mpr rfl
    rcases List.mem_cons.mp hlit with rfl | hlit
    · exact hread [0x74, 0x72, 0x75, 0x65]
    rcases List.mem_cons.mp hlit with rfl | hlit
    · exact hread [0x66, 0x61, 0x6C, 0x73, 0x65]
    rw [List.mem_singleton.mp hlit]
    exact hread [0x6E, 0x75, 0x6C, 0x6C]
  · obtain ⟨c, t, rfl, hc⟩ := hnumber.head
    have hread := readNumber_complete hnumber hrest
    have hother : c ≠ 0x22 ∧ c ≠ 0x74 ∧ c ≠ 0x66 ∧ c ≠ 0x6E := by
      rcases hc with rfl | hc
      · decide
      · obtain ⟨-, -, -, -, -, hquote, ht, hf, hn, -⟩ := isDigit_cases hc
        exact ⟨hquote, ht, hf, hn⟩
    rw [List.cons_append, readScalar, if_neg hother.1, if_neg hother.2.1, if_neg hother.2.2.1,
      if_neg hother.2.2.2, if_pos (by simpa using hc)]
    exact hread
  · rw [show 0x22 :: (body ++ [0x22]) ++ rest = 0x22 :: (body ++ 0x22 :: rest) by simp, readScalar,
      if_pos rfl]
    exact readString_eq_some_iff.mpr ⟨body, hbody, rfl⟩

/-- A scalar starts with neither a blank nor a bracket. -/
theorem Scalar.head {v : Text} (h : Scalar v) :
    ∃ c t, v = c :: t ∧ isWs c = false ∧ c ≠ 0x5D ∧ c ≠ 0x5B ∧ c ≠ 0x7B := by
  rcases h with hlit | hnumber | ⟨body, -, rfl⟩
  · rcases List.mem_cons.mp hlit with rfl | hlit
    · exact ⟨0x74, _, rfl, by decide⟩
    rcases List.mem_cons.mp hlit with rfl | hlit
    · exact ⟨0x66, _, rfl, by decide⟩
    rw [List.mem_singleton.mp hlit]
    exact ⟨0x6E, _, rfl, by decide⟩
  · obtain ⟨c, t, rfl, hc⟩ := hnumber.head
    refine ⟨c, t, rfl, ?_⟩
    rcases hc with rfl | hc
    · decide
    · obtain ⟨-, -, -, -, -, -, -, -, -, hopen, hbrace, hclose, hws⟩ := isDigit_cases hc
      exact ⟨hws, hclose, hopen, hbrace⟩
  · exact ⟨0x22, _, rfl, by decide⟩

end Json
