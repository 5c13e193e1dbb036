import MarketMaker.Client.Tokens

/-!
# The scan of the client against the reader

`_Scan` walks a frame as the reader of the grammar does, with the depth counted up instead of down.
After a number that goes on wrongly it may be one token behind the reader (`Dead`), so a value
agrees with the reader up to that (`Agrees`), and a container, which always reads a token after a
value, agrees with it outright. The fast path walks flat members only, and what it returns is the
object text it has walked.
-/

namespace MarketMaker

namespace Client

open Cursor (At)
open Json (Text)

variable {decodeError : Bytes → Bytes} {data : Bytes} {pos depth d n : ℕ} {c : UInt8}
  {t u rest : Text} {tok : Token}

/-! ## Punctuation -/

theorem Lexed.eq_cons (h : Lexed data u tok rest) (hc : tok.isPunct c = true) :
    u = c :: rest := by
  rw [Token.isPunct, Bool.and_eq_true, decide_eq_true_eq, decide_eq_true_eq] at hc
  rw [h.split, hc.2]
  rfl

theorem Lexed.isPunct_iff (h : Lexed data u tok rest) (hc : c ∈ puncts) :
    tok.isPunct c = true ↔ u.head? = some c := by
  constructor
  · intro hpunct
    rw [h.eq_cons hpunct]
    rfl
  · intro hu
    have hkind : tok.kind = .punct := by
      by_contra hne
      exact (h.scalar hne).2 c hc hu
    obtain ⟨d, -, htext⟩ := h.punct hkind
    rw [h.split, htext] at hu
    cases hu
    rw [Token.isPunct, Bool.and_eq_true, decide_eq_true_eq, decide_eq_true_eq]
    exact ⟨hkind, htext⟩

/-- No token starts where a number has gone on wrongly. -/
theorem token_dead (h : At data pos t) (hdead : Dead t) :
    ∃ e, token data pos = .error (.valueError e) := by
  obtain ⟨c, u, rfl, hc⟩ := hdead
  have hskip : Json.skipWs (c :: u) = c :: u := by
    rcases hc with rfl | rfl | rfl <;> rfl
  refine token_of_noMatch h ?_
  rw [hskip, match?_tokenRe]
  rcases hc with rfl | rfl | rfl <;> rfl

/-- The container closes, goes on, or the scan raises. -/
theorem closed_cases (closer : UInt8) (hcloser : closer ∈ puncts) (hne : closer ≠ 0x2C)
    (h : At data pos t) :
    (∃ rest p, Json.skipWs t = closer :: rest ∧ At data p rest ∧
      closed data closer pos = .ok (true, p)) ∨
    (∃ rest p, Json.skipWs t = 0x2C :: rest ∧ At data p rest ∧
      closed data closer pos = .ok (false, p)) ∨
    (∃ e, closed data closer pos = .error (.valueError e)) ∧
      ∀ c rest, Json.skipWs t = c :: rest → c ≠ 0x2C ∧ c ≠ closer := by
  have hcomma : (0x2C : UInt8) ∈ puncts := by decide
  rw [closed]
  rcases token_cases h with ⟨tok, rest, htok, hlexed⟩ | ⟨⟨e, htok⟩, hnone⟩
  · rw [htok]
    dsimp only [bind, Except.bind, pure, Except.pure]
    by_cases hclose : tok.isPunct closer = true
    · rw [if_pos hclose]
      exact Or.inl ⟨rest, tok.pos, hlexed.eq_cons hclose, hlexed.pos, rfl⟩
    rw [if_neg hclose]
    by_cases hsep : tok.isPunct 0x2C = true
    · rw [if_pos hsep]
      exact Or.inr (Or.inl ⟨rest, tok.pos, hlexed.eq_cons hsep, hlexed.pos, rfl⟩)
    · rw [if_neg hsep]
      refine Or.inr (Or.inr ⟨⟨_, rfl⟩, fun c rest' hu => ⟨?_, ?_⟩⟩)
      · rintro rfl
        exact hsep ((hlexed.isPunct_iff hcomma).mpr (by rw [hu]; rfl))
      · rintro rfl
        exact hclose ((hlexed.isPunct_iff hcloser).mpr (by rw [hu]; rfl))
  · rw [htok]
    refine Or.inr (Or.inr ⟨⟨e, rfl⟩, fun c rest hu => ⟨?_, ?_⟩⟩)
    · rintro rfl
      exact hnone.punct _ hcomma (by rw [hu]; rfl)
    · rintro rfl
      exact hnone.punct _ hcloser (by rw [hu]; rfl)

theorem closed_dead (closer : UInt8) (h : At data pos t) (hdead : Dead t) :
    ∃ e, closed data closer pos = .error (.valueError e) := by
  obtain ⟨e, he⟩ := token_dead h hdead
  refine ⟨e, ?_⟩
  rw [closed, he]
  rfl

/-- A punctuation is there, or the scan raises. -/
theorem expect_cases (hc : c ∈ puncts) (h : At data pos t) :
    (∃ rest p, Json.skipWs t = c :: rest ∧ At data p rest ∧ expect data c pos = .ok p) ∨
      (∃ e, expect data c pos = .error (.valueError e)) ∧ (Json.skipWs t).head? ≠ some c := by
  rw [expect]
  rcases token_cases h with ⟨tok, rest, htok, hlexed⟩ | ⟨⟨e, htok⟩, hnone⟩
  · rw [htok]
    dsimp only [bind, Except.bind, pure, Except.pure]
    cases hpunct : tok.isPunct c with
    | true => exact Or.inl ⟨rest, tok.pos, hlexed.eq_cons hpunct, hlexed.pos, rfl⟩
    | false =>
      refine Or.inr ⟨⟨_, rfl⟩, fun hhead => ?_⟩
      rw [(hlexed.isPunct_iff hc).mpr hhead] at hpunct
      cases hpunct
  · rw [htok]
    exact Or.inr ⟨⟨e, rfl⟩, hnone.punct c hc⟩

/-! ## Values -/

/-- The scan ends a value where the reader does; where the reader fails it raises, or it stops where
no token starts. -/
def Agrees (data : Bytes) (res : Except Raise ℕ) : Option Text → Prop
  | some rest => ∃ p, res = .ok p ∧ At data p rest
  | none => (∃ e, res = .error (.valueError e)) ∨ ∃ p rest, res = .ok p ∧ At data p rest ∧ Dead rest

/-- A value at a depth at which `d` more containers may be opened agrees with the reader. -/
def ValueAgrees (data : Bytes) (d : ℕ) (value : Token → ℕ → Except Raise ℕ) : Prop :=
  ∀ tok u rest depth, Lexed data u tok rest → depth + d = MAX_NESTING_DEPTH + 1 →
    Agrees data (value tok depth) (Json.readValue d u)

/-- Without a token there is no value. -/
theorem NoToken.readValue (h : NoToken u) (d : ℕ) : Json.readValue d u = none := by
  cases d with
  | zero => exact h.scalar
  | succ d =>
    cases u with
    | nil => rfl
    | cons c u =>
      have hbracket : c ≠ 0x5B := by
        rintro rfl
        exact h.punct 0x5B (by decide) rfl
      have hbrace : c ≠ 0x7B := by
        rintro rfl
        exact h.punct 0x7B (by decide) rfl
      rw [Json.readValue, if_neg hbracket, if_neg hbrace]
      exact h.scalar

/-- The first token of a value, and the rest of it. -/
theorem value_cases {value : Token → ℕ → Except Raise ℕ} (hvalue : ValueAgrees data d value)
    (hdepth : depth + d = MAX_NESTING_DEPTH + 1) (h : At data pos t) :
    (∃ tok p rest, token data pos = .ok tok ∧ value tok depth = .ok p ∧
      At data tok.start (Json.skipWs t) ∧ At data p rest ∧
      (Json.readValue d (Json.skipWs t) = some rest ∨
        Json.readValue d (Json.skipWs t) = none ∧ Dead rest)) ∨
    Json.readValue d (Json.skipWs t) = none ∧
      ∃ e, (token data pos >>= fun tok => value tok depth) = .error (.valueError e) := by
  rcases token_cases h with ⟨tok, rest, htok, hlexed⟩ | ⟨⟨e, htok⟩, hnone⟩
  · have hagrees := hvalue tok _ rest depth hlexed hdepth
    rw [htok]
    cases hread : Json.readValue d (Json.skipWs t) with
    | some t₁ =>
      rw [hread] at hagrees
      obtain ⟨p, hp, hat⟩ := hagrees
      exact Or.inl ⟨tok, p, t₁, rfl, hp, hlexed.start, hat, Or.inl rfl⟩
    | none =>
      rw [hread] at hagrees
      rcases hagrees with ⟨e, he⟩ | ⟨p, t₁, hp, hat, hdead⟩
      · exact Or.inr ⟨rfl, e, he⟩
      · exact Or.inl ⟨tok, p, t₁, rfl, hp, hlexed.start, hat, Or.inr ⟨rfl, hdead⟩⟩
  · rw [htok]
    exact Or.inr ⟨hnone.readValue d, e, rfl⟩

/-! ## Containers -/

section Containers

variable {value : Token → ℕ → Except Raise ℕ}

theorem readElements_none {m : ℕ} (h : Json.readValue d (Json.skipWs t) = none) :
    Json.readElements (Json.readValue d) m t = none := by
  cases m with
  | zero => rfl
  | succ m =>
    rw [Json.readElements, h]
    rfl

/-- The elements from a token on. -/
theorem agrees_elementLoop (hvalue : ValueAgrees data d value)
    (hdepth : depth + 1 + d = MAX_NESTING_DEPTH + 1) {m : ℕ}
    (hlexed : Lexed data (Json.skipWs t) tok rest) (hn : t.length < n) (hm : t.length < m) :
    Agrees data (elementLoop data value depth n tok)
      (Json.readElements (Json.readValue d) m t) := by
  induction n generalizing m t tok rest with
  | zero => exact absurd hn (Nat.not_lt_zero _)
  | succ n ih =>
    obtain ⟨m, rfl⟩ : ∃ m', m = m' + 1 := ⟨m - 1, by omega⟩
    have hagrees := hvalue tok _ rest (depth + 1) hlexed hdepth
    rw [elementLoop, Json.readElements]
    cases hread : Json.readValue d (Json.skipWs t) with
    | none =>
      rw [hread] at hagrees
      rcases hagrees with ⟨e, he⟩ | ⟨p, t₁, hp, hat, hdead⟩
      · rw [he]
        exact Or.inl ⟨e, rfl⟩
      · obtain ⟨e, he⟩ := closed_dead 0x5D hat hdead
        rw [hp]
        dsimp only [bind, Except.bind]
        rw [he]
        exact Or.inl ⟨e, rfl⟩
    | some t₁ =>
      rw [hread] at hagrees
      obtain ⟨p, hp, hat⟩ := hagrees
      rw [hp, Option.bind_some]
      dsimp only [bind, Except.bind]
      rcases closed_cases 0x5D (by decide) (by decide) hat with
        ⟨after, q, hskip, hq, hclosed⟩ | ⟨after, q, hskip, hq, hclosed⟩ | ⟨⟨e, hclosed⟩, hne⟩
      · rw [hclosed, hskip]
        exact ⟨q, rfl, hq⟩
      · have hless := Json.length_after_comma hread hskip
        rw [hclosed, hskip]
        dsimp only
        rw [if_pos rfl, if_neg (by decide)]
        rcases token_cases hq with ⟨tok', rest', htok, hlexed'⟩ | ⟨⟨e, htok⟩, hnone⟩
        · rw [htok]
          exact ih hlexed' (by omega) (by omega)
        · rw [htok, readElements_none (hnone.readValue d)]
          exact Or.inl ⟨e, rfl⟩
      · rw [hclosed]
        cases hskip : Json.skipWs t₁ with
        | nil => exact Or.inl ⟨e, rfl⟩
        | cons c after =>
          obtain ⟨hcomma, hclose⟩ := hne c after hskip
          dsimp only
          rw [if_neg hcomma, if_neg hclose]
          exact Or.inl ⟨e, rfl⟩

theorem agrees_elements (hvalue : ValueAgrees data d value)
    (hdepth : depth + 1 + d = MAX_NESTING_DEPTH + 1) (h : At data pos t) :
    Agrees data (elements data value depth pos) (Json.readArray (Json.readValue d) t) := by
  have henter : enter depth = .ok () := if_neg (by omega)
  have hlength : t.length < data.length + 1 := by
    have hat := h.length_eq
    omega
  rw [elements, henter, Json.readArray]
  dsimp only [bind, Except.bind, pure, Except.pure]
  rcases token_cases h with ⟨tok, rest, htok, hlexed⟩ | ⟨⟨e, htok⟩, hnone⟩
  · have hloop := agrees_elementLoop hvalue hdepth hlexed hlength (Nat.lt_succ_self _)
    rw [htok]
    dsimp only
    cases hpunct : tok.isPunct 0x5D with
    | true =>
      rw [hlexed.eq_cons hpunct]
      exact ⟨tok.pos, rfl, hlexed.pos⟩
    | false =>
      rw [if_neg (by decide)]
      cases hskip : Json.skipWs t with
      | nil =>
        rw [readElements_none (by rw [hskip]; cases d <;> rfl)] at hloop
        exact hloop
      | cons c after =>
        have hclose : c ≠ 0x5D := by
          rintro rfl
          rw [(hlexed.isPunct_iff (by decide)).mpr (by rw [hskip]; rfl)] at hpunct
          cases hpunct
        dsimp only
        rw [if_neg hclose]
        exact hloop
  · rw [htok]
    cases hskip : Json.skipWs t with
    | nil => exact Or.inl ⟨e, rfl⟩
    | cons c after =>
      have hclose : c ≠ 0x5D := by
        rintro rfl
        exact hnone.punct 0x5D (by decide) (by rw [hskip]; rfl)
      dsimp only
      rw [if_neg hclose, readElements_none (hnone.readValue d)]
      exact Or.inl ⟨e, rfl⟩

/-- A key and its colon are there, or the scan raises. -/
theorem key_cases (hlexed : Lexed data (Json.skipWs t) tok rest) :
    (∃ key after p, Json.readKey t = some (key, after) ∧ tok.kind = .str ∧
      tok.text = 0x22 :: (key ++ [0x22]) ∧ At data p after ∧ expect data 0x3A tok.pos = .ok p) ∨
    Json.readKey t = none ∧
      (tok.kind ≠ .str ∨
        tok.kind = .str ∧ ∃ e, expect data 0x3A tok.pos = .error (.valueError e)) := by
  rw [Json.readKey]
  by_cases hkind : tok.kind = .str
  · obtain ⟨key, hkey, htext⟩ := hlexed.str hkind
    have hsplit : Json.skipWs t = 0x22 :: (key ++ 0x22 :: rest) := by
      rw [hlexed.split, htext]
      simp
    have hstring : Json.readString (key ++ 0x22 :: rest) = some rest :=
      Json.readString_eq_some_iff.mpr ⟨key, hkey, rfl⟩
    rw [hsplit]
    dsimp only
    rw [if_pos rfl, hstring, Option.bind_some]
    rcases expect_cases (c := 0x3A) (by decide) hlexed.pos with
      ⟨after, p, hskip, hp, hexpect⟩ | ⟨hexpect, hhead⟩
    · refine Or.inl ⟨key, after, p, ?_, hkind, htext, hp, hexpect⟩
      rw [hskip]
      dsimp only
      rw [if_pos rfl, show key ++ 0x22 :: rest = key ++ [0x22] ++ rest by simp, Json.taken_append,
        List.dropLast_concat]
    · refine Or.inr ⟨?_, Or.inr ⟨hkind, hexpect⟩⟩
      cases hskip : Json.skipWs rest with
      | nil => rfl
      | cons c after =>
        rw [hskip] at hhead
        exact if_neg (by simpa using hhead)
  · refine Or.inr ⟨?_, Or.inl hkind⟩
    have hhead := hlexed.notStr hkind
    cases hskip : Json.skipWs t with
    | nil => rfl
    | cons c after =>
      rw [hskip] at hhead
      exact if_neg (by simpa using hhead)

/-- The recording of a member, if the object is the root. -/
def recordIn (decodeError : Bytes → Bytes) (top : Option Fields) (key value : Bytes) :
    Except Raise (Option Fields) :=
  match top with
  | none => .ok none
  | some fields => some <$> record decodeError fields key value

/-- The start of a round of the member loop: a key, a colon and a value, or the scan raises. -/
theorem memberLoop_cases (hvalue : ValueAgrees data d value)
    (hdepth : depth + 1 + d = MAX_NESTING_DEPTH + 1)
    (hlexed : Lexed data (Json.skipWs t) tok rest) :
    (∃ key after first p t₁, Json.readKey t = some (key, after) ∧
      tok.text = 0x22 :: (key ++ [0x22]) ∧ At data first (Json.skipWs after) ∧ At data p t₁ ∧
      (Json.readValue d (Json.skipWs after) = some t₁ ∨
        Json.readValue d (Json.skipWs after) = none ∧ Dead t₁) ∧
      ∀ top n, memberLoop decodeError data value depth (n + 1) top tok =
        recordIn decodeError top tok.text ((data.drop first).take (p - first)) >>= fun top =>
          closed data 0x7D p >>= fun r =>
            if r.1 then .ok (top, r.2)
            else token data r.2 >>= memberLoop decodeError data value depth n top) ∨
    ((Json.readKey t).bind fun k => Json.readValue d (Json.skipWs k.2)) = none ∧
      ∃ e, ∀ top n, memberLoop decodeError data value depth (n + 1) top tok =
        .error (.valueError e) := by
  rcases key_cases hlexed with ⟨key, after, p, hkey, hkind, htext, hp, hexpect⟩ | ⟨hkey, hfail⟩
  · rw [hkey, Option.bind_some]
    rcases value_cases hvalue hdepth hp with
      ⟨tok', q, t₁, htok, hq, hstart, hat, hread⟩ | ⟨hread, e, he⟩
    · refine Or.inl ⟨key, after, tok'.start, q, t₁, rfl, htext, hstart, hat, hread, fun top n => ?_⟩
      rw [memberLoop, if_neg (not_not.mpr hkind), hexpect]
      dsimp only [bind, Except.bind]
      rw [htok]
      dsimp only
      rw [hq]
      cases top <;> rfl
    · refine Or.inr ⟨hread, e, fun top n => ?_⟩
      rw [memberLoop, if_neg (not_not.mpr hkind), hexpect]
      dsimp only [bind, Except.bind] at he ⊢
      cases htok : token data p with
      | error e' =>
        rw [htok] at he
        cases he
        rfl
      | ok tok' =>
        rw [htok] at he
        dsimp only at he ⊢
        rw [he]
  · rw [hkey]
    refine Or.inr ⟨rfl, ?_⟩
    rcases hfail with hkind | ⟨hkind, e, hexpect⟩
    · refine ⟨ascii "malformed: object member name must be a string", fun top n => ?_⟩
      rw [memberLoop, if_pos hkind]
      rfl
    · refine ⟨e, fun top n => ?_⟩
      rw [memberLoop, if_neg (not_not.mpr hkind), hexpect]
      rfl

theorem readMembers_none {m : ℕ}
    (h : ((Json.readKey t).bind fun k => Json.readValue d (Json.skipWs k.2)) = none) :
    Json.readMembers (Json.readValue d) m t = none := by
  cases m with
  | zero => rfl
  | succ m =>
    rw [Json.readMembers]
    cases hkey : Json.readKey t with
    | none => rfl
    | some k =>
      rw [hkey, Option.bind_some] at h
      rw [Option.bind_some, h]
      rfl

theorem NoToken.readKey (h : NoToken (Json.skipWs t)) : Json.readKey t = none := by
  rw [Json.readKey]
  cases hskip : Json.skipWs t with
  | nil => rfl
  | cons c u =>
    dsimp only
    split_ifs with hquote
    · have hscalar := h.scalar
      rw [hskip, hquote, Json.readScalar, if_pos rfl] at hscalar
      rw [hscalar]
      rfl
    · rfl

/-- The members from a token on, in an object that is not the root. -/
theorem agrees_memberLoop (decodeError : Bytes → Bytes) (hvalue : ValueAgrees data d value)
    (hdepth : depth + 1 + d = MAX_NESTING_DEPTH + 1) {m : ℕ}
    (hlexed : Lexed data (Json.skipWs t) tok rest) (hn : t.length < n) (hm : t.length < m) :
    Agrees data (Prod.snd <$> memberLoop decodeError data value depth n none tok)
      ((Json.readMembers (Json.readValue d) m t).map Prod.snd) := by
  induction n generalizing m t tok rest with
  | zero => exact absurd hn (Nat.not_lt_zero _)
  | succ n ih =>
    obtain ⟨m, rfl⟩ : ∃ m', m = m' + 1 := ⟨m - 1, by omega⟩
    rcases memberLoop_cases hvalue hdepth hlexed with
      ⟨key, after, first, p, t₁, hkey, -, -, hat, hread, hloop⟩ | ⟨hnone, e, hloop⟩
    · have hafter := Json.length_readKey_lt hkey
      rw [hloop, Json.readMembers, hkey, Option.bind_some]
      dsimp only [recordIn, bind, Except.bind]
      rcases hread with hread | ⟨hread, hdead⟩
      · rw [hread, Option.bind_some]
        rcases closed_cases 0x7D (by decide) (by decide) hat with
          ⟨next, q, hskip, hq, hclosed⟩ | ⟨next, q, hskip, hq, hclosed⟩ | ⟨⟨e, hclosed⟩, hne⟩
        · rw [hclosed, hskip]
          exact ⟨q, rfl, hq⟩
        · have hless := Json.length_after_comma hread hskip
          rw [hclosed, hskip]
          dsimp only
          rw [if_pos rfl, if_neg (by decide), Option.map_map]
          rcases token_cases hq with ⟨tok', rest', htok, hlexed'⟩ | ⟨⟨e, htok⟩, hnone⟩
          · rw [htok]
            exact ih hlexed' (by omega) (by omega)
          · rw [htok, readMembers_none (by rw [hnone.readKey]; rfl)]
            exact Or.inl ⟨e, rfl⟩
        · rw [hclosed]
          cases hskip : Json.skipWs t₁ with
          | nil => exact Or.inl ⟨e, rfl⟩
          | cons c next =>
            obtain ⟨hcomma, hclose⟩ := hne c next hskip
            dsimp only
            rw [if_neg hcomma, if_neg hclose]
            exact Or.inl ⟨e, rfl⟩
      · obtain ⟨e, he⟩ := closed_dead 0x7D hat hdead
        rw [hread, he]
        exact Or.inl ⟨e, rfl⟩
    · rw [hloop, readMembers_none hnone]
      exact Or.inl ⟨e, rfl⟩

theorem agrees_members (hvalue : ValueAgrees data d value)
    (hdepth : depth + 1 + d = MAX_NESTING_DEPTH + 1) (h : At data pos t) :
    Agrees data (Prod.snd <$> members decodeError data value depth none pos)
      ((Json.readObject (Json.readValue d) t).map Prod.snd) := by
  have henter : enter depth = .ok () := if_neg (by omega)
  have hlength : t.length < data.length + 1 := by
    have hat := h.length_eq
    omega
  rw [members, henter, Json.readObject]
  dsimp only [bind, Except.bind, pure, Except.pure]
  rcases token_cases h with ⟨tok, rest, htok, hlexed⟩ | ⟨⟨e, htok⟩, hnone⟩
  · have hloop := agrees_memberLoop decodeError hvalue hdepth hlexed hlength (Nat.lt_succ_self _)
    rw [htok]
    dsimp only
    cases hpunct : tok.isPunct 0x7D with
    | true =>
      rw [hlexed.eq_cons hpunct]
      exact ⟨tok.pos, rfl, hlexed.pos⟩
    | false =>
      rw [if_neg (by decide)]
      cases hskip : Json.skipWs t with
      | nil =>
        rw [readMembers_none (by rw [Json.readKey, hskip]; rfl)] at hloop
        exact hloop
      | cons c after =>
        have hclose : c ≠ 0x7D := by
          rintro rfl
          rw [(hlexed.isPunct_iff (by decide)).mpr (by rw [hskip]; rfl)] at hpunct
          cases hpunct
        dsimp only
        rw [if_neg hclose]
        exact hloop
  · have hkey := hnone.readKey
    rw [htok]
    cases hskip : Json.skipWs t with
    | nil => exact Or.inl ⟨e, rfl⟩
    | cons c after =>
      have hclose : c ≠ 0x7D := by
        rintro rfl
        exact hnone.punct 0x7D (by decide) (by rw [hskip]; rfl)
      dsimp only
      rw [if_neg hclose, readMembers_none (by rw [hkey]; rfl)]
      exact Or.inl ⟨e, rfl⟩

end Containers

/-- A value that is one token agrees with the reader. -/
theorem agrees_scalar (hlexed : Lexed data u tok rest) (hkind : tok.kind ≠ .punct) :
    Agrees data (.ok tok.pos) (Json.readScalar u) := by
  rcases (hlexed.scalar hkind).1 with hread | ⟨hread, hdead⟩
  · rw [hread]
    exact ⟨tok.pos, rfl, hlexed.pos⟩
  · rw [hread]
    exact Or.inr ⟨tok.pos, rest, rfl, hlexed.pos, hdead⟩

/-- Every value agrees with the reader, by induction on the containers that may be opened. -/
theorem valueAgrees (decodeError : Bytes → Bytes) (hn : d < n) :
    ValueAgrees data d (value decodeError data n) := by
  -- on the levels that are left; `n` is only fuel and never runs out before them
  induction d generalizing n with
  | zero =>
    intro tok u rest depth hlexed hdepth
    obtain ⟨n, rfl⟩ : ∃ m, n = m + 1 := ⟨n - 1, by omega⟩
    have henter : enter depth =
        .error (valueError (ascii "malformed: nesting depth exceeds the limit")) :=
      if_pos (by omega)
    rw [value]
    by_cases hkind : tok.kind = .punct
    · obtain ⟨c, hc, htext⟩ := hlexed.punct hkind
      -- at the limit a bracket is refused by both, and a scalar is still read
      have hnone : Json.readValue 0 u = none := by
        rw [hlexed.split, htext]
        simp only [puncts, List.mem_cons, List.not_mem_nil, or_false] at hc
        rcases hc with rfl | rfl | rfl | rfl | rfl | rfl <;> rfl
      rw [if_neg (not_not.mpr hkind), hnone, members, elements, henter]
      split_ifs
      · exact Or.inl ⟨_, rfl⟩
      · exact Or.inl ⟨_, rfl⟩
      · exact Or.inl ⟨_, rfl⟩
    · rw [if_pos hkind]
      exact agrees_scalar hlexed hkind
  | succ d ih =>
    intro tok u rest depth hlexed hdepth
    obtain ⟨n, rfl⟩ : ∃ m, n = m + 1 := ⟨n - 1, by omega⟩
    have hvalue : ValueAgrees data d (value decodeError data n) := ih (by omega)
    have hinner : depth + 1 + d = MAX_NESTING_DEPTH + 1 := by omega
    rw [value]
    by_cases hkind : tok.kind = .punct
    · obtain ⟨c, hc, htext⟩ := hlexed.punct hkind
      have hu : u = c :: rest := by
        rw [hlexed.split, htext]
        rfl
      rw [if_neg (not_not.mpr hkind), htext, hu, Json.readValue]
      by_cases hbrace : c = 0x7B
      · subst hbrace
        rw [if_pos rfl, if_neg (by decide), if_pos rfl]
        exact agrees_members hvalue hinner hlexed.pos
      rw [if_neg (by simpa using hbrace)]
      by_cases hbracket : c = 0x5B
      · subst hbracket
        rw [if_pos rfl, if_pos rfl]
        exact agrees_elements hvalue hinner hlexed.pos
      rw [if_neg (by simpa using hbracket), if_neg hbracket, if_neg hbrace]
      -- the other punctuation starts no value
      have hnone : Json.readScalar (c :: rest) = none := by
        simp only [puncts, List.mem_cons, List.not_mem_nil, or_false] at hc
        rcases hc with rfl | rfl | rfl | rfl | rfl | rfl <;> rfl
      rw [hnone]
      exact Or.inl ⟨_, rfl⟩
    · have hheads := (hlexed.scalar hkind).2
      have hread : Json.readValue (d + 1) u = Json.readScalar u := by
        cases hu : u with
        | nil => rfl
        | cons c v =>
          rw [hu] at hheads
          have hbracket : c ≠ 0x5B := by
            rintro rfl
            exact hheads 0x5B (by decide) rfl
          have hbrace : c ≠ 0x7B := by
            rintro rfl
            exact hheads 0x7B (by decide) rfl
          rw [Json.readValue, if_neg hbracket, if_neg hbrace]
      rw [if_pos hkind, hread]
      exact agrees_scalar hlexed hkind

/-! ## The root object -/

/-- The policy on top-level keys. -/
structure Policy (fields : Fields) : Prop where
  noEscape : ∀ field ∈ fields, 0x5C ∉ field.1
  distinct : (fields.map Prod.fst).Nodup
  count : fields.length ≤ MAX_TOP_LEVEL_KEYS

theorem Policy.nil : Policy [] := ⟨by simp, by simp, Nat.zero_le _⟩

theorem Policy.of_append {fields more : Fields} (h : Policy (fields ++ more)) : Policy fields := by
  refine ⟨fun field hfield => h.noEscape field (List.mem_append_left _ hfield), ?_, ?_⟩
  · have hdistinct := h.distinct
    rw [List.map_append] at hdistinct
    exact (List.nodup_append.mp hdistinct).1
  · have hcount := h.count
    rw [List.length_append] at hcount
    omega

/-- A member is recorded as long as the policy is kept. -/
theorem record_cases {acc : Fields} (hacc : Policy acc) (key v : Bytes) :
    (Policy (acc ++ [(key, v)]) ∧
      record decodeError acc (0x22 :: (key ++ [0x22])) v = .ok (acc ++ [(key, v)])) ∨
      ¬Policy (acc ++ [(key, v)]) ∧
        ∃ e, record decodeError acc (0x22 :: (key ++ [0x22])) v = .error (.valueError e) := by
  have hname : ((0x22 :: (key ++ [0x22])).drop 1).dropLast = key := by simp
  have hmem : 0x5C ∈ 0x22 :: (key ++ [0x22]) ↔ 0x5C ∈ key := by simp
  rw [record, hname]
  by_cases hescape : 0x5C ∈ key
  · rw [if_pos (hmem.mpr hescape)]
    exact Or.inr ⟨fun h => h.noEscape (key, v) (by simp) hescape, _, rfl⟩
  rw [if_neg (mt hmem.mp hescape)]
  dsimp only
  by_cases hdup : key ∈ acc.map Prod.fst
  · rw [if_pos hdup]
    have hraise : ∃ e, (if Utf8.Valid key then
        .error (valueError (ascii "malformed: duplicate top-level key " ++ sanitizedTag key))
        else .error (valueError (decodeError key)) : Except Raise Fields) =
          .error (.valueError e) := by
      split_ifs <;> exact ⟨_, rfl⟩
    refine Or.inr ⟨fun h => ?_, hraise⟩
    have hdistinct := h.distinct
    rw [List.map_append, List.map_singleton] at hdistinct
    exact (List.nodup_append.mp hdistinct).2.2 key hdup key (List.mem_singleton_self key) rfl
  rw [if_neg hdup]
  by_cases hcap : acc.length = MAX_TOP_LEVEL_KEYS
  · rw [if_pos hcap]
    refine Or.inr ⟨fun h => ?_, _, rfl⟩
    have hcount := h.count
    rw [List.length_append, List.length_singleton, hcap] at hcount
    exact absurd hcount (by decide)
  · rw [if_neg hcap]
    refine Or.inl ⟨⟨?_, ?_, ?_⟩, rfl⟩
    · intro field hfield
      rcases List.mem_append.mp hfield with hfield | hfield
      · exact hacc.noEscape field hfield
      · rw [List.mem_singleton.mp hfield]
        exact hescape
    · rw [List.map_append, List.map_singleton]
      refine List.nodup_append.mpr ⟨hacc.distinct, by simp, ?_⟩
      intro a ha b hb
      rw [List.mem_singleton.mp hb]
      rintro rfl
      exact hdup ha
    · have hcount := hacc.count
      rw [List.length_append, List.length_singleton]
      omega

/-- The members of the root object are recorded after those that are there, or the scan raises. -/
def Collects (data : Bytes) (acc : Fields) (res : Except Raise (Option Fields × ℕ)) :
    Option (Fields × Text) → Prop
  | some (ms, rest) =>
    (Policy (acc ++ ms) ∧ ∃ p, res = .ok (some (acc ++ ms), p) ∧ At data p rest) ∨
      ¬Policy (acc ++ ms) ∧ ∃ e, res = .error (.valueError e)
  | none => ∃ e, res = .error (.valueError e)

theorem Collects.error {acc : Fields} {o : Option (Fields × Text)} (e : Bytes)
    (h : ∀ ms rest, o = some (ms, rest) → ¬Policy (acc ++ ms)) :
    Collects data acc (.error (.valueError e)) o := by
  cases o with
  | none => exact ⟨e, rfl⟩
  | some r => exact Or.inr ⟨h r.1 r.2 rfl, e, rfl⟩

theorem Collects.cons {acc : Fields} {field : Bytes × Bytes}
    {res : Except Raise (Option Fields × ℕ)} {o : Option (Fields × Text)}
    (h : Collects data (acc ++ [field]) res o) :
    Collects data acc res (o.map fun r => (field :: r.1, r.2)) := by
  cases o with
  | none => exact h
  | some r =>
    obtain ⟨ms, rest⟩ := r
    rw [Collects, List.append_assoc] at h
    exact h

/-- The members of the root object, from a token on. -/
theorem collects_memberLoop (decodeError : Bytes → Bytes) {value : Token → ℕ → Except Raise ℕ}
    (hvalue : ValueAgrees data d value)
    (hdepth : depth + 1 + d = MAX_NESTING_DEPTH + 1) {m : ℕ} {acc : Fields} (hacc : Policy acc)
    (hlexed : Lexed data (Json.skipWs t) tok rest) (hn : t.length < n) (hm : t.length < m) :
    Collects data acc (memberLoop decodeError data value depth n (some acc) tok)
      (Json.readMembers (Json.readValue d) m t) := by
  induction n generalizing m t tok rest acc with
  | zero => exact absurd hn (Nat.not_lt_zero _)
  | succ n ih =>
    obtain ⟨m, rfl⟩ : ∃ m', m = m' + 1 := ⟨m - 1, by omega⟩
    rcases memberLoop_cases hvalue hdepth hlexed with
      ⟨key, after, first, p, t₁, hkey, htext, hfirst, hat, hread, hloop⟩ | ⟨hnone, e, hloop⟩
    · have hafter := Json.length_readKey_lt hkey
      rw [hloop, htext, Json.readMembers, hkey, Option.bind_some]
      dsimp only [recordIn]
      rcases hread with hread | ⟨hread, hdead⟩
      · rw [hread, Option.bind_some]
        have hspan : (data.drop first).take (p - first) = Json.taken (Json.skipWs after) t₁ := by
          obtain ⟨v, -, hv⟩ := (Json.reads_readValue d).sound hread
          rw [hv, Json.taken_append]
          rw [hv] at hfirst
          exact hfirst.take_eq hat
        rw [hspan]
        rcases record_cases hacc key (Json.taken (Json.skipWs after) t₁) with
          ⟨hpolicy, hrecord⟩ | ⟨hpolicy, e, hrecord⟩
        · rw [hrecord]
          dsimp only [bind, Except.bind, Functor.map, Except.map]
          rcases closed_cases 0x7D (by decide) (by decide) hat with
            ⟨next, q, hskip, hq, hclosed⟩ | ⟨next, q, hskip, hq, hclosed⟩ | ⟨⟨e, hclosed⟩, hne⟩
          · rw [hclosed, hskip]
            exact Or.inl ⟨hpolicy, q, rfl, hq⟩
          · have hless := Json.length_after_comma hread hskip
            rw [hclosed, hskip]
            dsimp only
            rw [if_pos rfl, if_neg (by decide)]
            refine Collects.cons ?_
            rcases token_cases hq with ⟨tok', rest', htok, hlexed'⟩ | ⟨⟨e, htok⟩, hnone⟩
            · rw [htok]
              exact ih hpolicy hlexed' (by omega) (by omega)
            · rw [htok, readMembers_none (by rw [hnone.readKey]; rfl)]
              exact ⟨e, rfl⟩
          · rw [hclosed]
            cases hskip : Json.skipWs t₁ with
            | nil => exact ⟨e, rfl⟩
            | cons c next =>
              obtain ⟨hcomma, hclose⟩ := hne c next hskip
              dsimp only
              rw [if_neg hcomma, if_neg hclose]
              exact ⟨e, rfl⟩
        · -- whatever follows, the members start with the one that breaks the policy
          rw [hrecord]
          refine Collects.error e fun ms r hms hwhole => ?_
          have hstart : ∃ ms', ms = (key, Json.taken (Json.skipWs after) t₁) :: ms' := by
            cases hskip : Json.skipWs t₁ with
            | nil =>
              rw [hskip] at hms
              cases hms
            | cons c next =>
              rw [hskip] at hms
              dsimp only at hms
              split_ifs at hms
              · obtain ⟨r', -, hr⟩ := Option.map_eq_some_iff.mp hms
                cases hr
                exact ⟨r'.1, rfl⟩
              · cases hms
                exact ⟨[], rfl⟩
          obtain ⟨ms', rfl⟩ := hstart
          rw [List.append_cons] at hwhole
          exact hpolicy hwhole.of_append
      · obtain ⟨e, he⟩ := closed_dead 0x7D hat hdead
        rw [hread]
        rcases record_cases hacc key ((data.drop first).take (p - first)) with
          ⟨-, hrecord⟩ | ⟨-, e', hrecord⟩
        · rw [hrecord]
          dsimp only [bind, Except.bind, Functor.map, Except.map]
          rw [he]
          exact ⟨e, rfl⟩
        · rw [hrecord]
          exact ⟨e', rfl⟩
    · rw [hloop, readMembers_none hnone]
      exact ⟨e, rfl⟩

theorem collects_members (decodeError : Bytes → Bytes) {value : Token → ℕ → Except Raise ℕ}
    (hvalue : ValueAgrees data d value)
    (hdepth : depth + 1 + d = MAX_NESTING_DEPTH + 1) (h : At data pos t) :
    Collects data [] (members decodeError data value depth (some []) pos)
      (Json.readObject (Json.readValue d) t) := by
  have henter : enter depth = .ok () := if_neg (by omega)
  have hlength : t.length < data.length + 1 := by
    have hat := h.length_eq
    omega
  rw [members, henter, Json.readObject]
  dsimp only [bind, Except.bind, pure, Except.pure]
  rcases token_cases h with ⟨tok, rest, htok, hlexed⟩ | ⟨⟨e, htok⟩, hnone⟩
  · have hloop := collects_memberLoop decodeError hvalue hdepth Policy.nil hlexed hlength
      (Nat.lt_succ_self _)
    rw [htok]
    dsimp only
    cases hpunct : tok.isPunct 0x7D with
    | true =>
      rw [hlexed.eq_cons hpunct]
      exact Or.inl ⟨Policy.nil, tok.pos, rfl, hlexed.pos⟩
    | false =>
      rw [if_neg (by decide)]
      cases hskip : Json.skipWs t with
      | nil =>
        rw [readMembers_none (by rw [Json.readKey, hskip]; rfl)] at hloop
        exact hloop
      | cons c after =>
        have hclose : c ≠ 0x7D := by
          rintro rfl
          rw [(hlexed.isPunct_iff (by decide)).mpr (by rw [hskip]; rfl)] at hpunct
          cases hpunct
        dsimp only
        rw [if_neg hclose]
        exact hloop
  · have hkey := hnone.readKey
    rw [htok]
    cases hskip : Json.skipWs t with
    | nil => exact ⟨e, rfl⟩
    | cons c after =>
      have hclose : c ≠ 0x7D := by
        rintro rfl
        exact hnone.punct 0x7D (by decide) (by rw [hskip]; rfl)
      dsimp only
      rw [if_neg hclose, readMembers_none (by rw [hkey]; rfl)]
      exact ⟨e, rfl⟩

theorem any_not_mem_WS (t : Text) : t.any (· ∉ WS) = false ↔ Json.skipWs t = [] := by
  rw [Json.skipWs_eq_nil_iff, List.any_eq_false]
  refine forall_congr' fun c => imp_congr_right fun _ => ?_
  rw [decide_eq_true_eq, not_not]
  simp [WS, Json.isWs, or_assoc]

/-- The scan of record returns the members of an object text that keeps the policy, and raises on
every other frame. -/
theorem scanGeneral_cases (data : Bytes) :
    (∃ fields, Json.document MAX_NESTING_DEPTH data = some fields ∧ Policy fields ∧
      scanGeneral decodeError data = .ok fields) ∨
    (∃ e, scanGeneral decodeError data = .error (.valueError e)) ∧
      ∀ fields, Json.document MAX_NESTING_DEPTH data = some fields → ¬Policy fields := by
  -- the document of the grammar is an object, so any other root is no document
  have hother : (Json.skipWs data).head? ≠ some 0x7B →
      Json.document MAX_NESTING_DEPTH data = none := by
    intro hhead
    rw [show MAX_NESTING_DEPTH = 31 + 1 from rfl, Json.document]
    cases hskip : Json.skipWs data with
    | nil => rfl
    | cons c u =>
      rw [hskip] at hhead
      exact if_neg (by simpa using hhead)
  rw [scanGeneral]
  rcases token_cases (At.start data) with ⟨tok, rest, htok, hlexed⟩ | ⟨⟨e, htok⟩, hnone⟩
  · rw [htok]
    dsimp only [bind, Except.bind]
    cases hpunct : tok.isPunct 0x7B with
    | true =>
      have hdepth : 1 + 1 + 31 = MAX_NESTING_DEPTH + 1 := rfl
      -- the root is an object: its members are collected 31 levels deep
      have hcollects := collects_members decodeError
        (valueAgrees decodeError (d := 31) (n := MAX_NESTING_DEPTH + 1) (by decide)) hdepth
          hlexed.pos
      have hdocument : Json.document MAX_NESTING_DEPTH data =
          (Json.readObject (Json.readValue 31) rest).bind fun r =>
            if Json.skipWs r.2 = [] then some r.1 else none := by
        rw [show MAX_NESTING_DEPTH = 31 + 1 from rfl, Json.document, hlexed.eq_cons hpunct]
        exact if_pos rfl
      rw [hdocument, if_pos rfl]
      cases hread : Json.readObject (Json.readValue 31) rest with
      | none =>
        rw [hread] at hcollects
        obtain ⟨e, he⟩ := hcollects
        rw [he]
        exact Or.inr ⟨⟨e, rfl⟩, fun fields h => (by contradiction)⟩
      | some r =>
        obtain ⟨ms, after⟩ := r
        rw [hread] at hcollects
        rw [Option.bind_some]
        dsimp only
        -- the members are read; what is left is the policy on keys and the end of the text
        rcases hcollects with ⟨hpolicy, p, hp, hat⟩ | ⟨hpolicy, e, he⟩
        · rw [hp]
          dsimp only
          rw [hat.2]
          by_cases hend : Json.skipWs after = []
          · refine Or.inl ⟨ms, if_pos hend, hpolicy, ?_⟩
            rw [if_neg (by rw [(any_not_mem_WS after).mpr hend]; decide)]
            rfl
          · rw [if_neg hend]
            refine Or.inr ⟨?_, fun fields h => (by contradiction)⟩
            rw [if_pos (by
              by_contra hany
              exact hend ((any_not_mem_WS after).mp (by simpa using hany)))]
            exact ⟨_, rfl⟩
        · rw [he]
          refine Or.inr ⟨⟨e, rfl⟩, fun fields h => ?_⟩
          split_ifs at h
          cases h
          exact hpolicy
    | false =>
      -- any other root is walked to its end, and then refused for what it is
      have hhead : (Json.skipWs data).head? ≠ some 0x7B := by
        intro hhead
        rw [(hlexed.isPunct_iff (by decide)).mpr hhead] at hpunct
        cases hpunct
      have hvalue : ValueAgrees data MAX_NESTING_DEPTH
          (value decodeError data (MAX_NESTING_DEPTH + 1)) :=
        valueAgrees decodeError (Nat.lt_succ_self _)
      have hagrees := hvalue tok _ rest 1 hlexed (Nat.add_comm 1 _)
      rw [hother hhead]
      refine Or.inr ⟨?_, fun fields h => (by contradiction)⟩
      rw [if_neg (by decide)]
      have hres :
          (∃ e, value decodeError data (MAX_NESTING_DEPTH + 1) tok 1 = .error (.valueError e)) ∨
            ∃ p, value decodeError data (MAX_NESTING_DEPTH + 1) tok 1 = .ok p := by
        cases hread : Json.readValue MAX_NESTING_DEPTH (Json.skipWs data) with
        | some r =>
          rw [hread] at hagrees
          obtain ⟨p, hp, -⟩ := hagrees
          exact Or.inr ⟨p, hp⟩
        | none =>
          rw [hread] at hagrees
          rcases hagrees with herror | ⟨p, r, hp, -⟩
          · exact Or.inl herror
          · exact Or.inr ⟨p, hp⟩
      rcases hres with ⟨e, he⟩ | ⟨p, hp⟩
      · rw [he]
        exact ⟨e, rfl⟩
      · rw [hp]
        dsimp only [Functor.map, Except.map]
        by_cases htail : (data.drop p).any (· ∉ WS) = true
        · rw [if_pos htail]
          exact ⟨_, rfl⟩
        · rw [if_neg htail]
          exact ⟨_, rfl⟩
  · rw [htok, hother (hnone.punct 0x7B (by decide))]
    exact Or.inr ⟨⟨e, rfl⟩, fun fields h => (by contradiction)⟩

end Client

end MarketMaker
