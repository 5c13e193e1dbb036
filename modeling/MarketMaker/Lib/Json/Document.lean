import MarketMaker.Lib.Json.Reader

/-!
# The reader and the grammar

The loops of the reader take off what the grammar of elements and members describes, whenever the
reader of values does so for values (`Reads`). By induction on the depth that holds of `readValue`,
and `document` returns the members of exactly the object texts.
-/

namespace Json

/-- The reader takes off exactly the texts of `P`, which start with neither a blank nor `]`. -/
structure Reads (P : Text → Prop) (value : Text → Option Text) : Prop where
  sound : ∀ {t rest}, value t = some rest → ∃ v, P v ∧ t = v ++ rest
  complete : ∀ {v rest}, P v → Stops rest → value (v ++ rest) = some rest
  head : ∀ {v}, P v → ∃ c t, v = c :: t ∧ isWs c = false ∧ c ≠ 0x5D

/-- A blank, a separator or a bracket ends a number. -/
theorem stops_ws_append {a : Text} (h : Ws a) {c : UInt8} {rest : Text}
    (hc : c = 0x2C ∨ c = 0x5D ∨ c = 0x7D) : Stops (a ++ c :: rest) := by
  intro d hd
  cases a with
  | nil =>
    cases hd
    rcases hc with rfl | rfl | rfl <;> decide
  | cons b a =>
    cases hd
    have hb : isWs d = true := h d List.mem_cons_self
    simp only [isWs, Bool.or_eq_true, decide_eq_true_eq] at hb
    rcases hb with ((rfl | rfl) | rfl) | rfl <;> decide

theorem skipWs_append_cons {a : Text} (h : Ws a) {c : UInt8} (hc : isWs c = false) (t : Text) :
    skipWs (a ++ c :: t) = c :: t := by
  rw [skipWs_ws_append h, skipWs_cons hc]

theorem taken_append (v rest : Text) : taken (v ++ rest) rest = v := by
  simp [taken]

section Containers

variable {P : Text → Prop} {value : Text → Option Text}

theorem Reads.skipWs_append (h : Reads P value) {a v : Text} (ha : Ws a) (hv : P v) (t : Text) :
    skipWs (a ++ (v ++ t)) = v ++ t := by
  obtain ⟨c, u, rfl, hws, -⟩ := h.head hv
  exact skipWs_append_cons ha hws (u ++ t)

/-! ## Arrays -/

theorem readElements_sound (h : Reads P value) {fuel : ℕ} {t rest : Text}
    (hread : readElements value fuel t = some rest) :
    ∃ body, Elements P body ∧ t = body ++ 0x5D :: rest := by
  induction fuel generalizing t with
  | zero => cases hread
  | succ fuel ih =>
    obtain ⟨t₁, hvalue, hread⟩ := Option.bind_eq_some_iff.mp hread
    obtain ⟨v, hv, hsplit⟩ := h.sound hvalue
    obtain ⟨a, ha, ht⟩ := exists_ws_append_skipWs t
    obtain ⟨b, hb, ht₁⟩ := exists_ws_append_skipWs t₁
    rw [ht, hsplit, ht₁]
    cases hskip : skipWs t₁ with
    | nil =>
      rw [hskip] at hread
      cases hread
    | cons c t₂ =>
      rw [hskip] at hread
      dsimp only at hread
      split_ifs at hread with hcomma hclose
      · obtain ⟨body, hbody, rfl⟩ := ih hread
        exact ⟨_, .cons ha hv hb hbody, by simp [hcomma]⟩
      · cases hread
        exact ⟨_, .last ha hv hb, by simp [hclose]⟩

theorem readElements_complete (h : Reads P value) {body : Text} (hbody : Elements P body)
    {fuel : ℕ} (hfuel : body.length < fuel) (rest : Text) :
    readElements value fuel (body ++ 0x5D :: rest) = some rest := by
  induction hbody generalizing fuel with
  | @last a v b ha hv hb =>
    obtain ⟨fuel, rfl⟩ := Nat.exists_eq_add_of_lt hfuel
    have hvalue : value (v ++ (b ++ 0x5D :: rest)) = some (b ++ 0x5D :: rest) :=
      h.complete hv (stops_ws_append hb (Or.inr (Or.inl rfl)))
    rw [show a ++ (v ++ b) ++ 0x5D :: rest = a ++ (v ++ (b ++ 0x5D :: rest)) by simp, readElements,
      h.skipWs_append ha hv, hvalue, Option.bind_some, skipWs_append_cons hb rfl]
    rfl
  | @cons a v b more ha hv hb hmore ih =>
    obtain ⟨fuel, rfl⟩ := Nat.exists_eq_add_of_lt (Nat.zero_lt_of_lt hfuel)
    have hvalue : value (v ++ (b ++ 0x2C :: (more ++ 0x5D :: rest))) =
        some (b ++ 0x2C :: (more ++ 0x5D :: rest)) :=
      h.complete hv (stops_ws_append hb (Or.inl rfl))
    have hless : more.length < 0 + fuel := by
      simp only [List.length_append, List.length_cons] at hfuel
      omega
    rw [show a ++ (v ++ (b ++ 0x2C :: more)) ++ 0x5D :: rest =
        a ++ (v ++ (b ++ 0x2C :: (more ++ 0x5D :: rest))) by simp, readElements,
      h.skipWs_append ha hv, hvalue, Option.bind_some, skipWs_append_cons hb rfl]
    exact ih hless

/-- The elements start with a value, so not with a closing bracket. -/
theorem Elements.head (h : Reads P value) {body : Text} (hbody : Elements P body) (rest : Text) :
    ∃ c t, skipWs (body ++ rest) = c :: t ∧ c ≠ 0x5D := by
  cases hbody with
  | @last a v b ha hv hb =>
    obtain ⟨c, u, hu, -, hc⟩ := h.head hv
    rw [show a ++ (v ++ b) ++ rest = a ++ (v ++ (b ++ rest)) by simp, h.skipWs_append ha hv, hu]
    exact ⟨c, _, rfl, hc⟩
  | @cons a v b more ha hv hb hmore =>
    obtain ⟨c, u, hu, -, hc⟩ := h.head hv
    rw [show a ++ (v ++ (b ++ 0x2C :: more)) ++ rest = a ++ (v ++ (b ++ 0x2C :: more ++ rest)) by
      simp, h.skipWs_append ha hv, hu]
    exact ⟨c, _, rfl, hc⟩

theorem readArray_eq_some_iff (h : Reads P value) {t rest : Text} :
    readArray value t = some rest ↔
      ∃ body, (Ws body ∨ Elements P body) ∧ t = body ++ 0x5D :: rest := by
  constructor
  · intro hread
    rw [readArray] at hread
    cases hskip : skipWs t with
    | nil =>
      rw [hskip] at hread
      cases hread
    | cons c t' =>
      rw [hskip] at hread
      dsimp only at hread
      split_ifs at hread with hclose
      · cases hread
        obtain ⟨a, ha, ht⟩ := exists_ws_append_skipWs t
        rw [hskip, hclose] at ht
        exact ⟨a, Or.inl ha, ht⟩
      · obtain ⟨body, hbody, ht⟩ := readElements_sound h hread
        exact ⟨body, Or.inr hbody, ht⟩
  · rintro ⟨body, hws | hbody, rfl⟩
    · rw [readArray, skipWs_append_cons hws rfl]
      rfl
    · obtain ⟨c, t, hhead, hc⟩ := hbody.head h (0x5D :: rest)
      rw [readArray, hhead]
      dsimp only
      rw [if_neg hc]
      refine readElements_complete h hbody ?_ rest
      simp only [List.length_append]
      omega

/-! ## Objects -/

theorem readKey_eq_some_iff {t key after : Text} :
    readKey t = some (key, after) ↔
      ∃ a b, Ws a ∧ IsBody key ∧ Ws b ∧ t = a ++ 0x22 :: (key ++ 0x22 :: (b ++ 0x3A :: after)) := by
  constructor
  · intro hread
    rw [readKey] at hread
    obtain ⟨a, ha, ht⟩ := exists_ws_append_skipWs t
    cases hskip : skipWs t with
    | nil =>
      rw [hskip] at hread
      cases hread
    | cons c t₁ =>
      rw [hskip] at hread ht
      dsimp only at hread
      split_ifs at hread with hquote
      obtain ⟨t₂, hstring, hread⟩ := Option.bind_eq_some_iff.mp hread
      obtain ⟨body, hbody, ht₁⟩ := readString_eq_some_iff.mp hstring
      obtain ⟨b, hb, ht₂⟩ := exists_ws_append_skipWs t₂
      cases hskip₂ : skipWs t₂ with
      | nil =>
        rw [hskip₂] at hread
        cases hread
      | cons c₂ t₃ =>
        rw [hskip₂] at hread ht₂
        dsimp only at hread
        split_ifs at hread with hcolon
        have htaken : taken t₁ t₂ = body ++ [0x22] := by
          rw [ht₁, show body ++ 0x22 :: t₂ = body ++ [0x22] ++ t₂ by simp, taken_append]
        rw [htaken, List.dropLast_concat] at hread
        cases hread
        exact ⟨a, b, ha, hbody, hb, by rw [ht, ht₁, ht₂, hquote, hcolon]⟩
  · rintro ⟨a, b, ha, hbody, hb, rfl⟩
    have hstring : readString (key ++ 0x22 :: (b ++ 0x3A :: after)) = some (b ++ 0x3A :: after) :=
      readString_eq_some_iff.mpr ⟨key, hbody, rfl⟩
    have htaken : taken (key ++ 0x22 :: (b ++ 0x3A :: after)) (b ++ 0x3A :: after) = key ++
        [0x22] := by
      rw [show key ++ 0x22 :: (b ++ 0x3A :: after) = key ++ [0x22] ++ (b ++ 0x3A :: after) by simp,
        taken_append]
    rw [readKey, skipWs_append_cons ha rfl]
    dsimp only
    rw [if_pos rfl, hstring, Option.bind_some, skipWs_append_cons hb rfl, htaken,
      List.dropLast_concat]
    exact if_pos rfl

theorem readMembers_sound (h : Reads P value) {fuel : ℕ} {t rest : Text} {ms : List (Text × Text)}
    (hms : readMembers value fuel t = some (ms, rest)) :
    ∃ body, Members P ms body ∧ t = body ++ 0x7D :: rest := by
  induction fuel generalizing t ms with
  | zero => cases hms
  | succ fuel ih =>
    obtain ⟨⟨key, t₁⟩, hkey, hrest⟩ := Option.bind_eq_some_iff.mp hms
    obtain ⟨t₂, hvalue, hread⟩ := Option.bind_eq_some_iff.mp hrest
    dsimp only at hvalue hread
    obtain ⟨a, b, ha, hbody, hb, rfl⟩ := readKey_eq_some_iff.mp hkey
    obtain ⟨v, hv, hsplit⟩ := h.sound hvalue
    obtain ⟨c, hc, ht₁⟩ := exists_ws_append_skipWs t₁
    obtain ⟨d, hd, ht₂⟩ := exists_ws_append_skipWs t₂
    have htaken : taken (skipWs t₁) t₂ = v := by rw [hsplit, taken_append]
    have hmember := Member.mk ha hbody hb hv hc hd
    rw [htaken] at hread
    rw [ht₁, hsplit, ht₂]
    cases hskip : skipWs t₂ with
    | nil =>
      rw [hskip] at hread
      cases hread
    | cons e t₃ =>
      rw [hskip] at hread
      dsimp only at hread
      split_ifs at hread with hcomma hclose
      · obtain ⟨⟨qs, r⟩, hmore, heq⟩ := Option.map_eq_some_iff.mp hread
        cases heq
        obtain ⟨body, hmembers, rfl⟩ := ih hmore
        exact ⟨_, .cons hmember hmembers, by simp [hcomma]⟩
      · cases hread
        exact ⟨_, .last hmember, by simp [hclose]⟩

/-- One member is read, up to what follows it. -/
theorem Member.read (h : Reads P value) {key v t : Text} (hm : Member P key v t) (c : UInt8)
    (rest : Text) (hc : c = 0x2C ∨ c = 0x5D ∨ c = 0x7D) (hws : isWs c = false) :
    ∃ after d, Ws d ∧ readKey (t ++ c :: rest) = some (key, after) ∧
      value (skipWs after) = some (d ++ c :: rest) ∧
      taken (skipWs after) (d ++ c :: rest) = v ∧ skipWs (d ++ c :: rest) = c :: rest := by
  obtain ⟨ha, hbody, hb, hv, hstart, hd⟩ := hm
  rename_i a b s d
  have hskip := h.skipWs_append hstart hv (d ++ c :: rest)
  refine ⟨s ++ (v ++ (d ++ c :: rest)), d, hd, ?_, ?_, ?_, skipWs_append_cons hd hws rest⟩
  · exact readKey_eq_some_iff.mpr ⟨a, b, ha, hbody, hb, by simp⟩
  · rw [hskip]
    exact h.complete hv (stops_ws_append hd hc)
  · rw [hskip, taken_append]

theorem readMembers_complete (h : Reads P value) {ms : List (Text × Text)} {body : Text}
    (hbody : Members P ms body) {fuel : ℕ} (hfuel : body.length < fuel) (rest : Text) :
    readMembers value fuel (body ++ 0x7D :: rest) = some (ms, rest) := by
  induction hbody generalizing fuel with
  | @last key v t hm =>
    obtain ⟨fuel, rfl⟩ := Nat.exists_eq_add_of_lt hfuel
    obtain ⟨after, d, -, hkey, hvalue, htaken, hskip⟩ :=
      hm.read h 0x7D rest (Or.inr (Or.inr rfl)) rfl
    rw [readMembers, hkey, Option.bind_some, hvalue, Option.bind_some, hskip, htaken]
    rfl
  | @cons key v t more ms hm hmore ih =>
    obtain ⟨fuel, rfl⟩ := Nat.exists_eq_add_of_lt (Nat.zero_lt_of_lt hfuel)
    obtain ⟨after, d, -, hkey, hvalue, htaken, hskip⟩ :=
      hm.read h 0x2C (more ++ 0x7D :: rest) (Or.inl rfl) rfl
    have hless : more.length < 0 + fuel := by
      simp only [List.length_append, List.length_cons] at hfuel
      omega
    rw [show t ++ 0x2C :: more ++ 0x7D :: rest = t ++ 0x2C :: (more ++ 0x7D :: rest) by simp,
      readMembers, hkey, Option.bind_some, hvalue, Option.bind_some, hskip, htaken]
    dsimp only
    rw [if_pos rfl, ih hless]
    rfl

/-- The members start with a quote, so not with a closing brace. -/
theorem Members.head {ms : List (Text × Text)} {body : Text} (hbody : Members P ms body)
    (rest : Text) : ∃ t, skipWs (body ++ rest) = 0x22 :: t := by
  have hmember : ∀ {key v t : Text}, Member P key v t → ∀ rest, ∃ u,
      skipWs (t ++ rest) = 0x22 :: u := by
    rintro key v _ ⟨ha, hbody, hb, hv, hstart, hd⟩ rest
    rename_i a b s d
    exact ⟨_, by rw [List.append_assoc, List.cons_append]; exact skipWs_append_cons ha rfl _⟩
  cases hbody with
  | last hm => exact hmember hm rest
  | @cons key v t more ms hm hmore =>
    obtain ⟨u, hu⟩ := hmember hm (0x2C :: more ++ rest)
    exact ⟨u, by simpa using hu⟩

theorem readObject_eq_some_iff (h : Reads P value) {t rest : Text} {ms : List (Text × Text)} :
    readObject value t = some (ms, rest) ↔
      ∃ body, (Ws body ∧ ms = [] ∨ Members P ms body) ∧ t = body ++ 0x7D :: rest := by
  constructor
  · intro hread
    rw [readObject] at hread
    cases hskip : skipWs t with
    | nil =>
      rw [hskip] at hread
      cases hread
    | cons c t' =>
      rw [hskip] at hread
      dsimp only at hread
      split_ifs at hread with hclose
      · cases hread
        obtain ⟨a, ha, ht⟩ := exists_ws_append_skipWs t
        rw [hskip, hclose] at ht
        exact ⟨a, Or.inl ⟨ha, rfl⟩, ht⟩
      · obtain ⟨body, hbody, ht⟩ := readMembers_sound h hread
        exact ⟨body, Or.inr hbody, ht⟩
  · rintro ⟨body, ⟨hws, rfl⟩ | hbody, rfl⟩
    · rw [readObject, skipWs_append_cons hws rfl]
      rfl
    · obtain ⟨u, hhead⟩ := hbody.head (0x7D :: rest)
      rw [readObject, hhead]
      dsimp only
      rw [if_neg (by decide)]
      refine readMembers_complete h hbody ?_ rest
      simp only [List.length_append]
      omega

end Containers

/-! ## Values and documents -/

theorem Value.head {d : ℕ} {v : Text} (h : Value d v) :
    ∃ c t, v = c :: t ∧ isWs c = false ∧ c ≠ 0x5D := by
  have hscalar : ∀ {v}, Scalar v → ∃ c t, v = c :: t ∧ isWs c = false ∧ c ≠ 0x5D := by
    intro v hv
    obtain ⟨c, t, hv, hws, hclose, -, -⟩ := hv.head
    exact ⟨c, t, hv, hws, hclose⟩
  cases d with
  | zero => exact hscalar h
  | succ d =>
    rcases h with h | ⟨body, -, rfl⟩ | ⟨ms, body, -, rfl⟩
    · exact hscalar h
    · exact ⟨0x5B, _, rfl, by decide⟩
    · exact ⟨0x7B, _, rfl, by decide⟩

theorem reads_readValue (d : ℕ) : Reads (Value d) (readValue d) := by
  induction d with
  | zero => exact ⟨readScalar_sound, readScalar_complete, Value.head⟩
  | succ d ih =>
    refine ⟨fun {t rest} hread => ?_, fun {v rest} hv hrest => ?_, Value.head⟩
    · cases t with
      | nil => cases hread
      | cons c t =>
        rw [readValue] at hread
        split_ifs at hread with hbracket hbrace
        · obtain ⟨body, hbody, rfl⟩ := (readArray_eq_some_iff ih).mp hread
          exact ⟨_, Or.inr (Or.inl ⟨body, hbody, rfl⟩), by simp [hbracket]⟩
        · obtain ⟨⟨ms, r⟩, hobject, rfl⟩ := Option.map_eq_some_iff.mp hread
          obtain ⟨body, hbody, rfl⟩ := (readObject_eq_some_iff ih).mp hobject
          exact ⟨_, Or.inr (Or.inr ⟨ms, body, hbody, rfl⟩), by simp [hbrace]⟩
        · obtain ⟨v, hv, ht⟩ := readScalar_sound hread
          exact ⟨v, Or.inl hv, ht⟩
    · rcases hv with hv | ⟨body, hbody, rfl⟩ | ⟨ms, body, hbody, rfl⟩
      · obtain ⟨c, t, rfl, -, -, hbracket, hbrace⟩ := hv.head
        rw [List.cons_append, readValue, if_neg hbracket, if_neg hbrace]
        exact readScalar_complete hv hrest
      · rw [show 0x5B :: (body ++ [0x5D]) ++ rest = 0x5B :: (body ++ 0x5D :: rest) by simp,
          readValue, if_pos rfl]
        exact (readArray_eq_some_iff ih).mpr ⟨body, hbody, rfl⟩
      · have hobject : readObject (readValue d) (body ++ 0x7D :: rest) = some (ms, rest) :=
          (readObject_eq_some_iff ih).mpr ⟨body, hbody, rfl⟩
        rw [show 0x7B :: (body ++ [0x7D]) ++ rest = 0x7B :: (body ++ 0x7D :: rest) by simp,
          readValue, if_neg (by decide), if_pos rfl, hobject]
        rfl

theorem skipWs_eq_nil_iff {t : Text} : skipWs t = [] ↔ Ws t := by
  rw [skipWs, List.dropWhile_eq_nil_iff]
  rfl

/-- The reader of a whole text returns the members of exactly the object texts. -/
theorem document_eq_some_iff {d : ℕ} {t : Text} {ms : List (Text × Text)} :
    document d t = some ms ↔ ObjectText d ms t := by
  cases d with
  | zero => simp [document, ObjectText]
  | succ d =>
    constructor
    · intro hread
      obtain ⟨a, ha, ht⟩ := exists_ws_append_skipWs t
      rw [document] at hread
      cases hskip : skipWs t with
      | nil =>
        rw [hskip] at hread
        cases hread
      | cons c t₁ =>
        rw [hskip] at hread ht
        dsimp only at hread
        split_ifs at hread with hbrace
        obtain ⟨⟨ms', b⟩, hobject, hread⟩ := Option.bind_eq_some_iff.mp hread
        dsimp only at hread
        split_ifs at hread with hend
        cases hread
        obtain ⟨body, hbody, rfl⟩ := (readObject_eq_some_iff (reads_readValue d)).mp hobject
        refine ⟨Nat.succ_pos d, a, 0x7B :: (body ++ [0x7D]), b, ha, skipWs_eq_nil_iff.mp hend,
          ⟨body, hbody, rfl⟩, ?_⟩
        rw [ht, hbrace]
        simp
    · rintro ⟨-, a, object, b, ha, hb, ⟨body, hbody, rfl⟩, rfl⟩
      have hobject : readObject (readValue d) (body ++ 0x7D :: b) = some (ms, b) :=
        (readObject_eq_some_iff (reads_readValue d)).mpr ⟨body, hbody, rfl⟩
      have hskip : skipWs (a ++ (0x7B :: (body ++ [0x7D]) ++ b)) = 0x7B :: (body ++ 0x7D :: b) := by
        rw [show 0x7B :: (body ++ [0x7D]) ++ b = 0x7B :: (body ++ 0x7D :: b) by simp]
        exact skipWs_append_cons ha rfl _
      rw [document, hskip]
      dsimp only
      rw [if_pos rfl, hobject, Option.bind_some]
      exact if_pos (skipWs_eq_nil_iff.mpr hb)

/-! ## Lengths -/

/-- What follows a value and a comma is shorter. -/
theorem length_after_comma {d : ℕ} {t t₁ rest : Text}
    (hread : readValue d (skipWs t) = some t₁) (hcomma : skipWs t₁ = 0x2C :: rest) :
    rest.length < t.length := by
  obtain ⟨v, -, hv⟩ := (reads_readValue d).sound hread
  have hlength := congrArg List.length hv
  have hskip := length_skipWs_le t
  have hskip₁ := length_skipWs_le t₁
  rw [List.length_append] at hlength
  rw [hcomma, List.length_cons] at hskip₁
  omega

/-- What follows a key is shorter. -/
theorem length_readKey_lt {t key after : Text} (h : readKey t = some (key, after)) :
    after.length < t.length := by
  obtain ⟨a, b, -, -, -, rfl⟩ := readKey_eq_some_iff.mp h
  simp only [List.length_append, List.length_cons]
  omega

end Json
