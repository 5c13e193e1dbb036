import MarketMaker.Client.Scan

/-!
# The fast path of the client

The loop of `_scan` matches one flat member after the other. What `_MEMBER` takes off is a member of
the grammar, so a walk that comes to the closing brace has walked an object text, and it returns the
members of it.
-/

namespace MarketMaker

namespace Client

open Cursor (At)
open Json (Text)

variable {γ : Type} {decodeError : Bytes → Bytes} {data : Bytes} {pos n : ℕ} {t : Text}

/-! ## The patterns -/

theorem takes_blanksRe : Regex.Takes (blanksRe : Regex γ) Json.Ws := by
  refine (Regex.takes_star_set _).mono fun v hv c hc => ?_
  have hmem := of_decide_eq_true (hv c hc)
  simp only [WS, List.mem_cons, List.not_mem_nil, or_false] at hmem
  rcases hmem with rfl | rfl | rfl | rfl <;> rfl

theorem takes_digits : Regex.Takes (.star digitRe : Regex γ) Json.Digits :=
  Regex.takes_star_set _

theorem takes_digits1 : Regex.Takes (.plus digitRe : Regex γ)
    fun v => ∃ c ds, v = c :: ds ∧ Json.isDigit c = true ∧ Json.Digits ds := by
  refine ((Regex.takes_set _).seq takes_digits).mono ?_
  rintro v ⟨_, ds, ⟨c, hc, rfl⟩, hds, rfl⟩
  exact ⟨c, ds, rfl, hc, hds⟩

theorem takes_numberRe : Regex.Takes (numberRe : Regex γ) Json.IsNumber := by
  have hint : Regex.Takes (intRe : Regex γ) Json.IsInt := by
    refine Regex.Takes.alt ((Regex.takes_char 0x30).mono fun v hv => Or.inl hv) ?_
    refine ((Regex.takes_set _).seq takes_digits).mono ?_
    rintro v ⟨_, ds, ⟨c, hc, rfl⟩, hds, rfl⟩
    simp only [Bool.and_eq_true, decide_eq_true_eq] at hc
    refine Or.inr ⟨c, ds, rfl, ?_, ?_, hds⟩
    · rintro rfl
      exact absurd hc.1 (by decide)
    · simp only [Json.isDigit, Bool.and_eq_true, decide_eq_true_eq]
      exact ⟨le_trans (by decide) hc.1, hc.2⟩
  have hfrac : Regex.Takes (fracRe : Regex γ) Json.IsFrac := by
    refine ((Regex.takes_char 0x2E).seq takes_digits1).opt.mono ?_
    rintro v (rfl | ⟨_, _, rfl, ⟨c, ds, rfl, hc, hds⟩, rfl⟩)
    · exact Or.inl rfl
    · exact Or.inr ⟨c, ds, rfl, hc, hds⟩
  have hexp : Regex.Takes (expRe : Regex γ) Json.IsExp := by
    refine ((Regex.takes_set _).seq ((Regex.takes_set _).opt.seq takes_digits1)).opt.mono ?_
    rintro v (rfl | ⟨_, _, ⟨e, he, rfl⟩, ⟨sign, _, hsign, ⟨c, ds, rfl, hc, hds⟩, rfl⟩, rfl⟩)
    · exact Or.inl rfl
    · refine Or.inr ⟨e, sign, c, ds, rfl, by simpa using he, ?_, hc, hds⟩
      rcases hsign with rfl | ⟨s, hs, rfl⟩
      · exact Or.inl rfl
      · have hmem := of_decide_eq_true hs
        simp only [List.mem_cons, List.not_mem_nil, or_false] at hmem
        rcases hmem with rfl | rfl
        · exact Or.inr (Or.inr rfl)
        · exact Or.inr (Or.inl rfl)
  refine ((Regex.takes_char 0x2D).opt.seq (hint.seq (hfrac.seq hexp))).mono ?_
  rintro v ⟨sign, _, hsign, ⟨int, _, hint, ⟨frac, exp, hfrac, hexp, rfl⟩, rfl⟩, rfl⟩
  exact ⟨sign, int, frac, exp, rfl, hsign, hint, hfrac, hexp⟩

theorem takes_literalRe : Regex.Takes (literalRe : Regex γ) (· ∈ Json.literals) := by
  refine Regex.Takes.alt ?_ (Regex.Takes.alt ?_ ?_)
  · exact (Regex.takes_literal _ _).mono fun v hv => by rw [hv]; decide
  · exact (Regex.takes_literal _ _).mono fun v hv => by rw [hv]; decide
  · exact (Regex.takes_literal _ _).mono fun v hv => by rw [hv]; decide

/-- A text of ordinary octets. -/
def Plain (v : Text) : Prop := ∀ c ∈ v, isOrdinary c = true

theorem takes_plain : Regex.Takes (.star ordinaryRe : Regex γ) Plain := Regex.takes_star_set _

theorem Plain.isBody {v : Text} (h : Plain v) : Json.IsBody v := by
  refine ⟨v.map .plain, ?_, ?_, ?_⟩
  · intro p hp
    obtain ⟨c, hc, rfl⟩ := List.mem_map.mp hp
    have hordinary := h c hc
    simp only [isOrdinary, Bool.and_eq_true, decide_eq_true_eq] at hordinary
    exact ⟨hordinary.2, hordinary.1.1, hordinary.1.2⟩
  · clear h
    induction v with
    | nil => rfl
    | cons c v ih =>
      rw [List.map_cons, Json.paired_cons rfl]
      exact ih
  · clear h
    induction v with
    | nil => rfl
    | cons c v ih =>
      rw [List.map_cons, List.flatMap_cons, ← ih]
      rfl

theorem Plain.not_mem {v : Text} (h : Plain v) : 0x5C ∉ v := by
  intro hmem
  exact absurd (h _ hmem) (by decide)

/-- What `_MEMBER` takes off is a member of the grammar and the octet after it. -/
theorem MEMBER_sound {m : Regex.Match Part} (hm : m ∈ MEMBER.outcomes t) :
    ∃ close v, t = v ++ close :: m.rest ∧ (close = 0x2C ∨ close = 0x7D) ∧
      Json.Member Json.Scalar (groupOf m .name) (groupOf m .value) v ∧
      Plain (groupOf m .name) ∧ groupOf m .close = [close] := by
  have hstring : Regex.Takes (.seq (.char 0x22) (.seq (.star ordinaryRe) (.char 0x22)) : Regex Part)
      Json.Scalar := by
    refine ((Regex.takes_char 0x22).seq (takes_plain.seq (Regex.takes_char 0x22))).mono ?_
    rintro v ⟨_, _, rfl, ⟨body, _, hbody, rfl, rfl⟩, rfl⟩
    exact Or.inr (Or.inr ⟨body, hbody.isBody, rfl⟩)
  have hvalue : Regex.Takes (.alt (.seq (.char 0x22) (.seq (.star ordinaryRe) (.char 0x22)))
      (.alt numberRe literalRe) : Regex Part) Json.Scalar :=
    hstring.alt ((takes_numberRe.mono fun v hv => Or.inr (Or.inl hv)).alt
      (takes_literalRe.mono fun v hv => Or.inl hv))
  rw [MEMBER] at hm
  obtain ⟨a, t₁, ha, rfl, h₁⟩ := takes_blanksRe.of_seq hm
  obtain ⟨_, t₂, rfl, rfl, h₂⟩ := (Regex.takes_char 0x22).of_seq h₁
  obtain ⟨name, t₃, m₃, hname, rfl, h₃, hrest, hgroups⟩ := takes_plain.of_group_seq h₂
  obtain ⟨_, t₄, rfl, rfl, h₄⟩ := (Regex.takes_char 0x22).of_seq h₃
  obtain ⟨b, t₅, hb, rfl, h₅⟩ := takes_blanksRe.of_seq h₄
  obtain ⟨_, t₆, rfl, rfl, h₆⟩ := (Regex.takes_char 0x3A).of_seq h₅
  obtain ⟨c, t₇, hc, rfl, h₇⟩ := takes_blanksRe.of_seq h₆
  obtain ⟨v, t₈, m₈, hv, rfl, h₈, hrest₁, hgroups₁⟩ := hvalue.of_group_seq h₇
  obtain ⟨d, t₉, hd, rfl, h₉⟩ := takes_blanksRe.of_seq h₈
  obtain ⟨_, ⟨close, hclose, rfl⟩, rfl, hgroups₂⟩ := (Regex.takes_set _).of_group h₉
  rw [hgroups₁, hgroups₂] at hgroups
  have hgroupName : groupOf m .name = name := by
    rw [groupOf, hgroups]
    exact between_append _ _
  have hgroupValue : groupOf m .value = v := by
    rw [groupOf, hgroups]
    exact between_append _ _
  have hgroupClose : groupOf m .close = [close] := by
    rw [groupOf, hgroups]
    exact between_append _ _
  rw [hgroupName, hgroupValue, hgroupClose, hrest, hrest₁]
  refine ⟨close, a ++ 0x22 :: (name ++ 0x22 :: (b ++ 0x3A :: (c ++ (v ++ d)))), by simp,
    by simpa using hclose, ⟨ha, hname.isBody, hb, hv, hc, hd⟩, hname, rfl⟩

/-! ## The walk -/

theorem Policy.snoc {fields : Fields} (h : Policy fields) {name : Bytes} (value : Bytes)
    (hplain : Plain name) (hnew : name ∉ fields.map Prod.fst)
    (hcount : fields.length < MAX_TOP_LEVEL_KEYS) : Policy (fields ++ [(name, value)]) := by
  refine ⟨?_, ?_, ?_⟩
  · intro field hfield
    rcases List.mem_append.mp hfield with hfield | hfield
    · exact h.noEscape field hfield
    · rw [List.mem_singleton.mp hfield]
      exact hplain.not_mem
  · rw [List.map_append, List.nodup_append]
    refine ⟨h.distinct, by simp, ?_⟩
    rintro key hkey other hother rfl
    rw [List.map_singleton, List.mem_singleton] at hother
    subst hother
    exact hnew hkey
  · rw [List.length_append]
    exact hcount

/-- The walk ends; it hands over, or it has come to the end of an object of flat members that keeps
the policy. -/
theorem memberWalk_cases {fields : Fields} (h : At data pos t) (hfields : Policy fields)
    (hn : t.length < n) :
    memberWalk data n fields pos = .ok none ∨
      ∃ ms body tail, memberWalk data n fields pos = .ok (some (fields ++ ms)) ∧
        t = body ++ 0x7D :: tail ∧ Json.Members Json.Scalar ms body ∧ Json.Ws tail ∧
          Policy (fields ++ ms) := by
  induction n generalizing fields pos t with
  | zero => exact absurd hn (Nat.not_lt_zero _)
  | succ n ih =>
    rw [memberWalk, h.2]
    cases hmatch : MEMBER.match? t with
    | none => exact Or.inl rfl
    | some m =>
      have hmem : m ∈ MEMBER.outcomes t := List.mem_of_mem_head? hmatch
      obtain ⟨close, v, ht, hclose, hmember, hplain, hgroup⟩ := MEMBER_sound hmem
      dsimp only
      by_cases hpolicy : groupOf m .name ∈ fields.map Prod.fst ∨ fields.length ≥ MAX_TOP_LEVEL_KEYS
      · rw [if_pos (by simpa using hpolicy)]
        exact Or.inl rfl
      rw [if_neg (by simpa using hpolicy)]
      obtain ⟨hnew, hcount⟩ := not_or.mp hpolicy
      have hsnoc := hfields.snoc (groupOf m .value) hplain hnew (Nat.not_le.mp hcount)
      have hrest : At data (data.length - m.rest.length) m.rest := by
        refine At.of_suffix (List.IsSuffix.trans ?_ h.suffix)
        exact ⟨v ++ [close], by rw [ht]; simp⟩
      rw [hgroup]
      rcases hclose with rfl | rfl
      · -- a comma: the walk goes on with what is left
        rw [if_neg (by decide)]
        have hless : m.rest.length < n := by
          rw [ht, List.length_append, List.length_cons] at hn
          omega
        rcases ih hrest hsnoc hless with hnone | ⟨ms, body, tail, hok, hbody, hms, htail, hall⟩
        · exact Or.inl hnone
        · refine Or.inr ⟨(groupOf m .name, groupOf m .value) :: ms, v ++ 0x2C :: body, tail, ?_, ?_,
            .cons hmember hms, htail, ?_⟩
          · rw [hok, List.append_assoc]
            rfl
          · rw [ht, hbody]
            simp
          · rwa [List.append_assoc] at hall
      · rw [if_pos rfl, hrest.2]
        split_ifs with hend
        · refine Or.inr ⟨[(groupOf m .name, groupOf m .value)], v, m.rest, rfl, ht, .last hmember,
            ?_,
            hsnoc⟩
          rw [Bool.or_eq_true, decide_eq_true_eq, Bool.not_eq_true'] at hend
          rcases hend with hend | hend
          · -- the closing brace is the last octet
            have hnil : m.rest = [] := by
              rw [hend] at hrest
              exact List.eq_nil_of_length_eq_zero (by have := hrest.length_eq; omega)
            rw [hnil]
            exact fun c hc => absurd hc List.not_mem_nil
          · exact Json.skipWs_eq_nil_iff.mp ((any_not_mem_WS _).mp hend)
        · exact Or.inl rfl

/-- A frame that opens an object: the walk hands over, or the frame is an object text that keeps the
policy and the walk returns the members of it. -/
theorem memberWalk_document (t : Text) :
    memberWalk (0x7B :: t) ((0x7B :: t).length + 1) [] 1 = .ok none ∨
      ∃ fields, memberWalk (0x7B :: t) ((0x7B :: t).length + 1) [] 1 = .ok (some fields) ∧
        Json.document MAX_NESTING_DEPTH (0x7B :: t) = some fields ∧ Policy fields := by
  have hstart : At (0x7B :: t) 1 t := (At.start _).tail
  have hlength : t.length < (0x7B :: t).length + 1 := by
    rw [List.length_cons]
    omega
  refine (memberWalk_cases hstart Policy.nil hlength).imp_right ?_
  rintro ⟨ms, body, tail, hok, ht, hms, htail, hpolicy⟩
  refine ⟨ms, hok, Json.document_eq_some_iff.mpr ?_, hpolicy⟩
  refine ⟨by decide, [], 0x7B :: (body ++ [0x7D]), tail, fun c hc => absurd hc List.not_mem_nil,
    htail, ⟨body, Or.inr (hms.mono fun v hv => Or.inl hv), rfl⟩, ?_⟩
  rw [ht]
  simp

/-- The guard of the fast path. -/
theorem scan_guard (hfast : 0x5C ∉ data ∧ data.take 1 = [0x7B]) : ∃ t, data = 0x7B :: t := by
  cases data with
  | nil => simp at hfast
  | cons c t => exact ⟨t, by simpa using hfast.2⟩

/-- `_scan` returns the members of an object text that keeps the policy, and raises on every other
frame. -/
theorem scan_cases (data : Bytes) :
    (∃ fields, Json.document MAX_NESTING_DEPTH data = some fields ∧ Policy fields ∧
      scan decodeError data = .ok fields) ∨
    (∃ e, scan decodeError data = .error (.valueError e)) ∧
      ∀ fields, Json.document MAX_NESTING_DEPTH data = some fields → ¬Policy fields := by
  rw [scan]
  by_cases hfast : 0x5C ∉ data ∧ data.take 1 = [0x7B]
  · obtain ⟨t, rfl⟩ := scan_guard hfast
    rw [if_pos (by simpa using hfast)]
    rcases memberWalk_document t with hnone | ⟨fields, hok, hdocument, hpolicy⟩
    · rw [hnone]
      exact scanGeneral_cases _
    · rw [hok]
      exact Or.inl ⟨fields, hdocument, hpolicy, rfl⟩
  · rw [if_neg (by simpa using hfast)]
    exact scanGeneral_cases data

/-- The fast path decides nothing: a frame that it walks to the end is one that the scan of record
reads to the same members. -/
theorem scan_eq_scanGeneral (decodeError : Bytes → Bytes) (data : Bytes) :
    scan decodeError data = scanGeneral decodeError data := by
  rw [scan]
  by_cases hfast : 0x5C ∉ data ∧ data.take 1 = [0x7B]
  · obtain ⟨t, rfl⟩ := scan_guard hfast
    rw [if_pos (by simpa using hfast)]
    rcases memberWalk_document t with hnone | ⟨fields, hok, hdocument, hpolicy⟩
    · rw [hnone]
      rfl
    · rw [hok]
      rcases @scanGeneral_cases decodeError (0x7B :: t) with
        ⟨fields', hdocument', -, hscan⟩ | ⟨-, hnone⟩
      · rw [hdocument] at hdocument'
        cases hdocument'
        exact hscan.symm
      · exact absurd hpolicy (hnone fields hdocument)
  · rw [if_neg (by simpa using hfast)]

end Client

end MarketMaker
