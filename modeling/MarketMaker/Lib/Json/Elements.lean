import Mathlib.Data.List.DropRight
import MarketMaker.Lib.Json.Document
import MarketMaker.Lib.Json.Value

/-!
# The elements of an array

An array with the texts of its elements, and when they are what remains of its body split at the
commas. A comma inside an element splits it, so the two agree where no element has one; a body of
blanks, commas and the octets of integers has no other elements (`splitOn_elementList_of_parts`).
-/

namespace Json

/-- `value *( value-separator value )`, with the values. -/
inductive ElementList (P : Text → Prop) : List Text → Text → Prop
  | last {a v b : Text} (before : Ws a) (value : P v) (after : Ws b) :
      ElementList P [v] (a ++ (v ++ b))
  | cons {a v b rest : Text} {vs : List Text} (before : Ws a) (value : P v) (after : Ws b)
      (more : ElementList P vs rest) : ElementList P (v :: vs) (a ++ (v ++ (b ++ 0x2C :: rest)))

/-- `array`, with its elements. -/
def IsArrayOf (P : Text → Prop) (vs : List Text) (t : Text) : Prop :=
  ∃ body, (Ws body ∧ vs = [] ∨ ElementList P vs body) ∧ t = 0x5B :: (body ++ [0x5D])

section Elements

variable {P : Text → Prop} {vs : List Text} {body t : Text}

theorem elements_iff : Elements P body ↔ ∃ vs, ElementList P vs body := by
  constructor
  · intro h
    induction h with
    | last before value after => exact ⟨_, .last before value after⟩
    | cons before value after _ ih =>
      obtain ⟨vs, hvs⟩ := ih
      exact ⟨_, .cons before value after hvs⟩
  · rintro ⟨vs, h⟩
    induction h with
    | last before value after => exact .last before value after
    | cons before value after _ ih => exact .cons before value after ih

theorem isArray_iff : IsArray P t ↔ ∃ vs, IsArrayOf P vs t := by
  constructor
  · rintro ⟨body, hblank | helements, rfl⟩
    · exact ⟨[], body, Or.inl ⟨hblank, rfl⟩, rfl⟩
    · obtain ⟨vs, hvs⟩ := elements_iff.mp helements
      exact ⟨vs, body, Or.inr hvs, rfl⟩
  · rintro ⟨vs, body, ⟨hblank, -⟩ | hvs, rfl⟩
    · exact ⟨body, Or.inl hblank, rfl⟩
    · exact ⟨body, Or.inr (elements_iff.mpr ⟨vs, hvs⟩), rfl⟩

theorem ElementList.nonempty (h : ElementList P vs body) : vs ≠ [] := by
  cases h <;> exact List.cons_ne_nil _ _

/-- An element is a value, and its octets are octets of the body. -/
theorem ElementList.mem (h : ElementList P vs body) : ∀ v ∈ vs, P v ∧ ∀ c ∈ v, c ∈ body := by
  induction h with
  | last before value after =>
    refine List.forall_mem_singleton.mpr ⟨value, fun c hc => ?_⟩
    exact List.mem_append_right _ (List.mem_append_left _ hc)
  | cons before value after more ih =>
    refine List.forall_mem_cons.mpr ⟨⟨value, fun c hc => ?_⟩, fun v hv => ⟨(ih v hv).1, ?_⟩⟩
    · exact List.mem_append_right _ (List.mem_append_left _ hc)
    · intro c hc
      have hmore := (ih v hv).2 c hc
      exact List.mem_append_right _ (List.mem_append_right _
        (List.mem_append_right _ (List.mem_cons_of_mem _ hmore)))

end Elements

/-! ## Trimming -/

/-- The text without the blanks around it. -/
def trim (t : Text) : Text := (t.dropWhile isWs).rdropWhile isWs

section Trim

variable {a b t : Text}

theorem trim_ws_append (ha : Ws a) : trim (a ++ t) = trim t := by
  have hdrop : (a ++ t).dropWhile isWs = t.dropWhile isWs := skipWs_ws_append ha t
  rw [trim, hdrop, trim]

theorem rdropWhile_append_ws (hb : Ws b) : (t ++ b).rdropWhile isWs = t.rdropWhile isWs := by
  have hreverse : Ws b.reverse := fun c hc => hb c (List.mem_reverse.mp hc)
  have hdrop : (b.reverse ++ t.reverse).dropWhile isWs = t.reverse.dropWhile isWs :=
    skipWs_ws_append hreverse t.reverse
  rw [List.rdropWhile, List.reverse_append, hdrop, List.rdropWhile]

theorem trim_append_ws (hb : Ws b) : trim (t ++ b) = trim t := by
  rw [trim, trim, List.dropWhile_append]
  split_ifs with hall
  · have hblank : (t.dropWhile isWs) = [] := List.isEmpty_iff.mp hall
    have hdrop : b.dropWhile isWs = [] := List.dropWhile_eq_nil_iff.mpr hb
    rw [hblank, hdrop]
  · exact rdropWhile_append_ws hb

/-- A text without blanks stays as it is. -/
theorem trim_of_forall (h : ∀ c ∈ t, isWs c = false) : trim t = t := by
  have hfront : t.dropWhile isWs = t := by
    cases t with
    | nil => rfl
    | cons c t => exact skipWs_cons (h c List.mem_cons_self) t
  rw [trim, hfront, List.rdropWhile_eq_self_iff]
  intro hne hlast
  rw [h _ (List.getLast_mem hne)] at hlast
  cases hlast

/-- What is trimmed off is blank. -/
theorem exists_trim (t : Text) : ∃ a b, Ws a ∧ Ws b ∧ t = a ++ (trim t ++ b) := by
  obtain ⟨a, ha, ht⟩ := exists_ws_append_skipWs t
  refine ⟨a, (t.dropWhile isWs).rtakeWhile isWs, ha, fun c hc => List.mem_rtakeWhile_imp hc, ?_⟩
  rw [trim, List.rdropWhile_append_rtakeWhile]
  exact ht

theorem mem_trim_or_ws {c : UInt8} (hc : c ∈ t) : c ∈ trim t ∨ isWs c = true := by
  obtain ⟨a, b, ha, hb, ht⟩ := exists_trim t
  rw [ht, List.mem_append, List.mem_append] at hc
  rcases hc with hc | hc | hc
  · exact Or.inr (ha c hc)
  · exact Or.inl hc
  · exact Or.inr (hb c hc)

end Trim

/-! ## Splitting at the commas -/

section Split

variable {a b t : Text} {c : UInt8}

theorem splitOn_append_left (ha : c ∉ a) :
    (a ++ t).splitOn c = (t.splitOn c).modifyHead (a ++ ·) := by
  induction a with
  | nil =>
    rw [List.nil_append]
    cases t.splitOn c with
    | nil => rfl
    | cons p ps => rfl
  | cons d a ih =>
    have hd : (d == c) = false := beq_eq_false_iff_ne.mpr fun h => ha (h ▸ List.mem_cons_self)
    rw [List.cons_append, List.splitOn_cons_eq_if_modifyHead, hd,
      ih fun hc => ha (List.mem_cons_of_mem d hc)]
    cases t.splitOn c with
    | nil => rfl
    | cons p ps => rfl

/-- A text without the separator only makes the last part longer. -/
theorem splitOn_append_right (hb : c ∉ b) :
    ∃ ps p, t.splitOn c = ps ++ [p] ∧ (t ++ b).splitOn c = ps ++ [p ++ b] := by
  induction t with
  | nil => exact ⟨[], [], rfl, List.splitOn_eq_singleton hb⟩
  | cons d t ih =>
    obtain ⟨ps, p, ht, htb⟩ := ih
    rw [List.cons_append, List.splitOn_cons_eq_if_modifyHead, List.splitOn_cons_eq_if_modifyHead,
      ht, htb]
    split_ifs
    · exact ⟨[] :: ps, p, rfl, rfl⟩
    · cases ps with
      | nil => exact ⟨[], d :: p, rfl, rfl⟩
      | cons q ps => exact ⟨(d :: q) :: ps, p, rfl, rfl⟩

/-- Blanks around the text are blanks around its parts. -/
theorem map_trim_splitOn_trim (hc : isWs c = false) :
    ((trim t).splitOn c).map trim = (t.splitOn c).map trim := by
  obtain ⟨a, b, ha, hb, ht⟩ := exists_trim t
  have hno : ∀ {s : Text}, Ws s → c ∉ s := by
    intro s hs hmem
    rw [hs c hmem] at hc
    cases hc
  obtain ⟨ps, p, hsplit, hsplitb⟩ := splitOn_append_right (t := trim t) (hno hb)
  have hright : ((trim t ++ b).splitOn c).map trim = ((trim t).splitOn c).map trim := by
    rw [hsplit, hsplitb, List.map_append, List.map_append, List.map_singleton, List.map_singleton,
      trim_append_ws hb]
  conv_rhs => rw [ht, splitOn_append_left (hno ha)]
  rw [← hright]
  cases (trim t ++ b).splitOn c with
  | nil => rfl
  | cons q qs => rw [List.modifyHead_cons, List.map_cons, List.map_cons, trim_ws_append ha]

/-- Elements with neither a comma nor a blank are the parts. -/
theorem splitOn_elementList {P : Text → Prop} {vs : List Text} {body : Text}
    (h : ElementList P vs body)
    (hplain : ∀ v ∈ vs, ∀ c ∈ v, isWs c = false ∧ c ≠ 0x2C) :
    (body.splitOn 0x2C).map trim = vs := by
  have hno : ∀ {s : Text}, Ws s → 0x2C ∉ s := fun hs hmem => by cases hs 0x2C hmem
  have hpart : ∀ {a v b : Text}, Ws a → Ws b → (∀ c ∈ v, isWs c = false ∧ c ≠ 0x2C) →
      0x2C ∉ a ++ (v ++ b) ∧ trim (a ++ (v ++ b)) = v := by
    intro a v b ha hb hv
    refine ⟨?_, ?_⟩
    · rw [List.mem_append, List.mem_append]
      rintro (hmem | hmem | hmem)
      · exact hno ha hmem
      · exact (hv 0x2C hmem).2 rfl
      · exact hno hb hmem
    · rw [trim_ws_append ha, trim_append_ws hb, trim_of_forall fun c hc => (hv c hc).1]
  induction h with
  | last before value after =>
    obtain ⟨hcomma, htrim⟩ := hpart before after (hplain _ List.mem_cons_self)
    rw [List.splitOn_eq_singleton hcomma, List.map_singleton, htrim]
  | @cons a v b rest vs before value after more ih =>
    obtain ⟨hcomma, htrim⟩ := hpart before after (hplain v List.mem_cons_self)
    have hbody : a ++ (v ++ (b ++ 0x2C :: rest)) = a ++ (v ++ b) ++ 0x2C :: rest := by simp
    rw [hbody, List.splitOn_append_cons_self_of_not_mem hcomma, List.map_cons, htrim,
      ih fun v hv => hplain v (List.mem_cons_of_mem _ hv)]

/-- Every octet of a text is the separator or in one of its parts. -/
theorem mem_splitOn {d : UInt8} (hd : d ∈ t) : d = c ∨ ∃ part ∈ t.splitOn c, d ∈ part := by
  induction t with
  | nil => cases hd
  | cons e t ih =>
    obtain ⟨q, qs, hsplit⟩ := List.exists_cons_of_ne_nil (List.splitOn_ne_nil c t)
    rw [List.splitOn_cons_eq_if_modifyHead, hsplit]
    rw [hsplit] at ih
    split_ifs with hsep
    · rcases List.mem_cons.mp hd with rfl | hd
      · exact Or.inl (beq_iff_eq.mp hsep)
      · exact (ih hd).imp_right fun ⟨part, hpart, h⟩ => ⟨part, List.mem_cons_of_mem _ hpart, h⟩
    · rw [List.modifyHead_cons]
      rcases List.mem_cons.mp hd with rfl | hd
      · exact Or.inr ⟨d :: q, List.mem_cons_self, List.mem_cons_self⟩
      · rcases ih hd with rfl | ⟨part, hpart, h⟩
        · exact Or.inl rfl
        · rcases List.mem_cons.mp hpart with rfl | hpart
          · exact Or.inr ⟨e :: part, List.mem_cons_self, List.mem_cons_of_mem e h⟩
          · exact Or.inr ⟨part, List.mem_cons_of_mem _ hpart, h⟩

end Split

/-! ## Integers -/

/-- An octet of a number. -/
theorem IsNumber.mem {v : Text} (h : IsNumber v) {c : UInt8} (hc : c ∈ v) :
    isDigit c = true ∨ c ∈ [0x2D, 0x2E, 0x65, 0x45, 0x2B] := by
  have hdigits : ∀ {e : UInt8} {ds : Text}, isDigit e = true → Digits ds →
      ∀ c ∈ e :: ds, isDigit c = true := fun he hds => List.forall_mem_cons.mpr ⟨he, hds⟩
  obtain ⟨sign, int, frac, exp, rfl, hsign, hint, hfrac, hexp⟩ := h
  rw [List.mem_append, List.mem_append, List.mem_append] at hc
  rcases hc with hc | hc | hc | hc
  · rcases hsign with rfl | rfl
    · cases hc
    · rw [List.mem_singleton.mp hc]
      exact Or.inr (by decide)
  · rcases hint with rfl | ⟨e, ds, rfl, -, he, hds⟩
    · rw [List.mem_singleton.mp hc]
      exact Or.inl rfl
    · exact Or.inl (hdigits he hds c hc)
  · rcases hfrac with rfl | ⟨e, ds, rfl, he, hds⟩
    · cases hc
    · rcases List.mem_cons.mp hc with rfl | hc
      · exact Or.inr (by decide)
      · exact Or.inl (hdigits he hds c hc)
  · rcases hexp with rfl | ⟨e, s, d, ds, rfl, he, hs, hd, hds⟩
    · cases hc
    · rcases List.mem_cons.mp hc with rfl | hc
      · rcases he with rfl | rfl
        · exact Or.inr (by decide)
        · exact Or.inr (by decide)
      · rcases List.mem_append.mp hc with hc | hc
        · rcases hs with rfl | rfl | rfl
          · cases hc
          · rw [List.mem_singleton.mp hc]
            exact Or.inr (by decide)
          · rw [List.mem_singleton.mp hc]
            exact Or.inr (by decide)
        · exact Or.inl (hdigits hd hds c hc)

/-- A digit is neither a blank nor a comma. -/
theorem plain_of_isDigit {c : UInt8} (h : isDigit c = true) : isWs c = false ∧ c ≠ 0x2C := by
  obtain ⟨hge, hle⟩ := isDigit_iff.mp h
  have hother : ∀ e : UInt8, e.toNat < 0x30 → c ≠ e := by
    rintro e he rfl
    omega
  refine ⟨?_, hother 0x2C (by decide)⟩
  simp [isWs, hother 0x20 (by decide), hother 0x09 (by decide), hother 0x0A (by decide),
    hother 0x0D (by decide)]

theorem IsNumber.plain {v : Text} (h : IsNumber v) :
    ∀ c ∈ v, isWs c = false ∧ c ≠ 0x2C := by
  intro c hc
  rcases h.mem hc with hdigit | hmem
  · exact plain_of_isDigit hdigit
  · simp only [List.mem_cons, List.not_mem_nil, or_false] at hmem
    rcases hmem with rfl | rfl | rfl | rfl | rfl <;> decide

/-- Where every part of a body is an integer, the parts are the elements. -/
theorem splitOn_elementList_of_parts {d : ℕ} {vs : List Text} {body : Text}
    (h : ElementList (Value d) vs body)
    (hparts : ∀ part ∈ ((trim body).splitOn 0x2C).map trim, ∀ c ∈ part,
      c = 0x2D ∨ isDigit c = true) :
    ((trim body).splitOn 0x2C).map trim = vs := by
  have hbody : ∀ c ∈ body, c = 0x2C ∨ isWs c = true ∨ c = 0x2D ∨ isDigit c = true := by
    intro c hc
    rcases mem_trim_or_ws hc with hc | hws
    · rcases mem_splitOn (c := 0x2C) hc with rfl | ⟨part, hpart, hmem⟩
      · exact Or.inl rfl
      · rcases mem_trim_or_ws hmem with hmem | hws
        · exact Or.inr (Or.inr (hparts _ (List.mem_map_of_mem hpart) c hmem))
        · exact Or.inr (Or.inl hws)
    · exact Or.inr (Or.inl hws)
  rw [map_trim_splitOn_trim (by decide)]
  refine splitOn_elementList h fun v hv => ?_
  obtain ⟨hvalue, hmem⟩ := h.mem v hv
  exact (hvalue.isNumber fun c hc => hbody c (hmem c hc)).plain

/-- Where every element is an integer, so too. -/
theorem splitOn_elementList_of_elements {P : Text → Prop} {vs : List Text} {body : Text}
    (h : ElementList P vs body)
    (hvs : ∀ v ∈ vs, ∀ c ∈ v, c = 0x2D ∨ isDigit c = true) :
    ((trim body).splitOn 0x2C).map trim = vs := by
  rw [map_trim_splitOn_trim (by decide)]
  refine splitOn_elementList h fun v hv c hc => ?_
  rcases hvs v hv c hc with rfl | hdigit
  · decide
  · exact plain_of_isDigit hdigit

end Json
