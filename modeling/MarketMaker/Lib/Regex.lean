import Mathlib.Data.List.Basic
import Mathlib.Data.Nat.Notation
import Mathlib.Data.List.TakeWhile
import Mathlib.Tactic.SplitIfs

/-!
# Regular expressions that backtrack

A pattern over octets with groups, as a backtracking engine matches it at the start of a text: the
ways to match are tried in a fixed order and the first that goes through is the match. `outcomes` is
the list of all ways in that order; an alternative comes after the one on its left, and a greedy
repetition takes as many rounds as it can before it takes fewer. An atomic group keeps only its
first way, which is what a possessive quantifier means.

A place in the text is what is left of it there, so a group is kept as the texts left at its two
ends. -/

/-- A pattern, with groups named by `γ`. -/
inductive Regex (γ : Type)
  /-- One octet of a class. -/
  | set (p : UInt8 → Bool)
  | seq (r s : Regex γ)
  | alt (r s : Regex γ)
  /-- `r?`. -/
  | opt (r : Regex γ)
  /-- `r*`. -/
  | star (r : Regex γ)
  /-- `(?>r)`. -/
  | atomic (r : Regex γ)
  /-- `(?P<name>r)`. -/
  | group (name : γ) (r : Regex γ)

namespace Regex

variable {γ : Type}

/-- One way to match. -/
structure Match (γ : Type) where
  /-- What is left of the text. -/
  rest : List UInt8
  /-- The groups in the order they closed, each with what is left at its two ends. -/
  groups : List (γ × List UInt8 × List UInt8)

/-- The groups of what came before. -/
def Match.after (before : List (γ × List UInt8 × List UInt8)) (m : Match γ) : Match γ :=
  { m with groups := before ++ m.groups }

/-- The rounds of a greedy repetition, at most `n` of them. A round that takes nothing off does not
count. -/
def rounds (step : List UInt8 → List (Match γ)) : ℕ → List UInt8 → List (Match γ)
  | 0, t => [⟨t, []⟩]
  | n + 1, t =>
    ((step t).flatMap fun m =>
      if m.rest.length < t.length then (rounds step n m.rest).map (.after m.groups) else []) ++
      [⟨t, []⟩]

/-- The ways to match at the start of a text, in the order they are tried. -/
def outcomes : Regex γ → List UInt8 → List (Match γ)
  | set _, [] => []
  | set p, c :: t => if p c then [⟨t, []⟩] else []
  | seq r s, t => (outcomes r t).flatMap fun m => (outcomes s m.rest).map (.after m.groups)
  | alt r s, t => outcomes r t ++ outcomes s t
  | opt r, t => outcomes r t ++ [⟨t, []⟩]
  | star r, t => rounds (outcomes r) t.length t
  | atomic r, t => (outcomes r t).take 1
  | group name r, t => (outcomes r t).map fun m =>
    { m with groups := m.groups ++ [(name, t, m.rest)] }

/-- The match at the start of a text. -/
def match? (r : Regex γ) (t : List UInt8) : Option (Match γ) := (outcomes r t).head?

/-- The matches of a pattern that takes at least one octet, from left to right, each with what is
left where it starts. -/
def findAll (r : Regex γ) : ℕ → List UInt8 → List (List UInt8 × Match γ)
  | 0, _ => []
  | _, [] => []
  | n + 1, c :: t =>
    match match? r (c :: t) with
    | some m => (c :: t, m) :: findAll r n m.rest
    | none => findAll r n t

/-! ## Shorthands -/

/-- One octet. -/
def char (c : UInt8) : Regex γ := set fun d => d = c

/-- `[cs]`. -/
def oneOf (cs : List UInt8) : Regex γ := set fun d => d ∈ cs

/-- The octets of a text, one after the other. -/
def literal : UInt8 → List UInt8 → Regex γ
  | c, [] => char c
  | c, d :: ds => seq (char c) (literal d ds)

/-- `r+`. -/
def plus (r : Regex γ) : Regex γ := seq r (star r)

/-! ## Equations -/

/-- The match is the first outcome. -/
theorem match?_eq (r : Regex γ) (t : List UInt8) : match? r t = (outcomes r t).head? := rfl

/-- A set takes one byte of it. -/
theorem outcomes_set_cons (p : UInt8 → Bool) (c : UInt8) (t : List UInt8) :
    outcomes (set p : Regex γ) (c :: t) = if p c then [⟨t, []⟩] else [] := rfl

/-- A sequence goes on from each outcome of its first part. -/
theorem outcomes_seq (r s : Regex γ) (t : List UInt8) :
    outcomes (seq r s) t =
      (outcomes r t).flatMap fun m => (outcomes s m.rest).map (.after m.groups) := rfl

/-- The left alternative is tried first. -/
theorem outcomes_alt (r s : Regex γ) (t : List UInt8) :
    outcomes (alt r s) t = outcomes r t ++ outcomes s t := rfl

/-- An option is tried before it is left out. -/
theorem outcomes_opt (r : Regex γ) (t : List UInt8) :
    outcomes (opt r) t = outcomes r t ++ [⟨t, []⟩] := rfl

/-- A star goes round at most once for each byte. -/
theorem outcomes_star (r : Regex γ) (t : List UInt8) :
    outcomes (star r) t = rounds (outcomes r) t.length t := rfl

/-- An atomic group keeps its first outcome. -/
theorem outcomes_atomic (r : Regex γ) (t : List UInt8) :
    outcomes (atomic r) t = (outcomes r t).take 1 := rfl

/-- A group adds the text it took. -/
theorem outcomes_group (name : γ) (r : Regex γ) (t : List UInt8) :
    outcomes (group name r) t =
      (outcomes r t).map fun m => { m with groups := m.groups ++ [(name, t, m.rest)] } := rfl

theorem rounds_zero (step : List UInt8 → List (Match γ)) (t : List UInt8) :
    rounds step 0 t = [⟨t, []⟩] := rfl

theorem rounds_succ (step : List UInt8 → List (Match γ)) (n : ℕ) (t : List UInt8) :
    rounds step (n + 1) t =
      ((step t).flatMap fun m =>
        if m.rest.length < t.length then (rounds step n m.rest).map (.after m.groups) else []) ++
        [⟨t, []⟩] := rfl

/-! ## The first way -/

theorem match?_set_cons (p : UInt8 → Bool) (c : UInt8) (t : List UInt8) :
    match? (set p : Regex γ) (c :: t) = if p c then some ⟨t, []⟩ else none := by
  rw [match?_eq, outcomes_set_cons]
  split_ifs <;> rfl

@[simp]
theorem match?_set_nil (p : UInt8 → Bool) : match? (set p : Regex γ) [] = none := rfl

/-- The right alternative is matched where the left one is not. -/
theorem match?_alt (r s : Regex γ) (t : List UInt8) :
    match? (alt r s) t = (match? r t).or (match? s t) := by
  rw [match?_eq, outcomes_alt, List.head?_append]
  rfl

/-- An option always matches. -/
theorem match?_opt (r : Regex γ) (t : List UInt8) :
    match? (opt r) t = some ((match? r t).getD ⟨t, []⟩) := by
  rw [match?_eq, outcomes_opt, List.head?_append, match?_eq]
  cases (outcomes r t).head? <;> rfl

/-- An atomic group matches what it holds. -/
theorem match?_atomic (r : Regex γ) (t : List UInt8) : match? (atomic r) t = match? r t := by
  rw [match?_eq, outcomes_atomic, List.head?_take]
  rfl

/-- A group matches what it holds, and notes it. -/
theorem match?_group (name : γ) (r : Regex γ) (t : List UInt8) :
    match? (group name r) t =
      (match? r t).map fun m => { m with groups := m.groups ++ [(name, t, m.rest)] } := by
  rw [match?_eq, outcomes_group, List.head?_map]
  rfl

/-- A sequence goes on from the first way of its first part that lets the second one match. -/
theorem match?_seq (r s : Regex γ) (t : List UInt8) :
    match? (seq r s) t =
      (outcomes r t).findSome? fun m => (match? s m.rest).map (.after m.groups) := by
  rw [match?_eq, outcomes_seq, List.head?_flatMap]
  congr 1
  funext m
  rw [List.head?_map]
  rfl

/-- After a part with one way only. -/
theorem match?_atomic_seq (r s : Regex γ) (t : List UInt8) :
    match? (seq (atomic r) s) t =
      (match? r t).bind fun m => (match? s m.rest).map (.after m.groups) := by
  rw [match?_seq, outcomes_atomic, match?_eq]
  cases outcomes r t with
  | nil => rfl
  | cons m ms => simp

/-- A set has one outcome at most, so no sequence goes back into it. -/
theorem match?_set_seq (p : UInt8 → Bool) (s : Regex γ) (t : List UInt8) :
    match? (seq (set p) s) t = (match? (set p : Regex γ) t).bind fun m => match? s m.rest := by
  rw [match?_seq]
  cases t with
  | nil => rfl
  | cons c t =>
    rw [match?_set_cons, outcomes_set_cons]
    split_ifs
    · cases hs : match? s t <;> simp [hs, Match.after]
    · rfl

/-- Before a part that always matches. -/
theorem match?_seq_of_isSome {s : Regex γ} (hs : ∀ t, (match? s t).isSome) (r : Regex γ)
    (t : List UInt8) :
    match? (seq r s) t = (match? r t).bind fun m => (match? s m.rest).map (.after m.groups) := by
  rw [match?_seq, match?_eq]
  cases outcomes r t with
  | nil => rfl
  | cons m ms =>
    obtain ⟨m', hm'⟩ := Option.isSome_iff_exists.mp (hs m.rest)
    simp [hm']

/-! ## Repetition -/

/-- A repetition always matches, if only by no round. -/
theorem rounds_ne_nil (step : List UInt8 → List (Match γ)) (n : ℕ) (t : List UInt8) :
    rounds step n t ≠ [] := by
  cases n <;> simp [rounds]

/-- As many rounds as there are octets are enough. -/
theorem rounds_eq (step : List UInt8 → List (Match γ)) {n m : ℕ} {t : List UInt8}
    (hn : t.length ≤ n) (hm : t.length ≤ m) : rounds step n t = rounds step m t := by
  induction n generalizing m t with
  | zero =>
    cases m with
    | zero => rfl
    | succ m =>
      rw [rounds_zero, rounds_succ]
      have hnone : ∀ k : Match γ, ¬k.rest.length < t.length := fun k => by omega
      simp [hnone]
  | succ n ih =>
    cases m with
    | zero =>
      rw [rounds_succ, rounds_zero]
      have hnone : ∀ k : Match γ, ¬k.rest.length < t.length := fun k => by omega
      simp [hnone]
    | succ m =>
      rw [rounds_succ, rounds_succ]
      congr 2
      funext k
      split_ifs with hlt
      · rw [ih (by omega) (by omega : k.rest.length ≤ m)]
      · rfl

/-- A repetition takes the first way of its body, as long as there is one. -/
theorem head?_rounds_succ (step : List UInt8 → List (Match γ)) (n : ℕ) (t : List UInt8) :
    (rounds step (n + 1) t).head? =
      match (step t).find? fun m => m.rest.length < t.length with
      | some m => (rounds step n m.rest).head?.map (.after m.groups)
      | none => some ⟨t, []⟩ := by
  rw [rounds_succ]
  induction step t with
  | nil => rfl
  | cons m ms ih =>
    by_cases hlt : m.rest.length < t.length
    · rw [List.flatMap_cons, if_pos hlt, List.find?_cons_of_pos (by simpa using hlt)]
      obtain ⟨m', ms', hrounds⟩ := List.exists_cons_of_ne_nil (rounds_ne_nil step n m.rest)
      simp [hrounds]
    · rw [List.flatMap_cons, if_neg hlt, List.find?_cons_of_neg (by simpa using hlt)]
      exact ih

/-- A match takes off the start of the text. -/
theorem rest_suffix (r : Regex γ) {t : List UInt8} {m : Match γ} (hm : m ∈ outcomes r t) :
    m.rest <:+ t := by
  induction r generalizing t m with
  | set p =>
    cases t with
    | nil => cases hm
    | cons c t =>
      rw [outcomes_set_cons] at hm
      split_ifs at hm
      · obtain rfl := List.mem_singleton.mp hm
        exact List.suffix_cons c t
      · cases hm
  | seq r s ihr ihs =>
    obtain ⟨m₁, hm₁, hm⟩ := List.mem_flatMap.mp hm
    obtain ⟨m₂, hm₂, rfl⟩ := List.mem_map.mp hm
    exact (ihs (m := m₂) hm₂).trans (ihr hm₁)
  | alt r s ihr ihs =>
    rcases List.mem_append.mp hm with hm | hm
    · exact ihr hm
    · exact ihs hm
  | opt r ih =>
    rcases List.mem_append.mp hm with hm | hm
    · exact ih hm
    · obtain rfl := List.mem_singleton.mp hm
      exact List.suffix_refl t
  | star r ih =>
    have hrounds : ∀ n t m, m ∈ rounds (outcomes r) n t → m.rest <:+ t := by
      intro n
      induction n with
      | zero =>
        intro t m hm
        obtain rfl := List.mem_singleton.mp hm
        exact List.suffix_refl t
      | succ n ihn =>
        intro t m hm
        rcases List.mem_append.mp hm with hm | hm
        · obtain ⟨m₁, hm₁, hm⟩ := List.mem_flatMap.mp hm
          split_ifs at hm
          · obtain ⟨m₂, hm₂, rfl⟩ := List.mem_map.mp hm
            exact (ihn m₁.rest m₂ hm₂).trans (ih hm₁)
          · cases hm
        · obtain rfl := List.mem_singleton.mp hm
          exact List.suffix_refl t
    exact hrounds _ t m hm
  | atomic r ih => exact ih (List.mem_of_mem_take hm)
  | group name r ih =>
    obtain ⟨m₁, hm₁, rfl⟩ := List.mem_map.mp hm
    exact ih (m := m₁) hm₁

/-- A match never makes the text longer. -/
theorem length_rest_le (r : Regex γ) {t : List UInt8} {m : Match γ} (hm : m ∈ outcomes r t) :
    m.rest.length ≤ t.length := (rest_suffix r hm).length_le

/-- No match starts before the text does. -/
theorem length_findAll_le {r : Regex γ} {n : ℕ} {t start : List UInt8} {m : Match γ}
    (h : (start, m) ∈ findAll r n t) : start.length ≤ t.length := by
  induction n generalizing t with
  | zero => cases h
  | succ n ih =>
    cases t with
    | nil => cases h
    | cons c t =>
      rw [findAll] at h
      cases hm : match? r (c :: t) with
      | none =>
        rw [hm] at h
        exact (ih h).trans (Nat.le_succ _)
      | some m' =>
        rw [hm] at h
        rcases List.mem_cons.mp h with heq | h
        · obtain rfl := congrArg Prod.fst heq
          exact le_rfl
        · exact (ih h).trans (length_rest_le r (List.mem_of_mem_head? hm))

/-- Every way takes something off. -/
def Consumes (r : Regex γ) : Prop := ∀ t, ∀ m ∈ outcomes r t, m.rest.length < t.length

/-- A star of a part that takes something is unrolled once. -/
theorem match?_star (r : Regex γ) (hr : Consumes r) (t : List UInt8) :
    match? (star r) t =
      match match? r t with
      | some m => (match? (star r) m.rest).map (.after m.groups)
      | none => some ⟨t, []⟩ := by
  have hfind : (outcomes r t).find? (fun m => m.rest.length < t.length) = match? r t := by
    rw [match?_eq]
    cases hout : outcomes r t with
    | nil => rfl
    | cons m ms =>
      have hlt := hr t m (by rw [hout]; exact List.mem_cons_self)
      rw [List.find?_cons_of_pos (by simpa using hlt)]
      rfl
  rw [match?_eq, outcomes_star, rounds_eq _ le_rfl (Nat.le_succ _), head?_rounds_succ, hfind]
  cases hm : match? r t with
  | none => rfl
  | some m =>
    have hlt : m.rest.length < t.length := hr t m (List.mem_of_mem_head? hm)
    dsimp only
    rw [match?_eq, outcomes_star, rounds_eq (outcomes r) (Nat.le_of_lt hlt) le_rfl]

/-- A set takes a byte. -/
theorem consumes_set (p : UInt8 → Bool) : Consumes (set p : Regex γ) := by
  intro t m hm
  cases t with
  | nil => cases hm
  | cons c t =>
    rw [outcomes_set_cons] at hm
    split_ifs at hm
    · obtain rfl := List.mem_singleton.mp hm
      exact Nat.lt_succ_self _
    · cases hm

/-- A sequence takes something if its first part does. -/
theorem Consumes.seq {r : Regex γ} (hr : Consumes r) (s : Regex γ) : Consumes (seq r s) := by
  intro t m hm
  obtain ⟨m₁, hm₁, hm⟩ := List.mem_flatMap.mp hm
  obtain ⟨m₂, hm₂, rfl⟩ := List.mem_map.mp hm
  exact Nat.lt_of_le_of_lt (length_rest_le s (m := m₂) hm₂) (hr t m₁ hm₁)

/-- An alternative takes something if both sides do. -/
theorem Consumes.alt {r s : Regex γ} (hr : Consumes r) (hs : Consumes s) : Consumes (alt r s) := by
  intro t m hm
  rcases List.mem_append.mp hm with hm | hm
  · exact hr t m hm
  · exact hs t m hm

/-- So does an atomic group. -/
theorem Consumes.atomic {r : Regex γ} (hr : Consumes r) : Consumes (atomic r) := by
  intro t m hm
  exact hr t m (List.mem_of_mem_take hm)

/-- A repetition of a class takes off as many octets as it can. -/
theorem match?_star_set (p : UInt8 → Bool) (t : List UInt8) :
    match? (star (set p) : Regex γ) t = some ⟨t.dropWhile p, []⟩ := by
  induction t with
  | nil => rfl
  | cons c t ih =>
    rw [match?_star _ (consumes_set p), match?_set_cons]
    by_cases hc : p c = true
    · rw [if_pos hc, List.dropWhile_cons_of_pos hc]
      dsimp only
      rw [ih]
      rfl
    · rw [if_neg hc, List.dropWhile_cons_of_neg hc]

/-- What follows a repetition of a class starts after all of it, when it cannot start with an octet
of the class. -/
theorem match?_star_set_seq {p : UInt8 → Bool} {s : Regex γ}
    (hs : ∀ c t, p c = true → match? s (c :: t) = none) (t : List UInt8) :
    match? (seq (star (set p)) s) t = match? s (t.dropWhile p) := by
  have hafter : ∀ m : Option (Match γ), m.map (.after []) = m := by
    rintro (_ | m) <;> rfl
  have hstep : ∀ (c : UInt8) (t : List UInt8), outcomes (star (set p) : Regex γ) (c :: t) =
      (if p c then outcomes (star (set p)) t else []) ++ [⟨c :: t, []⟩] := by
    intro c t
    rw [outcomes_star, List.length_cons, rounds_succ, outcomes_set_cons]
    split_ifs with hc
    · rw [List.flatMap_singleton, if_pos (by simp), outcomes_star]
      congr 1
      exact (List.map_congr_left fun m _ => rfl).trans (List.map_id _)
    · rfl
  rw [match?_seq]
  induction t with
  | nil => simp [outcomes_star, rounds_zero, hafter]
  | cons c t ih =>
    rw [hstep]
    by_cases hc : p c = true
    · rw [if_pos hc, List.findSome?_append, ih, List.dropWhile_cons_of_pos hc]
      simp [hs c t hc]
    · rw [if_neg hc, List.dropWhile_cons_of_neg hc]
      simp [hafter]

/-- What follows an optional octet of a class starts after it, when it cannot start with one. -/
theorem match?_opt_set_seq {p : UInt8 → Bool} {s : Regex γ}
    (hs : ∀ c t, p c = true → match? s (c :: t) = none) (c : UInt8) (t : List UInt8) :
    match? (seq (opt (set p)) s) (c :: t) = match? s (if p c then t else c :: t) := by
  have hafter : ∀ m : Option (Match γ), m.map (.after []) = m := by
    rintro (_ | m) <;> rfl
  rw [match?_seq, outcomes_opt, outcomes_set_cons]
  split_ifs with hc
  · cases ht : match? s t <;> simp [List.findSome?, ht, hs c t hc, Match.after]
  · simp [hafter]

/-! ## Octets -/

theorem match?_char_cons (c d : UInt8) (t : List UInt8) :
    match? (char c : Regex γ) (d :: t) = if d = c then some ⟨t, []⟩ else none := by
  rw [char, match?_set_cons]
  by_cases h : d = c <;> simp [h]

theorem match?_char_seq_cons (c d : UInt8) (s : Regex γ) (t : List UInt8) :
    match? (seq (char c) s) (d :: t) = if d = c then match? s t else none := by
  rw [char, match?_set_seq, match?_set_cons]
  by_cases h : d = c <;> simp [h]

@[simp]
theorem match?_char_seq_nil (c : UInt8) (s : Regex γ) : match? (seq (char c) s) [] = none := rfl

@[simp]
theorem match?_set_seq_nil (p : UInt8 → Bool) (s : Regex γ) : match? (seq (set p) s) [] = none :=
  rfl

theorem match?_set_seq_cons (p : UInt8 → Bool) (s : Regex γ) (c : UInt8) (t : List UInt8) :
    match? (seq (set p) s) (c :: t) = if p c then match? s t else none := by
  rw [match?_set_seq, match?_set_cons]
  split_ifs <;> rfl

/-- A literal is a text to take off. -/
theorem match?_literal (c : UInt8) (ds t : List UInt8) :
    match? (literal c ds : Regex γ) t =
      if (c :: ds) <+: t then some ⟨t.drop (ds.length + 1), []⟩ else none := by
  induction ds generalizing c t with
  | nil =>
    cases t with
    | nil => rfl
    | cons d t =>
      rw [literal, match?_char_cons]
      by_cases h : d = c
      · simp [h]
      · simp [h, Ne.symm h]
  | cons e ds ih =>
    cases t with
    | nil => rfl
    | cons d t =>
      rw [literal, match?_char_seq_cons, ih]
      by_cases h : d = c
      · simp [h]
      · simp [h, Ne.symm h]

/-! ## What is taken off

The matches of a pattern without groups, by the texts it takes off: soundness only, for any of the
ways and not just the first. -/

/-- What the pattern takes off is in `P`, and it has no group. -/
def Takes (r : Regex γ) (P : List UInt8 → Prop) : Prop :=
  ∀ t, ∀ m ∈ outcomes r t, m.groups = [] ∧ ∃ v, P v ∧ t = v ++ m.rest

/-- What is taken may be said more weakly. -/
theorem Takes.mono {r : Regex γ} {P Q : List UInt8 → Prop} (h : Takes r P) (hPQ : ∀ v, P v → Q v) :
    Takes r Q := by
  intro t m hm
  obtain ⟨hgroups, v, hv, ht⟩ := h t m hm
  exact ⟨hgroups, v, hPQ v hv, ht⟩

/-- A set takes one byte of it. -/
theorem takes_set (p : UInt8 → Bool) :
    Takes (set p : Regex γ) fun v => ∃ c, p c = true ∧ v = [c] := by
  intro t m hm
  cases t with
  | nil => cases hm
  | cons c t =>
    rw [outcomes_set_cons] at hm
    split_ifs at hm with hc
    · obtain rfl := List.mem_singleton.mp hm
      exact ⟨rfl, [c], ⟨c, hc, rfl⟩, rfl⟩
    · cases hm

/-- A character takes itself. -/
theorem takes_char (c : UInt8) : Takes (char c : Regex γ) fun v => v = [c] := by
  refine (takes_set _).mono ?_
  rintro v ⟨d, hd, rfl⟩
  rw [of_decide_eq_true hd]

/-- A sequence takes what its parts take. -/
theorem Takes.seq {r s : Regex γ} {P Q : List UInt8 → Prop} (hr : Takes r P) (hs : Takes s Q) :
    Takes (seq r s) fun v => ∃ a b, P a ∧ Q b ∧ v = a ++ b := by
  intro t m hm
  obtain ⟨m₁, hm₁, hm⟩ := List.mem_flatMap.mp hm
  obtain ⟨m₂, hm₂, rfl⟩ := List.mem_map.mp hm
  obtain ⟨hgroups₁, a, ha, ht⟩ := hr t m₁ hm₁
  obtain ⟨hgroups₂, b, hb, hrest⟩ := hs m₁.rest m₂ hm₂
  refine ⟨by simp [Match.after, hgroups₁, hgroups₂], a ++ b, ⟨a, b, ha, hb, rfl⟩, ?_⟩
  rw [ht, hrest, List.append_assoc]
  rfl

/-- An alternative takes what either side does. -/
theorem Takes.alt {r s : Regex γ} {P : List UInt8 → Prop} (hr : Takes r P) (hs : Takes s P) :
    Takes (alt r s) P := by
  intro t m hm
  rcases List.mem_append.mp hm with hm | hm
  · exact hr t m hm
  · exact hs t m hm

/-- An option takes that or nothing. -/
theorem Takes.opt {r : Regex γ} {P : List UInt8 → Prop} (hr : Takes r P) :
    Takes (opt r) fun v => v = [] ∨ P v := by
  intro t m hm
  rcases List.mem_append.mp hm with hm | hm
  · obtain ⟨hgroups, v, hv, ht⟩ := hr t m hm
    exact ⟨hgroups, v, Or.inr hv, ht⟩
  · obtain rfl := List.mem_singleton.mp hm
    exact ⟨rfl, [], Or.inl rfl, rfl⟩

/-- The star of a set takes bytes of it. -/
theorem takes_star_set (p : UInt8 → Bool) :
    Takes (star (set p) : Regex γ) fun v => ∀ c ∈ v, p c = true := by
  have hrounds : ∀ n t, ∀ m ∈ rounds (outcomes (set p : Regex γ)) n t,
      m.groups = [] ∧ ∃ v, (∀ c ∈ v, p c = true) ∧ t = v ++ m.rest := by
    intro n
    induction n with
    | zero =>
      intro t m hm
      obtain rfl := List.mem_singleton.mp hm
      exact ⟨rfl, [], by simp, rfl⟩
    | succ n ih =>
      intro t m hm
      rcases List.mem_append.mp hm with hm | hm
      · obtain ⟨m₁, hm₁, hm⟩ := List.mem_flatMap.mp hm
        split_ifs at hm
        · obtain ⟨m₂, hm₂, rfl⟩ := List.mem_map.mp hm
          obtain ⟨hgroups₁, _, ⟨c, hc, rfl⟩, ht⟩ := takes_set p t m₁ hm₁
          obtain ⟨hgroups₂, v, hv, hrest⟩ := ih m₁.rest m₂ hm₂
          refine ⟨by simp [Match.after, hgroups₁, hgroups₂], c :: v, ?_, ?_⟩
          · simpa using ⟨hc, hv⟩
          · rw [ht, hrest]
            rfl
        · cases hm
      · obtain rfl := List.mem_singleton.mp hm
        exact ⟨rfl, [], by simp, rfl⟩
  exact fun t m hm => hrounds _ t m hm

/-- A literal takes itself. -/
theorem takes_literal (c : UInt8) (ds : List UInt8) :
    Takes (literal c ds : Regex γ) fun v => v = c :: ds := by
  induction ds generalizing c with
  | nil => exact takes_char c
  | cons d ds ih =>
    refine ((takes_char c).seq (ih d)).mono ?_
    rintro v ⟨_, _, rfl, rfl, rfl⟩
    rfl

/-- What a part without groups leaves to the rest of a sequence. -/
theorem Takes.of_seq {r s : Regex γ} {P : List UInt8 → Prop} (hr : Takes r P) {t : List UInt8}
    {m : Match γ} (hm : m ∈ outcomes (Regex.seq r s) t) :
    ∃ v u, P v ∧ t = v ++ u ∧ m ∈ outcomes s u := by
  obtain ⟨m₁, hm₁, hm⟩ := List.mem_flatMap.mp hm
  obtain ⟨m₂, hm₂, rfl⟩ := List.mem_map.mp hm
  obtain ⟨hgroups, v, hv, ht⟩ := hr t m₁ hm₁
  refine ⟨v, m₁.rest, hv, ht, ?_⟩
  rw [hgroups]
  exact hm₂

/-- What a group leaves to the rest of a sequence. -/
theorem Takes.of_group_seq {r s : Regex γ} {P : List UInt8 → Prop} (hr : Takes r P) {name : γ}
    {t : List UInt8} {m : Match γ} (hm : m ∈ outcomes (Regex.seq (group name r) s) t) :
    ∃ v u m', P v ∧ t = v ++ u ∧ m' ∈ outcomes s u ∧ m.rest = m'.rest ∧
      m.groups = (name, t, u) :: m'.groups := by
  obtain ⟨_, hgroup, hm⟩ := List.mem_flatMap.mp hm
  obtain ⟨m₁, hm₁, rfl⟩ := List.mem_map.mp hgroup
  obtain ⟨m₂, hm₂, rfl⟩ := List.mem_map.mp hm
  obtain ⟨hgroups, v, hv, ht⟩ := hr t m₁ hm₁
  refine ⟨v, m₁.rest, m₂, hv, ht, hm₂, rfl, ?_⟩
  simp [Match.after, hgroups]

/-- What a group notes is what its part takes. -/
theorem Takes.of_group {r : Regex γ} {P : List UInt8 → Prop} (hr : Takes r P) {name : γ}
    {t : List UInt8} {m : Match γ} (hm : m ∈ outcomes (group name r) t) :
    ∃ v, P v ∧ t = v ++ m.rest ∧ m.groups = [(name, t, m.rest)] := by
  obtain ⟨m₁, hm₁, rfl⟩ := List.mem_map.mp hm
  obtain ⟨hgroups, v, hv, ht⟩ := hr t m₁ hm₁
  refine ⟨v, hv, ht, ?_⟩
  simp [hgroups]

end Regex
