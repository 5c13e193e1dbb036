import Mathlib.Data.List.Sort
import Mathlib.Data.List.TakeWhile
import Mathlib.Order.Basic

/-!
# Ordered maps

An `OrderedMap K V` is the extensional content of a balanced-tree map: its entries in strictly
increasing key order. The order is a field of the structure, so a map with a repeated or a
misplaced key cannot be built, and iteration, `lowerBound` and range erasure are list operations.

* `find?_eq_some_iff`: lookup is membership of the entry list;
* `ext_find?`: two maps with the same lookups are equal;
* `insert_perm`: insertion of a fresh key adds one element to the entry list, which is what counting
  arguments consume;
* `range_eq_filter`: a `lowerBound` followed by a forward walk over an interval of keys visits
  exactly the entries of that interval.

A set of keys is a map into `Unit` (`OrderedSet`).
-/

/-- Entries of a tree map, in strictly increasing key order. -/
structure OrderedMap (K V : Type*) [LinearOrder K] where
  /-- The entries in iteration order. -/
  toList : List (K × V)
  /-- Keys strictly increase along the iteration. -/
  sorted : toList.Pairwise fun a b => a.1 < b.1

/-- An ordered set of keys. -/
abbrev OrderedSet (K : Type*) [LinearOrder K] := OrderedMap K Unit

namespace OrderedMap

variable {K V W : Type*} [LinearOrder K]

/-- A map is its list. -/
theorem ext_toList {m n : OrderedMap K V} (h : m.toList = n.toList) : m = n := by
  cases m; cases n; simp_all

instance [DecidableEq V] : DecidableEq (OrderedMap K V) := fun m n =>
  decidable_of_iff (m.toList = n.toList) ⟨ext_toList, fun h => h ▸ rfl⟩

/-! ## Operations -/

/-- The map without entries. -/
def empty : OrderedMap K V := ⟨[], List.Pairwise.nil⟩

/-- The keys in iteration order. -/
def keys (m : OrderedMap K V) : List K := m.toList.map Prod.fst

/-- The value stored at `k`. -/
def find? (m : OrderedMap K V) (k : K) : Option V :=
  (m.toList.find? fun p => p.1 = k).map Prod.snd

/-- The first entry whose key is not below `k`. -/
def lowerBound (m : OrderedMap K V) (k : K) : Option (K × V) :=
  m.toList.find? fun p => k ≤ p.1

/-- Store `v` at `k`, replacing an entry already there. -/
def insert (m : OrderedMap K V) (k : K) (v : V) : OrderedMap K V where
  toList := m.toList.filter (fun p => p.1 < k) ++ (k, v) :: m.toList.filter (fun p => k < p.1)
  sorted := by
    rw [List.pairwise_append, List.pairwise_cons]
    refine ⟨m.sorted.filter _, ⟨?_, m.sorted.filter _⟩, ?_⟩
    · intro p hp
      simpa using (List.mem_filter.mp hp).2
    · intro p hp q hq
      have hpk : p.1 < k := by simpa using (List.mem_filter.mp hp).2
      rcases List.mem_cons.mp hq with rfl | hq
      · exact hpk
      · exact hpk.trans (by simpa using (List.mem_filter.mp hq).2)

/-- Keep the entries that satisfy `p`. -/
def filter (m : OrderedMap K V) (p : K → V → Bool) : OrderedMap K V :=
  ⟨m.toList.filter fun e => p e.1 e.2, m.sorted.filter _⟩

/-- Remove the entry at `k`, if there is one. -/
def erase (m : OrderedMap K V) (k : K) : OrderedMap K V :=
  m.filter fun k' _ => k' ≠ k

/-- Apply `f` to every stored value. -/
def mapVal (m : OrderedMap K V) (f : K → V → W) : OrderedMap K W :=
  ⟨m.toList.map fun e => (e.1, f e.1 e.2), List.pairwise_map.mpr m.sorted⟩

/-- Apply `f` to the value stored at `k`. -/
def modify (m : OrderedMap K V) (k : K) (f : V → V) : OrderedMap K V :=
  m.mapVal fun k' v => if k' = k then f v else v

/-- The entries from the first key not below `lo` on, as long as `p` holds of the key. -/
def range (m : OrderedMap K V) (lo : K) (p : K → Bool) : List (K × V) :=
  (m.toList.dropWhile fun e => e.1 < lo).takeWhile fun e => p e.1

/-- The map without the entries that `range` visits. -/
def eraseRange (m : OrderedMap K V) (lo : K) (p : K → Bool) : OrderedMap K V where
  toList := (m.toList.takeWhile fun e => e.1 < lo) ++
    (m.toList.dropWhile fun e => e.1 < lo).dropWhile fun e => p e.1
  sorted := by
    refine m.sorted.sublist ?_
    conv_rhs => rw [← List.takeWhile_append_dropWhile (p := fun e => e.1 < lo) (l := m.toList)]
    exact List.Sublist.append_left (List.dropWhile_sublist _) _

/-! ## Lookup -/

/-- Its keys ascend. -/
theorem keys_sorted (m : OrderedMap K V) : m.keys.Pairwise (· < ·) :=
  List.pairwise_map.mpr m.sorted

/-- So no key is there twice. -/
theorem keys_nodup (m : OrderedMap K V) : m.keys.Nodup :=
  m.keys_sorted.imp ne_of_lt

/-- An entry is determined by its key. -/
theorem eq_of_mem_of_mem {m : OrderedMap K V} {k : K} {v w : V}
    (hv : (k, v) ∈ m.toList) (hw : (k, w) ∈ m.toList) : v = w := by
  have hnodup : (m.toList.map Prod.fst).Nodup := m.keys_nodup
  have := List.inj_on_of_nodup_map hnodup hv hw rfl
  exact (Prod.mk.inj this).2

/-- Lookup finds exactly the stored entries. -/
theorem find?_eq_some_iff {m : OrderedMap K V} {k : K} {v : V} :
    m.find? k = some v ↔ (k, v) ∈ m.toList := by
  constructor
  · intro h
    obtain ⟨p, hp, rfl⟩ := Option.map_eq_some_iff.mp h
    have hkey : p.1 = k := by simpa using List.find?_some hp
    rw [← hkey]
    exact List.mem_of_find?_eq_some hp
  · intro h
    cases hfind : m.toList.find? fun p => p.1 = k with
    | none => exact absurd (List.find?_eq_none.mp hfind (k, v) h) (by simp)
    | some p =>
      have hkey : p.1 = k := by simpa using List.find?_some hfind
      have hmem : (k, p.2) ∈ m.toList := hkey ▸ List.mem_of_find?_eq_some hfind
      rw [find?, hfind, Option.map_some, eq_of_mem_of_mem hmem h]

/-- What is not found is not in the list. -/
theorem find?_eq_none_iff {m : OrderedMap K V} {k : K} :
    m.find? k = none ↔ ∀ v, (k, v) ∉ m.toList := by
  rw [Option.eq_none_iff_forall_ne_some]
  exact forall_congr' fun v => not_congr find?_eq_some_iff

/-- A key is found. -/
theorem mem_keys_iff {m : OrderedMap K V} {k : K} : k ∈ m.keys ↔ ∃ v, m.find? k = some v := by
  simp [keys, find?_eq_some_iff]

/-- Two strictly sorted lists with the same members are equal. -/
private theorem eq_of_pairwise_lt_of_mem_iff {β : Type*} {f : β → K} {l₁ l₂ : List β}
    (h₁ : l₁.Pairwise fun a b => f a < f b) (h₂ : l₂.Pairwise fun a b => f a < f b)
    (h : ∀ a, a ∈ l₁ ↔ a ∈ l₂) : l₁ = l₂ := by
  have hnd₁ : l₁.Nodup := h₁.imp fun hab => by rintro rfl; exact lt_irrefl _ hab
  have hnd₂ : l₂.Nodup := h₂.imp fun hab => by rintro rfl; exact lt_irrefl _ hab
  refine List.Perm.eq_of_pairwise ?_ h₁ h₂ ((List.perm_ext_iff_of_nodup hnd₁ hnd₂).mpr h)
  intro a b _ _ hab hba
  exact absurd hab hba.asymm

/-- Maps with the same lookups are equal. -/
theorem ext_find? {m n : OrderedMap K V} (h : ∀ k, m.find? k = n.find? k) : m = n := by
  refine ext_toList (eq_of_pairwise_lt_of_mem_iff m.sorted n.sorted ?_)
  rintro ⟨k, v⟩
  rw [← find?_eq_some_iff, ← find?_eq_some_iff, h]

/-- Sets with the same keys are equal. -/
theorem ext_keys {m n : OrderedSet K} (h : ∀ k, k ∈ m.keys ↔ k ∈ n.keys) : m = n := by
  refine ext_find? fun k => ?_
  have hk := h k
  rw [mem_keys_iff, mem_keys_iff] at hk
  cases hm : m.find? k <;> cases hn : n.find? k <;> simp_all

/-- Nothing is found in the empty map. -/
@[simp]
theorem find?_empty (k : K) : (empty : OrderedMap K V).find? k = none := rfl

/-- It has no keys. -/
@[simp]
theorem keys_empty : (empty : OrderedMap K V).keys = [] := rfl

/-- What was inserted is found. -/
@[simp]
theorem find?_insert_self (m : OrderedMap K V) (k : K) (v : V) :
    (m.insert k v).find? k = some v := by
  rw [find?_eq_some_iff]
  simp [insert]

/-- Other keys are found as before. -/
theorem find?_insert_of_ne (m : OrderedMap K V) {k k' : K} (v : V) (h : k' ≠ k) :
    (m.insert k v).find? k' = m.find? k' := by
  ext w
  rw [find?_eq_some_iff, find?_eq_some_iff]
  rcases lt_or_gt_of_ne h with hlt | hgt
  · simp [insert, h, hlt, hlt.asymm]
  · simp [insert, h, hgt, hgt.asymm]

/-- Both, as one equation. -/
theorem find?_insert (m : OrderedMap K V) (k k' : K) (v : V) :
    (m.insert k v).find? k' = if k' = k then some v else m.find? k' := by
  split_ifs with h
  · rw [h, find?_insert_self]
  · exact find?_insert_of_ne m v h

/-- What a filter keeps is found. -/
theorem find?_filter (m : OrderedMap K V) (p : K → V → Bool) (k : K) :
    (m.filter p).find? k = (m.find? k).filter (p k) := by
  ext v
  rw [find?_eq_some_iff, Option.filter_eq_some_iff, find?_eq_some_iff]
  simp [filter]

/-- An erased key is not found. -/
theorem find?_erase (m : OrderedMap K V) (k k' : K) :
    (m.erase k).find? k' = if k' = k then none else m.find? k' := by
  rw [erase, find?_filter]
  split_ifs with h
  · cases m.find? k' <;> simp [h]
  · cases m.find? k' <;> simp [h]

/-- Values are mapped in place. -/
@[simp]
theorem find?_mapVal (m : OrderedMap K V) (f : K → V → W) (k : K) :
    (m.mapVal f).find? k = (m.find? k).map (f k) := by
  ext w
  rw [find?_eq_some_iff, Option.map_eq_some_iff]
  constructor
  · intro h
    obtain ⟨⟨k', v⟩, hmem, heq⟩ := List.mem_map.mp h
    obtain ⟨rfl, rfl⟩ := Prod.mk.inj heq
    exact ⟨v, find?_eq_some_iff.mpr hmem, rfl⟩
  · rintro ⟨v, hv, rfl⟩
    exact List.mem_map.mpr ⟨(k, v), find?_eq_some_iff.mp hv, rfl⟩

/-- One value is changed in place. -/
theorem find?_modify (m : OrderedMap K V) (k k' : K) (f : V → V) :
    (m.modify k f).find? k' = if k' = k then (m.find? k').map f else m.find? k' := by
  rw [modify, find?_mapVal]
  split_ifs with h
  · rfl
  · exact Option.map_id'

/-- An insertion adds its key. -/
theorem mem_keys_insert {m : OrderedMap K V} {k k' : K} {v : V} :
    k' ∈ (m.insert k v).keys ↔ k' = k ∨ k' ∈ m.keys := by
  rw [mem_keys_iff, mem_keys_iff, find?_insert]
  split_ifs with h <;> simp [h]

/-- An erasure removes it. -/
theorem mem_keys_erase {m : OrderedMap K V} {k k' : K} :
    k' ∈ (m.erase k).keys ↔ k' ≠ k ∧ k' ∈ m.keys := by
  rw [mem_keys_iff, mem_keys_iff, find?_erase]
  split_ifs with h <;> simp [h]

/-- A filter by keys keeps the keys it accepts. -/
theorem mem_keys_filter_key {m : OrderedMap K V} {p : K → Bool} {k : K} :
    k ∈ (m.filter fun k' _ => p k').keys ↔ p k = true ∧ k ∈ m.keys := by
  rw [mem_keys_iff, mem_keys_iff]
  simp [find?_filter, Option.filter_eq_some_iff, and_comm]

/-- Mapping values keeps the keys. -/
@[simp]
theorem keys_mapVal (m : OrderedMap K V) (f : K → V → W) : (m.mapVal f).keys = m.keys := by
  simp [keys, mapVal]

/-- Erasing a key that was just inserted into a map without it restores the map. -/
theorem erase_insert {m : OrderedMap K V} {k : K} (v : V) (h : m.find? k = none) :
    (m.insert k v).erase k = m := by
  refine ext_find? fun k' => ?_
  rw [find?_erase]
  split_ifs with hk
  · rw [hk, h]
  · exact find?_insert_of_ne m v hk

/-! ## The lower bound -/

/-- The lower bound of `k` is an entry at `k` exactly when `k` is stored. -/
theorem lowerBound_key_eq_iff {m : OrderedMap K V} {k : K} :
    (∃ p, m.lowerBound k = some p ∧ p.1 = k) ↔ k ∈ m.keys := by
  constructor
  · rintro ⟨p, hp, rfl⟩
    exact List.mem_map.mpr ⟨p, List.mem_of_find?_eq_some hp, rfl⟩
  · intro hk
    obtain ⟨v, hv⟩ := mem_keys_iff.mp hk
    have hmem := find?_eq_some_iff.mp hv
    cases hlb : m.lowerBound k with
    | none => exact absurd (List.find?_eq_none.mp hlb _ hmem) (by simp)
    | some p =>
      refine ⟨p, rfl, le_antisymm ?_ (by simpa using List.find?_some hlb)⟩
      obtain ⟨-, before, after, heq, hbefore⟩ := List.find?_eq_some_iff_append.mp hlb
      -- an entry at `k` cannot lie before the first entry that is not below `k`
      rw [heq] at hmem
      rcases List.mem_append.mp hmem with hb | ha
      · exact absurd (hbefore _ hb) (by simp)
      · rcases List.mem_cons.mp ha with rfl | ha
        · exact le_rfl
        · have hsorted := m.sorted
          rw [heq, List.pairwise_append, List.pairwise_cons] at hsorted
          exact (hsorted.2.1.1 _ ha).le

/-! ## Ranges -/

/-- In a sorted list the keys from a bound on are a suffix. -/
private theorem dropWhile_eq_filter_of_sorted (lo : K) :
    ∀ {l : List (K × V)}, (l.Pairwise fun a b => a.1 < b.1) →
      (l.dropWhile fun e => e.1 < lo) = l.filter fun e => lo ≤ e.1
  | [], _ => rfl
  | p :: l, h => by
    rw [List.pairwise_cons] at h
    by_cases hp : p.1 < lo
    · rw [List.dropWhile_cons_of_pos (by simpa using hp),
        List.filter_cons_of_neg (by simpa using hp)]
      exact dropWhile_eq_filter_of_sorted lo h.2
    · rw [List.dropWhile_cons_of_neg (by simpa using hp)]
      symm
      rw [List.filter_eq_self]
      intro q hq
      rcases List.mem_cons.mp hq with rfl | hq
      · simpa using hp
      · simpa using (not_lt.mp hp).trans (h.1 q hq).le

/-- The keys of a lower set are a prefix. -/
private theorem takeWhile_eq_filter_of_sorted {p : K → Bool} :
    ∀ {l : List (K × V)}, (l.Pairwise fun a b => a.1 < b.1) →
      (∀ a ∈ l, ∀ b ∈ l, a.1 ≤ b.1 → p b.1 = true → p a.1 = true) →
      (l.takeWhile fun e => p e.1) = l.filter fun e => p e.1
  | [], _, _ => rfl
  | q :: l, h, hp => by
    rw [List.pairwise_cons] at h
    have htail : ∀ a ∈ l, ∀ b ∈ l, a.1 ≤ b.1 → p b.1 = true → p a.1 = true :=
      fun a ha b hb => hp a (List.mem_cons_of_mem _ ha) b (List.mem_cons_of_mem _ hb)
    by_cases hq : p q.1 = true
    · rw [List.takeWhile_cons, if_pos hq, List.filter_cons, if_pos hq,
        takeWhile_eq_filter_of_sorted h.2 htail]
    · rw [List.takeWhile_cons, if_neg hq]
      symm
      rw [List.filter_eq_nil_iff]
      intro r hr hpr
      rcases List.mem_cons.mp hr with rfl | hr'
      · exact hq hpr
      · exact hq (hp q List.mem_cons_self r hr (h.1 r hr').le hpr)

/-- A walk from `lo` while `p` holds visits exactly the entries with `p`, when `p` is an interval
of keys that starts at `lo`. -/
theorem range_eq_filter (m : OrderedMap K V) {lo : K} {p : K → Bool}
    (hlo : ∀ k, p k = true → lo ≤ k)
    (hp : ∀ a b, lo ≤ a → a ≤ b → p b = true → p a = true) :
    m.range lo p = m.toList.filter fun e => p e.1 := by
  rw [range, dropWhile_eq_filter_of_sorted lo m.sorted,
    takeWhile_eq_filter_of_sorted (m.sorted.filter _), List.filter_filter]
  · refine List.filter_congr fun e _ => ?_
    by_cases he : p e.1 = true
    · simp [he, hlo _ he]
    · simp [he]
  · intro a ha b _ hab hb
    exact hp _ _ (by simpa using (List.mem_filter.mp ha).2) hab hb

/-- Erasing the range that a walk from `lo` visits keeps exactly the entries without `p`. -/
theorem eraseRange_eq_filter (m : OrderedMap K V) {lo : K} {p : K → Bool}
    (hlo : ∀ k, p k = true → lo ≤ k)
    (hp : ∀ a b, lo ≤ a → a ≤ b → p b = true → p a = true) :
    m.eraseRange lo p = m.filter fun k _ => !p k := by
  refine ext_toList ?_
  have hsplit : m.toList = (m.toList.takeWhile fun e => e.1 < lo) ++
      (m.range lo p ++ (m.toList.dropWhile fun e => e.1 < lo).dropWhile fun e => p e.1) := by
    rw [range, List.takeWhile_append_dropWhile, List.takeWhile_append_dropWhile]
  have hbefore : ∀ e ∈ m.toList.takeWhile fun e => e.1 < lo, (!p e.1) = true := by
    intro e he
    have hlt : e.1 < lo := by simpa using List.mem_takeWhile_imp he
    cases hpe : p e.1 with
    | false => rfl
    | true => exact absurd (hlo _ hpe) (not_le.mpr hlt)
  -- an entry after the walk that satisfied `p` would be visited by it
  have hafter : ∀ e ∈ (m.toList.dropWhile fun e => e.1 < lo).dropWhile fun e => p e.1,
      (!p e.1) = true := by
    intro e he
    cases hpe : p e.1 with
    | false => rfl
    | true =>
      have hmem : e ∈ m.range lo p := by
        rw [range_eq_filter m hlo hp, List.mem_filter]
        refine ⟨?_, hpe⟩
        exact (List.dropWhile_sublist _).subset ((List.dropWhile_sublist _).subset he)
      have hnodup := (List.Nodup.of_map _ m.keys_nodup : m.toList.Nodup)
      rw [hsplit] at hnodup
      have := (List.nodup_append.mp (List.nodup_append.mp hnodup).2.1).2.2 e hmem e he
      exact absurd rfl this
  have hrange : ∀ e ∈ m.range lo p, ¬(!p e.1) = true := by
    intro e he
    rw [range_eq_filter m hlo hp] at he
    simp [(List.mem_filter.mp he).2]
  change _ = m.toList.filter fun e => !p e.1
  conv_rhs => rw [hsplit]
  rw [List.filter_append, List.filter_append, List.filter_eq_self.mpr hbefore,
    List.filter_eq_nil_iff.mpr hrange, List.filter_eq_self.mpr hafter, List.nil_append]
  rfl

/-! ## Entry counts -/

/-- The number of entries that satisfy `p`. -/
def count (m : OrderedMap K V) (p : K → V → Bool) : ℕ := m.toList.countP fun e => p e.1 e.2

/-- Inserting a fresh key adds one entry. -/
theorem insert_perm {m : OrderedMap K V} {k : K} (v : V) (h : m.find? k = none) :
    (m.insert k v).toList.Perm ((k, v) :: m.toList) := by
  refine List.perm_middle.trans (List.Perm.cons _ ?_)
  have hsplit : (m.toList.filter fun p => k < p.1) = m.toList.filter fun p =>
      !decide (p.1 < k) := by
    refine List.filter_congr fun p hp => ?_
    have hne : p.1 ≠ k := by
      rintro rfl
      exact find?_eq_none_iff.mp h p.2 hp
    rcases lt_or_gt_of_ne hne with hlt | hgt
    · simp [hlt, hlt.asymm]
    · simp [hgt, hgt.asymm]
  rw [hsplit]
  exact List.filter_append_perm _ _

/-- A new entry counts if it is counted. -/
theorem count_insert {m : OrderedMap K V} {k : K} (v : V) (h : m.find? k = none)
    (p : K → V → Bool) : (m.insert k v).count p = m.count p + if p k v then 1 else 0 := by
  rw [count, (insert_perm v h).countP_eq, List.countP_cons]
  rfl

/-- Counting after a map. -/
theorem count_mapVal (m : OrderedMap K V) (f : K → V → W) (p : K → W → Bool) :
    (m.mapVal f).count p = m.count fun k v => p k (f k v) := by
  simp [count, mapVal, List.countP_map, Function.comp_def]

/-- Counting after a filter. -/
theorem count_filter (m : OrderedMap K V) (p q : K → V → Bool) :
    (m.filter q).count p = m.count fun k v => p k v && q k v := by
  simp [count, filter, List.countP_filter]

/-- Counting more entries counts no less. -/
theorem count_mono {m : OrderedMap K V} {p q : K → V → Bool}
    (h : ∀ k v, m.find? k = some v → p k v = true → q k v = true) : m.count p ≤ m.count q :=
  List.countP_mono_left fun e he hp => h e.1 e.2 (find?_eq_some_iff.mpr he) hp

/-- Counting looks at the entries that are there. -/
theorem count_congr {m : OrderedMap K V} {p q : K → V → Bool}
    (h : ∀ k v, m.find? k = some v → (p k v = true ↔ q k v = true)) : m.count p = m.count q :=
  List.countP_congr fun e he => h e.1 e.2 (find?_eq_some_iff.mpr he)

/-- A predicate that singles out one key counts at most one entry. -/
theorem count_le_one {m : OrderedMap K V} {p : K → V → Bool} (k : K)
    (h : ∀ k' v, m.find? k' = some v → p k' v = true → k' = k) : m.count p ≤ 1 := by
  have hkeys : ∀ k' ∈ (m.toList.filter fun e => p e.1 e.2).map Prod.fst, k' = k := by
    intro k' hk'
    obtain ⟨e, he, rfl⟩ := List.mem_map.mp hk'
    obtain ⟨hmem, hp⟩ := List.mem_filter.mp he
    exact h e.1 e.2 (find?_eq_some_iff.mpr hmem) hp
  have hnodup : ((m.toList.filter fun e => p e.1 e.2).map Prod.fst).Nodup :=
    m.keys_nodup.sublist (List.filter_sublist.map _)
  have hsub : (m.toList.filter fun e => p e.1 e.2).map Prod.fst ⊆ [k] := fun k' hk' =>
    List.mem_singleton.mpr (hkeys k' hk')
  have hle := (List.subperm_of_subset hnodup hsub).length_le
  rwa [List.length_map, ← List.countP_eq_length_filter] at hle

/-- Nothing is counted if no entry is. -/
theorem count_eq_zero_iff {m : OrderedMap K V} {p : K → V → Bool} :
    m.count p = 0 ↔ ∀ k v, m.find? k = some v → p k v = false := by
  simp only [count, List.countP_eq_zero, Bool.not_eq_true]
  exact ⟨fun h k v hv => h (k, v) (find?_eq_some_iff.mp hv),
    fun h e he => h e.1 e.2 (find?_eq_some_iff.mpr he)⟩

/-- Entries that fall into the groups `as`, at most `n` in each. -/
theorem length_le_mul {α : Type*} [DecidableEq α] {m : OrderedMap K V} (group : K → α)
    {as : List α} {n : ℕ} (hmem : ∀ k v, m.find? k = some v → group k ∈ as)
    (hle : ∀ a ∈ as, m.count (fun k _ => group k = a) ≤ n) :
    m.toList.length ≤ as.length * n := by
  have hlist : ∀ (as : List α) (l : List (K × V)), (∀ e ∈ l, group e.1 ∈ as) →
      (∀ a ∈ as, (l.countP fun e => group e.1 = a) ≤ n) → l.length ≤ as.length * n := by
    intro as
    induction as with
    | nil =>
      intro l hmem _
      rw [List.eq_nil_iff_forall_not_mem.mpr fun e he => List.not_mem_nil (hmem e he)]
      exact Nat.zero_le _
    | cons a as ih =>
      intro l hmem hle
      -- the first group is counted apart, the others on what is left of the list
      have hrest : (l.filter fun e => !decide (group e.1 = a)).length ≤ as.length * n := by
        refine ih _ (fun e he => ?_) fun b hb => ?_
        · obtain ⟨hel, hne⟩ := List.mem_filter.mp he
          exact (List.mem_cons.mp (hmem e hel)).resolve_left (by simpa using hne)
        · rw [List.countP_filter]
          exact (List.countP_mono_left fun e _ he => (Bool.and_eq_true_iff.mp he).1).trans
            (hle b (List.mem_cons_of_mem a hb))
      have hfirst := hle a List.mem_cons_self
      have hsplit := l.length_eq_countP_add_countP fun e => decide (group e.1 = a)
      rw [← List.countP_eq_length_filter] at hrest
      have hnot : (l.countP fun e => !decide (group e.1 = a)) =
          l.countP fun e => decide ¬decide (group e.1 = a) = true := by
        simp
      rw [List.length_cons, Nat.succ_mul]
      omega
  exact hlist as m.toList (fun e he => hmem e.1 e.2 (find?_eq_some_iff.mpr he)) hle

end OrderedMap
