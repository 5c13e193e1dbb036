import Mathlib.Data.List.Nodup

/-!
# Association lists

`List.lookup` in a list whose keys are distinct, where an entry is what the lookup of its key finds.
-/

namespace List

variable {K V W : Type} [BEq K] [LawfulBEq K] {l : List (K × V)}

theorem mem_of_lookup_eq_some {k : K} {v : V} (h : l.lookup k = some v) : (k, v) ∈ l := by
  obtain ⟨before, after, rfl, -⟩ := lookup_eq_some_iff.mp h
  exact mem_append_right _ mem_cons_self

theorem lookup_eq_some_iff_mem (hl : (l.map Prod.fst).Nodup) {k : K} {v : V} :
    l.lookup k = some v ↔ (k, v) ∈ l := by
  refine ⟨mem_of_lookup_eq_some, fun h => ?_⟩
  obtain ⟨before, after, rfl⟩ := append_of_mem h
  rw [lookup_eq_some_iff]
  refine ⟨before, after, rfl, fun e he => ?_⟩
  rw [map_append, map_cons, nodup_append] at hl
  have hne := hl.2.2 e.1 (mem_map_of_mem he) k mem_cons_self
  simpa using Ne.symm hne

omit [LawfulBEq K] in
/-- A lookup among values that were replaced key by key. -/
theorem lookup_map_snd (f : V → W) (k : K) :
    (l.map fun e => (e.1, f e.2)).lookup k = (l.lookup k).map f := by
  induction l with
  | nil => rfl
  | cons e l ih =>
    rw [map_cons, lookup_cons, lookup_cons, ih]
    cases k == e.1 <;> rfl

omit [BEq K] [LawfulBEq K] in
/-- Lists with the same keys whose entries are values of one function are equal. -/
theorem eq_of_forall_mem {l l' : List (K × V)} {f : K → Option V}
    (hkeys : l.map Prod.fst = l'.map Prod.fst) (h : ∀ e ∈ l, f e.1 = some e.2)
    (h' : ∀ e ∈ l', f e.1 = some e.2) : l = l' := by
  induction l generalizing l' with
  | nil => exact (map_eq_nil_iff.mp hkeys.symm).symm
  | cons e l ih =>
    cases l' with
    | nil => cases hkeys
    | cons e' l' =>
      obtain ⟨hkey, hkeys⟩ := cons.inj hkeys
      rw [forall_mem_cons] at h h'
      have hvalue : some e.2 = some e'.2 := by rw [← h.1, ← h'.1, hkey]
      rw [ih hkeys h.2 h'.2, Prod.ext hkey (Option.some.inj hvalue)]

end List
