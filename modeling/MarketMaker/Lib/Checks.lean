import Mathlib.Tactic.Common

/-!
# Chains of checks

A computation in `Except` that succeeds has succeeded at each of its steps, so a chain of checks
passes exactly when each check does. Where every step raises errors of one kind, so does the chain
(`ErrorsIn`).
-/

namespace Except

variable {ε α β : Type}

theorem bind_eq_ok_iff {m : Except ε α} {f : α → Except ε β} {b : β} :
    (m >>= f) = .ok b ↔ ∃ a, m = .ok a ∧ f a = .ok b := by
  cases m with
  | error e =>
    constructor
    · intro h
      cases h
    · rintro ⟨a, h, -⟩
      cases h
  | ok a =>
    constructor
    · exact fun h => ⟨a, rfl, h⟩
    · rintro ⟨a', h, hf⟩
      cases h
      exact hf

theorem map_eq_ok_iff {m : Except ε α} {f : α → β} {b : β} :
    m.map f = .ok b ↔ ∃ a, m = .ok a ∧ f a = b := by
  cases m <;> simp [Except.map]

/-- Two checks in a row. -/
theorem andThen_eq_ok_iff {m : Except ε Unit} {n : Unit → Except ε β} {b : β} :
    (m >>= n) = .ok b ↔ m = .ok () ∧ n () = .ok b :=
  bind_eq_ok_iff.trans ⟨fun ⟨_, hm, hn⟩ => ⟨hm, hn⟩, fun ⟨hm, hn⟩ => ⟨(), hm, hn⟩⟩

/-- The same check at each element. -/
theorem forM_eq_ok_iff {f : α → Except ε Unit} {xs : List α} :
    xs.forM f = .ok () ↔ ∀ x ∈ xs, f x = .ok () := by
  induction xs with
  | nil => exact iff_of_true rfl fun x hx => by contradiction
  | cons x xs ih =>
    rw [List.forall_mem_cons, ← ih]
    exact andThen_eq_ok_iff

/-! ## Errors of one kind -/

/-- If the computation fails, then with an error of this kind. -/
def ErrorsIn (P : ε → Prop) (m : Except ε α) : Prop := ∀ e, m = .error e → P e

namespace ErrorsIn

variable {P : ε → Prop} {m m' : Except ε α}

theorem ok (a : α) : ErrorsIn P (.ok a) := fun _ h => by contradiction

theorem error {e : ε} (h : P e) : ErrorsIn P (.error e : Except ε α) := by
  rintro e' ⟨⟩
  exact h

theorem ite {p : Prop} [Decidable p] (h : m.ErrorsIn P) (h' : m'.ErrorsIn P) :
    (if p then m else m').ErrorsIn P := by
  split_ifs
  · exact h
  · exact h'

theorem bind {f : α → Except ε β} (hm : m.ErrorsIn P) (hf : ∀ a, (f a).ErrorsIn P) :
    (m >>= f).ErrorsIn P := by
  intro e he
  cases m with
  | error e' =>
    cases he
    exact hm e rfl
  | ok a => exact hf a e he

/-- The second step matters where the first one succeeds. -/
theorem bind_ok {f : α → Except ε β} (hm : m.ErrorsIn P) (hf : ∀ a, m = .ok a → (f a).ErrorsIn P) :
    (m >>= f).ErrorsIn P := by
  intro e he
  cases m with
  | error e' =>
    cases he
    exact hm e rfl
  | ok a => exact hf a rfl e he

theorem map (hm : m.ErrorsIn P) (f : α → β) : (m.map f).ErrorsIn P := by
  intro e he
  cases m with
  | error e' =>
    cases he
    exact hm e rfl
  | ok a => cases he

theorem forM_mem {f : α → Except ε Unit} {xs : List α} (hf : ∀ a ∈ xs, (f a).ErrorsIn P) :
    (xs.forM f).ErrorsIn P := by
  induction xs with
  | nil => exact ok ()
  | cons x xs ih =>
    exact (hf x List.mem_cons_self).bind fun _ => ih fun a ha => hf a (List.mem_cons_of_mem x ha)

theorem forM {f : α → Except ε Unit} (hf : ∀ a, (f a).ErrorsIn P) (xs : List α) :
    (xs.forM f).ErrorsIn P := forM_mem fun a _ => hf a

theorem cases (h : m.ErrorsIn P) : (∃ a, m = .ok a) ∨ ∃ e, P e ∧ m = .error e := by
  cases m with
  | ok a => exact Or.inl ⟨a, rfl⟩
  | error e => exact Or.inr ⟨e, h e rfl, rfl⟩

end ErrorsIn

end Except
