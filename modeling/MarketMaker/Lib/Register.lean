import Mathlib.Data.List.GetD
import Mathlib.Data.List.Range
import Mathlib.Tactic.Common

/-!
# Registers with a history

A shared location that one thread stores to and another loads from, with the values it has held
in the order they were stored. A load may be stale: it returns any value the location has held
that is not older than the last one the loading thread saw, and the thread's view then moves up
to it. `lag` says how many stores behind the newest value the load would like to be; a load with
no lag is the sequentially consistent one.

A counter is a register whose every store adds one to what it held, so that its history is
`0, 1, 2, …` and a view into it is the value seen.
-/

/-- A location and the values it has held. -/
structure Register (α : Type*) where
  /-- The values held before, oldest first. -/
  past : List α
  /-- The value held now. -/
  now : α
deriving Repr, DecidableEq

namespace Register

variable {α : Type*}

/-- A register that has never been stored to. -/
def init (a : α) : Register α := { past := [], now := a }

/-- Every value the register has held, oldest first. -/
def held (r : Register α) : List α := r.past ++ [r.now]

/-- A store. -/
def store (r : Register α) (a : α) : Register α := { past := r.held, now := a }

/-- The place in the history that a load takes its value from. -/
def view (r : Register α) (seen lag : ℕ) : ℕ := max seen (r.past.length - lag)

/-- A load by a thread that has seen the history up to `seen`: its new view and the value. -/
def load (r : Register α) (seen lag : ℕ) : ℕ × α :=
  (r.view seen lag, r.held.getD (r.view seen lag) r.now)

@[simp]
theorem now_init (a : α) : (init a).now = a := rfl

@[simp]
theorem now_store (r : Register α) (a : α) : (r.store a).now = a := rfl

@[simp]
theorem past_store (r : Register α) (a : α) : (r.store a).past = r.held := rfl

@[simp]
theorem held_store (r : Register α) (a : α) : (r.store a).held = r.held ++ [a] := rfl

@[simp]
theorem fst_load (r : Register α) (seen lag : ℕ) : (r.load seen lag).1 = r.view seen lag := rfl

/-- A view never moves back. -/
theorem le_view (r : Register α) (seen lag : ℕ) : seen ≤ r.view seen lag := le_max_left _ _

/-- A load with no lag returns the value held now. -/
@[simp]
theorem snd_load_zero (r : Register α) (seen : ℕ) : (r.load seen 0).2 = r.now := by
  have hlatest : r.past.length ≤ r.view seen 0 := le_max_right _ _
  obtain hlt | heq := Nat.lt_or_eq_of_le hlatest
  · -- the view is past the history, where the newest value stands in
    apply List.getD_eq_default
    rw [held, List.length_append, List.length_singleton]
    exact hlt
  · simp [load, held, ← heq]

/-! ## Counters -/

/-- The history is `0, 1, 2, …` up to the value held now. -/
def IsCounter (r : Register ℕ) : Prop := r.past = List.range r.now

theorem isCounter_init : (init 0).IsCounter := rfl

theorem IsCounter.held_eq {r : Register ℕ} (h : r.IsCounter) : r.held = List.range (r.now + 1) := by
  rw [held, h, List.range_succ]

theorem IsCounter.store {r : Register ℕ} (h : r.IsCounter) : (r.store (r.now + 1)).IsCounter :=
  h.held_eq

/-- A counter has held its values in increasing order. -/
theorem IsCounter.pairwise {r : Register ℕ} (h : r.IsCounter) : r.held.Pairwise (· ≤ ·) := by
  rw [h.held_eq]
  exact List.pairwise_le_range

section View

variable {r : Register ℕ} {seen : ℕ} (h : r.IsCounter) (hseen : seen ≤ r.now) (lag : ℕ)

include h hseen

theorem IsCounter.view_le : r.view seen lag ≤ r.now := by
  rw [view, h, List.length_range]
  exact max_le hseen (Nat.sub_le _ _)

/-- What a load of a counter returns is the new view itself. -/
theorem IsCounter.snd_load : (r.load seen lag).2 = r.view seen lag := by
  have hlt : r.view seen lag < r.now + 1 := Nat.lt_succ_of_le (h.view_le hseen lag)
  rw [load, h.held_eq]
  dsimp only
  rw [List.getD_eq_getElem _ _ (by rwa [List.length_range]), List.getElem_range]

end View

end Register
