import Mathlib.Data.Set.Function
import Mathlib.Order.Interval.Set.Defs
import Mathlib.Order.Monotone.Basic
import Mathlib.Tactic.Common

/-!
# Order-preserving renumberings

Two counters hand out ids in step, except that one of them also hands out ids the other never
sees. `Renumbers n m f` says that `f` maps the ids handed out below `n` to those below `m` and will
stay correct as long as both advance together: past `n` it is the shift by `m - n`. An id handed out
on the right alone is a `skip`; an id handed out on both sides is a `keep`.
-/

/-- `f` maps the ids below `n` into those below `m` in order, and shifts the ids to come. -/
structure Renumbers (n m : ℕ) (f : ℕ → ℕ) : Prop where
  strictMono : StrictMono f
  shift : ∀ k, f (n + k) = m + k

namespace Renumbers

variable {n m : ℕ} {f g : ℕ → ℕ}

protected theorem id (n : ℕ) : Renumbers n n id := ⟨strictMono_id, fun _ => rfl⟩

/-- The next id on the left is the next id on the right. -/
theorem apply_next (h : Renumbers n m f) : f n = m := h.shift 0

/-- Both sides hand out their next id. -/
theorem keep (h : Renumbers n m f) : Renumbers (n + 1) (m + 1) f where
  strictMono := h.strictMono
  shift k := by
    rw [Nat.add_assoc, h.shift]
    omega

/-- The renumbering after the right side alone has handed out an id. -/
def skipAt (n : ℕ) (f : ℕ → ℕ) (i : ℕ) : ℕ := if i < n then f i else f i + 1

theorem eqOn_skipAt (n : ℕ) (f : ℕ → ℕ) : Set.EqOn f (skipAt n f) (Set.Iio n) := by
  intro i hi
  exact (if_pos (Set.mem_Iio.mp hi)).symm

/-- The right side alone hands out an id. -/
theorem skip (h : Renumbers n m f) : Renumbers n (m + 1) (skipAt n f) where
  strictMono i j hij := by
    have hf := h.strictMono hij
    unfold skipAt
    split_ifs <;> omega
  shift k := by
    rw [skipAt, if_neg (by omega), h.shift]
    omega

end Renumbers
