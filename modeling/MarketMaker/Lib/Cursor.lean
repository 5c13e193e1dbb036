import Mathlib.Data.List.Basic
import Mathlib.Data.Nat.Notation

/-!
# A place in a list

A scanner keeps an index, a reader what is left. `At f i t` says that `t` is what is left of `f` at
the index `i`, which is at most the length: it carries facts from the one to the other.
-/

namespace Cursor

variable {α : Type*} {f t r v : List α} {i j : ℕ} {c : α}

/-- What is left of the list at an index. -/
def At (f : List α) (i : ℕ) (t : List α) : Prop := i ≤ f.length ∧ f.drop i = t

namespace At

theorem start (f : List α) : At f 0 f := ⟨Nat.zero_le _, rfl⟩

theorem getElem? (h : At f i t) : f[i]? = t.head? := by
  rw [← List.head?_drop, h.2]

theorem getElem?_cons (h : At f i (c :: t)) : f[i]? = some c := by
  rw [h.getElem?]
  rfl

theorem getElem?_nil (h : At f i []) : f[i]? = none := by
  rw [h.getElem?]
  rfl

theorem length_eq (h : At f i t) : f.length = i + t.length := by
  have hlength := congrArg List.length h.2
  have hle := h.1
  rw [List.length_drop] at hlength
  omega

theorem drop (h : At f i t) {n : ℕ} (hn : n ≤ t.length) : At f (i + n) (t.drop n) := by
  refine ⟨?_, by rw [← List.drop_drop, h.2]⟩
  have hlength := h.length_eq
  omega

theorem tail (h : At f i (c :: t)) : At f (i + 1) t :=
  h.drop (n := 1) (Nat.succ_le_succ (Nat.zero_le _))

theorem append (h : At f i (v ++ t)) : At f (i + v.length) t := by
  have hdrop := h.drop (n := v.length) (by simp)
  rwa [List.drop_left] at hdrop

/-- What is left tells the index. -/
theorem index_eq (h : At f i t) (h' : At f j t) : i = j := by
  have hi := h.length_eq
  have hj := h'.length_eq
  omega

theorem index_lt (h : At f i t) (h' : At f j r) (hlt : r.length < t.length) : i < j := by
  have hi := h.length_eq
  have hj := h'.length_eq
  omega

/-- The index where a suffix starts. -/
theorem of_suffix (h : t <:+ f) : At f (f.length - t.length) t := by
  obtain ⟨v, rfl⟩ := h
  refine ⟨Nat.sub_le _ _, ?_⟩
  rw [List.length_append, Nat.add_sub_cancel, List.drop_left]

theorem suffix (h : At f i t) : t <:+ f := h.2 ▸ List.drop_suffix i f

/-- What lies between two indices. -/
theorem take_eq (h : At f i (v ++ t)) (h' : At f j t) : (f.drop i).take (j - i) = v := by
  obtain rfl : i + v.length = j := h.append.index_eq h'
  rw [h.2, Nat.add_sub_cancel_left, List.take_left]

end At

end Cursor
