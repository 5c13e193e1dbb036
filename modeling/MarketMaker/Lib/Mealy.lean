import Mathlib.Data.List.Induction
import Mathlib.Tactic.Common

/-!
# Runs of a Mealy machine

A component is a function `step : σ → ι → σ × List ω`: an input takes a state to a state and an
output batch. A run records each input beside the batch it drew. `run_induct` is the rule every
statement about whole runs goes through: what holds of the initial state and the empty history,
and is kept by one step, holds of every run.
-/

namespace Mealy

variable {σ ι ω : Type*} (step : σ → ι → σ × List ω)

/-- The final state of a run and its history of inputs and output batches. -/
def run (s : σ) : List ι → σ × List (ι × List ω)
  | [] => (s, [])
  | i :: is =>
    let next := step s i
    let rest := run next.1 is
    (rest.1, (i, next.2) :: rest.2)

/-- Every step of a run meets a condition on the state it starts from and its input. -/
def Along (C : σ → ι → Prop) (s : σ) : List ι → Prop
  | [] => True
  | i :: is => C s i ∧ Along C (step s i).1 is

instance decidableAlong {C : σ → ι → Prop} [hC : ∀ s i, Decidable (C s i)] (s : σ) :
    (is : List ι) → Decidable (Along step C s is)
  | [] => .isTrue trivial
  | i :: is => @instDecidableAnd _ _ (hC s i) (decidableAlong (step s i).1 is)

/-- Every step of a run meets `C`, up to one that meets `E`. -/
def Until (C E : σ → ι → Prop) (s : σ) : List ι → Prop
  | [] => True
  | i :: is => E s i ∨ C s i ∧ Until C E (step s i).1 is

/-- The states that some run from `s` ends in. -/
def Reachable (s t : σ) : Prop := ∃ is, (run step s is).1 = t

@[simp]
theorem run_nil (s : σ) : run step s [] = (s, []) := rfl

theorem run_append (s : σ) (is js : List ι) :
    run step s (is ++ js) =
      ((run step (run step s is).1 js).1,
        (run step s is).2 ++ (run step (run step s is).1 js).2) := by
  induction is generalizing s with
  | nil => rfl
  | cons i is ih => simp [run, ih]

/-- The last input of a run is one step from the state before it. -/
theorem run_concat (s : σ) (is : List ι) (i : ι) :
    run step s (is ++ [i]) =
      ((step (run step s is).1 i).1,
        (run step s is).2 ++ [(i, (step (run step s is).1 i).2)]) := by
  rw [run_append]
  rfl

/-- A history records the inputs of its run. -/
@[simp]
theorem map_fst_run (s : σ) (is : List ι) : (run step s is).2.map Prod.fst = is := by
  induction is generalizing s with
  | nil => rfl
  | cons i is ih => simp [run, ih]

theorem length_run (s : σ) (is : List ι) : (run step s is).2.length = is.length := by
  rw [← List.length_map (f := Prod.fst), map_fst_run]

/-- A run goes through a beginning of its history. -/
theorem exists_run_of_prefix {s t : σ} {h h' : List (ι × List ω)}
    (hrun : run step s (h.map Prod.fst) = (t, h)) (hpre : h' <+: h) :
    ∃ u, run step s (h'.map Prod.fst) = (u, h') ∧
      ∃ more, h = h' ++ more ∧ run step u (more.map Prod.fst) = (t, more) := by
  obtain ⟨more, rfl⟩ := hpre
  rw [List.map_append, run_append] at hrun
  obtain ⟨ht, hhistory⟩ := Prod.mk.inj hrun
  obtain ⟨hfirst, hrest⟩ := List.append_inj hhistory (by rw [length_run, List.length_map])
  exact ⟨_, Prod.ext rfl hfirst, more, rfl, Prod.ext ht hrest⟩

/-- Each batch of a history was drawn in some state. -/
theorem output_of_mem_run {s : σ} {is : List ι} {p : ι × List ω} (h : p ∈ (run step s is).2) :
    ∃ t, p.2 = (step t p.1).2 := by
  induction is generalizing s with
  | nil => cases h
  | cons i is ih =>
    rcases List.mem_cons.mp h with rfl | hrest
    · exact ⟨s, rfl⟩
    · exact ih hrest

/-- Induction over runs, with the history in the invariant. -/
theorem run_induct {P : σ → List (ι × List ω) → Prop} {s : σ} (init : P s [])
    (keep : ∀ t h i, P t h → P (step t i).1 (h ++ [(i, (step t i).2)])) (is : List ι) :
    P (run step s is).1 (run step s is).2 := by
  induction is using List.reverseRecOn with
  | nil => exact init
  | append_singleton is i ih =>
    rw [run_concat]
    exact keep _ _ i ih

theorem along_append (C : σ → ι → Prop) (s : σ) (is js : List ι) :
    Along step C s (is ++ js) ↔ Along step C s is ∧ Along step C (run step s is).1 js := by
  induction is generalizing s with
  | nil => exact (iff_of_eq (true_and _)).symm
  | cons i is ih => rw [List.cons_append, Along, Along, ih, and_assoc]; rfl

theorem along_concat (C : σ → ι → Prop) (s : σ) (is : List ι) (i : ι) :
    Along step C s (is ++ [i]) ↔ Along step C s is ∧ C (run step s is).1 i := by
  rw [along_append]
  exact and_congr_right fun _ => iff_of_eq (and_true _)

/-- A condition on the inputs alone. -/
theorem along_of_forall {C : ι → Prop} {is : List ι} (h : ∀ i ∈ is, C i) (s : σ) :
    Along step (fun _ i => C i) s is := by
  induction is generalizing s with
  | nil => trivial
  | cons i is ih =>
    exact ⟨h i List.mem_cons_self, ih (fun j hj => h j (List.mem_cons_of_mem i hj)) _⟩

/-- A condition that every step meets. -/
theorem along_of_step {C : σ → ι → Prop} (h : ∀ t i, C t i) (s : σ) (is : List ι) :
    Along step C s is := by
  induction is generalizing s with
  | nil => trivial
  | cons i is ih => exact ⟨h s i, ih _⟩

/-- What is kept by every step that does not end it. -/
theorem until_of_keep {C E : σ → ι → Prop} {P : σ → Prop} {s : σ} (init : P s)
    (keep : ∀ t i, P t → E t i ∨ C t i ∧ P (step t i).1) (is : List ι) : Until step C E s is := by
  induction is generalizing s with
  | nil => trivial
  | cons i is ih => exact (keep s i init).imp_right fun h => ⟨h.1, ih h.2⟩

/-- Induction over the runs whose steps all meet a condition. -/
theorem run_induct_along {C : σ → ι → Prop} {P : σ → List (ι × List ω) → Prop} {s : σ}
    (init : P s [])
    (keep : ∀ t h i, C t i → P t h → P (step t i).1 (h ++ [(i, (step t i).2)])) {is : List ι}
    (his : Along step C s is) : P (run step s is).1 (run step s is).2 := by
  induction is using List.reverseRecOn with
  | nil => exact init
  | append_singleton is i ih =>
    obtain ⟨hbefore, hlast⟩ := (along_concat step C s is i).mp his
    rw [run_concat]
    exact keep _ _ i hlast (ih hbefore)

theorem Reachable.refl (s : σ) : Reachable step s s := ⟨[], rfl⟩

variable {step} in
theorem Reachable.trans {s t u : σ} (h : Reachable step s t) (h' : Reachable step t u) :
    Reachable step s u := by
  obtain ⟨is, rfl⟩ := h
  obtain ⟨js, rfl⟩ := h'
  exact ⟨is ++ js, by rw [run_append]⟩

theorem Reachable.single (s : σ) (i : ι) : Reachable step s (step s i).1 := ⟨[i], rfl⟩

/-- Induction over reachable states. -/
theorem Reachable.induct {P : σ → Prop} {s t : σ} (h : Reachable step s t) (init : P s)
    (keep : ∀ u i, P u → P (step u i).1) : P t := by
  obtain ⟨is, rfl⟩ := h
  exact run_induct step (P := fun u _ => P u) init (fun u _ i hu => keep u i hu) is

end Mealy
