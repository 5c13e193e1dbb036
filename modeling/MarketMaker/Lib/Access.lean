import Mathlib.Tactic.Common

/-!
# Computations that note what they access

`Access μ ι ε α` is a computation on a memory `μ` that may raise an exception `ε`, together with the
places `ι` of the memory that it has accessed, in order. A place is noted before it is known whether
the access succeeds, so that one that raises is noted as well.
-/

/-- A computation: from a memory to an outcome, the memory it leaves, and the places it accessed. -/
structure Access (μ ι ε α : Type) where
  run : μ → Except ε α × μ × List ι

namespace Access

variable {μ ι ε α β : Type}

/-- Go on after a computation that has returned. -/
def andThen (x : Access μ ι ε α) (f : α → Access μ ι ε β) : Access μ ι ε β where
  run m := match x.run m with
    | (.ok a, m', places) =>
      (((f a).run m').1, ((f a).run m').2.1, places ++ ((f a).run m').2.2)
    | (.error e, m', places) => (.error e, m', places)

instance : Monad (Access μ ι ε) where
  pure a := ⟨fun m => (.ok a, m, [])⟩
  bind := andThen

/-- Raise an exception. -/
def raise (e : ε) : Access μ ι ε α := ⟨fun m => (.error e, m, [])⟩

/-- A step that accesses none of the places that are noted. -/
def silent (x : μ → Except ε α × μ) : Access μ ι ε α := ⟨fun m => ((x m).1, (x m).2, [])⟩

/-- A step that accesses one place. -/
def touching (i : ι) (x : μ → Except ε α × μ) : Access μ ι ε α :=
  ⟨fun m => ((x m).1, (x m).2, [i])⟩

variable {x : Access μ ι ε α} {f : α → Access μ ι ε β} {m m' : μ} {places : List ι}

/-- The rest of a computation, after a part that has returned. -/
theorem run_bind_of_ok {a : α} (h : x.run m = (.ok a, m', places)) :
    (x >>= f).run m = (((f a).run m').1, ((f a).run m').2.1, places ++ ((f a).run m').2.2) := by
  change (andThen x f).run m = _
  simp only [andThen, h]

/-- A part that raises ends the computation. -/
theorem run_bind_of_error {e : ε} (h : x.run m = (.error e, m', places)) :
    (x >>= f).run m = (.error e, m', places) := by
  change (andThen x f).run m = _
  simp only [andThen, h]

/-- After a step that accesses nothing, the places are those of the rest. -/
theorem run_silent_bind {step : μ → Except ε α × μ} {a : α} (h : step m = (.ok a, m')) :
    ((silent step : Access μ ι ε α) >>= f).run m = (f a).run m' := by
  have hstep : (silent step : Access μ ι ε α).run m = (.ok a, m', []) := by
    simp only [silent, h]
  rw [run_bind_of_ok hstep, List.nil_append]

/-- What a computation is without its notes. -/
def erase (x : Access μ ι ε α) (m : μ) : Except ε α × μ := ((x.run m).1, (x.run m).2.1)

theorem erase_bind (x : Access μ ι ε α) (f : α → Access μ ι ε β) (m : μ) :
    (x >>= f).erase m =
      match x.erase m with
      | (.ok a, m') => (f a).erase m'
      | (.error e, m') => (.error e, m') := by
  rcases h : x.run m with ⟨result, m', places⟩
  cases result with
  | ok a => simp only [erase, run_bind_of_ok h, h]
  | error e => simp only [erase, run_bind_of_error h, h]

/-! ## Where a computation goes -/

/-- Every place that a computation accesses is one of these. -/
def Within (S : ι → Prop) (x : Access μ ι ε α) : Prop := ∀ m, ∀ i ∈ (x.run m).2.2, S i

variable {S : ι → Prop}

theorem within_pure (a : α) : Within S (pure a : Access μ ι ε α) :=
  fun _ _ h => absurd h List.not_mem_nil

theorem within_raise (e : ε) : Within S (raise e : Access μ ι ε α) :=
  fun _ _ h => absurd h List.not_mem_nil

theorem within_silent (step : μ → Except ε α × μ) : Within S (silent step : Access μ ι ε α) :=
  fun _ _ h => absurd h List.not_mem_nil

theorem within_touching {i : ι} (h : S i) (step : μ → Except ε α × μ) :
    Within S (touching i step : Access μ ι ε α) :=
  fun _ _ hj => List.mem_singleton.mp hj ▸ h

/-- A computation stays within some places if its parts do. -/
theorem Within.bind (hx : Within S x) (hf : ∀ a, Within S (f a)) : Within S (x >>= f) := by
  intro m i hi
  rcases h : x.run m with ⟨result, m', places⟩
  have hplaces : ∀ j ∈ places, S j := fun j hj => hx m j (by rw [h]; exact hj)
  cases result with
  | ok a =>
    rw [run_bind_of_ok h] at hi
    exact (List.mem_append.mp hi).elim (hplaces i) (hf a m' i)
  | error e =>
    rw [run_bind_of_error h] at hi
    exact hplaces i hi

end Access
