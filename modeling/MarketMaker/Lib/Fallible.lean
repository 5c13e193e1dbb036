import Mathlib.Data.List.Infix
import Mathlib.Tactic.Common

/-!
# Computations whose allocations may fail

`Fallible σ α` is a state-and-exception computation in which every allocation is a separate step
and the fate of each is decided in advance by the environment. A throw keeps whatever the state is
at that point: nothing is rolled back unless the program does it (`onThrow`).

`Spec m s Q E` is total in the environment: whatever the allocations do, `m` started in `s` either
returns with `Q`, or throws with `E`, and it throws only if some allocation failed. The rules below
are the only way the proofs go through a computation.
-/

/-- `std::bad_alloc`. -/
inductive BadAlloc
  | badAlloc
  deriving DecidableEq, Repr

/-- A state, and the fate of the allocations to come. -/
structure FallibleSt (σ : Type) where
  /-- `true` is a failing allocation; past the end every allocation succeeds. -/
  fate : List Bool
  val : σ

/-- Computations on a state `σ` that may throw at an allocation. -/
abbrev Fallible (σ α : Type) := EStateM BadAlloc (FallibleSt σ) α

namespace Fallible

variable {σ α β : Type}

/-- One allocation. -/
def alloc : Fallible σ Unit := fun s =>
  match s.fate with
  | [] => .ok () s
  | false :: fate => .ok () { s with fate }
  | true :: fate => .error .badAlloc { s with fate }

/-- Read the state. -/
def read (f : σ → α) : Fallible σ α := fun s => .ok (f s.val) s

/-- Update the state, without allocating. -/
def write (f : σ → σ) : Fallible σ Unit := fun s => .ok () { s with val := f s.val }

/-- `try { m } catch (...) { undo; throw; }`. -/
def onThrow (m : Fallible σ α) (undo : σ → σ) : Fallible σ α :=
  tryCatch m fun err => do
    write undo
    throw err

/-- Whatever the allocations do, `m` from `s` returns with `Q` or throws with `E`; it throws only
if an allocation failed. -/
def Spec (m : Fallible σ α) (s : σ) (Q : α → σ → Prop) (E : σ → Prop) : Prop :=
  ∀ fate, match m ⟨fate, s⟩ with
    | .ok a t => Q a t.val ∧ t.fate <:+ fate
    | .error _ t => E t.val ∧ true ∈ fate

variable {m : Fallible σ α} {s : σ} {Q : α → σ → Prop} {E : σ → Prop}

theorem spec_pure {a : α} (h : Q a s) : Spec (pure a) s Q E := fun _ => ⟨h, List.suffix_rfl⟩

theorem spec_read {f : σ → α} (h : Q (f s) s) : Spec (read f) s Q E := fun _ => ⟨h, List.suffix_rfl⟩

theorem spec_write {f : σ → σ} {Q : Unit → σ → Prop} (h : Q () (f s)) : Spec (write f) s Q E :=
  fun _ => ⟨h, List.suffix_rfl⟩

theorem spec_alloc {Q : Unit → σ → Prop} (hQ : Q () s) (hE : E s) : Spec alloc s Q E := by
  intro fate
  match fate with
  | [] => exact ⟨hQ, List.suffix_rfl⟩
  | false :: fate => exact ⟨hQ, List.suffix_cons _ _⟩
  | true :: fate => exact ⟨hE, List.mem_cons_self⟩

private theorem bind_apply (m : Fallible σ α) (f : α → Fallible σ β) (s : FallibleSt σ) :
    (m >>= f) s =
      match m s with
      | .ok a t => f a t
      | .error err t => .error err t := by
  cases hrun : m s <;> simp [bind, EStateM.bind, hrun]

private theorem onThrow_apply (m : Fallible σ α) (undo : σ → σ) (s : FallibleSt σ) :
    onThrow m undo s =
      match m s with
      | .ok a t => .ok a t
      | .error err t => .error err { t with val := undo t.val } := by
  cases hrun : m s with
  | ok a t => simp [onThrow, tryCatch, tryCatchThe, MonadExceptOf.tryCatch, EStateM.tryCatch, hrun]
  | error err t =>
    simp only [onThrow, tryCatch, tryCatchThe, MonadExceptOf.tryCatch, EStateM.tryCatch, hrun]
    rfl

theorem spec_bind {f : α → Fallible σ β} {Q : β → σ → Prop}
    (h : Spec m s (fun a t => Spec (f a) t Q E) E) : Spec (m >>= f) s Q E := by
  intro fate
  have hm := h fate
  rw [bind_apply]
  cases hrun : m ⟨fate, s⟩ with
  | error err t =>
    rw [hrun] at hm
    exact hm
  | ok a t =>
    rw [hrun] at hm
    -- what is left to the continuation is a suffix of the fate
    obtain ⟨hf, hsuffix⟩ := hm
    have hf := hf t.fate
    dsimp only
    cases hrun' : f a t with
    | error err u =>
      rw [show (⟨t.fate, t.val⟩ : FallibleSt σ) = t from rfl, hrun'] at hf
      exact ⟨hf.1, hsuffix.subset hf.2⟩
    | ok b u =>
      rw [show (⟨t.fate, t.val⟩ : FallibleSt σ) = t from rfl, hrun'] at hf
      exact ⟨hf.1, hf.2.trans hsuffix⟩

theorem spec_onThrow {undo : σ → σ} (h : Spec m s Q fun t => E (undo t)) :
    Spec (onThrow m undo) s Q E := by
  intro fate
  have hm := h fate
  rw [onThrow_apply]
  cases hrun : m ⟨fate, s⟩ with
  | error err t =>
    rw [hrun] at hm
    exact hm
  | ok a t =>
    rw [hrun] at hm
    exact hm

theorem spec_mono {Q' : α → σ → Prop} {E' : σ → Prop} (h : Spec m s Q E)
    (hQ : ∀ a t, Q a t → Q' a t) (hE : ∀ t, E t → E' t) : Spec m s Q' E' := by
  intro fate
  have hm := h fate
  cases hrun : m ⟨fate, s⟩ with
  | error e t =>
    rw [hrun] at hm
    exact ⟨hE _ hm.1, hm.2⟩
  | ok a t =>
    rw [hrun] at hm
    exact ⟨hQ _ _ hm.1, hm.2⟩

/-- A loop whose body computes `g` and leaves the state alone computes the fold of `g`. -/
theorem spec_foldlM {f : β → α → Fallible σ β} {g : β → α → β} (l : List α) (acc : β)
    (h : ∀ acc, ∀ a ∈ l, Spec (f acc a) s (fun b t => b = g acc a ∧ t = s) E) :
    Spec (l.foldlM f acc) s (fun b t => b = l.foldl g acc ∧ t = s) E := by
  induction l generalizing acc with
  | nil => exact spec_pure ⟨rfl, rfl⟩
  | cons a l ih =>
    rw [List.foldlM_cons]
    refine spec_bind (spec_mono (h acc a List.mem_cons_self) ?_ fun _ hE => hE)
    rintro b t ⟨rfl, rfl⟩
    exact ih _ fun acc a ha => h acc a (List.mem_cons_of_mem _ ha)

end Fallible
