import MarketMaker.Engine.Restrict

/-!
# Sessions do not interfere

A run and the same run without the calls of the other sessions, compared on what one session sees.
This is the restriction of an engine to the sessions `fun t => t = s`: `sessionView_run` reads what
the session sees off `Restricts.run`.
-/

namespace MarketMaker

namespace OrderEngine

/-- The call is a book, or a call of the session. -/
def concerns (s : ℕ) : Call → Bool
  | .onNew session _ => session = s
  | .onCancel session _ => session = s
  | .onBook _ => true
  | .endSession session => session = s

/-- What a session sees of a history: the calls that concern it, each with its reports for the
session. -/
def sessionView (s : ℕ) (history : List (Call × List Routed)) : List (Call × List OutMsg) :=
  (history.filter fun p => concerns s p.1).map fun p => (p.1, reportsTo s p.2)

variable {cfg : EngineConfig} {s : ℕ} {ρ σ : ℕ → ℕ} {e e₁ e₂ : OrderEngine}

/-- The calls that concern a session are those that involve the only session kept. -/
theorem involves_single : involves (fun t => t = s) = concerns s := by
  funext call
  cases call <;> rfl

/-! ## Reports -/

/-- A call that does not concern the session reports nothing to it. -/
theorem reportsTo_step_other {call : Call} (hother : concerns s call = false) :
    reportsTo s (step cfg e call).2 = [] := by
  cases call with
  | onNew session order => exact reportsTo_other (by simpa [concerns] using hother) _
  | onCancel session cancel => exact reportsTo_other (by simpa [concerns] using hother) _
  | onBook book => cases hother
  | endSession session => exact reportsTo_other (by simpa [concerns] using hother) _

theorem sessionView_cons (call : Call) (out : List Routed) (history : List (Call × List Routed)) :
    sessionView s ((call, out) :: history) =
      if concerns s call then (call, reportsTo s out) :: sessionView s history
      else sessionView s history := by
  unfold sessionView
  split_ifs with hc <;> simp [hc]

/-- The view of one session, without the session. -/
theorem sessionView_eq (history : List (Call × List Routed)) :
    sessionView s history =
      (keptView (fun t => t = s) history).map fun p => (p.1, p.2.map Routed.msg) := by
  rw [sessionView, keptView, involves_single, List.map_map]
  rfl

/-- What one session sees of two runs, when the second has been without the others' calls. -/
theorem sessionView_run (h : Restricts cfg (fun t => t = s) ρ σ e₁ e₂) (calls : List Call) :
    ∃ ρ' σ', StrictMono ρ' ∧ StrictMono σ' ∧ Set.EqOn ρ ρ' (Set.Iio e₂.nextEngId) ∧
      Set.EqOn σ σ' (Set.Iio e₂.nextExecId) ∧
      sessionView s (Mealy.run (step cfg) e₁ calls).2 =
        (sessionView s (Mealy.run (step cfg) e₂ (calls.filter (concerns s))).2).map
          fun p => (p.1, p.2.map (OutMsg.rename ρ' σ')) := by
  obtain ⟨ρ', σ', hlast, hρ', hσ', -, hview⟩ := h.run calls
  rw [involves_single] at hview
  refine ⟨ρ', σ', hlast.eng.strictMono, hlast.exec.strictMono, hρ', hσ', ?_⟩
  rw [sessionView_eq, sessionView_eq, hview, List.map_map, List.map_map]
  refine List.map_congr_left fun p _ => ?_
  simp [Routed.rename, Function.comp_def]

/-- All reports of a run to the session are in its view. -/
private theorem reportsTo_flatMap_run (calls : List Call) :
    reportsTo s ((Mealy.run (step cfg) e calls).2.flatMap Prod.snd) =
      (sessionView s (Mealy.run (step cfg) e calls).2).flatMap Prod.snd := by
  induction calls generalizing e with
  | nil => rfl
  | cons call calls ih =>
    have happend : ∀ l l', reportsTo s (l ++ l') = reportsTo s l ++ reportsTo s l' := by
      simp [reportsTo]
    simp only [Mealy.run, List.flatMap_cons, sessionView_cons, happend, ih]
    by_cases hc : concerns s call = true
    · rw [if_pos hc, List.flatMap_cons]
    · rw [if_neg hc, reportsTo_step_other (by simpa using hc), List.nil_append]

/-- Delete the calls of every other session from a run: what the session sees, call by call and
report by report, is the same up to order-preserving renamings of `eng_id` and `exec_id`. -/
theorem run_isolated (cfg : EngineConfig) (calls : List Call) (s : ℕ) :
    ∃ ρ σ, StrictMono ρ ∧ StrictMono σ ∧
      reportsTo s ((run cfg calls).2.flatMap Prod.snd) =
        (reportsTo s ((run cfg (calls.filter (concerns s))).2.flatMap Prod.snd)).map
          (OutMsg.rename ρ σ) ∧
      sessionView s (run cfg calls).2 =
        (sessionView s (run cfg (calls.filter (concerns s))).2).map
          fun p => (p.1, p.2.map (OutMsg.rename ρ σ)) := by
  obtain ⟨ρ, σ, hρ, hσ, -, -, hview⟩ := sessionView_run (restricts_init cfg fun t => t = s) calls
  refine ⟨ρ, σ, hρ, hσ, ?_, hview⟩
  rw [reportsTo_flatMap_run, reportsTo_flatMap_run, hview, List.flatMap_map, List.map_flatMap]

end OrderEngine

end MarketMaker
