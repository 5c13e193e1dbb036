import MarketMaker.Server.Closing

/-!
# Stopping and finalizing

`World.Final` is the invariant: the server is finalized exactly when it is stopping and its map is
empty. A stopping server only loses sessions, and one that is finalized is inert: every session it
ever had is torn down.
-/

namespace MarketMaker

/-- The record is one half of a snapshot. -/
def TelemetryRecord.isSnapshot : TelemetryRecord → Bool
  | .counters _ _ _ => true
  | .event _ _ _ _ => false

theorem TelemetryRecord.isSnapshot_of_isRoutine {r : TelemetryRecord} (h : r.isRoutine = true) :
    r.isSnapshot = false := by
  cases r with
  | event kind ts a0 a1 => rfl
  | counters part ts counters => cases h

namespace World

variable {cfg : ServerConfig} {codec : Codec} {w w' : World}

/-- The server has finalized as soon as it could. -/
def Final (w : World) : Prop :=
  w.srv.finalized = true ↔ w.srv.stopping = true ∧ w.srv.sessions.toList = []

/-- The invariant reads three fields. -/
theorem Final.congr (h : w.Final) (hsessions : w'.srv.sessions = w.srv.sessions)
    (hstopping : w'.srv.stopping = w.srv.stopping)
    (hfinalized : w'.srv.finalized = w.srv.finalized) : w'.Final := by
  rw [Final, hsessions, hstopping, hfinalized]
  exact h

theorem Final.calm (h : w.Final) (hcalm : w.srv.Calm w'.srv) : w'.Final :=
  h.congr hcalm.sessions hcalm.stopping hcalm.finalized

/-- A running server is not finalized. -/
theorem Final.unfinished (h : w.Final) (hrunning : w.srv.stopping = false) :
    w.srv.finalized = false := by
  by_contra hfin
  have hstopping := (h.mp (Bool.eq_true_of_not_eq_false hfin)).1
  rw [hrunning] at hstopping
  cases hstopping

theorem Final.of_running (hrunning : w.srv.stopping = false)
    (hunfinished : w.srv.finalized = false) : w.Final := by
  rw [Final, hrunning, hunfinished]
  exact ⟨(by simp), fun h => by cases h.1⟩

/-- A session that is up is in the map. -/
theorem Inv.mem_sessions (h : w.Inv cfg) {i : ℕ} {x : Session} (hx : w.heap[i]? = some x)
    (hstarted : x.epoch ≠ 0) (hup : x.tornDown = false) : (x.epoch, i) ∈ w.srv.sessions.toList :=
  OrderedMap.find?_eq_some_iff.mp (h.mapped.mpr ⟨hstarted, x, hx, rfl, hup⟩)

/-- An object whose operation completes is started. -/
theorem Inv.started_completes (h : w.Inv cfg) {event : Event} {i : ℕ} {x : Session}
    {f : Turn → Turn} (hx : w.heap[i]? = some x) (hcompletes : Completes cfg codec i x event f) :
    x.epoch ≠ 0 := by
  refine h.started hx ?_
  rintro rfl
  cases hcompletes with
  | read _ hpending => cases hpending
  | write _ hpending => cases hpending
  | closeFrame _ hpending => cases hpending
  | oversizeClose hpending => cases hpending
  | drainRead _ hpending => cases hpending

/-- The last session to go finalizes a stopping server. -/
theorem Final.teardown (h : w.Final) (hinv : w.Inv cfg) {i : ℕ} {x : Session} {t : Turn} {code : ℕ}
    (hx : w.heap[i]? = some x) (hstarted : x.epoch ≠ 0) (hup : x.tornDown = false)
    (hmild : Session.Mild ⟨w.srv, x⟩ t)
    (hsrv : w'.srv = (Session.teardown cfg code t).srv) : w'.Final := by
  obtain ⟨calm, told, hcalm, hcloses, heq⟩ :=
    Session.closes_teardown cfg code (hmild.tornDown.trans hup)
  have hunfinished : told.finalized = false := by
    rw [hcloses.finalized, hcalm.finalized, hmild.srv.finalized]
    by_contra hfin
    have hempty := (h.mp (Bool.eq_true_of_not_eq_false hfin)).2
    have hmem := hinv.mem_sessions hx hstarted hup
    rw [hempty] at hmem
    cases hmem
  rw [Final, hsrv, heq]
  split_ifs with hlast
  · rw [Bool.and_eq_true, List.isEmpty_iff] at hlast
    have hfin := told.finalizes hunfinished
    rw [hfin.finalized, hfin.stopping, hfin.sessions]
    exact ⟨fun _ => hlast, fun _ => rfl⟩
  · rw [Bool.and_eq_true, List.isEmpty_iff] at hlast
    rw [hunfinished]
    exact ⟨(by simp), fun hend => absurd hend hlast⟩

theorem Final.step (h : w.Final) (hinv : w.Inv cfg) (harmed : ∀ x ∈ w.heap, x.Armed)
    (codec : Codec) (event : Event) : (w.step cfg codec event).Final := by
  have hturned := turned_step cfg codec w event
  generalize w.step cfg codec event = w' at hturned ⊢
  cases hturned with
  | ignored => exact h
  | @completed _ i x f hfound hcompletes =>
    have hstarted := hinv.started_completes hfound hcompletes
    have hout := outcome_completes (harmed x (List.mem_of_getElem? hfound)) hcompletes w.srv
    rw [heap_on hfound]
    generalize f ⟨w.srv, x⟩ = t' at hout ⊢
    cases hout with
    | mild hmild => exact h.calm hmild.srv
    | tearDown hmild _ hup _ _ => exact h.teardown hinv hfound hstarted hup hmild rfl
  | fed index _ => exact h
  | dropped index _ => exact Final.calm (w := w.fed index) h (pokes_closeAll cfg codec _).srv
  | published index bidPx bidQty askPx askQty _ =>
    refine Final.calm ?_ (pokes_publishBook cfg codec (w.fed index) _ _ _ _).srv
    exact h
  | stopped _ index hrunning =>
    have hunfinished : (w.fed index).halted.srv.finalized = false := h.unfinished hrunning
    rw [beginStop_of_running (w := w.fed index) hrunning]
    split_ifs with hempty
    · have hfin := (w.fed index).halted.srv.finalizes hunfinished
      rw [Final, hfin.finalized, hfin.stopping, hfin.sessions]
      exact ⟨fun _ => ⟨rfl, List.isEmpty_iff.mp hempty⟩, fun _ => rfl⟩
    · refine Final.calm ?_ (pokes_closeAll cfg codec (w.fed index).halted).srv
      rw [Final, hunfinished]
      exact ⟨(by simp), fun hend => absurd (List.isEmpty_iff.mpr hend.2) hempty⟩
  | snapshot conflatedOf _ => exact h
  | accepted ok =>
    unfold World.onAccept
    dsimp only
    split_ifs <;> exact h
  | requested request _ =>
    unfold World.onUpgradeRequest
    cases request with
    | none => exact h
    | some req =>
      dsimp only
      split_ifs <;> exact h
  | refused _ => exact h
  | shaken ok hfound =>
    rw [(hinv.onHandshake_eq hfound ok).2]
    split_ifs with hskip
    · exact h
    · -- the server is running
      simp only [Bool.or_eq_true, not_or, Bool.not_eq_true] at hskip
      exact Final.of_running hskip.2 (h.unfinished hskip.2)

theorem run_final (cfg : ServerConfig) (codec : Codec) (clock : ℕ → ℤ) (events : List Event) :
    (run cfg codec clock events).Final := by
  induction events using List.reverseRecOn with
  | nil => exact ⟨(by rintro ⟨⟩), fun h => by cases h.1⟩
  | append_singleton events event ih =>
    rw [run_concat]
    exact ih.step (run_steps cfg codec clock events).2
      (run_armed cfg codec clock events) codec event

/-! ## A stopping server -/

/-- What a turn of a stopping server leaves alone: no session enters the map, no book is published,
and once the map is empty nothing is narrated. -/
structure Winding (w w' : World) : Prop where
  stopping : w'.srv.stopping = true
  sessions : ∀ p ∈ w'.srv.sessions.toList, p ∈ w.srv.sessions.toList
  nextMdSeq : w'.srv.nextMdSeq = w.srv.nextMdSeq
  books : booksIn w'.srv.calls = booksIn w.srv.calls
  telemetry : w.srv.sessions.toList = [] → w'.srv.telemetry = w.srv.telemetry

theorem Winding.refl (h : w.srv.stopping = true) : Winding w w :=
  ⟨h, fun _ hp => hp, rfl, rfl, fun _ => rfl⟩

theorem Winding.trans {w'' : World} (h : Winding w w') (h' : Winding w' w'') : Winding w w'' where
  stopping := h'.stopping
  sessions p hp := h.sessions p (h'.sessions p hp)
  nextMdSeq := h'.nextMdSeq.trans h.nextMdSeq
  books := h'.books.trans h.books
  telemetry hempty := by
    refine (h'.telemetry ?_).trans (h.telemetry hempty)
    refine List.eq_nil_iff_forall_not_mem.mpr fun p hp => ?_
    have hmem := h.sessions p hp
    rw [hempty] at hmem
    cases hmem

/-- The completion of a session's operation. -/
theorem winding_completed (hstopping : w.srv.stopping = true) (hinv : w.Inv cfg) {event : Event}
    {i : ℕ} {x : Session} {f : Turn → Turn} (hfound : w.heap[i]? = some x) (harmed : x.Armed)
    (hcompletes : Completes cfg codec i x event f) : Winding w (w.on i f) := by
  have hstarted := hinv.started_completes hfound hcompletes
  have hout := outcome_completes harmed hcompletes w.srv
  -- with an empty map the session is torn down, and its handlers are inert
  have hempty : w.srv.sessions.toList = [] → (f ⟨w.srv, x⟩).srv = w.srv := by
    intro hempty
    cases hup : x.tornDown with
    | true => exact (inert_completes hup hcompletes w.srv).1
    | false =>
      have hmem := hinv.mem_sessions hfound hstarted hup
      rw [hempty] at hmem
      cases hmem
  rw [heap_on hfound]
  generalize f ⟨w.srv, x⟩ = t' at hout hempty ⊢
  have htelemetry : w.srv.sessions.toList = [] → t'.srv.telemetry = w.srv.telemetry := fun h => by
    rw [hempty h]
  cases hout with
  | mild hmild =>
    have hcalm := hmild.srv
    exact ⟨hcalm.stopping.trans hstopping, fun p hp => hcalm.sessions ▸ hp, hcalm.nextMdSeq,
      hcalm.books, htelemetry⟩
  | @tearDown t₀ code hmild _ hup _ _ =>
    obtain ⟨calm, told, hcalm, hcloses, heq⟩ :=
      Session.closes_teardown cfg code (hmild.tornDown.trans hup)
    have hcalm := hmild.srv.trans hcalm
    -- finalizing changes none of this
    have hfinal : ∀ srv', (srv' = told.finalize ∨ srv' = told) → srv'.stopping = told.stopping ∧
        srv'.sessions = told.sessions ∧ srv'.nextMdSeq = told.nextMdSeq ∧
        srv'.calls = told.calls := by
      rintro srv' (rfl | rfl)
      · cases hfin : told.finalized with
        | true =>
          rw [ServerImpl.finalize, if_pos hfin]
          exact ⟨rfl, rfl, rfl, rfl⟩
        | false =>
          have hfinal := told.finalizes hfin
          exact ⟨hfinal.stopping, hfinal.sessions, hfinal.nextMdSeq, hfinal.calls⟩
      · exact ⟨rfl, rfl, rfl, rfl⟩
    obtain ⟨hstop, hsessions, hmd, hcalls⟩ := hfinal (Session.teardown cfg code t₀).srv (by
      rw [heq]
      split_ifs
      · exact Or.inl rfl
      · exact Or.inr rfl)
    refine ⟨?_, fun p hp => ?_, ?_, ?_, htelemetry⟩
    · rw [hstop, hcloses.stopping, hcalm.stopping, hstopping]
    · rw [hsessions, hcloses.sessions, hcalm.sessions] at hp
      exact List.mem_of_mem_filter hp
    · rw [hmd, hcloses.nextMdSeq, hcalm.nextMdSeq]
    · rw [hcalls, hcloses.calls, hcalm.books]

theorem winding_step (hstopping : w.srv.stopping = true) (hinv : w.Inv cfg)
    (harmed : ∀ x ∈ w.heap, x.Armed) (codec : Codec) (event : Event) :
    Winding w (w.step cfg codec event) := by
  -- the other handlers give up as soon as they see the flag
  have hrunning : ¬w.srv.stopping = false := by simp [hstopping]
  have hturned := turned_step cfg codec w event
  generalize w.step cfg codec event = w' at hturned ⊢
  cases hturned with
  | ignored => exact .refl hstopping
  | completed hfound hcompletes =>
    exact winding_completed hstopping hinv hfound
      (harmed _ (List.mem_of_getElem? hfound)) hcompletes
  | fed index h => exact absurd h hrunning
  | dropped index h => exact absurd h hrunning
  | published index bidPx bidQty askPx askQty h => exact absurd h hrunning
  | stopped _ index h => exact absurd h hrunning
  | snapshot conflatedOf h => exact absurd h hrunning
  | accepted ok =>
    unfold World.onAccept
    dsimp only
    split_ifs with hok _ hfull hroom
    · exact ⟨hstopping, fun _ hp => hp, rfl, rfl, fun _ => rfl⟩
    · exact .refl hstopping
    · simp [pruneUpgrades, hstopping] at hfull
    · simp [pruneUpgrades, hstopping] at hroom
    · exact ⟨hstopping, fun _ hp => hp, rfl, rfl, fun _ => rfl⟩
  | requested request _ =>
    unfold World.onUpgradeRequest
    cases request with
    | none => exact ⟨hstopping, fun _ hp => hp, rfl, rfl, fun _ => rfl⟩
    | some req =>
      dsimp only
      rw [if_pos hstopping]
      exact ⟨hstopping, fun _ hp => hp, rfl, rfl, fun _ => rfl⟩
  | refused _ => exact ⟨hstopping, fun _ hp => hp, rfl, rfl, fun _ => rfl⟩
  | shaken ok hfound =>
    rw [(hinv.onHandshake_eq hfound ok).2, if_pos (by simp [hstopping])]
    exact ⟨hstopping, fun _ hp => hp, rfl, rfl, fun _ => rfl⟩

theorem run_winding (cfg : ServerConfig) (codec : Codec) (clock : ℕ → ℤ) (events later : List Event)
    (h : (run cfg codec clock events).srv.stopping = true) :
    Winding (run cfg codec clock events) (run cfg codec clock (events ++ later)) := by
  induction later using List.reverseRecOn with
  | nil =>
    rw [List.append_nil]
    exact .refl h
  | append_singleton later event ih =>
    have hlast := winding_step ih.stopping (run_steps cfg codec clock (events ++ later)).2
      (run_armed cfg codec clock (events ++ later)) codec event
    refine ih.trans ?_
    rw [← List.append_assoc, run_concat]
    exact hlast

/-! ## Finalizing -/

/-- The turn that finalizes narrates the final snapshot pair, once and last. -/
theorem finalizing_step (hinv : w.Inv cfg) (harmed : ∀ x ∈ w.heap, x.Armed) (codec : Codec)
    (event : Event) (hbefore : w.srv.finalized = false)
    (hafter : (w.step cfg codec event).srv.finalized = true) :
    ∃ mid ts, (∀ r ∈ mid, r.isSnapshot = false) ∧
      (w.step cfg codec event).srv.telemetry = w.srv.telemetry ++ mid ++
        [.counters .totals ts (w.step cfg codec event).srv.counters,
          .counters .watermarks ts (w.step cfg codec event).srv.counters] := by
  have hnot : ¬w.srv.finalized = true := by simp [hbefore]
  have hturned := turned_step cfg codec w event
  generalize w.step cfg codec event = w' at hturned hafter ⊢
  cases hturned with
  | ignored => exact absurd hafter hnot
  | @completed _ i x f hfound hcompletes =>
    have hout := outcome_completes (harmed x (List.mem_of_getElem? hfound)) hcompletes w.srv
    rw [heap_on hfound] at hafter ⊢
    generalize f ⟨w.srv, x⟩ = t' at hout hafter ⊢
    cases hout with
    | mild hmild => exact absurd (hmild.srv.finalized ▸ hafter) hnot
    | @tearDown t₀ code hmild _ hup _ _ =>
      obtain ⟨calm, told, hcalm, hcloses, heq⟩ :=
        Session.closes_teardown cfg code (hmild.tornDown.trans hup)
      have hcalm := hmild.srv.trans hcalm
      have hunfinished : told.finalized = false := by
        rw [hcloses.finalized, hcalm.finalized, hbefore]
      obtain ⟨new, hnew, hroutine⟩ := hcalm.telemetry
      obtain ⟨ts, hclose⟩ := hcloses.telemetry
      dsimp only at hafter ⊢
      rw [heq] at hafter ⊢
      -- the last session of a server that is stopping is the one that finalizes
      split_ifs at hafter ⊢
      · obtain ⟨ts', hpair⟩ := (told.finalizes hunfinished).telemetry
        refine ⟨new ++ [.event .sessionClose ts t₀.self.epoch code], ts', fun r hr => ?_, ?_⟩
        · rcases List.mem_append.mp hr with hold | hlast
          · exact TelemetryRecord.isSnapshot_of_isRoutine (hroutine r hold)
          · rw [List.mem_singleton.mp hlast]
            rfl
        · rw [hpair, hclose, hnew]
          simp
      · rw [hunfinished] at hafter
        cases hafter
  | fed index _ => exact absurd hafter hnot
  | dropped index _ =>
    exact absurd ((pokes_closeAll cfg codec (w.fed index)).srv.finalized ▸ hafter) hnot
  | published index bidPx bidQty askPx askQty _ =>
    exact absurd ((pokes_publishBook cfg codec (w.fed index) _ _ _ _).srv.finalized ▸ hafter) hnot
  | stopped _ index hrunning =>
    -- a stop finalizes at once if no session is open
    rw [beginStop_of_running (w := w.fed index) hrunning] at hafter ⊢
    split_ifs at hafter ⊢
    · obtain ⟨ts, hpair⟩ := ((w.fed index).halted.srv.finalizes hbefore).telemetry
      exact ⟨[], ts, by simp, by rw [List.append_nil]; exact hpair⟩
    · exact absurd ((pokes_closeAll cfg codec (w.fed index).halted).srv.finalized ▸ hafter) hnot
  | snapshot conflatedOf _ => exact absurd hafter hnot
  | accepted ok =>
    unfold World.onAccept at hafter
    dsimp only at hafter
    split_ifs at hafter <;> exact absurd hafter hnot
  | requested request _ =>
    unfold World.onUpgradeRequest at hafter
    cases request with
    | none => exact absurd hafter hnot
    | some req =>
      dsimp only at hafter
      split_ifs at hafter <;> exact absurd hafter hnot
  | refused _ => exact absurd hafter hnot
  | shaken ok hfound =>
    rw [(hinv.onHandshake_eq hfound ok).2] at hafter
    split_ifs at hafter <;> exact absurd hafter hnot

/-- Once finalized, always finalized. -/
theorem finalized_append (cfg : ServerConfig) (codec : Codec) (clock : ℕ → ℤ)
    (events later : List Event) (h : (run cfg codec clock events).srv.finalized = true) :
    (run cfg codec clock (events ++ later)).srv.finalized = true := by
  obtain ⟨hstopping, hempty⟩ := (run_final cfg codec clock events).mp h
  have hwinding := run_winding cfg codec clock events later hstopping
  refine (run_final cfg codec clock (events ++ later)).mpr ⟨hwinding.stopping, ?_⟩
  refine List.eq_nil_iff_forall_not_mem.mpr fun p hp => ?_
  have hmem := hwinding.sessions p hp
  rw [hempty] at hmem
  cases hmem

/-- A run that ends finalized has one turn that finalizes. -/
theorem finalizing_turn (cfg : ServerConfig) (codec : Codec) (clock : ℕ → ℤ) (events : List Event)
    (h : (run cfg codec clock events).srv.finalized = true) :
    ∃ k, k < events.length ∧ (run cfg codec clock (events.take k)).srv.finalized = false ∧
      (run cfg codec clock (events.take (k + 1))).srv.finalized = true ∧
      ∀ j, (run cfg codec clock (events.take j)).srv.finalized = false →
        (run cfg codec clock (events.take (j + 1))).srv.finalized = true → j = k := by
  let done : ℕ → Prop := fun k => (run cfg codec clock (events.take k)).srv.finalized = true
  have hmono : ∀ {j k}, j ≤ k → done j → done k := by
    intro j k hjk hdone
    have hsplit : events.take k = events.take j ++ (events.take k).drop j := by
      have hall := List.take_append_drop j (events.take k)
      rw [List.take_take, min_eq_left hjk] at hall
      exact hall.symm
    show (run cfg codec clock (events.take k)).srv.finalized = true
    rw [hsplit]
    exact finalized_append cfg codec clock _ _ hdone
  have hex : ∃ k, done k := ⟨events.length, by simpa [done] using h⟩
  classical
  -- the turn before the first finalized state
  obtain ⟨k, hk⟩ : ∃ k, Nat.find hex = k + 1 := by
    refine Nat.exists_eq_succ_of_ne_zero fun hzero => ?_
    have hfirst := Nat.find_spec hex
    rw [hzero] at hfirst
    cases hfirst
  have hafter : done (k + 1) := hk ▸ Nat.find_spec hex
  have hbefore : ¬done k := Nat.find_min hex (by omega)
  have hlt : k < events.length := by
    by_contra hge
    have hall : events.take (k + 1) = events.take k := by
      rw [List.take_of_length_le (by omega), List.take_of_length_le (by omega)]
    exact hbefore (by simpa [done, hall] using hafter)
  refine ⟨k, hlt, by simpa [done] using hbefore, hafter, fun j hj hj' => ?_⟩
  have hle : k + 1 ≤ j + 1 := hk ▸ Nat.find_min' hex hj'
  have hge : j < k + 1 := by
    by_contra hge
    have hdone : done j := hmono (not_lt.mp hge) hafter
    rw [show (run cfg codec clock (events.take j)).srv.finalized = true from hdone] at hj
    cases hj
  omega

/-- Between turns the server is finalized exactly when it is stopping with an empty map. A stopping
server takes in no session and publishes no book. A finalized one narrates nothing more, and one
turn finalized it: the snapshot pair it narrated, of the counters at that time, stands at the end of
the telemetry and is the only snapshot of that turn. -/
theorem run_shutdown (cfg : ServerConfig) (codec : Codec) (clock : ℕ → ℤ) (events : List Event) :
    let w := run cfg codec clock events
    (w.srv.finalized = true ↔ w.srv.stopping = true ∧ w.srv.sessions.toList = []) ∧
      (w.srv.stopping = true → ∀ later,
        (run cfg codec clock (events ++ later)).srv.stopping = true ∧
        (∀ p ∈ (run cfg codec clock (events ++ later)).srv.sessions.toList,
          p ∈ w.srv.sessions.toList) ∧
        (run cfg codec clock (events ++ later)).srv.nextMdSeq = w.srv.nextMdSeq ∧
        booksIn (run cfg codec clock (events ++ later)).srv.calls = booksIn w.srv.calls) ∧
      (w.srv.finalized = true → ∀ later,
        (run cfg codec clock (events ++ later)).srv.telemetry = w.srv.telemetry) ∧
      (w.srv.finalized = true → ∃ k,
        (run cfg codec clock (events.take k)).srv.finalized = false ∧
        (run cfg codec clock (events.take (k + 1))).srv.finalized = true ∧
        (∀ j, (run cfg codec clock (events.take j)).srv.finalized = false →
          (run cfg codec clock (events.take (j + 1))).srv.finalized = true → j = k) ∧
        ∃ mid ts, (∀ r ∈ mid, r.isSnapshot = false) ∧
          w.srv.telemetry = (run cfg codec clock (events.take k)).srv.telemetry ++ mid ++
            [.counters .totals ts (run cfg codec clock (events.take (k + 1))).srv.counters,
              .counters .watermarks ts
                (run cfg codec clock (events.take (k + 1))).srv.counters]) := by
  intro w
  have hsilent : ∀ events' later', (run cfg codec clock events').srv.finalized = true →
      (run cfg codec clock (events' ++ later')).srv.telemetry =
        (run cfg codec clock events').srv.telemetry := by
    intro events' later' hfin
    obtain ⟨hstopping, hempty⟩ := (run_final cfg codec clock events').mp hfin
    exact (run_winding cfg codec clock events' later' hstopping).telemetry hempty
  refine ⟨run_final cfg codec clock events, fun hstopping later => ?_, fun hfin later =>
    hsilent events later hfin, fun hfin => ?_⟩
  · have hwinding := run_winding cfg codec clock events later hstopping
    exact ⟨hwinding.stopping, hwinding.sessions, hwinding.nextMdSeq, hwinding.books⟩
  · obtain ⟨k, hlt, hbefore, hafter, hunique⟩ := finalizing_turn cfg codec clock events hfin
    have hturn : run cfg codec clock (events.take (k + 1)) =
        (run cfg codec clock (events.take k)).step cfg codec events[k] := by
      rw [← run_concat, List.take_append_getElem]
    obtain ⟨mid, ts, hmid, hpair⟩ :=
      finalizing_step (run_steps cfg codec clock (events.take k)).2
        (run_armed cfg codec clock (events.take k)) codec events[k] hbefore (hturn ▸ hafter)
    refine ⟨k, hbefore, hafter, hunique, mid, ts, hmid, ?_⟩
    rw [hturn, ← hpair, ← hturn]
    have hlast := hsilent (events.take (k + 1)) (events.drop (k + 1)) hafter
    rwa [List.take_append_drop] at hlast

end World

end MarketMaker
