import MarketMaker.Server.Progress

/-!
# How a close is recorded

`Line.Booked` counts: a session latches one close, starts one close frame and is closed once.
`World.Recorded` ties the close records of the telemetry to these counts, and a torn down session
is inert. So the record of a session is that of the turn that tore it down.
-/

namespace MarketMaker

/-! ## Counting -/

/-- A latched close, a started close frame and a teardown are each logged once. -/
structure Line.Booked (l : Line) : Prop where
  latched : latchedIn l.log = if l.closing then [l.closeCode] else []
  frames : l.log.count .closeFrame = if l.closeFrameSent then 1 else 0
  closed : (closedIn l.log).length = if l.tornDown then 1 else 0

section Booked

variable {cfg : ServerConfig} {codec : Codec} {v v' : View}

/-- A session that starts has latched nothing. -/
theorem booked_fresh (cfg : ServerConfig) (epoch : ℕ) :
    ({ Line.fresh cfg with epoch } : Line).Booked := ⟨rfl, rfl, rfl⟩

/-- An entry that is no close leaves the counts. -/
theorem Line.Booked.log {l l' : Line} {entry : Entry} (h : l.Booked)
    (hlog : l'.log = l.log ++ [entry]) (hlatched : latchedIn [entry] = [])
    (hframe : entry ≠ .closeFrame) (hclosed : closedIn [entry] = [])
    (hclosing : l'.closing = l.closing) (hcode : l'.closeCode = l.closeCode)
    (hsent : l'.closeFrameSent = l.closeFrameSent) (htorn : l'.tornDown = l.tornDown) :
    l'.Booked := by
  refine ⟨?_, ?_, ?_⟩
  · rw [hlog, latchedIn_append, hlatched, List.append_nil, hclosing, hcode]
    exact h.latched
  · rw [hlog, List.count_append, List.count_singleton, hsent, if_neg (by simpa using hframe)]
    exact h.frames
  · rw [hlog, closedIn_append, hclosed, List.append_nil, htorn]
    exact h.closed

/-- A drain keeps the books of a line. -/
theorem booked_drain (h : Drain cfg codec v v') (hb : v.line.Booked) : v'.line.Booked := by
  cases h with
  | latch code hc _ =>
    rw [View.line_latch]
    have hnone : latchedIn v.line.log = [] := by simpa [hc] using hb.latched
    refine ⟨?_, ?_, ?_⟩
    · rw [latchedIn_append, hnone]
      rfl
    · simpa using hb.frames
    · rw [closedIn_append]
      simpa [closedIn] using hb.closed
  | write _ _ _ _ _ => exact hb.log rfl rfl (by simp) rfl rfl rfl rfl rfl
  | lose _ _ => exact ⟨hb.latched, hb.frames, hb.closed⟩
  | discard _ _ => exact hb.log rfl rfl (by simp) rfl rfl rfl rfl rfl
  | sendClose _ hsent _ =>
    have hnone : v.line.log.count .closeFrame = 0 := by simpa [hsent] using hb.frames
    refine ⟨?_, ?_, ?_⟩
    · show latchedIn (v.line.log ++ [.closeFrame]) = _
      rw [latchedIn_append]
      exact (List.append_nil _).trans hb.latched
    · simp [View.sendClose, hnone]
    · show (closedIn (v.line.log ++ [.closeFrame])).length = _
      rw [closedIn_append]
      exact (congrArg List.length (List.append_nil _)).trans hb.closed

/-- So do several. -/
theorem booked_drains (h : Drains cfg codec v v') (hb : v.line.Booked) : v'.line.Booked := by
  induction h with
  | refl => exact hb
  | tail _ hlast ih => exact booked_drain hlast ih

/-- So does an act. -/
theorem booked_act (h : Act cfg codec v v') (hb : v.line.Booked) : v'.line.Booked := by
  cases h with
  | drain hdrain => exact booked_drain hdrain hb
  | enqueue _ hchecked _ =>
    refine booked_drains hchecked ?_
    exact hb.log rfl rfl (by simp) rfl rfl rfl rfl rfl
  | serve _ _ _ => exact hb
  | tick _ _ _ _ => exact hb.log rfl rfl (by simp) rfl rfl rfl rfl rfl
  | written => exact ⟨hb.latched, hb.frames, hb.closed⟩
  | tearDown code hup =>
    rw [View.line_tearDown]
    have hnone : closedIn v.line.log = [] := by
      simpa [hup] using hb.closed
    refine ⟨?_, ?_, ?_⟩
    · simpa [latchedIn] using hb.latched
    · simpa using hb.frames
    · rw [closedIn_append, hnone]
      rfl

end Booked

namespace World

variable {cfg : ServerConfig} {codec : Codec} {w w' : World}

/-- So they are kept in every run. -/
theorem run_booked (cfg : ServerConfig) (codec : Codec) (clock : ℕ → ℤ) (events : List Event)
    {x : Session} (hx : x ∈ (run cfg codec clock events).heap) : x.line.Booked := by
  have hlines : ∀ l ∈ (run cfg codec clock events).net.lines, l.Booked := by
    refine (run_steps cfg codec clock events).1.forall_line ?_ ?_ ?_
    · exact booked_fresh cfg
    · exact fun v v' hact h => booked_act hact h
    · exact fun l hl => by cases hl
  exact hlines x.line (List.mem_map_of_mem hx)

/-! ## The record of a close -/

/-- The codes in the close records of an epoch. -/
def closesOf (epoch : ℕ) (records : List TelemetryRecord) : List ℤ :=
  records.filterMap fun
    | .event .sessionClose _ a0 a1 => if a0 = epoch then some a1 else none
    | _ => none

/-- The closing records are read off the telemetry in order. -/
theorem closesOf_append (epoch : ℕ) (l l' : List TelemetryRecord) :
    closesOf epoch (l ++ l') = closesOf epoch l ++ closesOf epoch l' :=
  List.filterMap_append

/-- Routine records close nothing. -/
theorem closesOf_routine {epoch : ℕ} {records : List TelemetryRecord}
    (h : ∀ r ∈ records, r.isRoutine = true) : closesOf epoch records = [] := by
  refine List.filterMap_eq_nil_iff.mpr fun r hr => ?_
  have hroutine := h r hr
  cases r with
  | event kind ts a0 a1 =>
    cases kind with
    | sessionClose => cases hroutine
    | _ => rfl
  | counters part ts counters => rfl

/-- Calm code closes no session. -/
theorem closesOf_calm {srv srv' : ServerImpl} (h : srv.Calm srv') (epoch : ℕ) :
    closesOf epoch srv'.telemetry = closesOf epoch srv.telemetry := by
  obtain ⟨new, heq, hnew⟩ := h.telemetry
  rw [heq, closesOf_append, closesOf_routine hnew, List.append_nil]

/-- `finalize` closes none. -/
theorem closesOf_finalize (srv : ServerImpl) (epoch : ℕ) :
    closesOf epoch srv.finalize.telemetry = closesOf epoch srv.telemetry := by
  cases hfin : srv.finalized with
  | true => rw [ServerImpl.finalize, if_pos hfin]
  | false =>
    obtain ⟨ts, heq⟩ := (srv.finalizes hfin).telemetry
    rw [heq, closesOf_append]
    exact List.append_nil _

/-- A teardown adds one close record, for its own epoch. -/
theorem closesOf_teardown {t : Turn} {code : ℕ} (hup : t.self.tornDown = false) (epoch : ℕ) :
    closesOf epoch (Session.teardown cfg code t).srv.telemetry =
      closesOf epoch t.srv.telemetry ++ if epoch = t.self.epoch then [(code : ℤ)] else [] := by
  obtain ⟨calm, told, hcalm, hcloses, heq⟩ := Session.closes_teardown cfg code hup
  obtain ⟨ts, htold⟩ := hcloses.telemetry
  have htelemetry : closesOf epoch told.telemetry =
      closesOf epoch t.srv.telemetry ++ if epoch = t.self.epoch then [(code : ℤ)] else [] := by
    rw [htold, closesOf_append, closesOf_calm hcalm]
    congr 1
    by_cases he : epoch = t.self.epoch
    · simp [closesOf, he]
    · have he' : ¬t.self.epoch = epoch := fun h => he h.symm
      simp [closesOf, he, he']
  rw [heq, ← htelemetry]
  split_ifs
  · exact closesOf_finalize told epoch
  · rfl

/-- The telemetry holds the close record of each session that was closed, and no other. -/
structure Recorded (w : World) : Prop where
  closes : ∀ x ∈ w.heap, x.epoch ≠ 0 →
    closesOf x.epoch w.srv.telemetry = (closedIn x.log).map Nat.cast
  unused : ∀ e, w.srv.nextEpoch < e → closesOf e w.srv.telemetry = []

/-- Telemetry that closes nothing, and sessions that were not closed. -/
theorem Recorded.same (h : w.Recorded)
    (htelemetry : ∀ e, closesOf e w'.srv.telemetry = closesOf e w.srv.telemetry)
    (hepoch : w.srv.nextEpoch ≤ w'.srv.nextEpoch)
    (hheap : ∀ x' ∈ w'.heap, x'.epoch ≠ 0 →
      (∃ x ∈ w.heap, x'.epoch = x.epoch ∧ closedIn x'.log = closedIn x.log) ∨
        w.srv.nextEpoch < x'.epoch ∧ closedIn x'.log = []) : w'.Recorded := by
  refine ⟨fun x' hx' hne => ?_, fun e he => ?_⟩
  · rw [htelemetry]
    rcases hheap x' hx' hne with ⟨x, hx, hsame, hclosed⟩ | ⟨hfresh, hclosed⟩
    · rw [hclosed, hsame]
      exact h.closes x hx (hsame ▸ hne)
    · rw [hclosed, h.unused _ hfresh]
      rfl
  · rw [htelemetry]
    exact h.unused e (hepoch.trans_lt he)

/-- Reports, ticks and closes of the server record no end. -/
theorem Recorded.pokes (h : w.Recorded) (hpokes : Pokes cfg codec w w') : w'.Recorded := by
  refine h.same (closesOf_calm hpokes.srv) hpokes.srv.nextEpoch.ge fun x' hx' _ => ?_
  obtain ⟨i, hi⟩ := List.getElem?_of_mem hx'
  have hlt : i < w.heap.length := hpokes.length ▸ (List.getElem?_eq_some_iff.mp hi).1
  obtain ⟨x'', hx'', hpoked⟩ := hpokes.heap i w.heap[i] (List.getElem?_eq_getElem hlt)
  cases hi.symm.trans hx''
  have hpassive := Session.passive_poked hpoked
  exact Or.inl ⟨w.heap[i], List.getElem_mem hlt, hpassive.epoch, hpassive.closed⟩

/-- A completion closes its own session or none. -/
theorem Recorded.completed (h : w.Recorded) (hinv : w.Inv cfg) {i : ℕ} {x : Session}
    {f : Turn → Turn} {record : Option ℕ} (hx : w.heap[i]? = some x)
    (hout : Session.Outcome cfg record ⟨w.srv, x⟩ (f ⟨w.srv, x⟩)) : (w.on i f).Recorded := by
  have hmem := List.mem_of_getElem? hx
  rw [heap_on hx]
  generalize f ⟨w.srv, x⟩ = t' at hout ⊢
  cases hout with
  | mild hmild =>
    refine h.same (closesOf_calm hmild.srv) hmild.srv.nextEpoch.ge fun y hy _ => Or.inl ?_
    rcases List.mem_or_eq_of_mem_set hy with hold | rfl
    · exact ⟨y, hold, rfl, rfl⟩
    · exact ⟨x, hmem, hmild.epoch, hmild.closed⟩
  | @tearDown t₀ code hmild hlog hup _ _ =>
    have hup₀ : t₀.self.tornDown = false := hmild.tornDown.trans hup
    obtain ⟨hepoch, hlog', -⟩ := Session.self_teardown cfg code hup₀
    have hepoch : (Session.teardown cfg code t₀).self.epoch = x.epoch := hepoch.trans hmild.epoch
    have htelemetry : ∀ e, closesOf e (Session.teardown cfg code t₀).srv.telemetry =
        closesOf e w.srv.telemetry ++ if e = x.epoch then [(code : ℤ)] else [] := by
      intro e
      rw [closesOf_teardown hup₀, closesOf_calm hmild.srv, hmild.epoch]
    refine ⟨fun y hy hne => ?_, fun e he => ?_⟩
    · show closesOf y.epoch (Session.teardown cfg code t₀).srv.telemetry = _
      obtain ⟨j, hj⟩ := List.getElem?_of_mem hy
      by_cases hij : i = j
      · subst hij
        have hlt : i < w.heap.length := (List.getElem?_eq_some_iff.mp hx).1
        rw [List.getElem?_set_self hlt] at hj
        cases hj
        rw [htelemetry, hepoch, h.closes x hmem (hepoch ▸ hne), hlog', hlog, closedIn_append]
        simp [closedIn]
      · rw [List.getElem?_set_ne hij] at hj
        -- another session has another epoch
        have hother : y.epoch ≠ x.epoch := fun heq =>
          hij (hinv.net.roster.epoch_inj j i y.line.row x.line.row (Inv.row hj) (Inv.row hx) hne
            heq).symm
        rw [htelemetry, if_neg hother, List.append_nil]
        exact h.closes y (List.mem_of_getElem? hj) hne
    · have hnext : w.srv.nextEpoch < e := by
        have hsame : (Session.teardown cfg code t₀).srv.nextEpoch = w.srv.nextEpoch :=
          (Session.nextEpoch_teardown cfg code t₀).trans hmild.srv.nextEpoch
        exact hsame ▸ he
      have hother : e ≠ x.epoch := by
        rintro rfl
        exact absurd (hinv.net.roster.epoch_le i x.line.row (Inv.row hx)) (not_le.mpr hnext)
      show closesOf e (Session.teardown cfg code t₀).srv.telemetry = []
      rw [htelemetry, if_neg hother, List.append_nil]
      exact h.unused e hnext

/-- The outcome of a completion, with the operations it relies on. -/
theorem outcome_completes {event : Event} {i : ℕ} {x : Session} {f : Turn → Turn} (h : x.Armed)
    (hcompletes : Completes cfg codec i x event f) (srv : ServerImpl) :
    Session.Outcome cfg event.record ⟨srv, x⟩ (f ⟨srv, x⟩) := by
  cases hcompletes with
  | read result _ => exact Session.outcome_onRead cfg codec result _
  | write result _ => exact Session.outcome_onWrite cfg codec result _
  | closeFrame ok hpending => exact Session.outcome_onCloseFrame ok (h.closeInflight hpending)
  | oversizeClose _ => exact .mild (Session.mild_drainTransport _)
  | drainRead ok hpending => exact Session.outcome_onDrainRead ok (h.oversize (Or.inr hpending))

/-- A snapshot closes none. -/
theorem closesOf_pushSnapshot (srv : ServerImpl) (conflatedOf : ℕ → ℕ) (epoch : ℕ) :
    closesOf epoch (srv.pushSnapshot conflatedOf).telemetry = closesOf epoch srv.telemetry := by
  rw [ServerImpl.pushSnapshot]
  dsimp only
  rw [closesOf_append]
  exact List.append_nil _

/-- Neither does any other event. -/
theorem closesOf_emitEvent (srv : ServerImpl) (event : TelemetryEvent) (a0 a1 : ℤ)
    (h : event ≠ .sessionClose) (epoch : ℕ) :
    closesOf epoch (srv.emitEvent event a0 a1).telemetry = closesOf epoch srv.telemetry :=
  closesOf_calm (.emitEvent srv a0 a1 h) epoch

/-- An event records the end of the session it tears down, and no other. -/
theorem Recorded.step (h : w.Recorded) (hinv : w.Inv cfg) (harmed : ∀ x ∈ w.heap, x.Armed)
    (codec : Codec) (event : Event) : (w.step cfg codec event).Recorded := by
  -- a turn of the acceptor narrates no close and closes no session
  have hsame : ∀ w' : World, (∀ e, closesOf e w'.srv.telemetry = closesOf e w.srv.telemetry) →
      w'.srv.nextEpoch = w.srv.nextEpoch → w'.heap = w.heap → w'.Recorded := by
    intro w' htelemetry hepoch hheap
    exact h.same htelemetry hepoch.ge fun x hx _ => Or.inl ⟨x, hheap ▸ hx, rfl, rfl⟩
  have hfed : ∀ index, (w.fed index).Recorded := fun index => hsame _ (fun _ => rfl) rfl rfl
  have hturned := turned_step cfg codec w event
  generalize w.step cfg codec event = w' at hturned ⊢
  cases hturned with
  | ignored => exact h
  | completed hfound hcompletes =>
    have hx := List.mem_of_getElem? hfound
    exact h.completed hinv hfound (outcome_completes (harmed _ hx) hcompletes w.srv)
  | fed index _ => exact hfed index
  | dropped index _ => exact (hfed index).pokes (pokes_closeAll cfg codec _)
  | published index bidPx bidQty askPx askQty _ =>
    refine Recorded.pokes ?_ (pokes_publishBook cfg codec (w.fed index) _ _ _ _)
    exact ⟨(hfed index).closes, (hfed index).unused⟩
  | stopped _ index hrunning =>
    rw [beginStop_of_running (w := w.fed index) hrunning]
    split_ifs
    · refine hsame _ (fun e => ?_) ?_ rfl
      · exact closesOf_finalize (w.fed index).halted.srv e
      · exact congrArg Hub.nextEpoch (Session.hub_finalize (w.fed index).halted.srv)
    · refine Recorded.pokes ?_ (pokes_closeAll cfg codec _)
      exact ⟨(hfed index).closes, (hfed index).unused⟩
  | snapshot conflatedOf _ => exact hsame _ (closesOf_pushSnapshot w.srv conflatedOf) rfl rfl
  | accepted ok =>
    unfold World.onAccept
    dsimp only
    split_ifs
    · exact hsame _ (fun _ => rfl) rfl rfl
    · exact h
    · exact hsame _ (closesOf_emitEvent w.pruneUpgrades.srv .admissionRefused _ _ (by simp)) rfl rfl
    · exact hsame _ (fun _ => rfl) rfl rfl
    · exact hsame _ (fun _ => rfl) rfl rfl
  | requested request _ =>
    unfold World.onUpgradeRequest
    cases request with
    | none => exact hsame _ (fun _ => rfl) rfl rfl
    | some req =>
      dsimp only
      split_ifs
      · exact hsame _ (fun _ => rfl) rfl rfl
      · exact hsame _ (closesOf_emitEvent w.srv .upgradeRefused _ _ (by simp)) rfl rfl
      · exact hsame _ (closesOf_emitEvent w.srv .upgradeRefused _ _ (by simp)) rfl rfl
      · -- both records are of refusals
        refine hsame _ (fun e => ?_) rfl rfl
        exact (closesOf_emitEvent _ .upgradeRefused _ _ (by simp) e).trans
          (closesOf_emitEvent w.pruneUpgrades.srv .admissionRefused _ _ (by simp) e)
      · -- the new object has no epoch yet
        refine h.same (fun _ => rfl) le_rfl fun x hx hne => ?_
        rcases List.mem_append.mp hx with hold | hnew
        · exact Or.inl ⟨x, hold, rfl, rfl⟩
        · rw [List.mem_singleton.mp hnew] at hne
          exact absurd rfl hne
  | refused _ => exact hsame _ (fun _ => rfl) rfl rfl
  | @shaken i j ok hfound =>
    rw [(hinv.onHandshake_eq hfound ok).2]
    split_ifs
    · exact hsame _ (fun _ => rfl) rfl rfl
    · -- the session that starts takes an epoch nobody had
      have htelemetry : ∀ e, closesOf e ((w.opened j).emitEvent .sessionOpen
          (w.srv.nextEpoch + 1 : ℕ) 0).telemetry = closesOf e w.srv.telemetry :=
        closesOf_emitEvent (w.opened j) .sessionOpen _ _ (by simp)
      refine h.same htelemetry (Nat.le_succ _) fun y hy _ => ?_
      rcases List.mem_or_eq_of_mem_set hy with hold | rfl
      · exact Or.inl ⟨y, hold, rfl, rfl⟩
      · exact Or.inr ⟨Nat.lt_succ_self _, rfl⟩

/-- So every end is recorded once. -/
theorem run_recorded (cfg : ServerConfig) (codec : Codec) (clock : ℕ → ℤ) (events : List Event) :
    (run cfg codec clock events).Recorded := by
  induction events using List.reverseRecOn with
  | nil =>
    refine ⟨fun x hx => ?_, fun _ _ => rfl⟩
    cases hx
  | append_singleton events event ih =>
    rw [run_concat]
    exact ih.step (run_steps cfg codec clock events).2
      (run_armed cfg codec clock events) codec event

/-! ## After the teardown -/

/-- The handlers of a torn down session only note that their operation is over. -/
theorem inert_completes {event : Event} {i : ℕ} {x : Session} {f : Turn → Turn}
    (hdown : x.tornDown = true) (hcompletes : Completes cfg codec i x event f) (srv : ServerImpl) :
    (f ⟨srv, x⟩).srv = srv ∧ (f ⟨srv, x⟩).self.log = x.log ∧
      (f ⟨srv, x⟩).self.tornDown = true := by
  have hteardown : ∀ (t : Turn) (code : ℕ), t.self.tornDown = true →
      Session.teardown cfg code t = t := fun t code h => by rw [Session.teardown, if_pos h]
  cases hcompletes with
  | read result _ =>
    unfold Session.onRead
    dsimp only
    rw [if_pos hdown]
    exact ⟨rfl, rfl, hdown⟩
  | write result _ =>
    unfold Session.onWrite
    dsimp only
    rw [if_pos hdown]
    exact ⟨rfl, rfl, hdown⟩
  | closeFrame ok _ =>
    unfold Session.onCloseFrame
    dsimp only
    split_ifs
    · exact ⟨rfl, rfl, hdown⟩
    · rw [hteardown _ _ hdown]
      exact ⟨rfl, rfl, hdown⟩
  | oversizeClose _ =>
    unfold Session.drainTransport
    rw [if_pos hdown]
    exact ⟨rfl, rfl, hdown⟩
  | drainRead ok _ =>
    unfold Session.onDrainRead
    split_ifs
    · exact ⟨rfl, rfl, hdown⟩
    · rw [hteardown _ _ hdown]
      exact ⟨rfl, rfl, hdown⟩

/-- A session that is down is not reached any more. -/
theorem inert_poked {x x' : Session} (hdown : x.tornDown = true)
    (h : Relation.ReflTransGen (Session.Poked cfg codec) x x') : x' = x := by
  induction h with
  | refl => rfl
  | @tail y z _ hlast ih =>
    subst ih
    cases hlast with
    | goingAway srv =>
      rw [Session.beginClose, Session.latchClose_of_refused (by simp [hdown])]
      rfl
    | report srv msg mdSeq => rw [Session.deliverReport, if_pos hdown]
    | tick srv tob => rw [Session.deliverTob, if_pos (by simp [hdown])]

/-- Nothing is logged after the teardown. -/
theorem inert_touched {event : Event} {i : ℕ} {x x' : Session} (hdown : x.tornDown = true)
    (h : Touched cfg codec w event i x x') : x'.log = x.log ∧ x'.tornDown = true := by
  cases h with
  | completed hcompletes => exact (inert_completes hdown hcompletes w.srv).2
  | started hfresh =>
    rw [hfresh] at hdown
    cases hdown
  | poked hpoked =>
    rw [inert_poked hdown hpoked]
    exact ⟨rfl, hdown⟩

/-! ## Runs -/

/-- A turn that closes a session completes one of its operations, and the record is the code of the
close latched before, if there is one, else what the completion says. -/
theorem closed_touched {event : Event} {i : ℕ} {x x' : Session} {c : ℕ} (harmed : x.Armed)
    (hbooked : x.line.Booked) (hup : x.tornDown = false) (hc : c ∈ closedIn x'.log)
    (h : Touched cfg codec w event i x x') :
    x'.log = x.log ++ [.closed c] ∧ (∃ f, Completes cfg codec i x event f) ∧
      (∀ code rest, latchedIn x.log = code :: rest → c = code.toNat) ∧
      (latchedIn x.log = [] → event.record = some c) := by
  have hopen : closedIn x.log = [] := by
    have hlength : (closedIn x.log).length = 0 := by simpa [Session.line, hup] using hbooked.closed
    exact List.length_eq_zero_iff.mp hlength
  have hlatched : latchedIn x.log = if x.closing then [x.closeCode] else [] := hbooked.latched
  cases h with
  | @completed f hcompletes =>
    have hout := outcome_completes harmed hcompletes w.srv
    generalize f ⟨w.srv, x⟩ = t' at hout hc ⊢
    cases hout with
    | mild hmild =>
      rw [hmild.closed, hopen] at hc
      cases hc
    | @tearDown t₀ code hmild hlog _ hclosing hnone =>
      obtain ⟨-, hlog', -⟩ := Session.self_teardown cfg code (hmild.tornDown.trans hup)
      rw [hlog', hlog, closedIn_append, hopen] at hc
      obtain rfl : c = code := by simpa [closedIn] using hc
      refine ⟨by rw [hlog', hlog], ⟨f, hcompletes⟩, fun code' rest hcode => ?_, fun hcode => ?_⟩
      · rw [hlatched] at hcode
        split_ifs at hcode with hclose
        cases hcode
        exact hclosing hclose
      · rw [hlatched] at hcode
        split_ifs at hcode with hclose
        exact hnone (by simpa using hclose)
  | started hfresh => cases hc
  | poked hpoked =>
    rw [(Session.passive_poked hpoked).closed, hopen] at hc
    cases hc

/-- `session_closed` is called at most once for a session and at most one close frame is started.
The close record is that of the one call. It is made in the turn of a completion of the session,
with the code of the first latched close if one was latched before, else with the code that this
completion alone determines. -/
theorem run_closeRecord (cfg : ServerConfig) (codec : Codec) (clock : ℕ → ℤ) (events : List Event)
    (i : ℕ) (x : Session) (hx : (run cfg codec clock events).heap[i]? = some x) :
    (closedIn x.log).length ≤ 1 ∧ x.log.count .closeFrame ≤ 1 ∧
      (x.epoch ≠ 0 → closesOf x.epoch (run cfg codec clock events).srv.telemetry =
        (closedIn x.log).map Nat.cast) ∧
      ∀ c ∈ closedIn x.log, ∃ before event after x₀ f,
        events = before ++ event :: after ∧
          (run cfg codec clock before).heap[i]? = some x₀ ∧ x.log = x₀.log ++ [.closed c] ∧
          Completes cfg codec i x₀ event f ∧
          (∀ code rest, latchedIn x₀.log = code :: rest → c = code.toNat) ∧
          (latchedIn x₀.log = [] → event.record = some c) := by
  have hmem := List.mem_of_getElem? hx
  have hbooked := run_booked cfg codec clock events hmem
  refine ⟨?_, ?_, (run_recorded cfg codec clock events).closes x hmem, ?_⟩
  · refine hbooked.closed.trans_le ?_
    split_ifs <;> omega
  · refine hbooked.frames.trans_le ?_
    split_ifs <;> omega
  clear hmem hbooked
  -- the turn of the teardown is the last one, or an earlier one
  induction events using List.reverseRecOn generalizing x with
  | nil => cases hx
  | append_singleton events event ih =>
    intro c hc
    have hinv := (run_steps cfg codec clock events).2
    rw [run_concat] at hx
    rcases hinv.touched codec event hx with ⟨x₀, hx₀, htouched⟩ | ⟨-, rfl⟩
    · have hmem₀ := List.mem_of_getElem? hx₀
      cases hdown : x₀.tornDown with
      | true =>
        have hlog := (inert_touched hdown htouched).1
        rw [hlog] at hc
        obtain ⟨before, event₁, after, x₁, f, heq, hx₁, hlog₁, hrest⟩ := ih x₀ hx₀ c hc
        refine ⟨before, event₁, after ++ [event], x₁, f, by rw [heq]; simp, hx₁, ?_, hrest⟩
        rw [hlog, hlog₁]
      | false =>
        obtain ⟨hlog, ⟨f, hcompletes⟩, hcode⟩ :=
          closed_touched (run_armed cfg codec clock events x₀ hmem₀)
            (run_booked cfg codec clock events hmem₀) hdown hc htouched
        exact ⟨events, event, [], x₀, f, rfl, hx₀, hlog, hcompletes, hcode⟩
    · cases hc

/-- A session is dropped, and then its peer answers the close. -/
theorem run_closeRecord_drop :
    ∃ x ∈ (run dropConfig dropCodec (fun n => 5 * n) (dropEvents ++ [.read 0 (.closed 1000)])).heap,
      closedIn x.log = [1001] ∧ x.log.count .closeFrame ≤ 1 := by
  have hrun : ∃ x,
      (run dropConfig dropCodec (fun n => 5 * n) (dropEvents ++ [.read 0 (.closed 1000)])).heap[0]?
        =
        some x ∧ closedIn x.log = [1001] := ⟨_, rfl, by decide⟩
  obtain ⟨x, hx, hclosed⟩ := hrun
  exact ⟨x, List.mem_of_getElem? hx, hclosed,
    (run_closeRecord dropConfig dropCodec _ _ 0 x hx).2.1⟩

end World

end MarketMaker
