import MarketMaker.Server.Inbound

/-!
# From the engine to the outbox

Each report of the engine is queued for the session it is routed to, once and in the order of the
engine, and nothing else is queued but the session's own rejects (`run_delivers`). With
`Server.Stream`, which takes a queue to the wire, this is the whole way of a report.

A session's own code serves a command and queues its reply (`Session.Relays`). The fills of a book
come from `Inv.publishBook`. What `end_session` cancels is only counted.
-/

namespace MarketMaker

open OrderEngine (Call reportsTo)

/-! ## Reports and calls -/

/-- The reports of the engine that were queued. -/
def queuedIn (log : List Entry) : List OutMsg :=
  ((enqueuedIn log).filter fun p => p.2 ≠ .session).map Prod.fst

/-- What the calls report to an epoch, apart from the cancels of its end. -/
def answersTo (epoch : ℕ) (calls : List (Call × List Routed)) : List OutMsg :=
  calls.flatMap fun c => if c.1 = .endSession epoch then [] else reportsTo epoch c.2

/-- The call is made for the epoch and reports to no other. -/
structure IsFor (epoch : ℕ) (c : Call × List Routed) : Prop where
  made : (∃ order, c.1 = .onNew epoch order) ∨ (∃ cancel, c.1 = .onCancel epoch cancel) ∨
    c.1 = .endSession epoch
  routed : ∀ r ∈ c.2, r.session = epoch

section Calls

variable {cfg : ServerConfig} {epoch : ℕ} {calls : List (Call × List Routed)}

/-- What was queued is read off the log in order. -/
theorem queuedIn_append (l l' : List Entry) : queuedIn (l ++ l') = queuedIn l ++ queuedIn l' := by
  simp [queuedIn, enqueuedIn_append]

/-- What the session refused itself is no answer of the engine. -/
theorem queuedIn_of_enqueuedIn {log log' : List Entry} {answer : List (OutMsg × Cause)}
    (h : enqueuedIn log' = enqueuedIn log ++ answer) :
    queuedIn log' = queuedIn log ++ (answer.filter fun p => p.2 ≠ .session).map Prod.fst := by
  simp [queuedIn, h]

/-- The answers are read off the calls in order. -/
theorem answersTo_append (epoch : ℕ) (calls calls' : List (Call × List Routed)) :
    answersTo epoch (calls ++ calls') = answersTo epoch calls ++ answersTo epoch calls' :=
  List.flatMap_append

/-- A call for a session reports to that session only. -/
theorem isFor_step (e : OrderEngine) {c : Call} (hmade : (∃ order, c = .onNew epoch order) ∨
    (∃ cancel, c = .onCancel epoch cancel) ∨ c = .endSession epoch) :
    IsFor epoch (c, (OrderEngine.step cfg.engine e c).2) := by
  refine ⟨hmade, fun r hr => ?_⟩
  rcases hmade with ⟨order, rfl⟩ | ⟨cancel, rfl⟩ | rfl <;>
  · obtain ⟨msg, -, rfl⟩ := List.mem_map.mp hr
    rfl

/-- So all of its reports are for the session. -/
theorem IsFor.reportsTo {c : Call × List Routed} (h : IsFor epoch c) :
    reportsTo epoch c.2 = c.2.map Routed.msg := by
  rw [OrderEngine.reportsTo, List.filter_eq_self.mpr]
  intro r hr
  simpa using h.routed r hr

/-- Calls that report nothing to the session, and its own end, answer nothing. -/
theorem answersTo_eq_nil (h : ∀ c ∈ calls, c.1 = .endSession epoch ∨ ∀ r ∈ c.2, r.session ≠ epoch) :
    answersTo epoch calls = [] := by
  refine List.flatMap_eq_nil_iff.mpr fun c hc => ?_
  split_ifs with hend
  · rfl
  · have hroutes := (h c hc).resolve_left hend
    rw [reportsTo, List.map_eq_nil_iff, List.filter_eq_nil_iff]
    intro r hr
    simpa using hroutes r hr

/-- The calls for another epoch report nothing to this one. -/
theorem answersTo_of_isFor {other : ℕ} (hne : other ≠ epoch) (h : ∀ c ∈ calls, IsFor other c) :
    answersTo epoch calls = [] :=
  answersTo_eq_nil fun c hc => Or.inr fun r hr => (h c hc).routed r hr ▸ hne

/-- The end of any epoch reports nothing that is queued. -/
theorem answersTo_of_endSession (h : ∀ c ∈ calls, ∃ e, c.1 = .endSession e ∧ IsFor e c) :
    answersTo epoch calls = [] := by
  refine answersTo_eq_nil fun c hc => ?_
  obtain ⟨e, hend, hfor⟩ := h c hc
  by_cases he : e = epoch
  · exact Or.inl (he ▸ hend)
  · exact Or.inr fun r hr => hfor.routed r hr ▸ he

end Calls

/-! ## A session's own code -/

namespace Session

/-- A session's own code: it calls the engine for its epoch, and queues the replies. -/
structure Relays (t t' : Turn) : Prop where
  epoch : t'.self.epoch = t.self.epoch
  grows : ∃ new, t'.srv.calls = t.srv.calls ++ new ∧ (∀ c ∈ new, IsFor t.self.epoch c) ∧
    queuedIn t'.self.log = queuedIn t.self.log ++ answersTo t.self.epoch new

variable {cfg : ServerConfig} {codec : Codec} {t t' t'' : Turn}

/-- Relaying after relaying. -/
theorem Relays.trans (h : Relays t t') (h' : Relays t' t'') : Relays t t'' := by
  obtain ⟨hepoch, new, hcalls, hnew, hqueued⟩ := h
  obtain ⟨hepoch', new', hcalls', hnew', hqueued'⟩ := h'
  rw [hepoch] at hnew' hqueued'
  refine ⟨hepoch'.trans hepoch, new ++ new', ?_, fun c hc => ?_, ?_⟩
  · rw [hcalls', hcalls, List.append_assoc]
  · exact (List.mem_append.mp hc).elim (hnew c) (hnew' c)
  · rw [hqueued', hqueued, answersTo_append, List.append_assoc]

/-- Neither a call nor a report. -/
theorem relays_silent (hepoch : t'.self.epoch = t.self.epoch) (hcalls : t'.srv.calls = t.srv.calls)
    (hqueued : queuedIn t'.self.log = queuedIn t.self.log) : Relays t t' :=
  ⟨hepoch, [], hcalls.trans (List.append_nil _).symm, fun _ hc => (by cases hc),
    hqueued.trans (List.append_nil _).symm⟩

/-- Nothing was called and nothing queued. -/
theorem Relays.refl (t : Turn) : Relays t t := relays_silent rfl rfl rfl

/-- Retiring ends the epoch in the engine, once. -/
theorem retire_calls (cfg : ServerConfig) (v : View) :
    ∃ new, (v.retire cfg).hub.calls = v.hub.calls ++ new ∧
      ∀ c ∈ new, c.1 = .endSession v.line.epoch ∧ IsFor v.line.epoch c := by
  rw [View.retire]
  split_ifs
  · exact ⟨[], (List.append_nil _).symm, fun _ hc => by cases hc⟩
  · refine ⟨_, rfl, fun c hc => ?_⟩
    rw [List.mem_singleton.mp hc]
    exact ⟨rfl, isFor_step _ (Or.inr (Or.inr rfl))⟩

/-- A drain calls the engine to end the session and for nothing else. -/
theorem drains_calls {v v' : View} (h : Drains cfg codec v v') :
    ∃ new, v'.hub.calls = v.hub.calls ++ new ∧
      ∀ c ∈ new, c.1 = .endSession v.line.epoch ∧ IsFor v.line.epoch c := by
  induction h with
  | refl => exact ⟨[], (List.append_nil _).symm, fun _ hc => by cases hc⟩
  | @tail u u' hpath hlast ih =>
    obtain ⟨new, hcalls, hnew⟩ := ih
    cases hlast with
    | latch code _ _ =>
      obtain ⟨more, hmore, hends⟩ := retire_calls cfg { u with
        line := { u.line with
          closing := true, closeCode := code, drainThenClose := code.drains
          log := u.line.log ++ [.latched code] } }
      refine ⟨new ++ more, ?_, fun c hc => ?_⟩
      · rw [View.latch, hmore, hcalls, List.append_assoc]
      · rcases List.mem_append.mp hc with hold | hend
        · exact hnew c hold
        · rw [← (keeps_drains hpath).epoch]
          exact hends c hend
    | _ => exact ⟨new, hcalls, hnew⟩

/-- Draining ends the epoch at most, and queues nothing. -/
theorem relays_drains (h : Drains cfg codec t.view t'.view) : Relays t t' := by
  have hkeeps := keeps_drains h
  have henqueued : enqueuedIn t'.self.log = enqueuedIn t.self.log := hkeeps.enqueued
  obtain ⟨new, hcalls, hnew⟩ := drains_calls h
  have hnone : answersTo t.self.epoch new = [] := answersTo_eq_nil fun c hc => Or.inl (hnew c hc).1
  refine ⟨hkeeps.epoch, new, hcalls, fun c hc => (hnew c hc).2, ?_⟩
  rw [hnone, List.append_nil, queuedIn, henqueued, queuedIn]

/-- `pump` queues nothing. -/
theorem relays_pump (t : Turn) : Relays t (pump cfg codec t) :=
    relays_drains (drains_pump cfg codec t)

/-- A close queues nothing. -/
theorem relays_beginClose (code : CloseCode) (t : Turn) : Relays t (beginClose cfg codec code t) :=
  relays_drains (drains_beginClose cfg codec code t)

/-- A reject of the session itself is no report of the engine. -/
theorem relays_pushReject (reject : Reject) (code : RejectCode) (t : Turn) :
    Relays t (pushReject cfg codec reject code t) := by
  let noted : Turn := emitRejectEvent code (countReject t)
  have hview : noted.view = t.view := by simp [noted]
  have hself : noted.self.epoch = t.self.epoch ∧ noted.self.log = t.self.log :=
    ⟨congrArg (fun v => v.line.epoch) hview, congrArg (fun v => v.line.log) hview⟩
  let pushed : Turn :=
    markOutboxDepth { noted with self := pushReport (.reject reject) .session noted.self }
  refine (show Relays t pushed from ?_).trans
    (relays_drains (drains_checkPolicyCloses cfg codec pushed))
  refine relays_silent hself.1 (congrArg (fun v => v.hub.calls) hview) ?_
  show queuedIn (noted.self.log ++ [.enqueued (.reject reject) .session _]) = _
  rw [queuedIn_append, hself.2]
  exact List.append_nil _

/-- The engine serves a command, and its reply is queued. -/
theorem relays_reply {c : Call} {cmd : InMsg} {svc : ℤ} {m : OutMsg} {noted : Turn}
    (hmade : (∃ order, c = .onNew t.self.epoch order) ∨ ∃ cancel, c = .onCancel t.self.epoch cancel)
    (hreply : (t.srv.call cfg c).2.map Routed.msg = [m])
    (hcalls : noted.srv.calls = (t.srv.call cfg c).1.calls)
    (hepoch : noted.self.epoch = t.self.epoch)
    (hlog : noted.self.log = t.self.log) :
    Relays t (enqueueReport cfg codec m (.command cmd svc) noted) := by
  have hfor : IsFor t.self.epoch (c, (t.srv.call cfg c).2) :=
    isFor_step _ (hmade.imp_right Or.inl)
  have hend : c ≠ .endSession t.self.epoch := by
    rintro rfl
    rcases hmade with ⟨_, h⟩ | ⟨_, h⟩ <;> cases h
  have hanswers : answersTo t.self.epoch [(c, (t.srv.call cfg c).2)] = [m] := by
    rw [answersTo, List.flatMap_singleton, if_neg hend, ← hreply, hfor.reportsTo]
  let pushed : Turn :=
    markOutboxDepth { noted with self := pushReport m (.command cmd svc) noted.self }
  refine (show Relays t pushed from ?_).trans
    (relays_drains (drains_checkPolicyCloses cfg codec pushed))
  refine ⟨hepoch, [(c, (t.srv.call cfg c).2)], hcalls, fun c' hc' => ?_, ?_⟩
  · rw [List.mem_singleton.mp hc']
    exact hfor
  · show queuedIn (noted.self.log ++ [.enqueued m (.command cmd svc) _]) = _
    rw [queuedIn_append, hlog, hanswers]
    rfl

/-- Noting a reply touches gauges and pending service times only. -/
structure Notes (t t' : Turn) : Prop where
  calls : t'.srv.calls = t.srv.calls
  epoch : t'.self.epoch = t.self.epoch
  log : t'.self.log = t.self.log

/-- What leaves the view alone only notes. -/
theorem notes_of_view {t t' : Turn} (h : t'.view = t.view) : Notes t t' :=
  ⟨congrArg (fun v => v.hub.calls) h, congrArg (fun v => v.line.epoch) h,
    congrArg (fun v => v.line.log) h⟩

/-- The reply to a new order is noted before it is queued. -/
theorem notes_noteNewReply (svc : ℤ) (report : OutMsg) (t : Turn) :
    Notes t (noteNewReply svc report t) := by
  cases report with
  | reject reject => exact notes_of_view (view_noteReject reject t)
  | _ => exact ⟨rfl, rfl, rfl⟩

/-- So is the reply to a cancel. -/
theorem notes_noteCancelReply (report : OutMsg) (t : Turn) :
    Notes t (noteCancelReply report t) := by
  cases report with
  | reject reject => exact notes_of_view (view_noteReject reject t)
  | _ => exact ⟨rfl, rfl, rfl⟩

/-- The narration queues nothing. -/
theorem relays_emitCmdIn (svc : ℤ) (t : Turn) : Relays t (emitCmdIn cfg svc t) := by
  have hview : (emitCmdIn cfg svc t).view = t.view := view_emitCmdIn svc t
  exact relays_silent (congrArg (fun v => v.line.epoch) hview)
    (congrArg (fun v => v.hub.calls) hview)
    (congrArg (fun v => queuedIn v.line.log) hview)

/-- The reply to a new order is queued for its session. -/
theorem relays_serveNew (order : NewOrder) (e1Ns : ℤ) (t : Turn) :
    Relays t (serveNew cfg codec order e1Ns t) := by
  obtain ⟨m, hreply, -, -⟩ := reply_onNew cfg.engine t.srv.engine t.self.epoch order
  have hreply : (t.srv.call cfg (.onNew t.self.epoch order)).2.map Routed.msg = [m] := hreply
  let served : Turn := ⟨(t.srv.call cfg (.onNew t.self.epoch order)).1.steadyNs.2, t.self⟩
  let svc := (t.srv.call cfg (.onNew t.self.epoch order)).1.steadyNs.1 - e1Ns
  obtain ⟨hcalls, hepoch, hlog⟩ := notes_noteNewReply svc m served
  unfold serveNew
  dsimp only
  rw [hreply, List.foldl_cons, List.foldl_nil]
  exact (relays_reply (Or.inl ⟨order, rfl⟩) hreply hcalls hepoch hlog).trans (relays_emitCmdIn _ _)

/-- The reply to a cancel is queued for its session. -/
theorem relays_serveCancel (cancel : CancelOrder) (e1Ns : ℤ) (t : Turn) :
    Relays t (serveCancel cfg codec cancel e1Ns t) := by
  obtain ⟨m, hreply, -, -⟩ := reply_onCancel cfg.engine t.srv.engine t.self.epoch cancel
  have hreply : (t.srv.call cfg (.onCancel t.self.epoch cancel)).2.map Routed.msg = [m] := hreply
  let served : Turn := ⟨(t.srv.call cfg (.onCancel t.self.epoch cancel)).1.steadyNs.2, t.self⟩
  obtain ⟨hcalls, hepoch, hlog⟩ := notes_noteCancelReply m served
  unfold serveCancel
  dsimp only
  rw [hreply, List.foldl_cons, List.foldl_nil]
  exact (relays_reply (Or.inr ⟨cancel, rfl⟩) hreply hcalls hepoch hlog).trans (relays_emitCmdIn _ _)

/-- What the engine answers to a command is queued. -/
theorem relays_onCommand (msg : InMsg) (e1Ns : ℤ) (t : Turn) :
    Relays t (onCommand cfg codec msg e1Ns t) := by
  let counted : Turn := { t with self := { t.self with inSeqExpected := t.self.inSeqExpected + 1 } }
  have hcounted : Relays t counted := relays_silent rfl rfl rfl
  unfold onCommand
  dsimp only
  split_ifs
  · exact relays_beginClose .protocolError t
  · exact hcounted.trans (relays_pushReject _ .staleEpoch counted)
  · cases msg with
    | newOrder order => exact hcounted.trans (relays_serveNew order e1Ns counted)
    | cancelOrder cancel => exact hcounted.trans (relays_serveCancel cancel e1Ns counted)

/-- So for a frame. -/
theorem relays_onMessage (frame : Bytes) (t : Turn) : Relays t (onMessage cfg codec frame t) := by
  unfold onMessage
  split_ifs
  · exact (relays_pushReject _ .msgTooLarge t).trans (relays_pump _)
  · cases codec.decode frame with
    | error err => exact (relays_pushReject _ err.code t).trans (relays_pump _)
    | ok msg =>
      let arrived : Turn := { t with srv := t.srv.steadyNs.2 }
      have harrived : Relays t arrived := relays_silent rfl rfl rfl
      exact (harrived.trans (relays_onCommand msg _ arrived)).trans (relays_pump _)

/-- So for a frame that has arrived. -/
theorem relays_onFrame (frame : Option Bytes) (t : Turn) :
    Relays t (onFrame cfg codec frame t) := by
  let arrived : Turn := { t with srv := t.srv.steadyNs.2 }
  have harrived : Relays t arrived := relays_silent rfl rfl rfl
  have hread : ∀ t : Turn, Relays t (readNext t) := fun t => relays_silent rfl rfl rfl
  unfold onFrame
  dsimp only
  split_ifs
  · exact harrived.trans (hread arrived)
  · cases frame with
    | none => exact (harrived.trans (relays_beginClose .protocolError arrived)).trans (hread _)
    | some frame => exact (harrived.trans (relays_onMessage frame arrived)).trans (hread _)

/-- A teardown queues nothing. -/
theorem relays_teardown (code : ℕ) (t : Turn) : Relays t (teardown cfg code t) := by
  cases hup : t.self.tornDown with
  | true =>
    rw [teardown, if_pos hup]
    exact .refl t
  | false =>
    have hview : (teardown cfg code t).view = t.view.tearDown cfg code := view_teardown hup
    let marked : View :=
      { t.view with
        line := { t.self.line with tornDown := true, log := t.self.log ++ [.closed code] } }
    obtain ⟨new, hcalls, hnew⟩ := retire_calls cfg marked
    refine ⟨?_, new, ?_, fun c hc => (hnew c hc).2, ?_⟩
    · refine (congrArg (fun v => v.line.epoch) hview).trans ?_
      rw [View.line_tearDown]
      rfl
    · exact (congrArg (fun v => v.hub.calls) hview).trans hcalls
    · refine (congrArg (fun v => queuedIn v.line.log) hview).trans ?_
      have hnone : answersTo t.self.epoch new = [] :=
        answersTo_eq_nil fun c hc => Or.inl (hnew c hc).1
      rw [View.line_tearDown, queuedIn_append, hnone]
      rfl

/-- An oversize frame queues nothing. -/
theorem relays_onMessageTooBig (t : Turn) : Relays t (onMessageTooBig cfg t) := by
  have hlatched : Relays t (latchClose cfg .tooBig false t).1 :=
    relays_drains
      (drains_latchClose cfg ⟨fun _ => .error ⟨.malformed, []⟩, fun _ => []⟩ rfl t)
  unfold onMessageTooBig
  dsimp only
  split_ifs
  · refine hlatched.trans (relays_silent rfl rfl ?_)
    rw [queuedIn_append]
    exact List.append_nil _
  · exact hlatched.trans (relays_teardown _ _)

/-- The completion of a read queues what the engine answers to its frame. -/
theorem relays_onRead (result : ReadResult) (t : Turn) : Relays t (onRead cfg codec result t) := by
  let idle : Turn := { t with self := { t.self with reading := .idle } }
  have hidle : Relays t idle := relays_silent rfl rfl rfl
  unfold onRead
  dsimp only
  split_ifs
  · exact hidle
  · cases result with
    | closed peer => exact hidle.trans (relays_teardown _ idle)
    | timeout => exact hidle.trans (relays_teardown _ idle)
    | aborted => exact hidle.trans (relays_teardown _ idle)
    | messageTooBig => exact hidle.trans (relays_onMessageTooBig idle)
    | protocolViolation badPayload => exact hidle.trans (relays_teardown _ idle)
    | failed => exact hidle.trans (relays_teardown _ idle)
    | binary => exact hidle.trans (relays_onFrame none idle)
    | text frame => exact hidle.trans (relays_onFrame (some frame) idle)

/-- The completion of a write queues nothing. -/
theorem relays_onWrite (result : WriteResult) (t : Turn) :
    Relays t (onWrite cfg codec result t) := by
  let written : Turn := { t with self := { t.self with writeInflight := false } }
  have hwritten : Relays t written := relays_silent rfl rfl rfl
  have hlagged : Relays t (noteSendLag written) := relays_silent rfl rfl rfl
  unfold onWrite
  dsimp only
  split_ifs
  · exact hwritten
  · cases result with
    | ok => exact hlagged.trans (relays_pump _)
    | timeout => exact hlagged.trans (relays_teardown _ _)
    | aborted => exact hlagged.trans (relays_teardown _ _)
    | failed => exact hlagged.trans (relays_teardown _ _)

/-- A session's completion relays what the engine answers. -/
theorem relays_completes {i : ℕ} {x : Session} {event : World.Event} {f : Turn → Turn}
    (h : World.Completes cfg codec i x event f) (srv : ServerImpl) :
    Relays ⟨srv, x⟩ (f ⟨srv, x⟩) := by
  cases h with
  | read result _ => exact relays_onRead result _
  | write result _ => exact relays_onWrite result _
  | closeFrame ok _ =>
    let closed : Turn := ⟨srv, { x with closeInflight := false }⟩
    have hclosed : Relays ⟨srv, x⟩ closed := relays_silent rfl rfl rfl
    unfold onCloseFrame
    dsimp only
    split_ifs
    · exact hclosed
    · exact hclosed.trans (relays_teardown _ closed)
  | oversizeClose _ =>
    unfold drainTransport
    split_ifs <;> exact relays_silent rfl rfl rfl
  | drainRead ok _ =>
    let idle : Turn := ⟨srv, { x with reading := .idle }⟩
    have hidle : Relays ⟨srv, x⟩ idle := relays_silent rfl rfl rfl
    unfold onDrainRead
    split_ifs
    · exact .refl _
    · exact hidle.trans (relays_teardown _ idle)

end Session

/-! ## Turns -/

namespace World

/-- Sessions' code has run: the calls grew by `new`, and what was queued is what these answer. -/
structure Answers (w w' : World) (new : List (Call × List Routed)) : Prop where
  calls : w'.srv.calls = w.srv.calls ++ new
  epochs : w'.heap.map Session.epoch = w.heap.map Session.epoch
  queued : ∀ (i : ℕ) x, w.heap[i]? = some x → x.epoch ≠ 0 → ∃ x', w'.heap[i]? = some x' ∧
    queuedIn x'.log = queuedIn x.log ++ answersTo x.epoch new
  /-- An epoch that no session has is answered nothing. -/
  others : ∀ e, e ∉ w.heap.map Session.epoch → answersTo e new = []

/-- No two started sessions share an epoch. -/
def Distinct (w : World) : Prop :=
  ∀ (i j : ℕ) (x y : Session), w.heap[i]? = some x → w.heap[j]? = some y → x.epoch ≠ 0 →
    x.epoch = y.epoch → i = j

variable {cfg : ServerConfig} {codec : Codec} {w w' w'' : World}
    {new new' : List (Call × List Routed)}

/-- Epochs are given once. -/
theorem Inv.distinct (h : w.Inv cfg) : w.Distinct := fun i j x y hx hy hne heq =>
  h.net.roster.epoch_inj i j x.line.row y.line.row (Inv.row hx) (Inv.row hy) hne heq

namespace Answers

/-- A session keeps its epoch. -/
theorem epoch (h : Answers w w' new) {i : ℕ} {x x' : Session} (hx : w.heap[i]? = some x)
    (hx' : w'.heap[i]? = some x') : x'.epoch = x.epoch := by
  have hsame := congrArg (fun l => l[i]?) h.epochs
  simpa [hx, hx'] using hsame

/-- A step keeps the epochs distinct. -/
theorem distinct (h : Answers w w' new) (hw : w.Distinct) : w'.Distinct := by
  intro i j x' y' hx' hy' hne heq
  have hback : ∀ (k : ℕ) z', w'.heap[k]? = some z' →
      ∃ z, w.heap[k]? = some z ∧ z.epoch = z'.epoch := by
    intro k z' hz'
    have hsame := congrArg (fun l => l[k]?) h.epochs
    simpa [hz'] using hsame.symm
  obtain ⟨x, hx, hxe⟩ := hback i x' hx'
  obtain ⟨y, hy, hye⟩ := hback j y' hy'
  exact hw i j x y hx hy (hxe ▸ hne) (hxe.trans (heq.trans hye.symm))

/-- Answers after answers. -/
theorem trans (h : Answers w w' new) (h' : Answers w' w'' new') : Answers w w'' (new ++ new') where
  calls := by rw [h'.calls, h.calls, List.append_assoc]
  epochs := h'.epochs.trans h.epochs
  queued i x hx hne := by
    obtain ⟨x', hx', hqueued⟩ := h.queued i x hx hne
    have hepoch := h.epoch hx hx'
    obtain ⟨x'', hx'', hqueued'⟩ := h'.queued i x' hx' (hepoch ▸ hne)
    refine ⟨x'', hx'', ?_⟩
    rw [hqueued', hqueued, hepoch, answersTo_append, List.append_assoc]
  others e he := by
    rw [answersTo_append, h.others e he, h'.others e (h.epochs ▸ he), List.append_nil]

/-- A step without calls that keeps the sessions. -/
theorem of_same (hcalls : w'.srv.calls = w.srv.calls) (hheap : w'.heap = w.heap) :
    Answers w w' [] where
  calls := hcalls.trans (List.append_nil _).symm
  epochs := by rw [hheap]
  queued i x hx _ := ⟨x, hheap ▸ hx, (List.append_nil _).symm⟩
  others _ _ := rfl

end Answers

/-- The code of one session answers that session. -/
theorem answers_on (hw : w.Distinct) (i : ℕ) {f : Turn → Turn}
    (hf : ∀ x, w.heap[i]? = some x → Session.Relays ⟨w.srv, x⟩ (f ⟨w.srv, x⟩)) :
    ∃ new, Answers w (w.on i f) new := by
  cases hx : w.heap[i]? with
  | none =>
    rw [World.on, hx]
    exact ⟨[], .of_same rfl rfl⟩
  | some x =>
    obtain ⟨hepoch, new, hcalls, hnew, hqueued⟩ := hf x hx
    obtain ⟨hlt, hget⟩ := List.getElem?_eq_some_iff.mp hx
    rw [heap_on hx]
    refine ⟨new, hcalls, ?_, fun j y hy hne => ?_, fun e he => ?_⟩
    · rw [List.map_set, hepoch, ← hget, ← List.map_set, List.set_getElem_self]
    · by_cases hij : i = j
      · subst hij
        cases hx.symm.trans hy
        exact ⟨_, List.getElem?_set_self hlt, hqueued⟩
      · refine ⟨y, (List.getElem?_set_ne hij).trans hy, ?_⟩
        have hother : x.epoch ≠ y.epoch := fun heq => hij (hw j i y x hy hx hne heq.symm).symm
        rw [answersTo_of_isFor hother hnew, List.append_nil]
    · have hother : x.epoch ≠ e := by
        rintro rfl
        exact he (List.mem_map_of_mem (List.mem_of_getElem? hx))
      exact answersTo_of_isFor hother hnew

/-- A loop of answering steps. -/
theorem answers_foldl {α : Type} {f : World → α → World} {as : List α}
    (hf : ∀ w, w.Distinct → ∀ a ∈ as, ∃ new, Answers w (f w a) new) (hw : w.Distinct) :
    ∃ new, Answers w (as.foldl f w) new := by
  induction as generalizing w with
  | nil => exact ⟨[], .of_same rfl rfl⟩
  | cons a as ih =>
    obtain ⟨new, hfirst⟩ := hf w hw a List.mem_cons_self
    obtain ⟨new', hrest⟩ := ih (fun w hw b hb => hf w hw b (List.mem_cons_of_mem a hb))
      (hfirst.distinct hw)
    exact ⟨_, hfirst.trans hrest⟩

/-- Closing every session. -/
theorem answers_closeAll (cfg : ServerConfig) (codec : Codec) (hw : w.Distinct) :
    ∃ new, Answers w (w.closeAll cfg codec) new :=
  answers_foldl (fun _ hw p _ => answers_on hw p.2 fun _ _ =>
    Session.relays_beginClose .goingAway _) hw

/-! ## Books -/

/-- A session that is torn down is deaf to the server. -/
theorem eq_of_poked {x x' : Session} (h : Session.Poked cfg codec x x')
    (hdown : x.tornDown = true) :
    x' = x := by
  cases h with
  | goingAway srv =>
    have hrefused : Session.latchClose cfg .goingAway true ⟨srv, x⟩ = (⟨srv, x⟩, false) := by
      rw [Session.latchClose, if_pos (by simp [hdown])]
    show (Session.beginClose cfg codec .goingAway ⟨srv, x⟩).self = x
    rw [Session.beginClose]
    simp [hrefused]
  | report srv msg mdSeq => rw [Session.deliverReport, if_pos hdown]
  | tick srv tob => rw [Session.deliverTob, if_pos (by simp [hdown])]

/-- A session that is down is not reached any more. -/
theorem eq_of_pokes {x x' : Session} (h : Relation.ReflTransGen (Session.Poked cfg codec) x x')
    (hdown : x.tornDown = true) : x' = x := by
  induction h with
  | refl => rfl
  | tail _ hlast ih => exact (eq_of_poked hlast (ih ▸ hdown)).trans ih

/-- Calls that are neither commands nor books end epochs. -/
theorem isFor_of_quiet (h : w.Inv cfg) (hcalls : w.srv.calls = new ++ new')
    (hserved : servedIn new' = []) (hbooks : booksIn new' = []) :
    ∀ c ∈ new', ∃ e, c.1 = .endSession e ∧ IsFor e c := by
  intro c hc
  have hran : (OrderEngine.run cfg.engine (w.srv.calls.map Prod.fst)).2 = w.srv.calls :=
    congrArg Prod.snd h.net.roster.ran
  have hmem : c ∈ (OrderEngine.run cfg.engine (w.srv.calls.map Prod.fst)).2 := by
    rw [hran, hcalls]
    exact List.mem_append_right new hc
  obtain ⟨e, hout⟩ := Mealy.output_of_mem_run _ hmem
  obtain ⟨call, out⟩ := c
  dsimp only at hout
  subst hout
  cases call with
  | onNew session order =>
    exact absurd hserved (List.ne_nil_of_mem (List.mem_filterMap.mpr ⟨_, hc, rfl⟩))
  | onCancel session cancel =>
    exact absurd hserved (List.ne_nil_of_mem (List.mem_filterMap.mpr ⟨_, hc, rfl⟩))
  | onBook book => exact absurd hbooks (List.ne_nil_of_mem (List.mem_filterMap.mpr ⟨_, hc, rfl⟩))
  | endSession session => exact ⟨session, rfl, isFor_step e (Or.inr (Or.inr rfl))⟩

/-- A book fills no order of an epoch whose session is gone. -/
theorem Inv.reportsTo_of_gone (h : w.Inv cfg) (book : Book) {e : ℕ}
    (hgone : ∀ (i : ℕ) x, w.heap[i]? = some x → x.epoch = e → x.tornDown = true) :
    reportsTo e (OrderEngine.step cfg.engine w.srv.engine (.onBook book)).2 = [] := by
  rw [reportsTo, List.map_eq_nil_iff, List.filter_eq_nil_iff]
  intro r hr hsession
  have hsession : r.session = e := by simpa using hsession
  -- the order would be of an epoch that lives
  obtain ⟨i, row, hrow, hepoch, hlive⟩ := h.net.roster.involves_onBook (e := e)
    (Or.inr (Or.inr (Or.inr ⟨r, hr, hsession⟩)))
  simp only [World.net, List.map_map, List.getElem?_map, Option.map_eq_some_iff] at hrow
  obtain ⟨x, hx, rfl⟩ := hrow
  have hretired := (h.sound (List.mem_of_getElem? hx)).retired.symm.trans hlive
  rw [show x.line.tornDown = true from hgone i x hx hepoch, Bool.or_true] at hretired
  cases hretired

/-- The fills of a book are queued for the sessions they are routed to. -/
theorem Inv.answers_publishBook (h : w.Inv cfg) (codec : Codec) (bidPx bidQty askPx askQty : ℤ) :
    ∃ new, Answers w (w.publishBook cfg codec bidPx bidQty askPx askQty) new := by
  let book := w.bookOf bidPx bidQty askPx askQty
  let out := (OrderEngine.step cfg.engine w.srv.engine (.onBook book)).2
  have hpokes := pokes_publishBook cfg codec w bidPx bidQty askPx askQty
  obtain ⟨w', hw', hmoves, hinv', -, hfills⟩ := h.publishBook codec bidPx bidQty askPx askQty
  rw [hw'] at hpokes ⊢
  obtain ⟨new, hnew, -⟩ := extends_moves hmoves
  have hnew : w'.srv.calls = (w.srv.calls ++ [(.onBook book, out)]) ++ new := hnew
  -- once the book is processed, only epochs end
  have hserved : servedIn w'.srv.calls = servedIn (w.srv.calls ++ [(.onBook book, out)]) :=
    hpokes.served
  have hbooks : booksIn w'.srv.calls = booksIn (w.srv.calls ++ [(.onBook book, out)]) :=
    hpokes.srv.books
  rw [hnew, servedIn_append, List.append_right_eq_self] at hserved
  rw [hnew, booksIn_append, List.append_right_eq_self] at hbooks
  have hends := isFor_of_quiet hinv' hnew hserved hbooks
  have hanswers : ∀ e, answersTo e ((.onBook book, out) :: new) = reportsTo e out := by
    intro e
    have hsplit := answersTo_append e [(.onBook book, out)] new
    rw [answersTo_of_endSession hends, List.append_nil] at hsplit
    refine hsplit.trans ?_
    rw [answersTo, List.flatMap_singleton, if_neg (by simp)]
  refine ⟨(.onBook book, out) :: new, ?_, ?_, fun i x hx hne => ?_, fun e he => ?_⟩
  · rw [hnew, List.append_assoc]
    rfl
  · refine List.ext_getElem? fun i => ?_
    rw [List.getElem?_map, List.getElem?_map]
    cases hx : w.heap[i]? with
    | none =>
      have hlength : w'.heap.length = w.heap.length := hpokes.length
      rw [List.getElem?_eq_none_iff] at hx
      rw [List.getElem?_eq_none (hlength ▸ hx)]
    | some x =>
      obtain ⟨x', hx', hpoked⟩ := hpokes.heap i x hx
      rw [hx']
      exact congrArg some (Session.passive_poked hpoked).epoch
  · obtain ⟨x', hx', hpoked⟩ := hpokes.heap i x hx
    refine ⟨x', hx', ?_⟩
    rw [hanswers]
    cases hdown : x.tornDown with
    | true =>
      rw [eq_of_pokes hpoked hdown, h.reportsTo_of_gone book, List.append_nil]
      intro j y hy heq
      obtain rfl := h.distinct j i y x hy hx (heq ▸ hne) heq
      cases hx.symm.trans hy
      exact hdown
    | false =>
      obtain ⟨y, hy, hqueued⟩ := hfills x.epoch i x (h.mapped.mpr ⟨hne, x, hx, rfl, hdown⟩) hx
      cases hx'.symm.trans hy
      rw [queuedIn_of_enqueuedIn hqueued, List.filter_map, List.map_map]
      simp [Function.comp_def, out, book]
  · rw [hanswers]
    refine h.reportsTo_of_gone book fun i x hx heq => ?_
    exact absurd (heq ▸ List.mem_map_of_mem (List.mem_of_getElem? hx)) he

/-! ## Runs -/

/-- What a turn queues for the sessions that were there is what its calls answer them. -/
structure Answered (w w' : World) (new : List (Call × List Routed)) : Prop where
  calls : w'.srv.calls = w.srv.calls ++ new
  queued : ∀ (i : ℕ) x, w.heap[i]? = some x → x.epoch ≠ 0 → ∃ x', w'.heap[i]? = some x' ∧
    x'.epoch = x.epoch ∧ queuedIn x'.log = queuedIn x.log ++ answersTo x.epoch new
  others : ∀ e, e ∉ w.heap.map Session.epoch → answersTo e new = []

/-- Answers that relate the sessions one by one. -/
theorem Answers.answered (h : Answers w w' new) : Answered w w' new where
  calls := h.calls
  queued i x hx hne := by
    obtain ⟨x', hx', hqueued⟩ := h.queued i x hx hne
    exact ⟨x', hx', h.epoch hx hx', hqueued⟩
  others := h.others

/-- The sessions stay, whatever else is created or started. -/
theorem answered_of_kept (hcalls : w'.srv.calls = w.srv.calls)
    (hheap : ∀ (i : ℕ) x, w.heap[i]? = some x → x.epoch ≠ 0 → w'.heap[i]? = some x) :
    Answered w w' [] where
  calls := hcalls.trans (List.append_nil _).symm
  queued i x hx hne := ⟨x, hheap i x hx hne, rfl, (List.append_nil _).symm⟩
  others _ _ := rfl

/-- Every event queues, for each session, what the engine has answered to it. -/
theorem Inv.answered (h : w.Inv cfg) (codec : Codec) (event : Event) :
    ∃ new, Answered w (w.step cfg codec event) new := by
  have hkept : ∀ w' : World, w'.srv.calls = w.srv.calls → w'.heap = w.heap →
      ∃ new, Answered w w' new :=
    fun w' hcalls hheap => ⟨[], (Answers.of_same hcalls hheap).answered⟩
  have hfed : ∀ index, (w.fed index).Distinct := fun _ => h.distinct
  have hturned := turned_step cfg codec w event
  generalize w.step cfg codec event = w' at hturned ⊢
  cases hturned with
  | ignored => exact hkept w rfl rfl
  | @completed _ i x f hfound hcompletes =>
    obtain ⟨new, hnew⟩ := answers_on h.distinct i (f := f) fun y hy => by
      cases hfound.symm.trans hy
      exact Session.relays_completes hcompletes w.srv
    exact ⟨new, hnew.answered⟩
  | fed index _ => exact hkept _ rfl rfl
  | dropped index _ =>
    obtain ⟨new, hnew⟩ := answers_closeAll cfg codec (hfed index)
    exact ⟨new, hnew.calls, hnew.answered.queued, hnew.others⟩
  | published index bidPx bidQty askPx askQty _ =>
    obtain ⟨-, hinv⟩ := h.gauges (w.fed index) rfl rfl fun _ _ hij => hij
    obtain ⟨new, hnew⟩ := hinv.answers_publishBook codec bidPx bidQty askPx askQty
    exact ⟨new, hnew.calls, hnew.answered.queued, hnew.others⟩
  | stopped _ index hrunning =>
    rw [beginStop_of_running (w := w.fed index) hrunning]
    split_ifs
    · exact hkept _ (congrArg Hub.calls (Session.hub_finalize _)) rfl
    · obtain ⟨new, hnew⟩ := answers_closeAll (w := (w.fed index).halted) cfg codec (hfed index)
      exact ⟨new, hnew.calls, hnew.answered.queued, hnew.others⟩
  | snapshot conflatedOf _ => exact hkept _ rfl rfl
  | accepted ok =>
    refine hkept _ ?_ ?_ <;>
    · unfold World.onAccept
      dsimp only
      split_ifs <;> rfl
  | @requested i request _ =>
    -- an upgrade may add a session at the end, which has been queued nothing
    have hcreated : (w.onUpgradeRequest cfg i request).srv.calls = w.srv.calls ∧
        w.heap <+: (w.onUpgradeRequest cfg i request).heap := by
      unfold World.onUpgradeRequest
      cases request with
      | none => exact ⟨rfl, List.prefix_refl _⟩
      | some req =>
        dsimp only
        split_ifs
        · exact ⟨rfl, List.prefix_refl _⟩
        · exact ⟨rfl, List.prefix_refl _⟩
        · exact ⟨rfl, List.prefix_refl _⟩
        · exact ⟨rfl, List.prefix_refl _⟩
        · exact ⟨rfl, List.prefix_append _ _⟩
    refine ⟨[], answered_of_kept hcreated.1 fun j x hx _ => ?_⟩
    obtain ⟨more, hmore⟩ := hcreated.2
    rw [← hmore, List.getElem?_append_left (List.getElem?_eq_some_iff.mp hx).1]
    exact hx
  | refused _ => exact hkept _ rfl rfl
  | @shaken i j ok hfound =>
    obtain ⟨hfresh, heq⟩ := h.onHandshake_eq hfound ok
    rw [heq]
    split_ifs
    · exact hkept _ rfl rfl
    · refine ⟨[], answered_of_kept rfl fun k x hx hne => ?_⟩
      -- only the session that starts changes, and it had no epoch before
      have hjk : j ≠ k := by
        rintro rfl
        cases hx.symm.trans hfresh
        exact hne rfl
      exact (List.getElem?_set_ne hjk).trans hx

/-- Every session has been queued what the calls have answered it. -/
structure Informed (w : World) : Prop where
  queued : ∀ x ∈ w.heap, x.epoch ≠ 0 → queuedIn x.log = answersTo x.epoch w.srv.calls
  /-- An epoch that has not begun has been answered nothing. -/
  future : ∀ e, e ≠ 0 → e ∉ w.heap.map Session.epoch → answersTo e w.srv.calls = []

/-- An event keeps the reports of every session queued. -/
theorem Informed.step (h : w.Informed) (hinv : w.Inv cfg) (codec : Codec) (event : Event) :
    (w.step cfg codec event).Informed := by
  obtain ⟨new, hanswered⟩ := hinv.answered codec event
  have hepoch_le : ∀ x ∈ w.heap, x.epoch ≤ w.srv.nextEpoch := by
    intro x hx
    obtain ⟨i, hi⟩ := List.getElem?_of_mem hx
    exact hinv.net.roster.epoch_le i x.line.row (Inv.row hi)
  refine ⟨fun x' hx' hne' => ?_, fun e hne he => ?_⟩
  · obtain ⟨i, hi'⟩ := List.getElem?_of_mem hx'
    rcases hinv.touched codec event hi' with ⟨x, hi, htouched⟩ | ⟨-, rfl⟩
    · by_cases hne : x.epoch = 0
      · cases htouched with
        | completed hcompletes => exact absurd hne (hinv.started_completes hi hcompletes)
        | started _ =>
          -- the epoch has just begun
          have hfresh : w.srv.nextEpoch + 1 ∉ w.heap.map Session.epoch := by
            intro hmem
            obtain ⟨y, hy, heq⟩ := List.mem_map.mp hmem
            have hle := hepoch_le y hy
            omega
          rw [hanswered.calls, answersTo_append, h.future _ (Nat.succ_ne_zero _) hfresh,
            hanswered.others _ hfresh]
          rfl
        | poked hpoked => exact absurd ((Session.passive_poked hpoked).epoch.trans hne) hne'
      · obtain ⟨y, hy, hepoch, hqueued⟩ := hanswered.queued i x hi hne
        cases hi'.symm.trans hy
        rw [hqueued, h.queued x (List.mem_of_getElem? hi) hne, hepoch, hanswered.calls,
          answersTo_append]
    · exact absurd rfl hne'
  · have hbefore : e ∉ w.heap.map Session.epoch := by
      intro hmem
      obtain ⟨x, hx, rfl⟩ := List.mem_map.mp hmem
      obtain ⟨i, hi⟩ := List.getElem?_of_mem hx
      obtain ⟨x', hx', hepoch, -⟩ := hanswered.queued i x hi hne
      exact he (hepoch ▸ List.mem_map_of_mem (List.mem_of_getElem? hx'))
    rw [hanswered.calls, answersTo_append, h.future e hne hbefore, hanswered.others e hbefore]
    rfl

/-- In every state, each session has been queued what the engine has reported to it. -/
theorem run_informed (cfg : ServerConfig) (codec : Codec) (clock : ℕ → ℤ) (events : List Event) :
    (run cfg codec clock events).Informed := by
  induction events using List.reverseRecOn with
  | nil => exact ⟨fun x hx => (by cases hx), fun _ _ _ => rfl⟩
  | append_singleton events event ih =>
    rw [run_concat]
    exact ih.step (run_steps cfg codec clock events).2 codec event

/-- The reports of the engine reach a session once, in the order of the engine: those it has been
queued are all that the calls answered to its epoch, and the frames of reports that it wrote carry
what was queued first. -/
theorem run_delivers (cfg : ServerConfig) (codec : Codec) (htotal : codec.Total) (clock : ℕ → ℤ)
    (events : List Event) (x : Session) (hx : x ∈ (run cfg codec clock events).heap)
    (hstarted : x.epoch ≠ 0) :
    queuedIn x.log = answersTo x.epoch (run cfg codec clock events).srv.calls ∧
      ∃ done, done <+: enqueuedIn x.log ∧
        List.Forall₂ (Carries x.epoch) done (reportsIn x.log) := by
  obtain ⟨done, queued, hstream⟩ := (run_ordered cfg htotal clock events hx).streams
  have henqueued : enqueuedIn x.log = done ++ queued := hstream.enqueued
  refine ⟨(run_informed cfg codec clock events).queued x hx hstarted, done, ?_, hstream.carried⟩
  rw [henqueued]
  exact List.prefix_append _ _

theorem run_delivers_drop :
    ∃ x ∈ (run dropConfig dropCodec (fun n => 5 * n) dropEvents).heap, x.epoch = 1 ∧
      (queuedIn x.log).length = 2 ∧
        queuedIn x.log =
          answersTo 1 (run dropConfig dropCodec (fun n => 5 * n) dropEvents).srv.calls := by
  have hrun : ∃ x ∈ (run dropConfig dropCodec (fun n => 5 * n) dropEvents).heap, x.epoch = 1 ∧
      (queuedIn x.log).length = 2 := by decide
  obtain ⟨x, hx, hepoch, hlength⟩ := hrun
  have hdelivers := run_delivers dropConfig dropCodec dropCodec_total
    (fun n => 5 * n) dropEvents x hx
    (by rw [hepoch]; decide)
  exact ⟨x, hx, hepoch, hlength, hepoch ▸ hdelivers.1⟩

end World

end MarketMaker
