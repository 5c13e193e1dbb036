import MarketMaker.Engine.Invariant
import MarketMaker.Server.Line

/-!
# A session's code takes the steps of its line

Each function of a session, seen through `Turn.view`, is a sequence of `Drain` or `Act` steps. What
a function needs of the state it is called in is a hypothesis here; `Server.Run` shows that the
server calls it in such states.
-/

namespace MarketMaker

open OrderEngine (Call)

namespace Session

variable {cfg : ServerConfig} {codec : Codec} {t : Turn}

/-! ## Gauges -/

/-- The clock is no part of what sessions share. -/
@[simp]
theorem hub_steadyNs (srv : ServerImpl) : srv.steadyNs.2.hub = srv.hub := rfl

/-- Neither is the telemetry. -/
@[simp]
theorem hub_emitEvent (srv : ServerImpl) (event : TelemetryEvent) (a0 a1 : ℤ) :
    (srv.emitEvent event a0 a1).hub = srv.hub := rfl

/-- `finalize` takes a snapshot of the shared state and leaves it alone. -/
@[simp]
theorem hub_finalize (srv : ServerImpl) : srv.finalize.hub = srv.hub := by
  unfold ServerImpl.finalize
  split_ifs <;> rfl

/-- The watermark of the outbox is not viewed. -/
@[simp]
theorem view_markOutboxDepth (t : Turn) : (markOutboxDepth t).view = t.view := rfl

/-- The watermark of the lag is not viewed. -/
@[simp]
theorem view_noteSendLag (t : Turn) : (noteSendLag t).view = t.view := rfl

/-- The counters are not viewed. -/
@[simp]
theorem view_countReject (t : Turn) : (countReject t).view = t.view := rfl

/-- The narration of rejects and its window are not viewed. -/
@[simp]
theorem view_emitRejectEvent (code : RejectCode) (t : Turn) :
    (emitRejectEvent code t).view = t.view := by
  unfold emitRejectEvent
  dsimp only
  split_ifs <;> rfl

/-- Noting a reject reply moves its counter, the clock and the narration, and nothing of the
view. -/
theorem view_noteReject (reject : Reject) (t : Turn) :
    (match rejectCodeFromWire reject.code with
      | some code => emitRejectEvent code (countReject t)
      | none => countReject t).view = t.view := by
  split
  · exact view_emitRejectEvent _ _
  · rfl

/-- The pending receive operation is not viewed. -/
@[simp]
theorem view_readNext (t : Turn) : (readNext t).view = t.view := rfl

/-- `retire_epoch` is the retirement of the view. -/
theorem view_retireEpoch (cfg : ServerConfig) (t : Turn) :
    (retireEpoch cfg t).view = t.view.retire cfg := by
  unfold retireEpoch View.retire
  cases h : t.self.epochRetired with
  | true => simp [Turn.view, Session.line, h]
  | false => simp [Turn.view, Session.line, h, ServerImpl.call, Hub.call, ServerImpl.hub]

/-! ## Draining -/

/-- A session that is closing or down refuses a latch and is left as it was. -/
theorem latchClose_of_refused {code : CloseCode} {drain : Bool}
    (h : (t.self.closing || t.self.tornDown) = true) :
    latchClose cfg code drain t = (t, false) := by
  rw [latchClose, if_pos h]

/-- A latch that is not refused is that of the view. -/
theorem view_latchClose {code : CloseCode} {drain : Bool} (hdrain : drain = code.drains)
    (hc : t.self.closing = false) (hup : t.self.tornDown = false) :
    (latchClose cfg code drain t).1.view = t.view.latch cfg code ∧
      (latchClose cfg code drain t).2 = true := by
  subst hdrain
  have hguard : ¬(t.self.closing || t.self.tornDown) = true := by simp [hc, hup]
  rw [latchClose, if_neg hguard]
  exact ⟨view_retireEpoch cfg _, rfl⟩

/-- After a latch the session is closing. -/
@[simp]
theorem closing_latch (v : View) (code : CloseCode) :
    (v.latch cfg code).line.closing = true := by
  rw [View.line_latch]

/-- A latched close is one draining step, a refused one none. -/
theorem drains_latchClose (cfg : ServerConfig) (codec : Codec) {code : CloseCode} {drain : Bool}
    (hdrain : drain = code.drains) (t : Turn) :
    Drains cfg codec t.view (latchClose cfg code drain t).1.view := by
  by_cases h : (t.self.closing || t.self.tornDown) = true
  · rw [latchClose_of_refused h]
  · obtain ⟨hc, hup⟩ : t.self.closing = false ∧ t.self.tornDown = false := by simpa using h
    rw [(view_latchClose hdrain hc hup).1]
    exact .single (.latch code hc hup)

/-- After a latch that nobody refused for being torn down, the session is closing. -/
theorem closing_latchClose {code : CloseCode} {drain : Bool} (hdrain : drain = code.drains)
    (hup : t.self.tornDown = false) :
    (latchClose cfg code drain t).1.self.closing = true := by
  cases hc : t.self.closing with
  | true =>
    rw [latchClose_of_refused (by simp [hc])]
    exact hc
  | false =>
    change (latchClose cfg code drain t).1.view.line.closing = true
    rw [(view_latchClose hdrain hc hup).1, closing_latch]

/-- The close frame is a drain of the view, if a draining close has drained. -/
theorem drains_sendCloseFrame (hc : t.self.closing = true)
    (hdrained : codec.Total → t.self.drainThenClose = true → t.self.outbox.reports = []) :
    Drains cfg codec t.view (sendCloseFrame t).view := by
  unfold sendCloseFrame
  split_ifs with h
  · exact .refl
  · refine .single (.sendClose hc ?_ hdrained)
    simp only [Bool.or_eq_true, not_or, Bool.not_eq_true] at h
    exact h.1.1

/-- A write is that of the view. -/
theorem view_writeFrame (t : Turn) (frame : OutMsg) :
    (writeFrame cfg t frame).view = t.view.write frame := by
  unfold writeFrame
  cases frame with
  | tob m => cases hv : cfg.telemetryVerbose <;> rfl
  | orderAck m => rfl
  | cancelAck m => rfl
  | reject m => rfl
  | fill m => rfl

/-- A popped message is written, or lost with a close that follows at once. -/
theorem drains_writeMsg {msg : OutMsg} {outbox : Outbox}
    (hpop : t.self.outbox.pop = some (msg, outbox)) (hidle : t.self.writeInflight = false)
    (hup : t.self.tornDown = false) (hsent : t.self.closeFrameSent = false)
    (htick : t.self.closing = true → msg.isTob = false) :
    Drains cfg codec t.view
      (writeMsg cfg codec { t with self := { t.self with outbox } } msg).view := by
  unfold writeMsg
  dsimp only
  split_ifs with henc
  · -- the message is lost, a close is latched unless one is under way, and its frame is sent
    refine (Relation.ReflTransGen.single (.lose hpop henc)).trans ?_
    have hdrain : false = CloseCode.internalError.drains := rfl
    refine (drains_latchClose cfg codec hdrain
      ⟨t.srv, { t.self with
        outbox
        outSeq := t.self.outSeq + 1
        pendingSvc := (stampMsg t.self.outSeq t.self.epoch t.self.pendingSvc msg).2 }⟩).trans ?_
    refine drains_sendCloseFrame (closing_latchClose rfl hup) fun htotal => ?_
    exact absurd henc (htotal _)
  · rw [view_writeFrame]
    exact .single (.write hpop hidle hsent htick henc)

/-- The rounds of the loop are drains of the view. -/
theorem drains_pumpLoop (fuel : ℕ) (t : Turn) (hidle : t.self.writeInflight = false)
    (hup : t.self.tornDown = false) (hsent : t.self.closeFrameSent = false) :
    Drains cfg codec t.view (pumpLoop cfg codec fuel t).view := by
  induction fuel generalizing t with
  | zero => exact .refl
  | succ fuel ih =>
    unfold pumpLoop
    split
    · next hpop =>
      split_ifs with hc
      · exact drains_sendCloseFrame hc fun _ _ => (Outbox.pop_eq_none_iff.mp hpop).1
      · exact .refl
    · next tob outbox hpop =>
      split_ifs with hc
      · -- the tick is discarded and the loop goes round
        have hround := ih { t with
          self := { t.self with outbox, log := t.self.log ++ [.discarded tob.mdSeq] } }
        exact .head (.discard hpop hc) (hround hidle hup hsent)
      · exact drains_writeMsg hpop hidle hup hsent fun h => absurd h (by simp [hc])
    · next msg outbox hnot hpop =>
      refine drains_writeMsg hpop hidle hup hsent fun _ => ?_
      cases msg with
      | tob tob => exact absurd rfl (hnot tob)
      | orderAck m => rfl
      | cancelAck m => rfl
      | reject m => rfl
      | fill m => rfl

/-- `pump` drains. -/
theorem drains_pump (cfg : ServerConfig) (codec : Codec) (t : Turn) :
    Drains cfg codec t.view (pump cfg codec t).view := by
  unfold pump
  split_ifs with hbusy hnow
  · exact .refl
  · rw [Bool.and_eq_true, Bool.not_eq_true'] at hnow
    refine drains_sendCloseFrame hnow.1 fun _ hdrain => ?_
    rw [hnow.2] at hdrain
    cases hdrain
  · obtain ⟨⟨hidle, hup⟩, hsent⟩ :
        (t.self.writeInflight = false ∧ t.self.tornDown = false) ∧
          t.self.closeFrameSent = false := by
      simpa using hbusy
    exact drains_pumpLoop _ t hidle hup hsent

/-- `begin_close` lets the reports out before the closes that drain. -/
theorem drains_eq (code : CloseCode) :
    (decide (code = .policyError) || decide (code = .goingAway)) = code.drains := by
  cases code <;> rfl

/-- A close is a latch and drains after it. -/
theorem drains_beginClose (cfg : ServerConfig) (codec : Codec) (code : CloseCode) (t : Turn) :
    Drains cfg codec t.view (beginClose cfg codec code t).view := by
  unfold beginClose
  dsimp only
  have hlatch := drains_latchClose cfg codec (drains_eq code) t
  split_ifs
  · exact hlatch.trans (drains_pump cfg codec _)
  · exact hlatch

/-- So is a policy close. -/
theorem drains_checkPolicyCloses (cfg : ServerConfig) (codec : Codec) (t : Turn) :
    Drains cfg codec t.view (checkPolicyCloses cfg codec t).view := by
  unfold checkPolicyCloses
  split_ifs
  · exact .refl
  · exact drains_beginClose cfg codec .policyError
      { t with srv := t.srv.emitEvent .hwmClose t.self.epoch t.self.outbox.depth }
  · exact drains_beginClose cfg codec .policyError
      { t with
        srv := t.srv.emitEvent .entryCapClose t.self.epoch (t.srv.engine.entryCount t.self.epoch) }
  · exact .refl

/-- Drains are steps of the view. -/
theorem acts_of_drains {v v' : View} (h : Drains cfg codec v v') : Acts cfg codec v v' :=
  Relation.ReflTransGen.mono (fun _ _ hd => Act.drain hd) _ _ h

/-! ## Queueing -/

/-- Once a close begins on a session that is up, it is closing. -/
theorem closing_beginClose {code : CloseCode} (hup : t.self.tornDown = false) :
    (beginClose cfg codec code t).self.closing = true := by
  have hlatched : (latchClose cfg code (code = .policyError || code = .goingAway) t).1.self.closing
    =
      true := closing_latchClose (drains_eq code) hup
  unfold beginClose
  dsimp only
  split_ifs
  · exact (keeps_drains (drains_pump cfg codec _)).closing hlatched
  · exact hlatched

/-- The policy check leaves no breach without a close. -/
theorem settled_checkPolicyCloses (hup : t.self.tornDown = false) :
    (checkPolicyCloses cfg codec t).self.outbox.reportHwmBreached = true →
      (checkPolicyCloses cfg codec t).self.closing = true := by
  unfold checkPolicyCloses
  split_ifs with hc hbreach hcap
  · exact fun _ => hc
  · exact fun _ => closing_beginClose hup
  · exact fun _ => closing_beginClose hup
  · exact fun h => absurd h hbreach

/-- A report already in the outbox, and the check that follows. -/
theorem act_checkPolicyCloses {t' : Turn} {msg : OutMsg} {cause : Cause}
    (hpush : t'.view = t.view.push msg cause) (hmay : MayPush cfg codec t.view msg cause) :
    Act cfg codec t.view (checkPolicyCloses cfg codec (markOutboxDepth t')).view := by
  have hup : (markOutboxDepth t').self.tornDown = false := by
    change t'.view.line.tornDown = false
    rw [hpush]
    exact hmay.up
  refine .enqueue hmay ?_ (settled_checkPolicyCloses hup)
  rw [← hpush]
  exact drains_checkPolicyCloses cfg codec (markOutboxDepth t')

/-- A queued report is that of the view, if it carries no service time. -/
theorem view_pushReport {msg : OutMsg} {cause : Cause} (hsvc : View.svcOf (msg, cause) = none) :
    ({ t with self := pushReport msg cause t.self } : Turn).view = t.view.push msg cause := by
  simp [View.push, hsvc, Turn.view, Session.line, pushReport]

/-- Queueing a report that may be pushed is one step of the view. -/
theorem act_enqueueReport {msg : OutMsg} {cause : Cause} (hsvc : View.svcOf (msg, cause) = none)
    (hmay : MayPush cfg codec t.view msg cause) :
    Act cfg codec t.view (enqueueReport cfg codec msg cause t).view := by
  exact act_checkPolicyCloses (view_pushReport hsvc) hmay

/-- The session accepts frames. -/
structure Open (cfg : ServerConfig) (v : View) : Prop where
  notClosing : v.line.closing = false
  up : v.line.tornDown = false
  notSent : v.line.closeFrameSent = false
  room : v.line.outbox.reports.length < cfg.backlog

/-- A session that is open may push what answers its own command or frame. -/
theorem Open.mayPush {v : View} {msg : OutMsg} {cause : Cause} (h : Open cfg v)
    (hreport : msg.isTob = false) (hack : Answers msg cause)
    (hcause : ∀ mdSeq, cause ≠ .book mdSeq) : MayPush cfg codec v msg cause where
  up := h.up
  isReport := hreport
  answers := hack
  notSent _ := h.notSent
  room := h.room
  early mdSeq hbook := absurd hbook (hcause mdSeq)

/-- A reject of the session itself is a step of the view. -/
theorem acts_pushReject {reject : Reject} {code : RejectCode} (h : Open cfg t.view) :
    Acts cfg codec t.view (pushReject cfg codec reject code t).view := by
  have hview : (emitRejectEvent code (countReject t)).view = t.view := by simp
  rw [← hview] at h ⊢
  exact .single (act_enqueueReport rfl
    (h.mayPush rfl (fun _ hack => by cases hack) fun _ hbook => by cases hbook))

/-! ## Commands -/

/-- `on_new` answers with one report, which names the order. -/
theorem reply_onNew (cfg : EngineConfig) (e : OrderEngine) (session : ℕ) (order : NewOrder) :
    ∃ m, (OrderEngine.step cfg e (.onNew session order)).2.map (·.msg) = [m] ∧
      m.isTob = false ∧ m.clId = some order.clId := by
  have hspec := OrderEngine.onNew_spec cfg e session order
  simp only [OrderEngine.step, OrderEngine.routeTo]
  generalize OrderEngine.onNew cfg e session order = r at hspec
  cases hspec with
  | duplicate _ => exact ⟨_, rfl, rfl, rfl⟩
  | rejected _ _ _ => exact ⟨_, rfl, rfl, rfl⟩
  | accepted _ _ _ _ _ => exact ⟨_, rfl, rfl, rfl⟩

/-- `on_cancel` answers with one report, which is no `OrderAck`. -/
theorem reply_onCancel (cfg : EngineConfig) (e : OrderEngine) (session : ℕ) (cancel : CancelOrder) :
    ∃ m, (OrderEngine.step cfg e (.onCancel session cancel)).2.map (·.msg) = [m] ∧
      m.isTob = false ∧ ∀ ack, m ≠ .orderAck ack := by
  have hspec := OrderEngine.onCancel_spec e session cancel
  simp only [OrderEngine.step, OrderEngine.routeTo]
  generalize OrderEngine.onCancel e session cancel = r at hspec
  cases hspec with
  | unknown _ => exact ⟨_, rfl, rfl, fun _ h => by cases h⟩
  | terminal _ _ => exact ⟨_, rfl, rfl, fun _ h => by cases h⟩
  | cancelled _ _ => exact ⟨_, rfl, rfl, fun _ h => by cases h⟩

/-- The reply to a new order is a step, with its service time if it is an ack. -/
private theorem act_enqueueReport_new {m : OutMsg} {order : NewOrder} {svc : ℤ}
    (h : Open cfg t.view) (hm : m.isTob = false) (hid : m.clId = some order.clId) :
    Act cfg codec t.view
      (enqueueReport cfg codec m (.command (.newOrder order) svc) (noteNewReply svc m t)).view := by
  have hack : Answers m (.command (.newOrder order) svc) := by
    rintro ack rfl
    exact ⟨order, svc, rfl, Option.some.inj hid⟩
  refine act_checkPolicyCloses ?_ (h.mayPush hm hack fun _ hbook => by cases hbook)
  -- what the reply notes besides is the service time of an ack
  cases m with
  | tob m => cases hm
  | orderAck m => rfl
  | cancelAck m => simp [noteNewReply, View.push, View.svcOf, Turn.view, Session.line, pushReport]
  | reject m =>
    have hnote : (noteNewReply svc (.reject m) t).view = t.view := by
      simp only [noteNewReply]
      split <;> simp
    have hself : (noteNewReply svc (.reject m) t).self.line = t.self.line :=
      congrArg View.line hnote
    have hsrv : (noteNewReply svc (.reject m) t).srv.hub = t.srv.hub := congrArg View.hub hnote
    rw [← hnote]
    simp [View.push, View.svcOf, Turn.view, Session.line, pushReport]
  | fill m => simp [noteNewReply, View.push, View.svcOf, Turn.view, Session.line, pushReport]

/-- The reply to a cancel is a step. -/
private theorem act_enqueueReport_cancel {m : OutMsg} {cmd : InMsg} {svc : ℤ}
    (h : Open cfg t.view) (hm : m.isTob = false) (hack : ∀ ack, m ≠ .orderAck ack) :
    Act cfg codec t.view
      (enqueueReport cfg codec m (.command cmd svc) (noteCancelReply m t)).view := by
  have hnote : (noteCancelReply m t).view = t.view := by
    cases m with
    | reject m =>
      simp only [noteCancelReply]
      split <;> simp
    | tob m => rfl
    | orderAck m => rfl
    | cancelAck m => rfl
    | fill m => rfl
  have hsvc : View.svcOf (m, .command cmd svc) = none := by
    cases m with
    | orderAck m => exact absurd rfl (hack m)
    | tob m => rfl
    | cancelAck m => rfl
    | reject m => rfl
    | fill m => rfl
  rw [← hnote] at h ⊢
  exact act_enqueueReport hsvc
    (h.mayPush hm (fun ack heq => absurd heq (hack ack)) fun _ hbook => by cases hbook)

/-- The narration of commands is not viewed. -/
@[simp]
theorem view_emitCmdIn (svc : ℤ) (t : Turn) : (emitCmdIn cfg svc t).view = t.view := by
  unfold emitCmdIn
  split_ifs <;> rfl

/-- An engine call leaves the session open. -/
theorem Open.call {v : View} (h : Open cfg v) (c : Call) :
    Open cfg { v with hub := v.hub.call cfg c } :=
  ⟨h.notClosing, h.up, h.notSent, h.room⟩

/-- Serving a new order is a call and a push. -/
theorem acts_serveNew {order : NewOrder} {e1Ns : ℤ} (h : Open cfg t.view) :
    Acts cfg codec t.view (serveNew cfg codec order e1Ns t).view := by
  obtain ⟨m, hreply, hm, hid⟩ := reply_onNew cfg.engine t.srv.engine t.self.epoch order
  have hreply : (t.srv.call cfg (.onNew t.self.epoch order)).2.map Routed.msg = [m] := hreply
  let served : Turn := ⟨(t.srv.call cfg (.onNew t.self.epoch order)).1.steadyNs.2, t.self⟩
  have hopen : Open cfg served.view := h.call _
  unfold serveNew
  dsimp only
  rw [hreply, view_emitCmdIn, List.foldl_cons, List.foldl_nil]
  refine .head (.serve h.notClosing h.up (Or.inl ⟨order, rfl⟩)) ?_
  exact .single (act_enqueueReport_new (t := served) hopen hm hid)

/-- Serving a cancel is a call and a push. -/
theorem acts_serveCancel {cancel : CancelOrder} {e1Ns : ℤ} (h : Open cfg t.view) :
    Acts cfg codec t.view (serveCancel cfg codec cancel e1Ns t).view := by
  obtain ⟨m, hreply, hm, hack⟩ := reply_onCancel cfg.engine t.srv.engine t.self.epoch cancel
  have hreply : (t.srv.call cfg (.onCancel t.self.epoch cancel)).2.map Routed.msg = [m] := hreply
  let served : Turn := ⟨(t.srv.call cfg (.onCancel t.self.epoch cancel)).1.steadyNs.2, t.self⟩
  have hopen : Open cfg served.view := h.call _
  unfold serveCancel
  dsimp only
  rw [hreply, view_emitCmdIn, List.foldl_cons, List.foldl_nil]
  refine .head (.serve h.notClosing h.up (Or.inr ⟨cancel, rfl⟩)) ?_
  exact .single (act_enqueueReport_cancel (t := served) hopen hm hack)

/-- A command is served, rejected, or closes the session. -/
theorem acts_onCommand {msg : InMsg} {e1Ns : ℤ} (h : Open cfg t.view) :
    Acts cfg codec t.view (onCommand cfg codec msg e1Ns t).view := by
  unfold onCommand
  dsimp only
  let counted : Turn := { t with self := { t.self with inSeqExpected := t.self.inSeqExpected + 1 } }
  have hopen : Open cfg counted.view := h
  split_ifs
  · exact acts_of_drains (drains_beginClose cfg codec .protocolError t)
  · exact acts_pushReject (t := counted) hopen
  · cases msg with
    | newOrder order => exact acts_serveNew (t := counted) hopen
    | cancelOrder cancel => exact acts_serveCancel (t := counted) hopen

/-- A frame draws the steps of its command, or those of a reject. -/
theorem acts_onMessage {frame : Bytes} (h : Open cfg t.view) :
    Acts cfg codec t.view (onMessage cfg codec frame t).view := by
  unfold onMessage
  split_ifs
  · exact (acts_pushReject h).trans (acts_of_drains (drains_pump cfg codec _))
  · split
    · exact (acts_pushReject h).trans (acts_of_drains (drains_pump cfg codec _))
    · have hopen : Open cfg ({ t with srv := t.srv.steadyNs.2 } : Turn).view := h
      exact (acts_onCommand hopen).trans (acts_of_drains (drains_pump cfg codec _))

/-! ## Handlers -/

/-- `session_closed` erases the epoch from what sessions share. -/
theorem hub_sessionClosed (srv : ServerImpl) (epoch code conflated : ℕ) :
    (srv.sessionClosed epoch code conflated).hub =
      { srv.hub with sessions := srv.sessions.erase epoch } := by
  unfold ServerImpl.sessionClosed
  dsimp only
  split_ifs
  · rw [hub_finalize]
    rfl
  · rfl

/-- A teardown is that of the view. -/
theorem view_teardown {code : ℕ} (hup : t.self.tornDown = false) :
    (teardown cfg code t).view = t.view.tearDown cfg code := by
  have hclose : ∀ t : Turn,
      ({ t with srv := t.srv.sessionClosed t.self.epoch code t.self.outbox.conflated } : Turn).view
        =
        { t.view with
          hub := { t.view.hub with sessions := t.view.hub.sessions.erase t.view.line.epoch } } := by
    intro t
    simp only [Turn.view, hub_sessionClosed]
    rfl
  have hguard : ¬t.self.tornDown = true := by simp [hup]
  unfold teardown
  rw [if_neg hguard]
  dsimp only
  rw [hclose, view_retireEpoch]
  -- the watermark of the write in flight does not show
  split_ifs <;> rfl

/-- So it is a step, unless the session is down already. -/
theorem acts_teardown (code : ℕ) (t : Turn) :
    Acts cfg codec t.view (teardown cfg code t).view := by
  cases hup : t.self.tornDown with
  | true =>
    rw [teardown, if_pos hup]
  | false =>
    rw [view_teardown hup]
    exact .single (.tearDown code hup)

/-- A frame is ignored on a closing session and heard on an open one. -/
theorem acts_onFrame {frame : Option Bytes} (h : t.self.closing = false → Open cfg t.view) :
    Acts cfg codec t.view (onFrame cfg codec frame t).view := by
  let arrived : Turn := { t with srv := t.srv.steadyNs.2 }
  unfold onFrame
  dsimp only
  split_ifs with hc
  · exact .refl
  · have hopen : Open cfg arrived.view := h (by simpa using hc)
    cases frame with
    | none => exact acts_of_drains (drains_beginClose cfg codec .protocolError arrived)
    | some frame => exact acts_onMessage (t := arrived) hopen

/-- An oversize frame latches, with its close frame sent by the stream, or tears down. -/
theorem acts_onMessageTooBig (hup : t.self.tornDown = false)
    (h : t.self.closing = false → Open cfg t.view) :
    Acts cfg codec t.view (onMessageTooBig cfg t).view := by
  unfold onMessageTooBig
  dsimp only
  cases hc : t.self.closing with
  | true =>
    rw [latchClose_of_refused (by simp [hc])]
    exact acts_teardown _ t
  | false =>
    obtain ⟨hview, htrue⟩ :
        (latchClose cfg .tooBig false t).1.view = t.view.latch cfg .tooBig ∧
          (latchClose cfg .tooBig false t).2 = true := view_latchClose rfl hc hup
    rw [if_pos htrue]
    -- the close frame is the one the stream itself has sent
    have hlatch : Drains cfg codec t.view (latchClose cfg .tooBig false t).1.view :=
      drains_latchClose cfg codec rfl t
    refine (acts_of_drains hlatch).trans (.single (.drain (.sendClose ?_ ?_ ?_)))
    · exact closing_latchClose rfl hup
    · rw [hview, View.line_latch]
      exact (h hc).notSent
    · intro _ hdrain
      rw [hview, View.line_latch] at hdrain
      cases hdrain

/-- The completion of a read. -/
theorem acts_onRead {result : ReadResult}
    (h : t.self.tornDown = false → t.self.closing = false → Open cfg t.view) :
    Acts cfg codec t.view (onRead cfg codec result t).view := by
  let idle : Turn := { t with self := { t.self with reading := .idle } }
  have hdown : ∀ code, Acts cfg codec t.view (teardown cfg code idle).view := fun code =>
    acts_teardown code idle
  unfold onRead
  dsimp only
  split_ifs with hup
  · exact .refl
  · have hup : t.self.tornDown = false := by simpa using hup
    cases result with
    | closed peer => exact hdown _
    | timeout => exact hdown _
    | aborted => exact hdown _
    | messageTooBig => exact acts_onMessageTooBig (t := idle) hup fun hc => h hup hc
    | protocolViolation badPayload => exact hdown _
    | failed => exact hdown _
    | binary => exact acts_onFrame (t := idle) fun hc => h hup hc
    | text frame => exact acts_onFrame (t := idle) fun hc => h hup hc

/-- The completion of a write. -/
theorem acts_onWrite (result : WriteResult) (t : Turn) :
    Acts cfg codec t.view (onWrite cfg codec result t).view := by
  let lagged : Turn := noteSendLag { t with self := { t.self with writeInflight := false } }
  have hwritten : Acts cfg codec t.view lagged.view := .single .written
  unfold onWrite
  dsimp only
  split_ifs with hup
  · exact hwritten
  · cases result with
    | ok => exact hwritten.trans (acts_of_drains (drains_pump cfg codec lagged))
    | timeout => exact hwritten.trans (acts_teardown _ lagged)
    | aborted => exact hwritten.trans (acts_teardown _ lagged)
    | failed => exact hwritten.trans (acts_teardown _ lagged)

/-- The completion of the close. -/
theorem acts_onCloseFrame (ok : Bool) (t : Turn) :
    Acts cfg codec t.view (onCloseFrame cfg ok t).view := by
  unfold onCloseFrame
  dsimp only
  split_ifs
  · exact .refl
  · exact acts_teardown _ { t with self := { t.self with closeInflight := false } }

/-- The raw read of the drain is not viewed. -/
theorem view_drainTransport (t : Turn) : (drainTransport t).view = t.view := by
  unfold drainTransport
  split_ifs <;> rfl

/-- The completion of the drain. -/
theorem acts_onDrainRead (ok : Bool) (t : Turn) :
    Acts cfg codec t.view (onDrainRead cfg ok t).view := by
  unfold onDrainRead
  split_ifs
  · exact .refl
  · exact acts_teardown _ { t with self := { t.self with reading := .idle } }

/-! ## Deliveries -/

/-- A delivered report is queued, and the rest is draining. -/
theorem drains_deliverReport (cfg : ServerConfig) (codec : Codec) (msg : OutMsg) (mdSeq : ℕ)
    (hup : t.self.tornDown = false) :
    Drains cfg codec (t.view.push msg (.book mdSeq))
      (deliverReport cfg codec msg mdSeq t).view := by
  have hsvc : View.svcOf (msg, .book mdSeq) = none := by cases msg <;> rfl
  rw [deliverReport, if_neg (by simp [hup])]
  refine Relation.ReflTransGen.trans ?_ (drains_pump cfg codec _)
  rw [← view_pushReport hsvc]
  exact drains_checkPolicyCloses cfg codec (markOutboxDepth _)

/-- A report of the server is a push of the view, or it is dropped. -/
theorem acts_deliverReport {msg : OutMsg} {mdSeq : ℕ}
    (hmay : MayPush cfg codec t.view msg (.book mdSeq)) :
    Acts cfg codec t.view (deliverReport cfg codec msg mdSeq t).view := by
  have hsvc : View.svcOf (msg, .book mdSeq) = none := by cases msg <;> rfl
  have hup : ¬t.self.tornDown = true := by
    have hup : t.self.tornDown = false := hmay.up
    simp [hup]
  rw [deliverReport, if_neg hup]
  exact .head (act_enqueueReport hsvc hmay) (acts_of_drains (drains_pump cfg codec _))

/-- A delivered tick is queued, and the rest is draining. -/
theorem drains_deliverTob (cfg : ServerConfig) (codec : Codec) (tob : Tob)
    (hup : t.self.tornDown = false) (hc : t.self.closing = false) :
    Drains cfg codec (t.view.tick tob) (deliverTob cfg codec tob t).view := by
  rw [deliverTob, if_neg (by simp [hup, hc])]
  exact drains_pump cfg codec (enqueueTob tob t)

/-- A tick of the server is a tick of the view, if it is the newest book. -/
theorem acts_deliverTob {tob : Tob} (hcurrent : tob.mdSeq = t.srv.nextMdSeq)
    (hnewer : ∀ tick ∈ ticksIn t.self.log, tick < tob.mdSeq) :
    Acts cfg codec t.view (deliverTob cfg codec tob t).view := by
  by_cases hskip : (t.self.tornDown || t.self.closing) = true
  · rw [deliverTob, if_pos hskip]
  · obtain ⟨hup, hc⟩ : t.self.tornDown = false ∧ t.self.closing = false := by simpa using hskip
    exact .head (.tick hc hup hcurrent hnewer)
      (acts_of_drains (drains_deliverTob cfg codec tob hup hc))

/-! ## A batch of fills

A close that a fill of a batch latches writes a report at once, or finds a write in flight. So its
frame is not sent while the batch is delivered, and the later fills still have a reader. -/

/-- The session still takes reports. -/
def Busy (x : Session) : Prop :=
  x.closeFrameSent = false ∧ (x.closing = true → x.writeInflight = true)

/-- With a codec that always encodes, a session that writes still takes reports. -/
theorem busy_writeMsg (htotal : codec.Total) (msg : OutMsg)
    (hsent : t.self.closeFrameSent = false) :
    Busy (writeMsg cfg codec t msg).self := by
  unfold writeMsg
  dsimp only
  rw [if_neg (htotal _)]
  exact ⟨hsent, fun _ => rfl⟩

/-- With a report to write, or no close under way, a pump sends no close frame. -/
theorem busy_pump (htotal : codec.Total) (hup : t.self.tornDown = false)
    (hsent : t.self.closeFrameSent = false)
    (hreports : ∀ msg ∈ t.self.outbox.reports, msg.isTob = false)
    (h : t.self.closing = true → t.self.writeInflight = true ∨
      t.self.drainThenClose = true ∧ t.self.outbox.reports ≠ []) :
    Busy (pump cfg codec t).self := by
  by_cases hidle : t.self.writeInflight = true
  · rw [pump, if_pos (by simp [hidle])]
    exact ⟨hsent, fun _ => hidle⟩
  have hdrain : t.self.closing = true → t.self.drainThenClose = true ∧ t.self.outbox.reports ≠ [] :=
    fun hc => (h hc).resolve_left hidle
  have hnow : ¬(t.self.closing && !t.self.drainThenClose) = true := by
    rw [Bool.and_eq_true, not_and]
    intro hc
    simp [(hdrain hc).1]
  rw [pump, if_neg (by simp [hidle, hup, hsent]), if_neg hnow, pumpLoop]
  split
  · next hpop =>
    -- an empty outbox: no close is under way
    have hc : ¬t.self.closing = true := fun hc => (hdrain hc).2 (Outbox.pop_eq_none_iff.mp hpop).1
    rw [if_neg hc]
    exact ⟨hsent, fun hclosing => absurd hclosing hc⟩
  · next tob outbox hpop =>
    have hc : ¬t.self.closing = true := by
      intro hc
      rcases Outbox.pop_cases hpop with ⟨rest, hr, -⟩ | ⟨_, hr, -⟩
      · have hnotTob := hreports (.tob tob) (by simp [hr])
        cases hnotTob
      · exact (hdrain hc).2 hr
    rw [if_neg hc]
    exact busy_writeMsg htotal _ hsent
  · exact busy_writeMsg htotal _ hsent

/-- So does an open session with something queued that is closed. -/
theorem busy_beginClose (htotal : codec.Total) (hup : t.self.tornDown = false)
    (hsent : t.self.closeFrameSent = false) (hc : t.self.closing = false)
    (hreports : ∀ msg ∈ t.self.outbox.reports, msg.isTob = false)
    (hqueued : t.self.outbox.reports ≠ []) :
    Busy (beginClose cfg codec .policyError t).self := by
  obtain ⟨hview, htrue⟩ :
      (latchClose cfg .policyError true t).1.view = t.view.latch cfg .policyError ∧
        (latchClose cfg .policyError true t).2 = true := view_latchClose rfl hc hup
  have hline : (latchClose cfg .policyError true t).1.self.line =
      (t.view.latch cfg .policyError).line := congrArg View.line hview
  rw [View.line_latch] at hline
  have hflag : ∀ {α : Type} (f : Line → α),
    f (latchClose cfg .policyError true t).1.self.line = f _ :=
    fun f => congrArg f hline
  change Busy (if (latchClose cfg .policyError true t).2 then
    pump cfg codec (latchClose cfg .policyError true t).1 else _).self
  rw [if_pos htrue]
  refine busy_pump htotal ?_ ?_ ?_ fun _ => Or.inr ⟨?_, ?_⟩
  · exact (hflag Line.tornDown).trans hup
  · exact (hflag Line.closeFrameSent).trans hsent
  · exact (hflag fun l => l.outbox.reports) ▸ hreports
  · exact hflag Line.drainThenClose
  · exact (hflag fun l => l.outbox.reports) ▸ hqueued

/-- A session that takes the reports of a batch still takes them after one more. -/
theorem busy_deliverReport {msg : OutMsg} {mdSeq : ℕ} (htotal : codec.Total)
    (hup : t.self.tornDown = false) (hmsg : msg.isTob = false)
    (hreports : ∀ m ∈ t.self.outbox.reports, m.isTob = false) (h : Busy t.self) :
    Busy (deliverReport cfg codec msg mdSeq t).self := by
  let queued : Turn := markOutboxDepth { t with self := pushReport msg (.book mdSeq) t.self }
  have hout : queued.self.outbox.reports = t.self.outbox.reports ++ [msg] := by
    simp [queued, markOutboxDepth, pushReport, Outbox.pushReport_of_not_isTob hmsg]
  have hnotTob : ∀ m ∈ queued.self.outbox.reports, m.isTob = false := by
    intro m hm
    rw [hout] at hm
    rcases List.mem_append.mp hm with hold | hnew
    · exact hreports m hold
    · rw [List.mem_singleton.mp hnew]
      exact hmsg
  have hne : queued.self.outbox.reports ≠ [] := by simp [hout]
  have hchecked : Busy (checkPolicyCloses cfg codec queued).self := by
    unfold checkPolicyCloses
    split_ifs with hc hbreach hcap
    · exact h
    · exact busy_beginClose htotal hup h.1 (by simpa using hc) hnotTob hne
    · exact busy_beginClose htotal hup h.1 (by simpa using hc) hnotTob hne
    · exact h
  have hkeeps := keeps_drains (drains_checkPolicyCloses cfg codec queued)
  rw [deliverReport, if_neg (by simp [hup])]
  refine busy_pump htotal (hkeeps.tornDown.trans hup) hchecked.1 (fun m hm => ?_)
    fun hc => Or.inl (hchecked.2 hc)
  exact hnotTob m (hkeeps.reports.subset hm)

end Session

end MarketMaker
