import MarketMaker.Server.Ticks
import MarketMaker.Server.Shutdown

/-!
# What the server has counted

The server counts orders, cancels, rejects and fills when it queues the reports, and adds up the
superseded ticks of a session when it closes. `Figure` names these five counts. What the server has
counted under one is what its sessions account for together: `World.Balanced` is the invariant, and
`Session.Balanced` is what a session's code does to the two sides.
-/

namespace MarketMaker

/-- A count that the server keeps across sessions. -/
inductive Figure
  | orders
  | cancels
  | rejects
  | fills
  | conflated
  deriving DecidableEq, Repr

/-- The figure a queued report counts under. -/
def OutMsg.figure : OutMsg → Option Figure
  | .orderAck _ => some .orders
  | .cancelAck _ => some .cancels
  | .reject _ => some .rejects
  | .fill _ => some .fills
  | .tob _ => none

/-- What the server has counted. -/
def ServerImpl.counted (srv : ServerImpl) : Figure → ℕ
  | .orders => srv.counters.orders
  | .cancels => srv.counters.cancels
  | .rejects => srv.counters.rejects
  | .fills => srv.counters.fills
  | .conflated => srv.conflatedBase

/-- The reports of a log that count under the figure. -/
def queuedAs (k : Figure) (log : List Entry) : ℕ :=
  (enqueuedIn log).countP fun p => p.1.figure = some k

/-- What a session accounts for: its queued reports, and once it has closed its superseded ticks. -/
def Line.held (l : Line) : Figure → ℕ
  | .conflated => if l.tornDown then l.outbox.conflated else 0
  | k => queuedAs k l.log

/-- What a report adds to a figure. -/
def OutMsg.adds (msg : OutMsg) (k : Figure) : ℕ := if msg.figure = some k then 1 else 0

/-- What a session holds of a figure is what it queued, and its folded conflations once it is
down. -/
theorem Line.held_eq (l : Line) (k : Figure) :
    l.held k = queuedAs k l.log + if k = .conflated ∧
      l.tornDown then l.outbox.conflated else 0 := by
  -- no report counts as a superseded tick
  have hnone : queuedAs .conflated l.log = 0 := by
    rw [queuedAs, List.countP_eq_zero]
    rintro ⟨msg, cause⟩ -
    cases msg <;> simp [OutMsg.figure]
  cases k with
  | conflated => simp [Line.held, hnone]
  | _ => simp [Line.held]

section Held

variable {cfg : ServerConfig} {codec : Codec} {v v' : View}

/-- Draining queues nothing, supersedes nothing and tears nothing down. -/
theorem held_drains (h : Drains cfg codec v v') (k : Figure) : v'.line.held k = v.line.held k := by
  have hkeeps := keeps_drains h
  rw [Line.held_eq, Line.held_eq, queuedAs, queuedAs, hkeeps.enqueued, hkeeps.tornDown,
    conflated_drains h]

/-- A report enters the account of its session with the queue. -/
theorem held_push (v : View) (msg : OutMsg) (cause : Cause) (k : Figure) :
    (v.push msg cause).line.held k = v.line.held k + msg.adds k := by
  have hlog : enqueuedIn (v.push msg cause).line.log = enqueuedIn v.line.log ++ [(msg, cause)] :=
    enqueuedIn_append _ _
  rw [Line.held_eq, Line.held_eq, queuedAs, queuedAs, hlog, List.countP_append, OutMsg.adds,
    show (v.push msg cause).line.tornDown = v.line.tornDown from rfl,
    show (v.push msg cause).line.outbox.conflated = v.line.outbox.conflated from
      conflated_pushReport _ msg, List.countP_singleton]
  simp only [decide_eq_true_eq]
  omega

end Held

/-! ## The server's side -/

namespace ServerImpl

/-- The clock is not counted. -/
@[simp]
theorem counted_steadyNs (srv : ServerImpl) : srv.steadyNs.2.counted = srv.counted := rfl

/-- A narrated event is not counted. -/
@[simp]
theorem counted_emitEvent (srv : ServerImpl) (event : TelemetryEvent) (a0 a1 : ℤ) :
    (srv.emitEvent event a0 a1).counted = srv.counted := rfl

/-- An engine call is counted by its reports, later. -/
@[simp]
theorem counted_call (cfg : ServerConfig) (srv : ServerImpl) (c : OrderEngine.Call) :
    (srv.call cfg c).1.counted = srv.counted := rfl

/-- Settling the counters touches none of the figures. -/
@[simp]
theorem counted_pushSnapshot (srv : ServerImpl) (conflatedOf : ℕ → ℕ) :
    (srv.pushSnapshot conflatedOf).counted = srv.counted := by
  funext k
  cases k <;> rfl

/-- `finalize` counts nothing. -/
@[simp]
theorem counted_finalize (srv : ServerImpl) : srv.finalize.counted = srv.counted := by
  unfold finalize
  split_ifs
  · rfl
  · rw [counted_pushSnapshot]
    rfl

/-- A closed session's superseded ticks go to the base. -/
theorem counted_sessionClosed (srv : ServerImpl) (epoch code conflated : ℕ) (k : Figure) :
    (srv.sessionClosed epoch code conflated).counted k =
      srv.counted k + if k = .conflated then conflated else 0 := by
  obtain ⟨told, hcounted, heq⟩ : ∃ told : ServerImpl,
      (told.counted k = srv.counted k + if k = .conflated then conflated else 0) ∧
        srv.sessionClosed epoch code conflated =
          if told.stopping && told.sessions.toList.isEmpty then told.finalize else told := by
    refine ⟨_, ?_, rfl⟩
    cases k <;> rfl
  rw [heq, ← hcounted]
  split_ifs
  · rw [counted_finalize]
  · rfl

end ServerImpl

namespace Session

variable {cfg : ServerConfig} {codec : Codec} {t t' t'' : Turn}

/-! Gauges, closes and writes count nothing. -/

/-- A watermark is no count. -/
@[simp]
theorem counted_markOutboxDepth (t : Turn) : (markOutboxDepth t).srv.counted = t.srv.counted := by
  funext k
  cases k <;> rfl

/-- A watermark is no count. -/
@[simp]
theorem counted_noteSendLag (t : Turn) : (noteSendLag t).srv.counted = t.srv.counted := by
  funext k
  cases k <;> rfl

/-- A narrated reject is counted elsewhere. -/
@[simp]
theorem counted_emitRejectEvent (code : RejectCode) (t : Turn) :
    (emitRejectEvent code t).srv.counted = t.srv.counted := by
  unfold emitRejectEvent
  dsimp only
  split_ifs <;> rfl

/-- The cancels of an end of session are not counted. -/
@[simp]
theorem counted_retireEpoch (cfg : ServerConfig) (t : Turn) :
    (retireEpoch cfg t).srv.counted = t.srv.counted := by
  unfold retireEpoch
  split_ifs <;> rfl

/-- A latch counts nothing. -/
@[simp]
theorem counted_latchClose (cfg : ServerConfig) (code : CloseCode) (drain : Bool) (t : Turn) :
    (latchClose cfg code drain t).1.srv.counted = t.srv.counted := by
  unfold latchClose
  split_ifs
  · rfl
  · rw [counted_retireEpoch]

/-- A close frame counts nothing. -/
@[simp]
theorem counted_sendCloseFrame (t : Turn) : (sendCloseFrame t).srv.counted = t.srv.counted := by
  unfold sendCloseFrame
  split_ifs <;> rfl

/-- A write counts nothing: a report was counted before it was queued. -/
@[simp]
theorem counted_writeFrame (cfg : ServerConfig) (t : Turn) (frame : OutMsg) :
    (writeFrame cfg t frame).srv.counted = t.srv.counted := by
  cases frame with
  | tob tob =>
    simp only [writeFrame]
    split_ifs <;> rfl
  | _ => rfl

/-- So for a message. -/
@[simp]
theorem counted_writeMsg (t : Turn) (msg : OutMsg) :
    (writeMsg cfg codec t msg).srv.counted = t.srv.counted := by
  unfold writeMsg
  dsimp only
  split_ifs <;> simp

/-- So for the loop. -/
theorem counted_pumpLoop (fuel : ℕ) (t : Turn) :
    (pumpLoop cfg codec fuel t).srv.counted = t.srv.counted := by
  induction fuel generalizing t with
  | zero => rfl
  | succ fuel ih =>
    unfold pumpLoop
    split
    · split_ifs
      · exact counted_sendCloseFrame t
      · rfl
    · split_ifs
      · exact ih _
      · exact counted_writeMsg _ _
    · exact counted_writeMsg _ _

/-- `pump` counts nothing. -/
@[simp]
theorem counted_pump (t : Turn) : (pump cfg codec t).srv.counted = t.srv.counted := by
  unfold pump
  split_ifs
  · rfl
  · exact counted_sendCloseFrame t
  · exact counted_pumpLoop _ t

/-- A close counts nothing. -/
@[simp]
theorem counted_beginClose (code : CloseCode) (t : Turn) :
    (beginClose cfg codec code t).srv.counted = t.srv.counted := by
  unfold beginClose
  dsimp only
  split_ifs <;> simp

/-- A policy close counts nothing. -/
@[simp]
theorem counted_checkPolicyCloses (t : Turn) :
    (checkPolicyCloses cfg codec t).srv.counted = t.srv.counted := by
  unfold checkPolicyCloses
  split_ifs <;> simp

/-- Queueing counts nothing. -/
@[simp]
theorem counted_enqueueReport (msg : OutMsg) (cause : Cause) (t : Turn) :
    (enqueueReport cfg codec msg cause t).srv.counted = t.srv.counted := by
  rw [enqueueReport, counted_checkPolicyCloses, counted_markOutboxDepth]

/-- A narrated command counts nothing. -/
@[simp]
theorem counted_emitCmdIn (svc : ℤ) (t : Turn) :
    (emitCmdIn cfg svc t).srv.counted = t.srv.counted := by
  unfold emitCmdIn
  split_ifs <;> rfl

/-! ## Both sides -/

/-- What the server counted on the way is what the session now accounts for besides, up to what was
`owed` before and is owed after. -/
def Balanced (k : Figure) (t t' : Turn) (owed owed' : ℕ) : Prop :=
  t'.srv.counted k + t.self.line.held k + owed = t.srv.counted k + t'.self.line.held k + owed'

/-- What the first turn owes the second pays. -/
theorem Balanced.trans {k : Figure} {a b c : ℕ} (h : Balanced k t t' a b)
    (h' : Balanced k t' t'' b c) : Balanced k t t'' a c := by
  unfold Balanced at *
  omega

/-- Only the server's side changed. -/
theorem balanced_of_held {k : Figure} {a b : ℕ} (hheld : t'.self.line.held k = t.self.line.held k)
    (hcounted : t'.srv.counted k + a = t.srv.counted k + b) : Balanced k t t' a b := by
  unfold Balanced
  rw [hheld]
  omega

/-- Draining balances: neither side changes. -/
theorem balanced_drains (k : Figure) (hcounted : t'.srv.counted = t.srv.counted)
    (h : Drains cfg codec t.view t'.view) : Balanced k t t' 0 0 :=
  balanced_of_held (held_drains h k) (by rw [hcounted])

/-- Queueing a report settles what was counted for it. -/
theorem balanced_enqueueReport (k : Figure) (msg : OutMsg) (cause : Cause) (t : Turn) :
    Balanced k t (enqueueReport cfg codec msg cause t) (msg.adds k) 0 := by
  let pushed : Turn := { t with self := pushReport msg cause t.self }
  have hpushed : pushed.self.line.held k = t.self.line.held k + msg.adds k := by
    -- the line of the session is that of the net, but for the pending service time
    have hheld := held_push t.view msg cause k
    rw [Line.held_eq] at hheld ⊢
    exact hheld
  have hdrained : (enqueueReport cfg codec msg cause t).self.line.held k =
    pushed.self.line.held k :=
    held_drains (drains_checkPolicyCloses cfg codec (markOutboxDepth pushed)) k
  unfold Balanced
  rw [counted_enqueueReport, hdrained, hpushed]
  omega

/-- Counting a report leaves it to be queued. -/
theorem balanced_countReject (k : Figure) (reject : Reject) (t : Turn) :
    Balanced k t (countReject t) 0 ((OutMsg.reject reject).adds k) :=
  balanced_of_held rfl (by cases k <;> rfl)

/-- Narrating a reject neither counts nor queues. -/
theorem balanced_emitRejectEvent (k : Figure) (owed : ℕ) (code : RejectCode) (t : Turn) :
    Balanced k t (emitRejectEvent code t) owed owed := by
  have hline : (emitRejectEvent code t).self.line = t.self.line :=
    congrArg View.line (view_emitRejectEvent code t)
  exact balanced_of_held (by rw [hline]) (by rw [counted_emitRejectEvent])

/-- A reject of the session itself is counted and queued. -/
theorem balanced_pushReject (k : Figure) (reject : Reject) (code : RejectCode) (t : Turn) :
    Balanced k t (pushReject cfg codec reject code t) 0 0 :=
  (balanced_countReject k reject t).trans
    ((balanced_emitRejectEvent k _ code _).trans (balanced_enqueueReport k _ _ _))

/-- A reject reply is counted before it is queued. -/
theorem balanced_noteReject (k : Figure) (reject : Reject) (t : Turn) :
    Balanced k t (match rejectCodeFromWire reject.code with
      | some code => emitRejectEvent code (countReject t)
      | none => countReject t) 0 ((OutMsg.reject reject).adds k) := by
  split
  · exact (balanced_countReject k reject t).trans (balanced_emitRejectEvent k _ _ _)
  · exact balanced_countReject k reject t

/-- `on_new` answers with an ack or a reject, and both are counted. -/
theorem balanced_noteNewReply (k : Figure) {msg : OutMsg} (svc : ℤ) (t : Turn)
    (hmsg : (∃ ack, msg = .orderAck ack) ∨ ∃ reject, msg = .reject reject) :
    Balanced k t (noteNewReply svc msg t) 0 (msg.adds k) := by
  rcases hmsg with ⟨ack, rfl⟩ | ⟨reject, rfl⟩
  · exact balanced_of_held rfl (by cases k <;> rfl)
  · exact balanced_noteReject k reject t

/-- `on_cancel` answers with a cancel ack or a reject, and both are counted. -/
theorem balanced_noteCancelReply (k : Figure) {msg : OutMsg} (t : Turn)
    (hmsg : (∃ ack, msg = .cancelAck ack) ∨ ∃ reject, msg = .reject reject) :
    Balanced k t (noteCancelReply msg t) 0 (msg.adds k) := by
  rcases hmsg with ⟨ack, rfl⟩ | ⟨reject, rfl⟩
  · exact balanced_of_held rfl (by cases k <;> rfl)
  · exact balanced_noteReject k reject t

/-- Narrating a command neither counts nor queues. -/
theorem balanced_emitCmdIn (k : Figure) (svc : ℤ) (t : Turn) :
    Balanced k t (emitCmdIn cfg svc t) 0 0 := by
  have hline : (emitCmdIn cfg svc t).self.line = t.self.line :=
    congrArg View.line (view_emitCmdIn svc t)
  exact balanced_of_held (by rw [hline]) (by rw [counted_emitCmdIn])

/-- A close neither counts nor queues. -/
theorem balanced_beginClose (k : Figure) (code : CloseCode) (t : Turn) :
    Balanced k t (beginClose cfg codec code t) 0 0 :=
  balanced_drains k (counted_beginClose code t) (drains_beginClose cfg codec code t)

/-- `pump` neither counts nor queues. -/
theorem balanced_pump (k : Figure) (t : Turn) : Balanced k t (pump cfg codec t) 0 0 :=
  balanced_drains k (counted_pump t) (drains_pump cfg codec t)

/-! ## Commands -/

/-- The reply of `on_new`, by its kind. -/
theorem kind_onNew (cfg : EngineConfig) (e : OrderEngine) (session : ℕ) (order : NewOrder) :
    ∃ m, (OrderEngine.step cfg e (.onNew session order)).2.map (·.msg) = [m] ∧
      ((∃ ack, m = .orderAck ack) ∨ ∃ reject, m = .reject reject) := by
  have hspec := OrderEngine.onNew_spec cfg e session order
  simp only [OrderEngine.step, OrderEngine.routeTo]
  generalize OrderEngine.onNew cfg e session order = r at hspec
  cases hspec with
  | duplicate _ => exact ⟨_, rfl, Or.inr ⟨_, rfl⟩⟩
  | rejected _ _ _ => exact ⟨_, rfl, Or.inr ⟨_, rfl⟩⟩
  | accepted _ _ _ _ _ => exact ⟨_, rfl, Or.inl ⟨_, rfl⟩⟩

/-- A cancel is answered by one cancel ack or one reject. -/
theorem kind_onCancel (cfg : EngineConfig) (e : OrderEngine) (session : ℕ) (cancel : CancelOrder) :
    ∃ m, (OrderEngine.step cfg e (.onCancel session cancel)).2.map (·.msg) = [m] ∧
      ((∃ ack, m = .cancelAck ack) ∨ ∃ reject, m = .reject reject) := by
  have hspec := OrderEngine.onCancel_spec e session cancel
  simp only [OrderEngine.step, OrderEngine.routeTo]
  generalize OrderEngine.onCancel e session cancel = r at hspec
  cases hspec with
  | unknown _ => exact ⟨_, rfl, Or.inr ⟨_, rfl⟩⟩
  | terminal _ _ => exact ⟨_, rfl, Or.inr ⟨_, rfl⟩⟩
  | cancelled _ _ => exact ⟨_, rfl, Or.inl ⟨_, rfl⟩⟩

/-- A served command counts the one report it draws, and queues it. -/
theorem balanced_serveNew (k : Figure) (order : NewOrder) (e1Ns : ℤ) (t : Turn) :
    Balanced k t (serveNew cfg codec order e1Ns t) 0 0 := by
  obtain ⟨m, hreply, hkind⟩ := kind_onNew cfg.engine t.srv.engine t.self.epoch order
  have hreply : (t.srv.call cfg (.onNew t.self.epoch order)).2.map Routed.msg = [m] := hreply
  let served : Turn := ⟨(t.srv.call cfg (.onNew t.self.epoch order)).1.steadyNs.2, t.self⟩
  have hserved : Balanced k t served 0 0 := balanced_of_held rfl rfl
  unfold serveNew
  dsimp only
  rw [hreply, List.foldl_cons, List.foldl_nil]
  exact hserved.trans ((balanced_noteNewReply k _ served hkind).trans
    ((balanced_enqueueReport k m _ _).trans (balanced_emitCmdIn k _ _)))

/-- The reply to a cancel is counted and queued. -/
theorem balanced_serveCancel (k : Figure) (cancel : CancelOrder) (e1Ns : ℤ) (t : Turn) :
    Balanced k t (serveCancel cfg codec cancel e1Ns t) 0 0 := by
  obtain ⟨m, hreply, hkind⟩ := kind_onCancel cfg.engine t.srv.engine t.self.epoch cancel
  have hreply : (t.srv.call cfg (.onCancel t.self.epoch cancel)).2.map Routed.msg = [m] := hreply
  let served : Turn := ⟨(t.srv.call cfg (.onCancel t.self.epoch cancel)).1.steadyNs.2, t.self⟩
  have hserved : Balanced k t served 0 0 := balanced_of_held rfl rfl
  unfold serveCancel
  dsimp only
  rw [hreply, List.foldl_cons, List.foldl_nil]
  exact hserved.trans ((balanced_noteCancelReply k served hkind).trans
    ((balanced_enqueueReport k m _ _).trans (balanced_emitCmdIn k _ _)))

/-- So for every command. -/
theorem balanced_onCommand (k : Figure) (msg : InMsg) (e1Ns : ℤ) (t : Turn) :
    Balanced k t (onCommand cfg codec msg e1Ns t) 0 0 := by
  let taken : Turn := { t with self := { t.self with inSeqExpected := t.self.inSeqExpected + 1 } }
  have htaken : Balanced k t taken 0 0 := balanced_of_held rfl rfl
  unfold onCommand
  dsimp only
  split_ifs
  · exact balanced_beginClose k .protocolError t
  · exact htaken.trans (balanced_pushReject k _ _ taken)
  · cases msg with
    | newOrder order => exact htaken.trans (balanced_serveNew k order e1Ns taken)
    | cancelOrder cancel => exact htaken.trans (balanced_serveCancel k cancel e1Ns taken)

/-- So for every frame. -/
theorem balanced_onMessage (k : Figure) (frame : Bytes) (t : Turn) :
    Balanced k t (onMessage cfg codec frame t) 0 0 := by
  unfold onMessage
  split_ifs
  · exact (balanced_pushReject k _ _ t).trans (balanced_pump k _)
  · split
    · exact (balanced_pushReject k _ _ t).trans (balanced_pump k _)
    · have hread : Balanced k t ({ t with srv := t.srv.steadyNs.2 } : Turn) 0 0 :=
        balanced_of_held rfl rfl
      exact hread.trans ((balanced_onCommand k _ _ _).trans (balanced_pump k _))

/-! ## Handlers -/

/-- At the teardown the superseded ticks change hands: the session's account and the base both take
them. -/
theorem balanced_teardown (k : Figure) (code : ℕ) (t : Turn) :
    Balanced k t (teardown cfg code t) 0 0 := by
  cases hup : t.self.tornDown with
  | true =>
    rw [teardown, if_pos hup]
    exact balanced_of_held rfl rfl
  | false =>
    let marked : Turn :=
      { t with self := { t.self with tornDown := true, log := t.self.log ++ [.closed code] } }
    let lagged : Turn := if marked.self.writeInflight then noteSendLag marked else marked
    have hsrv : (teardown cfg code t).srv = (retireEpoch cfg lagged).srv.sessionClosed
        (retireEpoch cfg lagged).self.epoch code
          (retireEpoch cfg lagged).self.outbox.conflated := by
      rw [teardown, if_neg (by simp [hup])]
    have hlagged : lagged.srv.counted = t.srv.counted ∧
        lagged.self.outbox.conflated = t.self.outbox.conflated := by
      simp only [lagged]
      split_ifs
      · exact ⟨counted_noteSendLag marked, rfl⟩
      · exact ⟨rfl, rfl⟩
    have hconflated : (retireEpoch cfg lagged).self.outbox.conflated = t.self.outbox.conflated := by
      rw [← hlagged.2]
      unfold retireEpoch
      split_ifs <;> rfl
    have hcounted : (teardown cfg code t).srv.counted k =
        t.srv.counted k + if k = .conflated then t.self.outbox.conflated else 0 := by
      rw [hsrv, ServerImpl.counted_sessionClosed, counted_retireEpoch, hlagged.1, hconflated]
    have hline : (teardown cfg code t).self.line = (t.view.tearDown cfg code).line :=
      congrArg View.line (view_teardown hup)
    have hqueued : enqueuedIn (t.self.log ++ [.closed code]) = enqueuedIn t.self.log := by
      rw [enqueuedIn_append]
      exact List.append_nil _
    have hheld : (teardown cfg code t).self.line.held k =
        t.self.line.held k + if k = .conflated then t.self.outbox.conflated else 0 := by
      rw [hline, View.line_tearDown, Line.held_eq, Line.held_eq, queuedAs, queuedAs]
      change (enqueuedIn (t.self.log ++ [.closed code])).countP _ + _ = _
      rw [hqueued]
      simp [Turn.view, Session.line, hup]
    unfold Balanced
    rw [hcounted, hheld]
    omega

/-- So for every frame that has arrived. -/
theorem balanced_onFrame (k : Figure) (frame : Option Bytes) (t : Turn) :
    Balanced k t (onFrame cfg codec frame t) 0 0 := by
  let arrived : Turn := { t with srv := t.srv.steadyNs.2 }
  have harrived : Balanced k t arrived 0 0 := balanced_of_held rfl rfl
  have hnext : ∀ t : Turn, Balanced k t (readNext t) 0 0 := fun t => balanced_of_held rfl rfl
  unfold onFrame
  dsimp only
  split_ifs
  · exact harrived.trans (hnext arrived)
  · cases frame with
    | none => exact harrived.trans ((balanced_beginClose k .protocolError arrived).trans (hnext _))
    | some frame => exact harrived.trans ((balanced_onMessage k frame arrived).trans (hnext _))

/-- An oversize frame is not counted. -/
theorem balanced_onMessageTooBig (codec : Codec) (k : Figure) (t : Turn) :
    Balanced k t (onMessageTooBig cfg t) 0 0 := by
  have hlatch : Balanced k t (latchClose cfg .tooBig false t).1 0 0 :=
    balanced_drains k (counted_latchClose cfg .tooBig false t)
      (drains_latchClose cfg codec rfl t)
  unfold onMessageTooBig
  dsimp only
  split_ifs
  · refine hlatch.trans (balanced_of_held ?_ rfl)
    simp [Line.held_eq, queuedAs, Session.line, enqueuedIn]
  · exact hlatch.trans (balanced_teardown k _ _)

/-- The completion of a read is balanced. -/
theorem balanced_onRead (k : Figure) (result : ReadResult) (t : Turn) :
    Balanced k t (onRead cfg codec result t) 0 0 := by
  let idle : Turn := { t with self := { t.self with reading := .idle } }
  have hidle : Balanced k t idle 0 0 := balanced_of_held rfl rfl
  unfold onRead
  dsimp only
  split_ifs
  · exact hidle
  · refine hidle.trans ?_
    cases result with
    | messageTooBig => exact balanced_onMessageTooBig codec k idle
    | binary => exact balanced_onFrame k none idle
    | text frame => exact balanced_onFrame k (some frame) idle
    | _ => exact balanced_teardown k _ idle

/-- The completion of a write is balanced. -/
theorem balanced_onWrite (k : Figure) (result : WriteResult) (t : Turn) :
    Balanced k t (onWrite cfg codec result t) 0 0 := by
  let written : Turn := { t with self := { t.self with writeInflight := false } }
  have hwritten : Balanced k t written 0 0 := balanced_of_held rfl rfl
  have hlagged : Balanced k t (noteSendLag written) 0 0 :=
    hwritten.trans (balanced_of_held rfl (by rw [counted_noteSendLag]))
  unfold onWrite
  dsimp only
  split_ifs
  · exact hwritten
  · cases result with
    | ok => exact hlagged.trans (balanced_pump k _)
    | _ => exact hlagged.trans (balanced_teardown k _ _)

/-- The completion of the close is balanced. -/
theorem balanced_onCloseFrame (k : Figure) (ok : Bool) (t : Turn) :
    Balanced k t (onCloseFrame cfg ok t) 0 0 := by
  have hdone : Balanced k t { t with self := { t.self with closeInflight := false } } 0 0 :=
    balanced_of_held rfl rfl
  unfold onCloseFrame
  dsimp only
  split_ifs
  · exact hdone
  · exact hdone.trans (balanced_teardown k _ _)

/-- The end of the drain is balanced. -/
theorem balanced_onDrainRead (k : Figure) (ok : Bool) (t : Turn) :
    Balanced k t (onDrainRead cfg ok t) 0 0 := by
  have hidle : Balanced k t { t with self := { t.self with reading := .idle } } 0 0 :=
    balanced_of_held rfl rfl
  unfold onDrainRead
  split_ifs
  · exact balanced_of_held rfl rfl
  · exact hidle.trans (balanced_teardown k _ _)

/-- The start of the drain is balanced. -/
theorem balanced_drainTransport (k : Figure) (t : Turn) :
    Balanced k t (drainTransport t) 0 0 := by
  unfold drainTransport
  split_ifs <;> exact balanced_of_held rfl rfl

/-- A fill that was counted for a session that is up is queued. -/
theorem balanced_deliverReport (k : Figure) (msg : OutMsg) (mdSeq : ℕ) {t : Turn}
    (hup : t.self.tornDown = false) :
    Balanced k t (deliverReport cfg codec msg mdSeq t) (msg.adds k) 0 := by
  rw [deliverReport, if_neg (by simp [hup])]
  exact (balanced_enqueueReport k msg _ t).trans (balanced_pump k _)

/-- A session that takes ticks is up, so what it supersedes is not in the base yet. -/
theorem balanced_deliverTob (k : Figure) (tob : Tob) (t : Turn) :
    Balanced k t (deliverTob cfg codec tob t) 0 0 := by
  unfold deliverTob
  split_ifs with hskip
  · exact balanced_of_held rfl rfl
  · obtain ⟨hup, -⟩ : t.self.tornDown = false ∧ t.self.closing = false := by simpa using hskip
    refine Balanced.trans (balanced_of_held ?_ ?_) (balanced_pump k (enqueueTob tob t))
    · simp [Line.held_eq, queuedAs, Session.line, enqueuedIn, enqueueTob, markOutboxDepth, hup]
    · rw [enqueueTob, counted_markOutboxDepth]

end Session

/-! ## Runs -/

namespace World

variable {cfg : ServerConfig} {codec : Codec} {w w' : World}

/-- The server has counted exactly what its sessions account for. -/
def Balanced (w : World) : Prop :=
  ∀ k, w.srv.counted k = (w.heap.map fun x => x.line.held k).sum

/-- The balance is in the counters and the sessions. -/
theorem Balanced.congr (h : w.Balanced) (hcounted : w'.srv.counted = w.srv.counted)
    (hheap : w'.heap = w.heap) : w'.Balanced := fun k => by
  rw [hcounted, hheap]
  exact h k

/-- A session's turn, on its object. -/
theorem Balanced.on (h : w.Balanced) {i : ℕ} {f : Turn → Turn}
    (hf : ∀ k x, w.heap[i]? = some x → Session.Balanced k ⟨w.srv, x⟩ (f ⟨w.srv, x⟩) 0 0) :
    (w.on i f).Balanced := by
  cases hx : w.heap[i]? with
  | none =>
    rw [World.on, hx]
    exact h
  | some x =>
    intro k
    have hturn := hf k x hx
    have hset := sum_map_set (fun x => x.line.held k) (f ⟨w.srv, x⟩).self hx
    have hsum := h k
    rw [heap_on hx]
    unfold Session.Balanced at hturn
    dsimp only at hset hturn ⊢
    omega

/-- A loop over the sessions keeps the balance if each turn does. -/
theorem Balanced.foldl_on (h : w.Balanced) {f : Turn → Turn}
    (hf : ∀ k t, Session.Balanced k t (f t) 0 0) (ps : List (ℕ × ℕ)) :
    (ps.foldl (fun w p => w.on p.2 f) w).Balanced := by
  induction ps generalizing w with
  | nil => exact h
  | cons p ps ih => exact ih (h.on fun k x _ => hf k _)

/-- Closing every session keeps the balance. -/
theorem Balanced.closeAll (h : w.Balanced) (cfg : ServerConfig) (codec : Codec) :
    (w.closeAll cfg codec).Balanced :=
  h.foldl_on (fun k t => Session.balanced_beginClose k .goingAway t) _

/-- A fill is counted and then queued: its session is in the map and up. -/
theorem Balanced.route (h : w.Balanced) {mdSeq : ℕ} {r : Routed} {rs : List Routed}
    (hbatch : Batch cfg codec mdSeq w (r :: rs)) : (World.route cfg codec mdSeq w r).Balanced := by
  obtain ⟨fill, hmsg⟩ := hbatch.fills r List.mem_cons_self
  obtain ⟨i, x, hfind, hx, -, -⟩ := hbatch.target r List.mem_cons_self
  obtain ⟨-, x₀, hx₀, -, hup⟩ := hbatch.inv.mapped.mp hfind
  cases hx.symm.trans hx₀
  let filled : ServerImpl :=
    { w.srv with counters := { w.srv.counters with fills := w.srv.counters.fills + 1 } }
  have hroute : World.route cfg codec mdSeq w r =
      w.on i fun t => Session.deliverReport cfg codec
        (.fill fill) mdSeq { t with srv := filled } := by
    rw [heap_on hx]
    simp only [World.route, hmsg, hfind]
    exact heap_on (w := { w with srv := filled }) hx
  rw [hroute]
  refine h.on fun k x' hx' => ?_
  cases hx.symm.trans hx'
  have hcounted : Session.Balanced k ⟨w.srv, x⟩ ⟨filled, x⟩ 0 ((OutMsg.fill fill).adds k) :=
    Session.balanced_of_held rfl (by cases k <;> rfl)
  exact hcounted.trans (Session.balanced_deliverReport k (.fill fill) mdSeq hup)

/-- The fills of a book are counted where they are routed. -/
theorem Balanced.routes (h : w.Balanced) {mdSeq : ℕ} (rs : List Routed)
    (hbatch : Batch cfg codec mdSeq w rs) :
    (rs.foldl (World.route cfg codec mdSeq) w).Balanced := by
  induction rs generalizing w with
  | nil => exact h
  | cons r rs ih =>
    obtain ⟨w', -, -, -, hroute, -, hrest, -⟩ := hbatch.route
    have hfirst := h.route hbatch
    rw [List.foldl_cons, hroute]
    rw [hroute] at hfirst
    exact ih hfirst hrest

/-- A book keeps the balance. -/
theorem Balanced.publishBook (h : w.Balanced) (hinv : w.Inv cfg) (codec : Codec)
    (bidPx bidQty askPx askQty : ℤ) :
    (World.publishBook cfg codec w bidPx bidQty askPx askQty).Balanced := by
  have hbatch := hinv.batch codec (w.bookOf bidPx bidQty askPx askQty) rfl
  have hprocessed : (w.processed cfg (w.bookOf bidPx bidQty askPx askQty)).Balanced :=
    h.congr rfl rfl
  exact (hprocessed.routes _ hbatch).foldl_on (fun k t => Session.balanced_deliverTob k _ t) _

/-- Every completion of a session's operation balances. -/
theorem balanced_completes {event : Event} {i : ℕ} {x : Session} {f : Turn → Turn}
    (h : Completes cfg codec i x event f) (k : Figure) (t : Turn) :
    Session.Balanced k t (f t) 0 0 := by
  cases h with
  | read result _ => exact Session.balanced_onRead k result t
  | write result _ => exact Session.balanced_onWrite k result t
  | closeFrame ok _ => exact Session.balanced_onCloseFrame k ok t
  | oversizeClose _ => exact Session.balanced_drainTransport k t
  | drainRead ok _ => exact Session.balanced_onDrainRead k ok t

/-- An event keeps the balance. -/
theorem Balanced.step (h : w.Balanced) (hinv : w.Inv cfg) (codec : Codec) (event : Event) :
    (w.step cfg codec event).Balanced := by
  have hturned := turned_step cfg codec w event
  generalize w.step cfg codec event = w' at hturned ⊢
  cases hturned with
  | ignored => exact h
  | completed _ hcompletes => exact h.on fun k x _ => balanced_completes hcompletes k _
  | fed index _ => exact h
  | dropped index _ => exact Balanced.closeAll (w := w.fed index) h cfg codec
  | published index bidPx bidQty askPx askQty _ =>
    obtain ⟨-, hfed⟩ := hinv.gauges (w.fed index) rfl rfl fun _ _ hij => hij
    exact Balanced.publishBook (w := w.fed index) h hfed codec bidPx bidQty askPx askQty
  | stopped _ index hrunning =>
    rw [beginStop_of_running (w := w.fed index) hrunning]
    split_ifs
    · exact h.congr (ServerImpl.counted_finalize _) rfl
    · exact Balanced.closeAll (w := (w.fed index).halted) (h.congr rfl rfl) cfg codec
  | snapshot conflatedOf _ => exact h.congr (ServerImpl.counted_pushSnapshot w.srv conflatedOf) rfl
  | accepted ok =>
    unfold World.onAccept
    dsimp only
    split_ifs <;> exact h.congr rfl rfl
  | requested request _ =>
    unfold World.onUpgradeRequest
    cases request with
    | none => exact h.congr rfl rfl
    | some req =>
      dsimp only
      split_ifs
      · exact h.congr rfl rfl
      · exact h.congr rfl rfl
      · exact h.congr rfl rfl
      · exact h.congr rfl rfl
      · -- a new session accounts for nothing
        intro k
        have hfresh : (Session.create cfg).line.held k = 0 := by cases k <;> rfl
        rw [List.map_append, List.sum_append, List.map_singleton, List.sum_singleton, hfresh]
        exact h k
  | refused _ => exact h.congr rfl rfl
  | @shaken i j ok hfound =>
    obtain ⟨hx, heq⟩ := hinv.onHandshake_eq hfound ok
    rw [heq]
    split_ifs
    · exact h.congr rfl rfl
    · intro k
      have hset := sum_map_set (fun x => x.line.held k)
        { Session.create cfg with epoch := w.srv.nextEpoch + 1, reading := .message } hx
      have hstarted : ({ Session.create cfg with
          epoch := w.srv.nextEpoch + 1, reading := .message } : Session).line.held k =
            (Session.create cfg).line.held k := by cases k <;> rfl
      dsimp only at hset
      rw [hstarted] at hset
      exact (h k).trans (Nat.add_right_cancel hset).symm

/-- The counters are balanced in every state. -/
theorem run_balanced (cfg : ServerConfig) (codec : Codec) (clock : ℕ → ℤ) (events : List Event) :
    (run cfg codec clock events).Balanced := by
  induction events using List.reverseRecOn with
  | nil => intro k; cases k <;> rfl
  | append_singleton events event ih =>
    rw [run_concat]
    exact ih.step (run_steps cfg codec clock events).2 codec event

end World

end MarketMaker
