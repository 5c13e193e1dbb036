import MarketMaker.Server.Refine

/-!
# What a session's code leaves alone

Short of a teardown, a session's code touches the server through engine calls, gauges and telemetry
only: `ServerImpl.Calm`. It receives nothing either: `Session.Quiet` adds that the sequencer and
the pending receive operation stay as they are. The handlers are then described by what they do
beyond that: `Session.Outcome` says that a completion is calm or tears the session down.
-/

namespace MarketMaker

open OrderEngine (Call)

/-! ## Histories -/

/-- The command a call hands to the engine, with the session it is for. -/
def commandOf : Call → Option (ℕ × InMsg)
  | .onNew session order => some (session, .newOrder order)
  | .onCancel session cancel => some (session, .cancelOrder cancel)
  | _ => none

/-- The commands handed to the engine. -/
def servedIn (calls : List (Call × List Routed)) : List (ℕ × InMsg) :=
  calls.filterMap fun c => commandOf c.1

/-- The books handed to the engine. -/
def booksIn (calls : List (Call × List Routed)) : List Book :=
  calls.filterMap fun
    | (.onBook book, _) => some book
    | _ => none

/-- The codes `session_closed` was called with. -/
def closedIn (log : List Entry) : List ℕ :=
  log.filterMap fun
    | .closed code => some code
    | _ => none

/-- The closes that were latched. -/
def latchedIn (log : List Entry) : List CloseCode :=
  log.filterMap fun
    | .latched code => some code
    | _ => none

/-- Neither a closed session nor a snapshot. -/
def TelemetryRecord.isRoutine : TelemetryRecord → Bool
  | .event kind _ _ _ => kind ≠ .sessionClose
  | .counters _ _ _ => false

/-- The commands that were served are read off the calls in order. -/
theorem servedIn_append (l l' : List (Call × List Routed)) :
    servedIn (l ++ l') = servedIn l ++ servedIn l' :=
  List.filterMap_append

/-- So are the books. -/
theorem booksIn_append (l l' : List (Call × List Routed)) :
    booksIn (l ++ l') = booksIn l ++ booksIn l' :=
  List.filterMap_append

/-- The ends of a session are read off its log in order. -/
theorem closedIn_append (l l' : List Entry) : closedIn (l ++ l') = closedIn l ++ closedIn l' :=
  List.filterMap_append

/-- So are its latched codes. -/
theorem latchedIn_append (l l' : List Entry) : latchedIn (l ++ l') = latchedIn l ++ latchedIn l' :=
  List.filterMap_append

/-! ## The server -/

/-- Apart from gauges and engine calls, the server only gained routine telemetry. -/
structure ServerImpl.Calm (srv srv' : ServerImpl) : Prop where
  sessions : srv'.sessions = srv.sessions
  stopping : srv'.stopping = srv.stopping
  finalized : srv'.finalized = srv.finalized
  upgrades : srv'.upgrades = srv.upgrades
  nextMdSeq : srv'.nextMdSeq = srv.nextMdSeq
  nextEpoch : srv'.nextEpoch = srv.nextEpoch
  books : booksIn srv'.calls = booksIn srv.calls
  telemetry : ∃ new, srv'.telemetry = srv.telemetry ++ new ∧ ∀ r ∈ new, r.isRoutine = true

namespace ServerImpl.Calm

variable {srv srv' srv'' : ServerImpl}

/-- Nothing was narrated. -/
theorem silent (hsessions : srv'.sessions = srv.sessions) (hstopping : srv'.stopping = srv.stopping)
    (hfinalized : srv'.finalized = srv.finalized) (hupgrades : srv'.upgrades = srv.upgrades)
    (hmd : srv'.nextMdSeq = srv.nextMdSeq) (hepoch : srv'.nextEpoch = srv.nextEpoch)
    (hbooks : booksIn srv'.calls = booksIn srv.calls)
    (htelemetry : srv'.telemetry = srv.telemetry) : Calm srv srv' :=
  ⟨hsessions, hstopping, hfinalized, hupgrades, hmd, hepoch, hbooks, [], by simp [htelemetry],
    by simp⟩

/-- Nothing happened. -/
theorem refl (srv : ServerImpl) : Calm srv srv := silent rfl rfl rfl rfl rfl rfl rfl rfl

/-- Calm code after calm code is calm. -/
theorem trans (h : Calm srv srv') (h' : Calm srv' srv'') : Calm srv srv'' where
  sessions := h'.sessions.trans h.sessions
  stopping := h'.stopping.trans h.stopping
  finalized := h'.finalized.trans h.finalized
  upgrades := h'.upgrades.trans h.upgrades
  nextMdSeq := h'.nextMdSeq.trans h.nextMdSeq
  nextEpoch := h'.nextEpoch.trans h.nextEpoch
  books := h'.books.trans h.books
  telemetry := by
    obtain ⟨new, heq, hnew⟩ := h.telemetry
    obtain ⟨new', heq', hnew'⟩ := h'.telemetry
    refine ⟨new ++ new', by rw [heq', heq, List.append_assoc], fun r hr => ?_⟩
    exact (List.mem_append.mp hr).elim (hnew r) (hnew' r)

theorem steadyNs (srv : ServerImpl) : Calm srv srv.steadyNs.2 :=
  silent rfl rfl rfl rfl rfl rfl rfl rfl

/-- An event that is not the end of a session is narrated, and that is all. -/
theorem emitEvent (srv : ServerImpl) {event : TelemetryEvent} (a0 a1 : ℤ)
    (h : event ≠ .sessionClose) : Calm srv (srv.emitEvent event a0 a1) := by
  refine ⟨rfl, rfl, rfl, rfl, rfl, rfl, rfl, [_], rfl, fun r hr => ?_⟩
  rw [List.mem_singleton.mp hr]
  simpa [TelemetryRecord.isRoutine] using h

/-- An engine call that is not a book is recorded, and that is all. -/
theorem call (cfg : ServerConfig) (srv : ServerImpl) {c : Call} (hc : ∀ book, c ≠ .onBook book) :
    Calm srv (srv.call cfg c).1 := by
  refine silent rfl rfl rfl rfl rfl rfl ?_ rfl
  rw [ServerImpl.call]
  dsimp only
  rw [booksIn_append]
  cases c with
  | onBook book => exact absurd rfl (hc book)
  | _ => exact List.append_nil _

end ServerImpl.Calm

/-- `session_closed` narrated the close and erased the entry. -/
structure ServerImpl.Closes (epoch code : ℕ) (srv srv' : ServerImpl) : Prop where
  sessions : srv'.sessions = srv.sessions.erase epoch
  stopping : srv'.stopping = srv.stopping
  finalized : srv'.finalized = srv.finalized
  upgrades : srv'.upgrades = srv.upgrades
  nextMdSeq : srv'.nextMdSeq = srv.nextMdSeq
  nextEpoch : srv'.nextEpoch = srv.nextEpoch
  calls : srv'.calls = srv.calls
  telemetry : ∃ ts, srv'.telemetry = srv.telemetry ++ [.event .sessionClose ts epoch code]

/-- `finalize` ran: the snapshot pair of the final counters is the last thing narrated. -/
structure ServerImpl.Finalizes (srv srv' : ServerImpl) : Prop where
  unfinished : srv.finalized = false
  finalized : srv'.finalized = true
  sessions : srv'.sessions = srv.sessions
  stopping : srv'.stopping = srv.stopping
  upgrades : srv'.upgrades = srv.upgrades
  nextMdSeq : srv'.nextMdSeq = srv.nextMdSeq
  nextEpoch : srv'.nextEpoch = srv.nextEpoch
  calls : srv'.calls = srv.calls
  telemetry : ∃ ts, srv'.telemetry = srv.telemetry ++
    [.counters .totals ts srv'.counters, .counters .watermarks ts srv'.counters]

/-- The first `finalize` pushes the last snapshot and latches. -/
theorem ServerImpl.finalizes (srv : ServerImpl) (h : srv.finalized = false) :
    srv.Finalizes srv.finalize := by
  rw [ServerImpl.finalize, if_neg (by simp [h])]
  exact ⟨h, rfl, rfl, rfl, rfl, rfl, rfl, rfl, _, rfl⟩

/-- `finalize` leaves the pending upgrades as they are. -/
theorem ServerImpl.upgrades_finalize (srv : ServerImpl) :
    srv.finalize.upgrades = srv.upgrades := by
  unfold ServerImpl.finalize
  split_ifs <;> rfl

/-- `session_closed` folds, narrates and erases, and finalizes if it was the last session. -/
theorem ServerImpl.closes (srv : ServerImpl) (epoch code conflated : ℕ) :
    ∃ told, srv.Closes epoch code told ∧ srv.sessionClosed epoch code conflated =
      if told.stopping && told.sessions.toList.isEmpty then told.finalize else told := by
  let folded : ServerImpl := { srv with conflatedBase := srv.conflatedBase + conflated }
  let told : ServerImpl := folded.emitEvent .sessionClose epoch code
  refine ⟨{ told with sessions := told.sessions.erase epoch }, ?_, rfl⟩
  exact ⟨rfl, rfl, rfl, rfl, rfl, rfl, rfl, _, rfl⟩

/-! ## The session -/

namespace Session

/-- The session's code was calm and did not tear down. -/
structure Mild (t t' : Turn) : Prop where
  srv : t.srv.Calm t'.srv
  epoch : t'.self.epoch = t.self.epoch
  tornDown : t'.self.tornDown = t.self.tornDown
  closing : t.self.closing = true → t'.self.closing = true
  closed : closedIn t'.self.log = closedIn t.self.log
  closeInflight : (t.self.closeInflight = true → t.self.closing = true) →
    t'.self.closeInflight = true → t'.self.closing = true

/-- It took no command and armed no read either. -/
structure Quiet (t t' : Turn) : Prop extends Mild t t' where
  served : servedIn t'.srv.calls = servedIn t.srv.calls
  inSeqExpected : t'.self.inSeqExpected = t.self.inSeqExpected
  reading : t'.self.reading = t.self.reading

variable {cfg : ServerConfig} {codec : Codec} {t t' t'' : Turn}

/-- No code is mild. -/
theorem Mild.refl (t : Turn) : Mild t t := ⟨.refl _, rfl, rfl, id, rfl, id⟩

/-- Mild code after mild code is mild. -/
theorem Mild.trans (h : Mild t t') (h' : Mild t' t'') : Mild t t'' where
  srv := h.srv.trans h'.srv
  epoch := h'.epoch.trans h.epoch
  tornDown := h'.tornDown.trans h.tornDown
  closing hc := h'.closing (h.closing hc)
  closed := h'.closed.trans h.closed
  closeInflight hc := h'.closeInflight (h.closeInflight hc)

/-- No code is quiet. -/
theorem Quiet.refl (t : Turn) : Quiet t t := ⟨.refl t, rfl, rfl, rfl⟩

/-- Quiet code after quiet code is quiet. -/
theorem Quiet.trans (h : Quiet t t') (h' : Quiet t' t'') : Quiet t t'' :=
  ⟨h.toMild.trans h'.toMild, h'.served.trans h.served, h'.inSeqExpected.trans h.inSeqExpected,
    h'.reading.trans h.reading⟩

/-- Only the server changed. -/
theorem Quiet.of_srv {srv : ServerImpl} (h : t.srv.Calm srv) (hcalls : srv.calls = t.srv.calls) :
    Quiet t { t with srv } :=
  ⟨⟨h, rfl, rfl, id, rfl, id⟩, congrArg servedIn hcalls, rfl, rfl⟩

/-- The watermark of the outbox is a counter. -/
theorem quiet_markOutboxDepth (t : Turn) : Quiet t (markOutboxDepth t) :=
  .of_srv (.silent rfl rfl rfl rfl rfl rfl rfl rfl) rfl

/-- The watermark of the lag is a counter. -/
theorem quiet_noteSendLag (t : Turn) : Quiet t (noteSendLag t) :=
  .of_srv (.silent rfl rfl rfl rfl rfl rfl rfl rfl) rfl

/-- A reject is counted. -/
theorem quiet_countReject (t : Turn) : Quiet t (countReject t) :=
  .of_srv (.silent rfl rfl rfl rfl rfl rfl rfl rfl) rfl

/-- A reject is narrated at most once in a window. -/
theorem quiet_emitRejectEvent (code : RejectCode) (t : Turn) :
    Quiet t (emitRejectEvent code t) := by
  have hclock : t.srv.Calm t.srv.steadyNs.2 := .steadyNs _
  unfold emitRejectEvent
  dsimp only
  split_ifs
  · exact ⟨⟨hclock, rfl, rfl, id, rfl, id⟩, rfl, rfl, rfl⟩
  · exact ⟨⟨hclock.trans (.emitEvent _ _ _ (by simp)), rfl, rfl, id, rfl, id⟩, rfl, rfl, rfl⟩
  · exact ⟨⟨hclock, rfl, rfl, id, rfl, id⟩, rfl, rfl, rfl⟩
  · exact ⟨⟨hclock.trans (.emitEvent _ _ _ (by simp)), rfl, rfl, id, rfl, id⟩, rfl, rfl, rfl⟩

/-- Retiring the epoch is an engine call that serves no command. -/
theorem quiet_retireEpoch (cfg : ServerConfig) (t : Turn) : Quiet t (retireEpoch cfg t) := by
  unfold retireEpoch
  split_ifs
  · exact .refl t
  · exact ⟨⟨.call cfg _ (fun _ => by rintro ⟨⟩), rfl, rfl, id, rfl, id⟩,
      by simp [ServerImpl.call, servedIn, commandOf], rfl, rfl⟩

/-- A latch closes; it tears nothing down and arms nothing. -/
theorem quiet_latchClose (cfg : ServerConfig) (code : CloseCode) (drain : Bool) (t : Turn) :
    Quiet t (latchClose cfg code drain t).1 := by
  unfold latchClose
  split_ifs
  · exact .refl t
  · refine Quiet.trans ?_ (quiet_retireEpoch cfg _)
    exact ⟨⟨.refl _, rfl, rfl, fun _ => rfl, by simp [closedIn], fun _ _ => rfl⟩, rfl, rfl, rfl⟩

/-- A close frame leaves only on a session that is closing. -/
theorem quiet_sendCloseFrame (hc : t.self.closing = true) : Quiet t (sendCloseFrame t) := by
  unfold sendCloseFrame
  split_ifs
  · exact .refl t
  · exact ⟨⟨.refl _, rfl, rfl, id, by simp [closedIn], fun _ _ => hc⟩, rfl, rfl, rfl⟩

/-- A frame that is handed to the write is logged, and narrated if it is a tick. -/
theorem quiet_writeFrame (cfg : ServerConfig) (t : Turn) (frame : OutMsg) :
    Quiet t (writeFrame cfg t frame) := by
  have hclock : t.srv.Calm t.srv.steadyNs.2 := .steadyNs _
  have hquiet : ∀ srv, t.srv.Calm srv → srv.calls = t.srv.calls →
      Quiet t
        { srv
          self :=
            { t.self with
              writeInflight := true
              writeStartNs := t.srv.steadyNs.1
              log := t.self.log ++ [.wrote frame] } } := fun srv h hcalls =>
    ⟨⟨h, rfl, rfl, id, by simp [closedIn], id⟩, congrArg servedIn hcalls, rfl, rfl⟩
  cases frame with
  | tob m =>
    cases hv : cfg.telemetryVerbose with
    | true =>
      have htold : t.srv.Calm (t.srv.steadyNs.2.emitEvent .tobOut t.self.epoch m.mdSeq) :=
        hclock.trans (.emitEvent _ _ _ (by simp))
      simpa [writeFrame, hv] using hquiet _ htold rfl
    | false => simpa [writeFrame, hv] using hquiet _ hclock rfl
  | _ => exact hquiet _ hclock rfl

/-- A message is stamped and written, or its empty encoding closes the session. -/
theorem quiet_writeMsg {msg : OutMsg} (hup : t.self.tornDown = false) :
    Quiet t (writeMsg cfg codec t msg) := by
  let stamped : Turn :=
    { t with
      self :=
        { t.self with
          outSeq := t.self.outSeq + 1
          pendingSvc := (stampMsg t.self.outSeq t.self.epoch t.self.pendingSvc msg).2 } }
  have hstamped : Quiet t stamped := ⟨⟨.refl _, rfl, rfl, id, rfl, id⟩, rfl, rfl, rfl⟩
  unfold writeMsg
  dsimp only
  split_ifs
  · refine hstamped.trans ((quiet_latchClose cfg .internalError false stamped).trans ?_)
    exact quiet_sendCloseFrame (closing_latchClose rfl hup)
  · exact hstamped.trans (quiet_writeFrame cfg stamped _)

/-- Round for round the loop writes, discards or sends the close frame. -/
theorem quiet_pumpLoop (fuel : ℕ) (t : Turn) (hup : t.self.tornDown = false) :
    Quiet t (pumpLoop cfg codec fuel t) := by
  induction fuel generalizing t with
  | zero => exact .refl t
  | succ fuel ih =>
    have hpopped : ∀ outbox, Quiet t { t with self := { t.self with outbox } } := fun outbox =>
      ⟨⟨.refl _, rfl, rfl, id, rfl, id⟩, rfl, rfl, rfl⟩
    unfold pumpLoop
    split
    · split_ifs with hc
      · exact quiet_sendCloseFrame hc
      · exact .refl t
    · next tob outbox hpop =>
      split_ifs with hc
      · -- the tick is discarded and the loop goes round
        refine Quiet.trans ?_ (ih _ hup)
        exact ⟨⟨.refl _, rfl, rfl, id, by simp [closedIn], id⟩, rfl, rfl, rfl⟩
      · exact (hpopped outbox).trans (quiet_writeMsg hup)
    · next msg outbox hnot hpop => exact (hpopped outbox).trans (quiet_writeMsg hup)

/-- `pump` works on the writing half of the session only. -/
theorem quiet_pump (cfg : ServerConfig) (codec : Codec) (t : Turn) :
    Quiet t (pump cfg codec t) := by
  unfold pump
  split_ifs with hbusy hnow
  · exact .refl t
  · rw [Bool.and_eq_true] at hnow
    exact quiet_sendCloseFrame hnow.1
  · have hup : t.self.tornDown = false := by
      simp only [Bool.or_eq_true, not_or, Bool.not_eq_true] at hbusy
      exact hbusy.1.2
    exact quiet_pumpLoop _ t hup

/-- A close is latched and pumped out. -/
theorem quiet_beginClose (cfg : ServerConfig) (codec : Codec) (code : CloseCode) (t : Turn) :
    Quiet t (beginClose cfg codec code t) := by
  have hlatch := quiet_latchClose cfg code (code = .policyError || code = .goingAway) t
  unfold beginClose
  dsimp only
  split_ifs
  · exact hlatch.trans (quiet_pump cfg codec _)
  · exact hlatch

/-- A breach of a policy closes the session and does not tear it down. -/
theorem quiet_checkPolicyCloses (cfg : ServerConfig) (codec : Codec) (t : Turn) :
    Quiet t (checkPolicyCloses cfg codec t) := by
  unfold checkPolicyCloses
  split_ifs
  · exact .refl t
  · have htold : t.srv.Calm (t.srv.emitEvent .hwmClose t.self.epoch t.self.outbox.depth) :=
      .emitEvent _ _ _ (by simp)
    exact (Quiet.of_srv htold rfl).trans (quiet_beginClose cfg codec _ _)
  · have htold : t.srv.Calm
        (t.srv.emitEvent .entryCapClose t.self.epoch (t.srv.engine.entryCount t.self.epoch)) :=
      .emitEvent _ _ _ (by simp)
    exact (Quiet.of_srv htold rfl).trans (quiet_beginClose cfg codec _ _)
  · exact .refl t

/-- A queued report is in the outbox and in the log. -/
theorem quiet_pushReport (msg : OutMsg) (cause : Cause) (t : Turn) :
    Quiet t { t with self := pushReport msg cause t.self } :=
  ⟨⟨.refl _, rfl, rfl, id, by simp [pushReport, closedIn], id⟩, rfl, rfl, rfl⟩

/-- Queueing a report may close the session, by policy. -/
theorem quiet_enqueueReport (cfg : ServerConfig) (codec : Codec) (msg : OutMsg) (cause : Cause)
    (t : Turn) : Quiet t (enqueueReport cfg codec msg cause t) :=
  (quiet_pushReport msg cause t).trans
    ((quiet_markOutboxDepth _).trans (quiet_checkPolicyCloses cfg codec _))

/-- A report from the server is queued and pumped, or dropped. -/
theorem quiet_deliverReport (cfg : ServerConfig) (codec : Codec) (msg : OutMsg) (mdSeq : ℕ)
    (t : Turn) : Quiet t (deliverReport cfg codec msg mdSeq t) := by
  unfold deliverReport
  split_ifs
  · exact .refl t
  · exact (quiet_enqueueReport cfg codec msg _ t).trans (quiet_pump cfg codec _)

/-- A tick from the server is queued and pumped, or dropped. -/
theorem quiet_deliverTob (cfg : ServerConfig) (codec : Codec) (tob : Tob) (t : Turn) :
    Quiet t (deliverTob cfg codec tob t) := by
  have hticked : Quiet t (enqueueTob tob t) :=
    ⟨⟨.silent rfl rfl rfl rfl rfl rfl rfl rfl, rfl, rfl, id,
      by simp [enqueueTob, markOutboxDepth, closedIn], id⟩, rfl, rfl, rfl⟩
  unfold deliverTob
  split_ifs
  · exact .refl t
  · exact hticked.trans (quiet_pump cfg codec _)

/-- A frame that the session itself refuses draws a reject. -/
theorem quiet_pushReject (cfg : ServerConfig) (codec : Codec) (reject : Reject) (code : RejectCode)
    (t : Turn) : Quiet t (pushReject cfg codec reject code t) :=
  (quiet_countReject t).trans
    ((quiet_emitRejectEvent code _).trans (quiet_enqueueReport cfg codec _ _ _))

/-- A reject reply is counted, and narrated if its code is one of the enumerators. -/
theorem quiet_noteReject (reject : Reject) (t : Turn) :
    Quiet t (match rejectCodeFromWire reject.code with
      | some code => emitRejectEvent code (countReject t)
      | none => countReject t) := by
  split
  · exact (quiet_countReject t).trans (quiet_emitRejectEvent _ _)
  · exact quiet_countReject t

/-- The reply to a new order moves the counters and the pending service times. -/
theorem quiet_noteNewReply (svc : ℤ) (report : OutMsg) (t : Turn) :
    Quiet t (noteNewReply svc report t) := by
  cases report with
  | orderAck ack =>
    exact ⟨⟨.silent rfl rfl rfl rfl rfl rfl rfl rfl, rfl, rfl, id, rfl, id⟩, rfl, rfl, rfl⟩
  | reject reject => exact quiet_noteReject reject t
  | _ => exact .refl t

/-- The reply to a cancel moves the counters. -/
theorem quiet_noteCancelReply (report : OutMsg) (t : Turn) :
    Quiet t (noteCancelReply report t) := by
  cases report with
  | cancelAck ack => exact .of_srv (.silent rfl rfl rfl rfl rfl rfl rfl rfl) rfl
  | reject reject => exact quiet_noteReject reject t
  | _ => exact .refl t

/-- A served command is narrated if the telemetry is verbose. -/
theorem quiet_emitCmdIn (cfg : ServerConfig) (svc : ℤ) (t : Turn) :
    Quiet t (emitCmdIn cfg svc t) := by
  unfold emitCmdIn
  split_ifs
  · exact .of_srv (.emitEvent _ _ _ (by simp)) rfl
  · exact .refl t

/-- A loop of quiet rounds is quiet. -/
theorem quiet_foldl {f : Turn → OutMsg → Turn} (hf : ∀ t m, Quiet t (f t m)) (ms : List OutMsg)
    (t : Turn) : Quiet t (ms.foldl f t) := by
  induction ms generalizing t with
  | nil => exact .refl t
  | cons m ms ih => exact (hf t m).trans (ih _)

/-! ## Commands -/

/-- Serving a new order is one engine call, recorded as served, and quiet code after it. -/
theorem calm_serveNew (cfg : ServerConfig) (codec : Codec) (order : NewOrder) (e1Ns : ℤ)
    (t : Turn) :
    ∃ served, t.srv.Calm served.srv ∧ served.self = t.self ∧
      servedIn served.srv.calls = servedIn t.srv.calls ++ [(t.self.epoch, .newOrder order)] ∧
      Quiet served (serveNew cfg codec order e1Ns t) := by
  let served : Turn := ⟨(t.srv.call cfg (.onNew t.self.epoch order)).1.steadyNs.2, t.self⟩
  have hcall : t.srv.Calm (t.srv.call cfg (.onNew t.self.epoch order)).1 :=
    .call cfg _ fun _ => by rintro ⟨⟩
  refine ⟨served, hcall.trans (.steadyNs _), rfl, ?_, ?_⟩
  · simp [served, ServerImpl.call, ServerImpl.steadyNs, servedIn, commandOf]
  · refine Quiet.trans (quiet_foldl (fun t report => ?_) _ served) (quiet_emitCmdIn cfg _ _)
    exact (quiet_noteNewReply _ report t).trans (quiet_enqueueReport cfg codec _ _ _)

/-- Serving a cancel is one engine call, recorded as served, and quiet code after it. -/
theorem calm_serveCancel (cfg : ServerConfig) (codec : Codec) (cancel : CancelOrder) (e1Ns : ℤ)
    (t : Turn) :
    ∃ served, t.srv.Calm served.srv ∧ served.self = t.self ∧
      servedIn served.srv.calls = servedIn t.srv.calls ++ [(t.self.epoch, .cancelOrder cancel)] ∧
      Quiet served (serveCancel cfg codec cancel e1Ns t) := by
  let served : Turn := ⟨(t.srv.call cfg (.onCancel t.self.epoch cancel)).1.steadyNs.2, t.self⟩
  have hcall : t.srv.Calm (t.srv.call cfg (.onCancel t.self.epoch cancel)).1 :=
    .call cfg _ fun _ => by rintro ⟨⟩
  refine ⟨served, hcall.trans (.steadyNs _), rfl, ?_, ?_⟩
  · simp [served, ServerImpl.call, ServerImpl.steadyNs, servedIn, commandOf]
  · refine Quiet.trans (quiet_foldl (fun t report => ?_) _ served) (quiet_emitCmdIn cfg _ _)
    exact (quiet_noteCancelReply report t).trans (quiet_enqueueReport cfg codec _ _ _)

/-- Whatever a command says, it tears nothing down. -/
theorem mild_onCommand (cfg : ServerConfig) (codec : Codec) (msg : InMsg) (e1Ns : ℤ) (t : Turn) :
    Mild t (onCommand cfg codec msg e1Ns t) := by
  let counted : Turn := { t with self := { t.self with inSeqExpected := t.self.inSeqExpected + 1 } }
  have hcounted : Mild t counted := ⟨.refl _, rfl, rfl, id, rfl, id⟩
  have hserved : ∀ served : Turn, counted.srv.Calm served.srv → served.self = counted.self →
      Mild counted served := by
    rintro ⟨srv, self⟩ hcalm rfl
    exact ⟨hcalm, rfl, rfl, id, rfl, id⟩
  unfold onCommand
  dsimp only
  split_ifs
  · exact (quiet_beginClose cfg codec .protocolError t).toMild
  · exact hcounted.trans (quiet_pushReject cfg codec _ _ counted).toMild
  · refine hcounted.trans ?_
    cases msg with
    | newOrder order =>
      obtain ⟨served, hcalm, hself, -, hquiet⟩ := calm_serveNew cfg codec order e1Ns counted
      exact (hserved served hcalm hself).trans hquiet.toMild
    | cancelOrder cancel =>
      obtain ⟨served, hcalm, hself, -, hquiet⟩ := calm_serveCancel cfg codec cancel e1Ns counted
      exact (hserved served hcalm hself).trans hquiet.toMild

/-- Whatever a frame holds, it tears nothing down. -/
theorem mild_onMessage (cfg : ServerConfig) (codec : Codec) (frame : Bytes) (t : Turn) :
    Mild t (onMessage cfg codec frame t) := by
  unfold onMessage
  split_ifs
  · exact ((quiet_pushReject cfg codec _ _ t).trans (quiet_pump cfg codec _)).toMild
  · split
    · exact ((quiet_pushReject cfg codec _ _ t).trans (quiet_pump cfg codec _)).toMild
    · refine (Quiet.of_srv (.steadyNs _) rfl).toMild.trans ?_
      exact (mild_onCommand cfg codec _ _ _).trans (quiet_pump cfg codec _).toMild

/-- The next read is armed, and nothing else changes. -/
theorem mild_readNext (t : Turn) : Mild t (readNext t) := ⟨.refl _, rfl, rfl, id, rfl, id⟩

/-- A frame is taken and the next read is armed, with nothing torn down. -/
theorem mild_onFrame (cfg : ServerConfig) (codec : Codec) (frame : Option Bytes) (t : Turn) :
    Mild t (onFrame cfg codec frame t) := by
  let arrived : Turn := { t with srv := t.srv.steadyNs.2 }
  have harrived : Mild t arrived := (Quiet.of_srv (.steadyNs _) rfl).toMild
  unfold onFrame
  dsimp only
  split_ifs
  · exact harrived.trans (mild_readNext arrived)
  · cases frame with
    | none =>
      refine harrived.trans (Mild.trans ?_ (mild_readNext _))
      exact (quiet_beginClose cfg codec .protocolError arrived).toMild
    | some frame =>
      exact harrived.trans
        ((mild_onMessage cfg codec frame arrived).trans (mild_readNext _))

/-! ## Handlers -/

/-- The code a read is recorded with if it tears the session down and no close was latched. -/
def ReadResult.record : ReadResult → Option ℕ
  | .closed peer => some (if peer = 0 then 1000 else peer)
  | .timeout => some 1001
  | .aborted => some 1001
  | .protocolViolation badPayload => some (if badPayload then 1007 else 1002)
  | .failed => some 1006
  | .messageTooBig => none
  | .binary => none
  | .text _ => none

/-- The same for a write. -/
def WriteResult.record : WriteResult → Option ℕ
  | .ok => none
  | .timeout => some 1001
  | .aborted => some 1001
  | .failed => some 1006

/-- A teardown tells the server, which finalizes if it was waiting for this session. -/
theorem closes_teardown (cfg : ServerConfig) (code : ℕ) (hup : t.self.tornDown = false) :
    ∃ calm told, t.srv.Calm calm ∧ calm.Closes t.self.epoch code told ∧
      (teardown cfg code t).srv =
        if told.stopping && told.sessions.toList.isEmpty then told.finalize else told := by
  let marked : Turn :=
    { t with self := { t.self with tornDown := true, log := t.self.log ++ [.closed code] } }
  let lagged : Turn := if marked.self.writeInflight then noteSendLag marked else marked
  let retired : Turn := retireEpoch cfg lagged
  have hlagged : Quiet marked lagged := by
    simp only [lagged]
    split_ifs
    · exact quiet_noteSendLag marked
    · exact .refl marked
  have hquiet : Quiet marked retired := hlagged.trans (quiet_retireEpoch cfg lagged)
  have hsrv : (teardown cfg code t).srv =
      retired.srv.sessionClosed retired.self.epoch code retired.self.outbox.conflated := by
    rw [teardown, if_neg (by simp [hup])]
  have hepoch : retired.self.epoch = t.self.epoch := hquiet.epoch
  rw [hsrv, hepoch]
  obtain ⟨told, hcloses, heq⟩ :=
    retired.srv.closes t.self.epoch code retired.self.outbox.conflated
  exact ⟨retired.srv, told, hquiet.srv, hcloses, heq⟩

/-- A teardown erases the session's own entry. -/
theorem sessions_teardown (cfg : ServerConfig) (code : ℕ) (hup : t.self.tornDown = false) :
    (teardown cfg code t).srv.sessions = t.srv.sessions.erase t.self.epoch ∧
      (teardown cfg code t).srv.upgrades = t.srv.upgrades := by
  obtain ⟨calm, told, hcalm, hcloses, heq⟩ := closes_teardown cfg code hup
  have hsessions : told.sessions = t.srv.sessions.erase t.self.epoch := by
    rw [hcloses.sessions, hcalm.sessions]
  have hupgrades : told.upgrades = t.srv.upgrades := hcloses.upgrades.trans hcalm.upgrades
  rw [heq, ← hsessions, ← hupgrades]
  split_ifs
  · exact ⟨congrArg Hub.sessions (hub_finalize told), told.upgrades_finalize⟩
  · exact ⟨rfl, rfl⟩

/-- The end of a session gives no epoch away. -/
theorem nextEpoch_teardown (cfg : ServerConfig) (code : ℕ) (t : Turn) :
    (teardown cfg code t).srv.nextEpoch = t.srv.nextEpoch := by
  cases hup : t.self.tornDown with
  | true => rw [teardown, if_pos hup]
  | false =>
    obtain ⟨calm, told, hcalm, hcloses, heq⟩ := closes_teardown cfg code hup
    have htold : told.nextEpoch = t.srv.nextEpoch := hcloses.nextEpoch.trans hcalm.nextEpoch
    rw [heq, ← htold]
    split_ifs
    · exact congrArg Hub.nextEpoch (hub_finalize told)
    · rfl

/-- What a teardown does to the session. -/
theorem self_teardown (cfg : ServerConfig) (code : ℕ) (hup : t.self.tornDown = false) :
    (teardown cfg code t).self.epoch = t.self.epoch ∧
      (teardown cfg code t).self.log = t.self.log ++ [.closed code] ∧
      (teardown cfg code t).self.tornDown = true := by
  have hline : (teardown cfg code t).self.line = (t.view.tearDown cfg code).line :=
    congrArg View.line (view_teardown hup)
  rw [View.line_tearDown] at hline
  exact ⟨congrArg Line.epoch hline, congrArg Line.log hline, congrArg Line.tornDown hline⟩

/-- A completion is mild, or it tears the session down: with the code of the close under way, else
with the completion's own `record`. -/
inductive Outcome (cfg : ServerConfig) (record : Option ℕ) (t : Turn) : Turn → Prop
  | mild {t' : Turn} (mild : Mild t t') : Outcome cfg record t t'
  | tearDown {t' : Turn} {code : ℕ} (mild : Mild t t') (log : t'.self.log = t.self.log)
      (up : t.self.tornDown = false)
      (latched : t.self.closing = true → code = t.self.closeCode.toNat)
      (unlatched : t.self.closing = false → record = some code) :
      Outcome cfg record t (teardown cfg code t')

/-- A teardown records the latched code, or that of the completion if none was latched. -/
theorem outcome_closeCodeOr {record : Option ℕ} {code : ℕ} (hmild : Mild t t')
    (hlog : t'.self.log = t.self.log) (hup : t.self.tornDown = false)
    (hclosing : t'.self.closing = t.self.closing) (hcode : t'.self.closeCode = t.self.closeCode)
    (hrecord : record = some code) :
    Outcome cfg record t (teardown cfg (closeCodeOr t'.self code) t') := by
  refine .tearDown hmild hlog hup (fun hc => ?_) (fun hc => ?_)
  · rw [closeCodeOr, hclosing, hc, hcode]
    rfl
  · rw [closeCodeOr, hclosing, hc]
    exact hrecord

/-- Clearing the pending read changes no outcome. -/
theorem Outcome.of_idle {record : Option ℕ} (hup : t.self.tornDown = false)
    (h : Outcome cfg record { t with self := { t.self with reading := .idle } } t') :
    Outcome cfg record t t' := by
  have hidle : Mild t { t with self := { t.self with reading := .idle } } :=
    ⟨.refl _, rfl, rfl, id, rfl, id⟩
  cases h with
  | mild hmild => exact .mild (hidle.trans hmild)
  | tearDown hmild hlog _ hlatched hunlatched =>
    exact .tearDown (hidle.trans hmild) hlog hup hlatched hunlatched

/-- An oversize frame latches 1009 and waits, or the earlier latch is recorded. -/
theorem outcome_onMessageTooBig (hup : t.self.tornDown = false) :
    Outcome cfg none t (onMessageTooBig cfg t) := by
  have hlatch := quiet_latchClose cfg .tooBig false t
  unfold onMessageTooBig
  dsimp only
  cases hc : t.self.closing with
  | true =>
    -- a close under way keeps its code
    rw [latchClose_of_refused (by simp [hc])]
    exact .tearDown (.refl t) rfl hup (fun _ => rfl) (fun h => absurd h (by simp [hc]))
  | false =>
    have hlatched : (latchClose cfg .tooBig false t).2 = true := (view_latchClose rfl hc hup).2
    rw [if_pos hlatched]
    refine .mild (hlatch.toMild.trans ?_)
    exact ⟨.refl _, rfl, rfl, id, by simp [closedIn], id⟩

/-- A read goes on, or it tears the session down with its own code or the latched one. -/
theorem outcome_onRead (cfg : ServerConfig) (codec : Codec) (result : ReadResult) (t : Turn) :
    Outcome cfg result.record t (onRead cfg codec result t) := by
  let idle : Turn := { t with self := { t.self with reading := .idle } }
  have hidle : Mild t idle := ⟨.refl _, rfl, rfl, id, rfl, id⟩
  unfold onRead
  dsimp only
  split_ifs with hup
  · exact .mild hidle
  · have hup : t.self.tornDown = false := by simpa using hup
    have hdown : ∀ code, result.record = some code →
        Outcome cfg result.record t (teardown cfg (closeCodeOr idle.self code) idle) :=
      fun code hcode => outcome_closeCodeOr hidle rfl hup rfl rfl hcode
    cases result with
    | closed peer => exact hdown _ rfl
    | timeout => exact hdown _ rfl
    | aborted => exact hdown _ rfl
    | messageTooBig =>
      exact Outcome.of_idle hup (outcome_onMessageTooBig hup)
    | protocolViolation badPayload => exact hdown _ rfl
    | failed => exact hdown _ rfl
    | binary => exact .mild (hidle.trans (mild_onFrame cfg codec none idle))
    | text frame => exact .mild (hidle.trans (mild_onFrame cfg codec (some frame) idle))

/-- A write goes on, or it tears the session down with its own code or the latched one. -/
theorem outcome_onWrite (cfg : ServerConfig) (codec : Codec) (result : WriteResult) (t : Turn) :
    Outcome cfg result.record t (onWrite cfg codec result t) := by
  let written : Turn := { t with self := { t.self with writeInflight := false } }
  have hwritten : Mild t written := ⟨.refl _, rfl, rfl, id, rfl, id⟩
  have hlagged : Mild t (noteSendLag written) := hwritten.trans (quiet_noteSendLag written).toMild
  unfold onWrite
  dsimp only
  split_ifs with hup
  · exact .mild hwritten
  · have hup : t.self.tornDown = false := by simpa using hup
    cases result with
    | ok => exact .mild (hlagged.trans (quiet_pump cfg codec _).toMild)
    | timeout => exact outcome_closeCodeOr hlagged rfl hup rfl rfl rfl
    | aborted => exact outcome_closeCodeOr hlagged rfl hup rfl rfl rfl
    | failed => exact outcome_closeCodeOr hlagged rfl hup rfl rfl rfl

/-- A close under way is recorded with its own code. -/
theorem outcome_closing (hmild : Mild t t') (hlog : t'.self.log = t.self.log)
    (hc : t.self.closing = true) (hcode : t'.self.closeCode = t.self.closeCode) :
    Outcome cfg none t (teardown cfg t'.self.closeCode.toNat t') := by
  cases hup : t.self.tornDown with
  | true =>
    rw [teardown, if_pos (hmild.tornDown.trans hup)]
    exact .mild hmild
  | false =>
    refine .tearDown hmild hlog hup (fun _ => by rw [hcode]) fun hopen => ?_
    rw [hc] at hopen
    cases hopen

/-- A close frame that fails tears the session down with the latched code. -/
theorem outcome_onCloseFrame (ok : Bool) (hc : t.self.closing = true) :
    Outcome cfg none t (onCloseFrame cfg ok t) := by
  let done : Turn := { t with self := { t.self with closeInflight := false } }
  have hdone : Mild t done := ⟨.refl _, rfl, rfl, id, rfl, fun _ h => by cases h⟩
  unfold onCloseFrame
  dsimp only
  split_ifs
  · exact .mild hdone
  · exact outcome_closing hdone rfl hc rfl

/-- After the close of an oversize frame the socket is drained, and nothing is torn down. -/
theorem mild_drainTransport (t : Turn) : Mild t (drainTransport t) := by
  unfold drainTransport
  split_ifs <;> exact ⟨.refl _, rfl, rfl, id, rfl, id⟩

/-- The end of the drain tears the session down with the latched code. -/
theorem outcome_onDrainRead (ok : Bool) (hc : t.self.closing = true) :
    Outcome cfg none t (onDrainRead cfg ok t) := by
  let idle : Turn := { t with self := { t.self with reading := .idle } }
  have hidle : Mild t idle := ⟨.refl _, rfl, rfl, id, rfl, id⟩
  unfold onDrainRead
  split_ifs
  · exact .mild (.refl t)
  · exact outcome_closing hidle rfl hc rfl

end Session

end MarketMaker
