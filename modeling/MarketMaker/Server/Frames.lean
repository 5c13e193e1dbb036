import MarketMaker.Server.EntryCap

/-!
# What a session does with a frame

A frame consumes a sequence number when it decodes to a command that carries the expected one, and
the client has to know from the answer alone whether it did. `Session.accepts` says which command a
frame of an open session is consumed as. `Session.Hears` follows it into the sequencer and the
engine, `Session.Verdict` lists the answers, and `Session.Shut` is the close of a command out of
sequence.
-/

namespace MarketMaker

open OrderEngine (Call)

/-! ## Answers -/

/-- The codes raised before the sequencer. -/
def preSequencer : List RejectCode := [.msgTooLarge, .malformed, .unknownType, .unsupportedVersion]

/-- A reject with such a code. -/
def OutMsg.isPreSequencer : OutMsg → Bool
  | .reject r => r.code ∈ preSequencer.map RejectCode.toString
  | _ => false

/-- `decode` fails with its documented codes only. -/
def Codec.Documented (codec : Codec) : Prop :=
  ∀ frame err, codec.decode frame = .error err →
    err.code ∈ [RejectCode.malformed, .unknownType, .unsupportedVersion]

/-- A code is raised before the sequencer or not, whatever the reject says besides. -/
theorem isPreSequencer_reject (code : RejectCode) {reject : Reject}
    (h : reject.code = code.toString) :
    (OutMsg.reject reject).isPreSequencer = decide (code ∈ preSequencer) := by
  rw [OutMsg.isPreSequencer, h, decide_eq_decide]
  exact List.mem_map_of_injective RejectCode.toString_injective

/-- No verdict of `on_new` has such a code. -/
theorem isPreSequencer_onNew (cfg : EngineConfig) {e : OrderEngine} {session : ℕ} {order : NewOrder}
    {r : Routed} (hr : r ∈ (OrderEngine.step cfg e (.onNew session order)).2) :
    r.msg.isPreSequencer = false := by
  have hspec := OrderEngine.onNew_spec cfg e session order
  simp only [OrderEngine.step, OrderEngine.routeTo] at hr
  generalize OrderEngine.onNew cfg e session order = out at hspec hr
  obtain ⟨msg, hmsg, rfl⟩ := List.mem_map.mp hr
  cases hspec with
  | duplicate _ =>
    rw [List.mem_singleton.mp hmsg]
    exact isPreSequencer_reject .dupClOrdId rfl
  | @rejected code reason _ hcause =>
    rw [List.mem_singleton.mp hmsg]
    refine (isPreSequencer_reject code rfl).trans ?_
    cases hcause with
    | invalid hinvalid =>
      have hcode := OrderEngine.validateOrder_code hinvalid
      revert hcode
      cases code <;> decide
    | capped _ => decide
    | crossing _ => decide
  | accepted _ _ _ _ _ =>
    rw [List.mem_singleton.mp hmsg]
    rfl

/-- Nor has one of `on_cancel`. -/
theorem isPreSequencer_onCancel (cfg : EngineConfig) {e : OrderEngine} {session : ℕ}
    {cancel : CancelOrder} {r : Routed}
    (hr : r ∈ (OrderEngine.step cfg e (.onCancel session cancel)).2) :
    r.msg.isPreSequencer = false := by
  have hspec := OrderEngine.onCancel_spec e session cancel
  simp only [OrderEngine.step, OrderEngine.routeTo] at hr
  generalize OrderEngine.onCancel e session cancel = out at hspec hr
  obtain ⟨msg, hmsg, rfl⟩ := List.mem_map.mp hr
  cases hspec with
  | unknown _ =>
    rw [List.mem_singleton.mp hmsg]
    exact isPreSequencer_reject .unknownClOrdId rfl
  | terminal _ _ =>
    rw [List.mem_singleton.mp hmsg]
    exact isPreSequencer_reject .alreadyTerminal rfl
  | cancelled _ _ =>
    rw [List.mem_singleton.mp hmsg]
    rfl

namespace Session

variable {cfg : ServerConfig} {codec : Codec} {t t' t'' : Turn}

/-- What is queued beyond what was queued before. -/
def Queues (t t' : Turn) (answer : List (OutMsg × Cause)) : Prop :=
  enqueuedIn t'.self.log = enqueuedIn t.self.log ++ answer

/-- A drain queues nothing. -/
theorem Queues.drains {answer : List (OutMsg × Cause)} (h : Queues t t' answer)
    (hdrains : Drains cfg codec t'.view t''.view) : Queues t t'' answer := by
  have henqueued : enqueuedIn t''.self.log = enqueuedIn t'.self.log :=
    (keeps_drains hdrains).enqueued
  exact henqueued.trans h

/-- One report is queued. -/
theorem queues_enqueueReport (cfg : ServerConfig) (codec : Codec) (msg : OutMsg) (cause : Cause)
    (t : Turn) : Queues t (enqueueReport cfg codec msg cause t) [(msg, cause)] := by
  let pushed : Turn := { t with self := pushReport msg cause t.self }
  have hpushed : Queues t (markOutboxDepth pushed) [(msg, cause)] := by
    simp [Queues, pushed, pushReport, markOutboxDepth, enqueuedIn]
  exact hpushed.drains (drains_checkPolicyCloses cfg codec _)

/-- Narrating a reject logs nothing. -/
theorem log_emitRejectEvent (code : RejectCode) (t : Turn) :
    (emitRejectEvent code t).self.log = t.self.log :=
  congrArg (fun v => v.line.log) (view_emitRejectEvent code t)

/-- A reject of the session itself is queued as such. -/
theorem queues_pushReject (cfg : ServerConfig) (codec : Codec) (reject : Reject) (code : RejectCode)
    (t : Turn) : Queues t (pushReject cfg codec reject code t) [(.reject reject, .session)] := by
  have hqueues := queues_enqueueReport cfg codec (.reject reject) .session
    (emitRejectEvent code (countReject t))
  rw [Queues, log_emitRejectEvent] at hqueues
  exact hqueues

/-- Noting a reply logs nothing. -/
theorem log_noteNewReply (svc : ℤ) (report : OutMsg) (t : Turn) :
    (noteNewReply svc report t).self.log = t.self.log := by
  cases report with
  | reject reject => exact congrArg (fun v => v.line.log) (view_noteReject reject t)
  | _ => rfl

/-- Noting a reply logs nothing. -/
theorem log_noteCancelReply (report : OutMsg) (t : Turn) :
    (noteCancelReply report t).self.log = t.self.log := by
  cases report with
  | reject reject => exact congrArg (fun v => v.line.log) (view_noteReject reject t)
  | _ => rfl

/-- Narrating a command logs nothing. -/
theorem log_emitCmdIn (cfg : ServerConfig) (svc : ℤ) (t : Turn) :
    (emitCmdIn cfg svc t).self.log = t.self.log :=
  congrArg (fun v => v.line.log) (view_emitCmdIn svc t)

/-- A served command draws one report, with no code raised before the sequencer. -/
theorem queues_serveNew (cfg : ServerConfig) (codec : Codec) (order : NewOrder) (e1Ns : ℤ)
    (t : Turn) : ∃ p : OutMsg × Cause, p.1.isPreSequencer = false ∧
      Queues t (serveNew cfg codec order e1Ns t) [p] := by
  obtain ⟨m, hreply, -, -⟩ := reply_onNew cfg.engine t.srv.engine t.self.epoch order
  have hreply : (t.srv.call cfg (.onNew t.self.epoch order)).2.map Routed.msg = [m] := hreply
  have hm : m ∈ (t.srv.call cfg (.onNew t.self.epoch order)).2.map Routed.msg :=
    hreply ▸ List.mem_cons_self
  obtain ⟨r, hr, rfl⟩ := List.mem_map.mp hm
  refine ⟨(r.msg, .command (.newOrder order)
    ((t.srv.call cfg (.onNew t.self.epoch order)).1.steadyNs.1 - e1Ns)),
    isPreSequencer_onNew cfg.engine hr, ?_⟩
  unfold serveNew
  dsimp only
  rw [hreply, List.foldl_cons, List.foldl_nil, Queues, log_emitCmdIn]
  refine (queues_enqueueReport cfg codec _ _ _).trans ?_
  rw [log_noteNewReply]

/-- A served cancel draws one report, with no code raised before the sequencer. -/
theorem queues_serveCancel (cfg : ServerConfig) (codec : Codec) (cancel : CancelOrder) (e1Ns : ℤ)
    (t : Turn) : ∃ p : OutMsg × Cause, p.1.isPreSequencer = false ∧
      Queues t (serveCancel cfg codec cancel e1Ns t) [p] := by
  obtain ⟨m, hreply, -, -⟩ := reply_onCancel cfg.engine t.srv.engine t.self.epoch cancel
  have hreply : (t.srv.call cfg (.onCancel t.self.epoch cancel)).2.map Routed.msg = [m] := hreply
  have hm : m ∈ (t.srv.call cfg (.onCancel t.self.epoch cancel)).2.map Routed.msg :=
    hreply ▸ List.mem_cons_self
  obtain ⟨r, hr, rfl⟩ := List.mem_map.mp hm
  refine ⟨(r.msg, .command (.cancelOrder cancel)
    ((t.srv.call cfg (.onCancel t.self.epoch cancel)).1.steadyNs.1 - e1Ns)),
    isPreSequencer_onCancel cfg.engine hr, ?_⟩
  unfold serveCancel
  dsimp only
  rw [hreply, List.foldl_cons, List.foldl_nil, Queues, log_emitCmdIn]
  refine (queues_enqueueReport cfg codec _ _ _).trans ?_
  rw [log_noteCancelReply]

/-! ## One frame -/

/-- The command a frame is consumed as, while the session is open. -/
def accepts (codec : Codec) (x : Session) (frame : Bytes) : Option InMsg :=
  if frame.length > maxInboundMsgBytes then none
  else
    match codec.decode frame with
    | .ok msg => if msg.seq = x.inSeqExpected then some msg else none
    | .error _ => none

/-- The same for any read. -/
def taken (codec : Codec) (x : Session) : ReadResult → Option InMsg
  | .text frame => if x.closing || x.tornDown then none else x.accepts codec frame
  | _ => none

/-- The sequencer counts the command that was taken, and the engine is handed it if it carries the
session's epoch. -/
structure Hears (taken : Option InMsg) (t t' : Turn) : Prop where
  inSeqExpected : t'.self.inSeqExpected = t.self.inSeqExpected + taken.toList.length
  served : servedIn t'.srv.calls = servedIn t.srv.calls ++
    (taken.toList.filter fun msg => msg.epoch = t.self.epoch).map fun msg => (t.self.epoch, msg)

/-- Quiet code takes no command. -/
theorem Quiet.hears (h : Quiet t t') : Hears none t t' :=
  ⟨h.inSeqExpected, h.served.trans (List.append_nil _).symm⟩

/-- Code that takes none after code that may. -/
theorem Hears.deaf {taken : Option InMsg} (h : Hears taken t t') (h' : Hears none t' t'') :
    Hears taken t t'' :=
  ⟨h'.inSeqExpected.trans h.inSeqExpected,
    (h'.served.trans (List.append_nil _)).trans h.served⟩

/-- A teardown takes no command. -/
theorem hears_teardown (cfg : ServerConfig) (code : ℕ) (t : Turn) :
    Hears none t (teardown cfg code t) := by
  cases hup : t.self.tornDown with
  | true =>
    rw [teardown, if_pos hup]
    exact (Quiet.refl t).hears
  | false =>
    let marked : Turn :=
      { t with self := { t.self with tornDown := true, log := t.self.log ++ [.closed code] } }
    let lagged : Turn := if marked.self.writeInflight then noteSendLag marked else marked
    have hmarked : Hears none t marked := ⟨rfl, (List.append_nil _).symm⟩
    have hlagged : Quiet marked lagged := by
      simp only [lagged]
      split_ifs
      · exact quiet_noteSendLag marked
      · exact .refl marked
    have hretired : Hears none t (retireEpoch cfg lagged) :=
      hmarked.deaf (hlagged.trans (quiet_retireEpoch cfg lagged)).hears
    rw [teardown, if_neg (by simp [hup])]
    refine ⟨hretired.inSeqExpected, ?_⟩
    have hcalls : ∀ (srv : ServerImpl) (epoch conflated : ℕ),
        (srv.sessionClosed epoch code conflated).calls = srv.calls := fun srv epoch conflated =>
      congrArg Hub.calls (hub_sessionClosed srv epoch code conflated)
    exact (congrArg servedIn (hcalls _ _ _)).trans hretired.served

/-- A command is taken if it has the number that is expected. -/
theorem hears_onCommand (cfg : ServerConfig) (codec : Codec) (msg : InMsg) (e1Ns : ℤ) (t : Turn) :
    Hears (if msg.seq = t.self.inSeqExpected then some msg else none) t
      (onCommand cfg codec msg e1Ns t) := by
  let counted : Turn := { t with self := { t.self with inSeqExpected := t.self.inSeqExpected + 1 } }
  unfold onCommand
  dsimp only
  by_cases hseq : msg.seq = t.self.inSeqExpected
  · rw [if_neg (not_not.mpr hseq), if_pos hseq]
    split_ifs with hepoch
    · -- a stale epoch consumes the number and is not handed on
      have hquiet := quiet_pushReject cfg codec
        { clId := msg.clId
          code := RejectCode.staleEpoch.toString
          reason := ascii "command epoch does not match this session's epoch" } .staleEpoch counted
      refine ⟨hquiet.inSeqExpected, hquiet.served.trans ?_⟩
      simp [hepoch, counted]
    · have hepoch : msg.epoch = t.self.epoch := not_not.mp hepoch
      have hserved : ∀ served t' : Turn, served.self = counted.self →
          servedIn served.srv.calls = servedIn counted.srv.calls ++ [(t.self.epoch, msg)] →
          Quiet served t' → Hears (some msg) t t' := by
        intro served t' hself hcalls hquiet
        refine ⟨hquiet.inSeqExpected.trans (by rw [hself]; rfl), ?_⟩
        refine (hquiet.served.trans hcalls).trans ?_
        simp [hepoch, counted]
      cases msg with
      | newOrder order =>
        obtain ⟨served, -, hself, hcalls, hquiet⟩ := calm_serveNew cfg codec order e1Ns counted
        exact hserved served _ hself hcalls hquiet
      | cancelOrder cancel =>
        obtain ⟨served, -, hself, hcalls, hquiet⟩ := calm_serveCancel cfg codec cancel e1Ns counted
        exact hserved served _ hself hcalls hquiet
  · rw [if_pos hseq, if_neg hseq]
    exact (quiet_beginClose cfg codec .protocolError t).hears

/-- A frame is taken if it decodes to such a command. -/
theorem hears_onMessage (cfg : ServerConfig) (codec : Codec) (frame : Bytes) (t : Turn) :
    Hears (t.self.accepts codec frame) t (onMessage cfg codec frame t) := by
  unfold onMessage accepts
  split_ifs
  · exact ((quiet_pushReject cfg codec _ _ t).trans (quiet_pump cfg codec _)).hears
  · cases codec.decode frame with
    | error err => exact ((quiet_pushReject cfg codec _ _ t).trans (quiet_pump cfg codec _)).hears
    | ok msg =>
      have hcommand := hears_onCommand cfg codec msg t.srv.steadyNs.1
        { t with srv := t.srv.steadyNs.2 }
      exact Hears.deaf ⟨hcommand.inSeqExpected, hcommand.served⟩ (quiet_pump cfg codec _).hears

/-- A session that is closing takes none. -/
theorem hears_onFrame (cfg : ServerConfig) (codec : Codec) (frame : Option Bytes) (t : Turn) :
    Hears (if t.self.closing then none else frame.bind fun frame => t.self.accepts codec frame) t
      (onFrame cfg codec frame t) := by
  let arrived : Turn := { t with srv := t.srv.steadyNs.2 }
  unfold onFrame
  dsimp only
  split_ifs
  · exact ⟨rfl, (List.append_nil _).symm⟩
  · cases frame with
    | none =>
      have hclose := (quiet_beginClose cfg codec .protocolError arrived).hears
      exact ⟨hclose.inSeqExpected, hclose.served⟩
    | some frame =>
      have hmessage := hears_onMessage cfg codec frame arrived
      exact ⟨hmessage.inSeqExpected, hmessage.served⟩

/-- An oversize frame is not taken. -/
theorem hears_onMessageTooBig (cfg : ServerConfig) (t : Turn) :
    Hears none t (onMessageTooBig cfg t) := by
  have hlatch := (quiet_latchClose cfg .tooBig false t).hears
  unfold onMessageTooBig
  dsimp only
  split_ifs
  · exact ⟨hlatch.inSeqExpected, hlatch.served⟩
  · exact hlatch.deaf (hears_teardown cfg _ _)

/-- A read takes what it completes with. -/
theorem hears_onRead (cfg : ServerConfig) (codec : Codec) (result : ReadResult) (t : Turn) :
    Hears (t.self.taken codec result) t (onRead cfg codec result t) := by
  let idle : Turn := { t with self := { t.self with reading := .idle } }
  have hidle : ∀ taken t', Hears taken idle t' → Hears taken t t' := fun _ _ h =>
    ⟨h.inSeqExpected, h.served⟩
  unfold onRead
  dsimp only
  split_ifs with hdown
  · have hnone : t.self.taken codec result = none := by
      cases result with
      | text frame => rw [taken, hdown, Bool.or_true, if_pos rfl]
      | _ => rfl
    rw [hnone]
    exact ⟨rfl, (List.append_nil _).symm⟩
  · cases result with
    | closed peer => exact hidle none _ (hears_teardown cfg _ idle)
    | timeout => exact hidle none _ (hears_teardown cfg _ idle)
    | aborted => exact hidle none _ (hears_teardown cfg _ idle)
    | messageTooBig => exact hidle none _ (hears_onMessageTooBig cfg idle)
    | protocolViolation badPayload => exact hidle none _ (hears_teardown cfg _ idle)
    | failed => exact hidle none _ (hears_teardown cfg _ idle)
    | binary =>
      have hframe := hears_onFrame cfg codec none idle
      rw [Option.bind_none, ite_self] at hframe
      exact hidle none _ hframe
    | text frame =>
      have htaken : t.self.taken codec (.text frame) =
          if t.self.closing then none else t.self.accepts codec frame := by
        rw [taken, Bool.not_eq_true _ |>.mp hdown, Bool.or_false]
      rw [htaken]
      exact hidle _ _ (hears_onFrame cfg codec (some frame) idle)

/-- What a completion of the session takes. -/
def takenBy (codec : Codec) (x : Session) : World.Event → Option InMsg
  | .read _ result => x.taken codec result
  | _ => none

/-- An event takes what its completion does. -/
theorem hears_completes {i : ℕ} {x : Session} {event : World.Event} {f : Turn → Turn}
    (h : World.Completes cfg codec i x event f) (srv : ServerImpl) :
    Hears (x.takenBy codec event) ⟨srv, x⟩ (f ⟨srv, x⟩) := by
  cases h with
  | read result _ => exact hears_onRead cfg codec result ⟨srv, x⟩
  | write result _ =>
    let lagged : Turn := noteSendLag ⟨srv, { x with writeInflight := false }⟩
    have hlagged : Hears none ⟨srv, x⟩ lagged := ⟨rfl, (List.append_nil _).symm⟩
    unfold onWrite
    dsimp only
    split_ifs
    · exact ⟨rfl, (List.append_nil _).symm⟩
    · cases result with
      | ok => exact hlagged.deaf (quiet_pump cfg codec lagged).hears
      | timeout => exact hlagged.deaf (hears_teardown cfg _ lagged)
      | aborted => exact hlagged.deaf (hears_teardown cfg _ lagged)
      | failed => exact hlagged.deaf (hears_teardown cfg _ lagged)
  | closeFrame ok _ =>
    unfold onCloseFrame
    dsimp only
    split_ifs
    · exact ⟨rfl, (List.append_nil _).symm⟩
    · have hdown := hears_teardown cfg x.closeCode.toNat ⟨srv, { x with closeInflight := false }⟩
      exact ⟨hdown.inSeqExpected, hdown.served⟩
  | oversizeClose _ =>
    unfold drainTransport
    split_ifs <;> exact ⟨rfl, (List.append_nil _).symm⟩
  | drainRead ok _ =>
    unfold onDrainRead
    split_ifs
    · exact ⟨rfl, (List.append_nil _).symm⟩
    · have hdown := hears_teardown cfg x.closeCode.toNat ⟨srv, { x with reading := .idle }⟩
      exact ⟨hdown.inSeqExpected, hdown.served⟩

/-- What is accepted has the number that was expected. -/
theorem seq_of_accepts {x : Session} {frame : Bytes} {msg : InMsg}
    (h : x.accepts codec frame = some msg) : msg.seq = x.inSeqExpected := by
  unfold accepts at h
  split_ifs at h
  split at h
  · split_ifs at h with hseq
    cases h
    exact hseq
  · cases h

/-- So has what is taken. -/
theorem seq_of_taken {x : Session} {result : ReadResult} {msg : InMsg}
    (h : x.taken codec result = some msg) : msg.seq = x.inSeqExpected := by
  cases result with
  | text frame =>
    rw [taken] at h
    split_ifs at h
    exact seq_of_accepts h
  | _ => cases h

/-- The answers to a frame of an open session. -/
inductive Verdict (codec : Codec) (x : Session) (frame : Bytes) : List (OutMsg × Cause) → Prop
  | undecoded {reject : Reject} (code : RejectCode) (spelled : reject.code = code.toString)
      (why : frame.length > maxInboundMsgBytes ∧ code = .msgTooLarge ∨
        frame.length ≤ maxInboundMsgBytes ∧ ∃ err, codec.decode frame = .error err ∧
          err.code = code) :
      Verdict codec x frame [(.reject reject, .session)]
  | outOfSeq {msg : InMsg} (size : frame.length ≤ maxInboundMsgBytes)
      (decoded : codec.decode frame = .ok msg) (gap : msg.seq ≠ x.inSeqExpected) :
      Verdict codec x frame []
  | consumed {msg : InMsg} {p : OutMsg × Cause} (size : frame.length ≤ maxInboundMsgBytes)
      (decoded : codec.decode frame = .ok msg) (next : msg.seq = x.inSeqExpected)
      (after : p.1.isPreSequencer = false) : Verdict codec x frame [p]

/-- A frame draws the answer of its verdict. -/
theorem answers_onMessage (cfg : ServerConfig) (codec : Codec) (frame : Bytes) (t : Turn) :
    ∃ answer, Queues t (onMessage cfg codec frame t) answer ∧
      Verdict codec t.self frame answer := by
  unfold onMessage
  split_ifs with hsize
  · exact ⟨_, (queues_pushReject cfg codec _ _ t).drains (drains_pump cfg codec _),
      .undecoded .msgTooLarge rfl (Or.inl ⟨hsize, rfl⟩)⟩
  have hsize : frame.length ≤ maxInboundMsgBytes := not_lt.mp hsize
  cases hdecode : codec.decode frame with
  | error err =>
    exact ⟨_, (queues_pushReject cfg codec _ _ t).drains (drains_pump cfg codec _),
      .undecoded err.code rfl (Or.inr ⟨hsize, err, hdecode, rfl⟩)⟩
  | ok msg =>
    let started : Turn := { t with srv := t.srv.steadyNs.2 }
    let counted : Turn :=
      { started with self := { t.self with inSeqExpected := t.self.inSeqExpected + 1 } }
    dsimp only
    unfold onCommand
    dsimp only
    by_cases hseq : msg.seq = t.self.inSeqExpected
    · rw [if_neg (not_not.mpr hseq)]
      split_ifs
      · have hqueues := queues_pushReject cfg codec
          { clId := msg.clId
            code := RejectCode.staleEpoch.toString
            reason := ascii "command epoch does not match this session's epoch" }
          .staleEpoch counted
        exact ⟨_, Queues.drains (t := t) hqueues (drains_pump cfg codec _),
          .consumed hsize hdecode hseq (isPreSequencer_reject .staleEpoch rfl)⟩
      · cases msg with
        | newOrder order =>
          obtain ⟨p, hp, hqueues⟩ := queues_serveNew cfg codec order t.srv.steadyNs.1 counted
          exact ⟨_, Queues.drains (t := t) hqueues (drains_pump cfg codec _),
            .consumed hsize hdecode hseq hp⟩
        | cancelOrder cancel =>
          obtain ⟨p, hp, hqueues⟩ := queues_serveCancel cfg codec cancel t.srv.steadyNs.1 counted
          exact ⟨_, Queues.drains (t := t) hqueues (drains_pump cfg codec _),
            .consumed hsize hdecode hseq hp⟩
    · rw [if_pos hseq]
      have hnothing : Queues t started [] := (List.append_nil _).symm
      refine ⟨[], ?_, .outOfSeq hsize hdecode hseq⟩
      exact (hnothing.drains (drains_beginClose cfg codec .protocolError started)).drains
        (drains_pump cfg codec _)

/-- So on a session that is open. -/
theorem answers_onFrame (cfg : ServerConfig) (codec : Codec) (frame : Bytes)
    (hopen : t.self.closing = false) :
    ∃ answer, Queues t (onFrame cfg codec (some frame) t) answer ∧
      Verdict codec t.self frame answer := by
  have hopen : ¬t.self.closing = true := by simp [hopen]
  unfold onFrame
  dsimp only
  rw [if_neg hopen]
  exact answers_onMessage cfg codec frame { t with srv := t.srv.steadyNs.2 }

/-! ## Once a close is latched -/

/-- The line is closing with the code. -/
def Shut (code : CloseCode) (l : Line) : Prop := l.closing = true ∧ l.closeCode = code

variable {v v' : View} {code : CloseCode}

/-- A drain keeps the code that was latched first. -/
theorem shut_drain (h : Drain cfg codec v v') (hs : Shut code v.line) : Shut code v'.line := by
  cases h with
  | latch _ hopen _ =>
    rw [hs.1] at hopen
    cases hopen
  | write _ _ _ _ _ => exact hs
  | lose _ _ => exact hs
  | discard _ _ => exact hs
  | sendClose _ _ _ => exact hs

/-- So do several. -/
theorem shut_drains (h : Drains cfg codec v v') (hs : Shut code v.line) : Shut code v'.line := by
  induction h with
  | refl => exact hs
  | tail _ hlast ih => exact shut_drain hlast ih

/-- A latched close stays. -/
theorem shut_act (h : Act cfg codec v v') (hs : Shut code v.line) : Shut code v'.line := by
  cases h with
  | drain hdrain => exact shut_drain hdrain hs
  | enqueue _ hchecked _ => exact shut_drains hchecked hs
  | serve _ _ _ => exact hs
  | tick _ _ _ _ => exact hs
  | written => exact hs
  | tearDown code _ =>
    rw [View.line_tearDown]
    exact hs

/-- An open session that is closed is shut with the code. -/
theorem shut_beginClose (hopen : t.self.closing = false) (hup : t.self.tornDown = false) :
    Shut code (beginClose cfg codec code t).view.line := by
  have hlatch : (latchClose cfg code (code = .policyError || code = .goingAway) t).1.view =
      t.view.latch cfg code ∧ (latchClose cfg code (code = .policyError || code = .goingAway) t).2 =
        true := view_latchClose (drains_eq code) hopen hup
  unfold beginClose
  dsimp only
  rw [if_pos hlatch.2]
  refine shut_drains (drains_pump cfg codec _) ?_
  rw [hlatch.1, View.line_latch]
  exact ⟨rfl, rfl⟩

/-- A command out of sequence closes the session with 1002. -/
theorem shut_onFrame {frame : Bytes} {msg : InMsg} (hopen : t.self.closing = false)
    (hup : t.self.tornDown = false) (hsize : frame.length ≤ maxInboundMsgBytes)
    (hdecode : codec.decode frame = .ok msg) (hgap : msg.seq ≠ t.self.inSeqExpected) :
    Shut .protocolError (onFrame cfg codec (some frame) t).view.line := by
  let arrived : Turn := { t with srv := t.srv.steadyNs.2 }
  let started : Turn := { t with srv := arrived.srv.steadyNs.2 }
  have hclosed : Shut .protocolError (beginClose cfg codec .protocolError started).view.line :=
    shut_beginClose hopen hup
  have hmessage : onMessage cfg codec frame arrived =
      pump cfg codec (beginClose cfg codec .protocolError started) := by
    rw [onMessage, if_neg (not_lt.mpr hsize), hdecode]
    dsimp only
    rw [onCommand, if_pos hgap]
  unfold onFrame
  dsimp only
  rw [if_neg (by simp [hopen])]
  exact hmessage ▸ shut_drains (drains_pump cfg codec _) hclosed

/-- With the epoch retired, a teardown calls the engine no more. -/
theorem engine_teardown (hretired : t.self.epochRetired = true) (code : ℕ) :
    (teardown cfg code t).srv.engine = t.srv.engine ∧
      enqueuedIn (teardown cfg code t).self.log = enqueuedIn t.self.log := by
  cases hup : t.self.tornDown with
  | true =>
    rw [teardown, if_pos hup]
    exact ⟨rfl, rfl⟩
  | false =>
    obtain ⟨-, hlog, -⟩ := self_teardown cfg code hup
    constructor
    · have hengine : (teardown cfg code t).srv.engine = (t.view.tearDown cfg code).hub.engine :=
        congrArg (fun v => v.hub.engine) (view_teardown hup)
      have hretire : ∀ v : View, v.line.epochRetired = true → v.retire cfg = v := fun v h => by
        rw [View.retire, if_pos h]
      rw [hengine, View.tearDown, hretire _ hretired]
      rfl
    · rw [hlog, enqueuedIn_append]
      exact List.append_nil _

/-- No read of a session that closes or has left reaches the engine or draws a report. -/
theorem deaf_onRead (cfg : ServerConfig) (codec : Codec) (result : ReadResult)
    (hleft : t.self.closing = true ∨ t.self.tornDown = true)
    (hretired : t.self.epochRetired = true) :
    (onRead cfg codec result t).srv.engine = t.srv.engine ∧
      enqueuedIn (onRead cfg codec result t).self.log = enqueuedIn t.self.log := by
  let idle : Turn := { t with self := { t.self with reading := .idle } }
  have hdown : ∀ code, (teardown cfg code idle).srv.engine = t.srv.engine ∧
      enqueuedIn (teardown cfg code idle).self.log = enqueuedIn t.self.log :=
    fun code => engine_teardown (t := idle) hretired code
  unfold onRead
  dsimp only
  split_ifs with hup
  · exact ⟨rfl, rfl⟩
  have hc : t.self.closing = true := hleft.resolve_right hup
  have hframe : ∀ frame, (onFrame cfg codec frame idle).srv.engine = t.srv.engine ∧
      enqueuedIn (onFrame cfg codec frame idle).self.log = enqueuedIn t.self.log := fun frame => by
    unfold onFrame
    dsimp only
    rw [if_pos hc]
    exact ⟨rfl, rfl⟩
  cases result with
  | closed peer => exact hdown _
  | timeout => exact hdown _
  | aborted => exact hdown _
  | messageTooBig =>
    dsimp only
    rw [onMessageTooBig, latchClose_of_refused (by simp [hc])]
    exact hdown _
  | protocolViolation badPayload => exact hdown _
  | failed => exact hdown _
  | binary => exact hframe none
  | text frame => exact hframe (some frame)

end Session

end MarketMaker
