import MarketMaker.Link.Replies
import MarketMaker.Server.Turns

/-!
# What a session writes

Every frame that a session writes is in the domains of the wire, up to its counters and its service
time, and a tick is that of a book which the engine has processed. The invariant is on views
(`View.Wired`): the engine stores decoded order ids, and what the outbox holds or the log has
written is `Genuine`. Draining keeps it, so that what is left of a handler is what it queues.
-/

namespace MarketMaker

open Client (FitsIdentifier FitsFields FitsTob FitsReject maxTextLen)
open OrderEngine (Call)
open Link

/-- What the sessions rely on in their codec. -/
structure Codec.Telling (codec : Codec) : Prop where
  ok : ∀ frame msg, codec.decode frame = .ok msg → Readable msg
  error : ∀ frame err, frame.length ≤ maxInboundMsgBytes → codec.decode frame = .error err →
    FitsIdentifier maxTextLen err.detail

/-- The naive codec tells what the claims about errors need. -/
theorem Nlohmann.telling_codec {parse : Parse} (hparse : Correct parse) :
    (codec parse).Telling where
  ok frame msg h := by
    rw [codec] at h
    dsimp only at h
    split at h
    · next msg' hdecode =>
      cases h
      exact readable_of_decode hparse hdecode
    · cases h
    · cases h
  error frame err hsize h := by
    rw [codec] at h
    dsimp only at h
    split at h
    · cases h
    · next err' hdecode =>
      cases h
      exact errorsIn_decode hparse hsize _ hdecode _ rfl
    · cases h
      exact Plain.fits (fun c hc => by contradiction) (Nat.zero_le _)

/-! ## Lines -/

/-- A tick of one of the books, whatever its stamps. -/
def Published (cfg : ServerConfig) (calls : List (Call × List Routed)) (tob : Tob) : Prop :=
  ∃ book ∈ booksIn calls, ∃ seq epoch, tob = { World.tobOf cfg book with seq, epoch }

/-- What a session may send once the engine has served these calls. -/
structure Genuine (cfg : ServerConfig) (calls : List (Call × List Routed)) (msg : OutMsg) :
    Prop where
  fits : FitsFields msg
  published : ∀ tob, msg = .tob tob → Published cfg calls tob

section Lines

variable {cfg : ServerConfig} {calls calls' : List (Call × List Routed)} {msg : OutMsg}
    {l l' : Line}

/-- A report is genuine whatever the calls. -/
theorem genuine_report (h : FitsFields msg) (hreport : msg.isTob = false) :
    Genuine cfg calls msg := by
  refine ⟨h, fun tob htob => ?_⟩
  rw [htob] at hreport
  cases hreport

/-- What was genuine stays so. -/
theorem Genuine.mono (h : Genuine cfg calls msg) (hcalls : calls <+: calls') :
    Genuine cfg calls' msg := by
  refine ⟨h.fits, fun tob htob => ?_⟩
  obtain ⟨book, hbook, hsame⟩ := h.published tob htob
  exact ⟨book, (hcalls.filterMap _).subset hbook, hsame⟩

/-- The stamps touch neither what fits nor the book of a tick. -/
theorem Genuine.stampMsg (h : Genuine cfg calls msg) (seq epoch : ℕ) (pending : List ℤ) :
    Genuine cfg calls (Session.stampMsg seq epoch pending msg).1 := by
  obtain ⟨hfits, hpublished⟩ := h
  cases msg with
  | tob m =>
    obtain ⟨book, hbook, seq', epoch', heq⟩ := hpublished m rfl
    refine ⟨⟨hfits.v, hfits.symbol, hfits.bidPx, hfits.bidQty, hfits.askPx, hfits.askQty⟩, ?_⟩
    intro tob htob
    cases htob
    exact ⟨book, hbook, seq, epoch, by rw [heq]⟩
  | orderAck m =>
    cases pending with
    | nil => exact genuine_report ⟨hfits.v, hfits.clId, hfits.status⟩ rfl
    | cons svc pending => exact genuine_report ⟨hfits.v, hfits.clId, hfits.status⟩ rfl
  | cancelAck m => exact genuine_report ⟨hfits.v, hfits.clId, hfits.status⟩ rfl
  | reject m => exact genuine_report ⟨hfits.v, hfits.clId, hfits.code, hfits.reason⟩ rfl
  | fill m => exact genuine_report ⟨hfits.v, hfits.clId, hfits.px, hfits.qty, hfits.leaves⟩ rfl

/-- What a line holds and has written is genuine. -/
structure Line.Wired (cfg : ServerConfig) (calls : List (Call × List Routed)) (l : Line) :
    Prop where
  reports : ∀ msg ∈ l.outbox.reports, Genuine cfg calls msg
  tob : ∀ tob, l.outbox.tob = some tob → Genuine cfg calls (.tob tob)
  wrote : ∀ frame, Entry.wrote frame ∈ l.log → Genuine cfg calls frame

/-- A session that starts has nothing to send. -/
theorem Line.wired_fresh (cfg : ServerConfig) (calls : List (Call × List Routed)) (epoch : ℕ) :
    ({ Line.fresh cfg with epoch } : Line).Wired cfg calls where
  reports msg hmsg := by cases hmsg
  tob tob htob := by cases htob
  wrote frame hframe := by cases hframe

/-- More calls leave its messages genuine. -/
theorem Line.Wired.mono (h : l.Wired cfg calls) (hcalls : calls <+: calls') :
    l.Wired cfg calls' where
  reports msg hmsg := (h.reports msg hmsg).mono hcalls
  tob tob htob := (h.tob tob htob).mono hcalls
  wrote frame hframe := (h.wrote frame hframe).mono hcalls

/-- The log gains an entry that is no frame. -/
theorem Line.Wired.log (h : l.Wired cfg calls) (hreports : ∀ msg ∈ l'.outbox.reports,
    msg ∈ l.outbox.reports) (htob : ∀ tob, l'.outbox.tob = some tob → l.outbox.tob = some tob)
    {entry : Entry} (hentry : ∀ frame, entry ≠ .wrote frame) (hlog : l'.log = l.log ++ [entry]) :
    l'.Wired cfg calls where
  reports msg hmsg := h.reports msg (hreports msg hmsg)
  tob tob ht := h.tob tob (htob tob ht)
  wrote frame hframe := by
    rw [hlog] at hframe
    rcases List.mem_append.mp hframe with hold | hnew
    · exact h.wrote frame hold
    · exact absurd (List.mem_singleton.mp hnew).symm (hentry frame)

/-- What is popped was held, and so was what stays. -/
theorem Line.Wired.pop (h : l.Wired cfg calls) {outbox : Outbox}
    (hpop : l.outbox.pop = some (msg, outbox)) :
    Genuine cfg calls msg ∧ (∀ m ∈ outbox.reports, m ∈ l.outbox.reports) ∧
      ∀ tob, outbox.tob = some tob → l.outbox.tob = some tob := by
  rcases Outbox.pop_cases hpop with ⟨rest, hreports, rfl⟩ | ⟨tob, hnone, htob, rfl, rfl⟩
  · refine ⟨h.reports msg ?_, fun m hm => ?_, fun tob htob => htob⟩
    · rw [hreports]
      exact List.mem_cons_self
    · rw [hreports]
      exact List.mem_cons_of_mem _ hm
  · exact ⟨h.tob tob htob, fun m hm => hm, fun tob' htob' => by cases htob'⟩

end Lines

/-! ## Views -/

/-- The engine stores what was decoded, and the line is wired. -/
structure View.Wired (cfg : ServerConfig) (v : View) : Prop where
  engine : OrderEngine.Fits cfg.engine v.hub.engine
  line : v.line.Wired cfg v.hub.calls

section Views

variable {cfg : ServerConfig} {codec : Codec} {v v' : View}

/-- An engine call that fits keeps the wire. -/
theorem View.Wired.call (h : v.Wired cfg) {c : OrderEngine.Call} (hcall : OrderEngine.FitsCall c) :
    ({ v with hub := v.hub.call cfg c } : View).Wired cfg :=
  ⟨h.engine.step hcall, h.line.mono (List.prefix_append _ _)⟩

/-- So does a retirement. -/
theorem View.Wired.retire (h : v.Wired cfg) : (v.retire cfg).Wired cfg := by
  rw [View.retire]
  split_ifs
  · exact h
  · have hcalled := h.call (c := .endSession v.line.epoch) trivial
    exact ⟨hcalled.engine, hcalled.line.reports, hcalled.line.tob, hcalled.line.wrote⟩

/-- So does a teardown. -/
theorem View.Wired.tearDown (h : v.Wired cfg) (code : ℕ) : (v.tearDown cfg code).Wired cfg := by
  have hmarked : ({ v with
        line := { v.line with tornDown := true, log := v.line.log ++ [.closed code] } } :
      View).Wired cfg :=
    ⟨h.engine, h.line.log (fun _ hm => hm) (fun _ ht => ht) (fun _ hw => by cases hw) rfl⟩
  exact ⟨hmarked.retire.engine, hmarked.retire.line⟩

/-- A drain writes what was queued. -/
theorem wired_drain (hd : Drain cfg codec v v') (h : v.Wired cfg) : v'.Wired cfg := by
  cases hd with
  | latch code _ _ =>
    refine View.Wired.retire ⟨h.engine, ?_⟩
    exact h.line.log (fun _ hm => hm) (fun _ ht => ht) (fun _ hw => by cases hw) rfl
  | @write msg outbox hpop _ _ _ _ =>
    obtain ⟨hmsg, hreports, htob⟩ := h.line.pop hpop
    refine ⟨h.engine, fun m hm => h.line.reports m (hreports m hm),
      fun tob ht => h.line.tob tob (htob tob ht), fun frame hframe => ?_⟩
    rcases List.mem_append.mp hframe with hold | hnew
    · exact h.line.wrote frame hold
    · cases List.mem_singleton.mp hnew
      exact hmsg.stampMsg _ _ _
  | lose hpop _ =>
    obtain ⟨-, hreports, htob⟩ := h.line.pop hpop
    exact ⟨h.engine, fun m hm => h.line.reports m (hreports m hm),
      fun tob ht => h.line.tob tob (htob tob ht), h.line.wrote⟩
  | discard hpop _ =>
    obtain ⟨-, hreports, htob⟩ := h.line.pop hpop
    exact ⟨h.engine, h.line.log hreports htob (fun _ hw => by cases hw) rfl⟩
  | sendClose _ _ _ =>
    exact ⟨h.engine, h.line.log (fun _ hm => hm) (fun _ ht => ht) (fun _ hw => by cases hw) rfl⟩

/-- So do several. -/
theorem wired_drains (hd : Drains cfg codec v v') (h : v.Wired cfg) : v'.Wired cfg := by
  induction hd with
  | refl => exact h
  | tail _ hlast ih => exact wired_drain hlast ih

/-- Draining only adds to the calls. -/
theorem calls_drains (hd : Drains cfg codec v v') : v.hub.calls <+: v'.hub.calls := by
  induction hd with
  | refl => exact List.prefix_refl _
  | @tail u u' _ hlast ih =>
    refine ih.trans ?_
    cases hlast with
    | latch code _ _ =>
      rw [View.latch, View.retire]
      split_ifs
      · exact List.prefix_refl _
      · exact List.prefix_append _ _
    | _ => exact List.prefix_refl _

end Views

/-! ## A session's code -/

namespace Session

variable {cfg : ServerConfig} {codec : Codec} {t : Turn}

/-- So does `pump`. -/
theorem wired_pump (h : t.view.Wired cfg) : (pump cfg codec t).view.Wired cfg :=
  wired_drains (drains_pump cfg codec t) h

/-- A close writes nothing else. -/
theorem wired_beginClose (code : CloseCode) (h : t.view.Wired cfg) :
    (beginClose cfg codec code t).view.Wired cfg :=
  wired_drains (drains_beginClose cfg codec code t) h

/-- A report that fits enters the outbox. -/
theorem wired_enqueueReport {msg : OutMsg} (cause : Cause) (hmsg : FitsFields msg)
    (h : t.view.Wired cfg) : (enqueueReport cfg codec msg cause t).view.Wired cfg := by
  have hpushed : ({ t with self := pushReport msg cause t.self } : Turn).view.Wired cfg := by
    refine ⟨h.engine, fun m hm => ?_, fun tob ht => h.line.tob tob ?_, fun frame hframe => ?_⟩
    · simp only [Turn.view, Session.line, pushReport, Outbox.pushReport] at hm
      split_ifs at hm with hreport
      · exact h.line.reports m hm
      · rcases List.mem_append.mp hm with hold | hnew
        · exact h.line.reports m hold
        · rw [List.mem_singleton.mp hnew]
          exact genuine_report hmsg (Bool.not_eq_true _ |>.mp hreport)
    · simp only [Turn.view, Session.line, pushReport, Outbox.pushReport] at ht
      split_ifs at ht <;> exact ht
    · rcases List.mem_append.mp hframe with hold | hnew
      · exact h.line.wrote frame hold
      · cases List.mem_singleton.mp hnew
  exact wired_drains (drains_checkPolicyCloses cfg codec _) hpushed

/-- A genuine tick takes the slot. -/
theorem wired_enqueueTob {tob : Tob} (htob : Genuine cfg t.srv.calls (.tob tob))
    (h : t.view.Wired cfg) :
    (enqueueTob tob t).view.Wired cfg := by
  refine ⟨h.engine, h.line.reports, fun tob' ht => ?_, fun frame hframe => ?_⟩
  · cases ht
    exact htob
  · rcases List.mem_append.mp hframe with hold | hnew
    · exact h.line.wrote frame hold
    · cases List.mem_singleton.mp hnew

/-- A reject of the session itself fits. -/
theorem wired_pushReject {reject : Reject} (code : RejectCode) (hreject : FitsReject reject)
    (h : t.view.Wired cfg) : (pushReject cfg codec reject code t).view.Wired cfg := by
  have hview : (emitRejectEvent code (countReject t)).view = t.view := by simp
  refine wired_enqueueReport _ hreject ?_
  rwa [hview]

/-- Noting a reply leaves the wire alone. -/
theorem wired_noteNewReply (svc : ℤ) (report : OutMsg) (h : t.view.Wired cfg) :
    (noteNewReply svc report t).view.Wired cfg := by
  cases report with
  | orderAck ack => exact ⟨h.engine, h.line.reports, h.line.tob, h.line.wrote⟩
  | reject reject =>
    rw [show (noteNewReply svc (.reject reject) t).view = t.view from view_noteReject reject t]
    exact h
  | _ => exact h

/-- Noting a reply leaves the wire alone. -/
theorem wired_noteCancelReply (report : OutMsg) (h : t.view.Wired cfg) :
    (noteCancelReply report t).view.Wired cfg := by
  cases report with
  | cancelAck ack => exact h
  | reject reject =>
    rw [show (noteCancelReply (.reject reject) t).view = t.view from view_noteReject reject t]
    exact h
  | _ => exact h

/-- A loop over replies that fit. -/
theorem wired_foldl {f : Turn → OutMsg → Turn} {ms : List OutMsg} (hms : ∀ m ∈ ms, FitsFields m)
    (hf : ∀ t m, FitsFields m → t.view.Wired cfg → (f t m).view.Wired cfg) (h : t.view.Wired cfg) :
    (ms.foldl f t).view.Wired cfg := by
  induction ms generalizing t with
  | nil => exact h
  | cons m ms ih =>
    rw [List.forall_mem_cons] at hms
    exact ih hms.2 (hf t m hms.1 h)

/-- The empty order id of a reject without a command. -/
theorem fits_nil (cap : ℕ) : FitsIdentifier cap [] :=
  Plain.fits (fun c hc => by contradiction) (Nat.zero_le _)

section Served

variable (hinst : FitsInstrument cfg.engine.inst)

include hinst

/-- What the engine replies fits the wire. -/
theorem fits_replies {c : OrderEngine.Call} (hcall : OrderEngine.FitsCall c)
    (h : t.view.Wired cfg) :
    ∀ m ∈ (t.srv.call cfg c).2.map Routed.msg, FitsFields m := by
  intro m hm
  obtain ⟨r, hr, rfl⟩ := List.mem_map.mp hm
  exact OrderEngine.fits_reply hinst h.engine hcall r hr

/-- Serving a new order keeps the wire. -/
theorem wired_serveNew {order : NewOrder} (e1Ns : ℤ) (horder : Readable (.newOrder order))
    (h : t.view.Wired cfg) : (serveNew cfg codec order e1Ns t).view.Wired cfg := by
  have hreplies := fits_replies (t := t) hinst (c := .onNew t.self.epoch order) horder h
  rw [serveNew, view_emitCmdIn]
  refine wired_foldl hreplies (fun t m hm ht => ?_) (h.call (c := .onNew t.self.epoch order) horder)
  exact wired_enqueueReport _ hm (wired_noteNewReply _ m ht)

/-- So does serving a cancel. -/
theorem wired_serveCancel {cancel : CancelOrder} (e1Ns : ℤ)
    (hcancel : Readable (.cancelOrder cancel))
    (h : t.view.Wired cfg) : (serveCancel cfg codec cancel e1Ns t).view.Wired cfg := by
  have hreplies := fits_replies (t := t) hinst (c := .onCancel t.self.epoch cancel) hcancel h
  rw [serveCancel, view_emitCmdIn]
  refine wired_foldl hreplies (fun t m hm ht => ?_)
    (h.call (c := .onCancel t.self.epoch cancel) hcancel)
  exact wired_enqueueReport _ hm (wired_noteCancelReply m ht)

/-- So does a command that was read. -/
theorem wired_onCommand {msg : InMsg} (e1Ns : ℤ) (hmsg : Readable msg) (h : t.view.Wired cfg) :
    (onCommand cfg codec msg e1Ns t).view.Wired cfg := by
  unfold onCommand
  dsimp only
  split_ifs
  · exact wired_beginClose .protocolError h
  · refine wired_pushReject .staleEpoch ?_ h
    refine ⟨rfl, ?_, ?_, ?_⟩
    · cases msg with
      | newOrder order => exact hmsg.1
      | cancelOrder cancel => exact hmsg
    · exact (OrderEngine.plain_code .staleEpoch).1.fits (OrderEngine.plain_code .staleEpoch).2
    · have hreason : "command epoch does not match this session's epoch" ∈ OrderEngine.reasons := by
        simp [OrderEngine.reasons]
      exact (OrderEngine.plain_reasons _ hreason).1.fits (OrderEngine.plain_reasons _ hreason).2
  · cases msg with
    | newOrder order => exact wired_serveNew hinst e1Ns hmsg h
    | cancelOrder cancel => exact wired_serveCancel hinst e1Ns hmsg h

/-- So does a frame. -/
theorem wired_onMessage (hcodec : codec.Telling) (frame : Bytes) (h : t.view.Wired cfg) :
    (onMessage cfg codec frame t).view.Wired cfg := by
  rw [onMessage]
  split_ifs with hsize
  · refine wired_pump (wired_pushReject .msgTooLarge ⟨rfl, fits_nil _, ?_, ?_⟩ h)
    · exact (OrderEngine.plain_code .msgTooLarge).1.fits (OrderEngine.plain_code .msgTooLarge).2
    · have hreason : "message exceeds the 65536-byte cap" ∈ OrderEngine.reasons := by
        simp [OrderEngine.reasons]
      exact (OrderEngine.plain_reasons _ hreason).1.fits (OrderEngine.plain_reasons _ hreason).2
  · cases hdecode : codec.decode frame with
    | error err =>
      refine wired_pump (wired_pushReject err.code ⟨rfl, fits_nil _, ?_, ?_⟩ h)
      · exact (OrderEngine.plain_code err.code).1.fits (OrderEngine.plain_code err.code).2
      · exact hcodec.error frame err (not_lt.mp hsize) hdecode
    | ok msg => exact wired_pump (wired_onCommand hinst _ (hcodec.ok frame msg hdecode) h)

/-- So does a frame that has arrived. -/
theorem wired_onFrame (hcodec : codec.Telling) (frame : Option Bytes) (h : t.view.Wired cfg) :
    (onFrame cfg codec frame t).view.Wired cfg := by
  unfold onFrame
  dsimp only
  split_ifs
  · exact h
  · cases frame with
    | none => exact wired_beginClose (t := { t with srv := t.srv.steadyNs.2 }) .protocolError h
    | some frame =>
      exact wired_onMessage (t := { t with srv := t.srv.steadyNs.2 }) hinst hcodec frame h

end Served

/-- So does a teardown. -/
theorem wired_teardown (code : ℕ) (h : t.view.Wired cfg) :
    (teardown cfg code t).view.Wired cfg := by
  cases hup : t.self.tornDown with
  | true =>
    rw [teardown, if_pos hup]
    exact h
  | false =>
    rw [view_teardown hup]
    exact h.tearDown code

/-- So does an oversize frame. -/
theorem wired_onMessageTooBig (h : t.view.Wired cfg) : (onMessageTooBig cfg t).view.Wired cfg := by
  have hlatched : (latchClose cfg .tooBig false t).1.view.Wired cfg :=
    wired_drains
      (drains_latchClose cfg ⟨fun _ => .error ⟨.malformed, []⟩, fun _ => []⟩ rfl t) h
  rw [onMessageTooBig]
  split_ifs
  · exact ⟨hlatched.engine,
      hlatched.line.log (fun _ hm => hm) (fun _ ht => ht) (fun _ hw => by cases hw) rfl⟩
  · exact wired_teardown _ hlatched

/-- So does the completion of a read. -/
theorem wired_onRead (hinst : FitsInstrument cfg.engine.inst) (hcodec : codec.Telling)
    (result : ReadResult) (h : t.view.Wired cfg) : (onRead cfg codec result t).view.Wired cfg := by
  let idle : Turn := { t with self := { t.self with reading := .idle } }
  have hidle : idle.view.Wired cfg := h
  unfold onRead
  dsimp only
  split_ifs
  · exact h
  · cases result with
    | closed peer => exact wired_teardown _ hidle
    | timeout => exact wired_teardown _ hidle
    | aborted => exact wired_teardown _ hidle
    | messageTooBig => exact wired_onMessageTooBig hidle
    | protocolViolation badPayload => exact wired_teardown _ hidle
    | failed => exact wired_teardown _ hidle
    | binary => exact wired_onFrame hinst hcodec none hidle
    | text frame => exact wired_onFrame hinst hcodec (some frame) hidle

/-- So does the completion of a write. -/
theorem wired_onWrite (result : WriteResult) (h : t.view.Wired cfg) :
    (onWrite cfg codec result t).view.Wired cfg := by
  let lagged : Turn := noteSendLag { t with self := { t.self with writeInflight := false } }
  have hlagged : lagged.view.Wired cfg := ⟨h.engine, h.line.reports, h.line.tob, h.line.wrote⟩
  rw [onWrite]
  split_ifs
  · exact ⟨h.engine, h.line.reports, h.line.tob, h.line.wrote⟩
  · cases result with
    | ok => exact wired_pump hlagged
    | timeout => exact wired_teardown _ hlagged
    | aborted => exact wired_teardown _ hlagged
    | failed => exact wired_teardown _ hlagged

/-- So does every completion. -/
theorem wired_completes (hinst : FitsInstrument cfg.engine.inst) (hcodec : codec.Telling) {i : ℕ}
    {x : Session} {event : World.Event} {f : Turn → Turn} {srv : ServerImpl}
    (hf : World.Completes cfg codec i x event f) (h : (Turn.view ⟨srv, x⟩).Wired cfg) :
    (f ⟨srv, x⟩).view.Wired cfg := by
  cases hf with
  | read result _ => exact wired_onRead hinst hcodec result h
  | write result _ => exact wired_onWrite result h
  | closeFrame ok _ =>
    rw [onCloseFrame]
    split_ifs
    · exact h
    · exact wired_teardown (t := ⟨srv, { x with closeInflight := false }⟩) _ h
  | oversizeClose _ =>
    rw [view_drainTransport]
    exact h
  | drainRead ok _ =>
    rw [onDrainRead]
    split_ifs
    · exact h
    · exact wired_teardown (t := ⟨srv, { x with reading := .idle }⟩) _ h

/-- A report that fits is delivered as it is. -/
theorem wired_deliverReport {msg : OutMsg} (mdSeq : ℕ) (hmsg : FitsFields msg)
    (h : t.view.Wired cfg) :
    (deliverReport cfg codec msg mdSeq t).view.Wired cfg := by
  rw [deliverReport]
  split_ifs
  · exact h
  · exact wired_pump (wired_enqueueReport _ hmsg h)

/-- So is a tick of a book that was called. -/
theorem wired_deliverTob {tob : Tob} (htob : Genuine cfg t.srv.calls (.tob tob))
    (h : t.view.Wired cfg) :
    (deliverTob cfg codec tob t).view.Wired cfg := by
  rw [deliverTob]
  split_ifs
  · exact h
  · exact wired_pump (wired_enqueueTob htob h)

end Session

end MarketMaker
