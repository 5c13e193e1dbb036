import MarketMaker.Client.Contiguity
import MarketMaker.Client.Listener

/-!
# The messages of a connection

What the adapter hands to its driver: the messages of the longest part of the frames that obeys the
rules of the protocol, is text in UTF-8 and keeps within the cap (`run_reassembles`). The part ends
with the first event that cuts it (`Cuts`): a frame that breaks a rule, a close of either side, or
the end of the data.
-/

namespace MarketMaker

namespace Client

open WebSocket (Reads contentOf)

/-! ## The driver raises nothing -/

section Driver

variable {cfg : StrategyConfig} {codec : Codec}

/-- Before it has adopted an epoch, the strategy has seen no book. -/
def SessionDriver.Quiet (d : SessionDriver) : Prop := d.epoch = none → d.strategy.lastTobNs = none

/-- With a sound codec a dispatch raises nothing. -/
theorem dispatchLoop_ok (hcodec : codec.Sound) {d : SessionDriver} {epoch : ℕ}
    (hepoch : d.epoch = some epoch) (cmds : List Cmd) (frames : List Bytes) :
    ∃ sent, (d.dispatchLoop codec cmds frames).2 = .ok sent := by
  induction cmds generalizing d frames with
  | nil => exact ⟨frames, rfl⟩
  | cons cmd cmds ih =>
    cases cmd with
    | stopQuoting reason => exact ih ((spares_latch d _ reason).epoch.trans hepoch) frames
    | send msg =>
      rw [SessionDriver.dispatchLoop, SessionDriver.stamp_of_epoch hepoch]
      dsimp only
      by_cases hcheck :
          checkClientMessage (toClientMsg (stampMsg (d.outSeq + 1) epoch msg)) = .ok ()
      · obtain ⟨frame, hencode, -⟩ := hcodec.encode _ hcheck
        rw [hencode]
        exact @ih { d with outSeq := d.outSeq + 1 } hepoch _
      · obtain ⟨exc, hencode, htext⟩ := hcodec.refuse _ hcheck
        obtain ⟨text, htext⟩ := Option.isSome_iff_exists.mp htext
        rw [hencode]
        dsimp only
        rw [htext]
        exact ⟨frames, rfl⟩

/-- Before the first message the timer does nothing. -/
theorem onTimer_of_quiet {d : SessionDriver} (h : d.Quiet) (hepoch : d.epoch = none) (nowNs : ℤ) :
    d.onTimer cfg codec nowNs = (d, .ok []) := by
  have hidle : d.strategy.onTimer cfg nowNs = (d.strategy, []) := by
    rw [Strategy.onTimer, h hepoch]
  rw [SessionDriver.onTimer, hidle]
  rfl

/-- A call returns its frames, and keeps the driver quiet. -/
theorem onBytes_ok (hcodec : codec.Sound) {d : SessionDriver} (h : d.Quiet) (raw : Bytes)
    (nowNs : ℤ) :
    (∃ frames, (d.onBytes cfg codec raw nowNs).2 = .ok frames) ∧
      (d.onBytes cfg codec raw nowNs).1.Quiet := by
  rw [SessionDriver.onBytes]
  split_ifs
  · exact ⟨⟨[], rfl⟩, h⟩
  · rcases hcodec.decode raw with ⟨text, hdecode⟩ | ⟨msg, hdecode, -⟩
    · rw [hdecode]
      obtain ⟨hstrategy, hepoch, -⟩ :=
        latch_frame d CLOSE_PROTOCOL (ascii "undecodable frame: " ++ text)
      refine ⟨⟨[], rfl⟩, fun hnone => ?_⟩
      rw [hstrategy]
      exact h (hepoch ▸ hnone)
    · rw [hdecode]
      dsimp only
      have hadopted : ∃ epoch, (d.adopt (msg.natAttr "epoch")).epoch = some epoch := by
        rw [SessionDriver.adopt]
        cases hepoch : d.epoch with
        | none => exact ⟨_, rfl⟩
        | some epoch => exact ⟨epoch, hepoch⟩
      obtain ⟨epoch, hepoch⟩ := hadopted
      generalize d.adopt (msg.natAttr "epoch") = attached at hepoch
      refine ⟨?_, fun hnone => ?_⟩
      · refine @dispatchLoop_ok codec hcodec _ epoch ?_ _ _
        exact hepoch
      change (SessionDriver.dispatchLoop codec _ _ []).1.epoch = none at hnone
      rw [(spares_dispatchLoop codec _ _ []).epoch, hepoch] at hnone
      cases hnone

/-- The timer raises nothing. -/
theorem onTimer_ok (hcodec : codec.Sound) {d : SessionDriver} (h : d.Quiet) (nowNs : ℤ) :
    (∃ frames, (d.onTimer cfg codec nowNs).2 = .ok frames) ∧
    (d.onTimer cfg codec nowNs).1.Quiet := by
  cases hepoch : d.epoch with
  | none =>
    rw [onTimer_of_quiet h hepoch]
    exact ⟨⟨[], rfl⟩, h⟩
  | some epoch =>
    refine ⟨?_, fun hnone => ?_⟩
    · refine @dispatchLoop_ok codec hcodec _ epoch ?_ _ _
      exact hepoch
    change (SessionDriver.dispatchLoop codec _ _ []).1.epoch = none at hnone
    rw [(spares_dispatchLoop codec _ _ []).epoch, hepoch] at hnone
    cases hnone

/-- A latched driver stays quiet. -/
theorem Quiet.latch {d : SessionDriver} (h : d.Quiet) (code : ℕ) (reason : Bytes) :
    (d.latch code reason).Quiet := by
  obtain ⟨hstrategy, hepoch, -⟩ := latch_frame d code reason
  intro hnone
  rw [hstrategy]
  exact h (hepoch ▸ hnone)

end Driver

/-! ## What the frames mean -/

/-- No message is over the cap, and neither is the start of the next one. -/
def Capped (messages : List (List WebSocket.Frame)) (start : List WebSocket.Frame) : Prop :=
  (∀ m ∈ messages, (contentOf m).length ≤ MAX_MSG_BYTES) ∧
    (contentOf start).length ≤ MAX_MSG_BYTES

/-- The messages are text. -/
def AreText (messages : List (List WebSocket.Frame)) : Prop :=
  ∀ m ∈ messages, Utf8.Valid (contentOf m)

/-- Frames that obey every rule, and the messages they make up. -/
def Legal (fs : List WebSocket.Frame) (messages : List (List WebSocket.Frame)) : Prop :=
  ∃ start, Reads fs messages start ∧ Capped messages start ∧ AreText messages

/-- Frames that break a rule, and the code of it. -/
inductive Breaks (fs : List WebSocket.Frame) : ℕ → Prop
  | framing (h : ∀ messages start, ¬Reads fs messages start) : Breaks fs CLOSE_PROTOCOL
  | size {messages start} (h : Reads fs messages start) (hsize : ¬Capped messages start) :
      Breaks fs CLOSE_TOO_BIG
  | text {messages start} (h : Reads fs messages start) (hsize : Capped messages start)
      (htext : ¬AreText messages) : Breaks fs CLOSE_BAD_PAYLOAD

/-- A sequence that is legal breaks no rule. -/
theorem Legal.not_breaks {fs : List WebSocket.Frame} {messages : List (List WebSocket.Frame)}
    (h : Legal fs messages) (code : ℕ) : ¬Breaks fs code := by
  obtain ⟨start, hreads, hsize, htext⟩ := h
  rintro (hnone | @⟨messages', start', hreads', hnot⟩ | @⟨messages', start', hreads', -, hnot⟩)
  · exact hnone _ _ hreads
  · obtain ⟨rfl, rfl⟩ := hreads.unique hreads'
    exact hnot hsize
  · obtain ⟨rfl, rfl⟩ := hreads.unique hreads'
    exact hnot htext

/-- A sequence breaks one rule first. -/
theorem Breaks.unique {fs : List WebSocket.Frame} {code code' : ℕ} (h : Breaks fs code)
    (h' : Breaks fs code') :
    code = code' := by
  cases h with
  | framing hnone =>
    cases h' with
    | framing _ => rfl
    | size hreads _ => exact absurd hreads (hnone _ _)
    | text hreads _ _ => exact absurd hreads (hnone _ _)
  | size hreads hsize =>
    cases h' with
    | framing hnone => exact absurd hreads (hnone _ _)
    | size _ _ => rfl
    | text hreads' hsize' _ =>
      obtain ⟨rfl, rfl⟩ := hreads.unique hreads'
      exact absurd hsize' hsize
  | text hreads hsize htext =>
    cases h' with
    | framing hnone => exact absurd hreads (hnone _ _)
    | size hreads' hsize' =>
      obtain ⟨rfl, rfl⟩ := hreads.unique hreads'
      exact absurd hsize hsize'
    | text _ _ _ => rfl

namespace Listener

/-- The frames among the events. -/
def framesIn (events : List Event) : List WebSocket.Frame :=
  events.filterMap fun
    | .frame f _ => some f.toFrame
    | _ => none

/-- The payloads that `on_bytes` was called with. -/
def handed (actions : List Action) : List Bytes :=
  actions.filterMap fun
    | .handed payload => some payload
    | _ => none

/-- An event that ends what the driver gets to see: its close intent is latched, the data ends, the
connection is gone, the peer closes, or the frame breaks a rule. -/
inductive Cuts (d : SessionDriver) (fs : List WebSocket.Frame) : Event → Prop
  | decided {e : Event} (h : d.close ≠ none) : Cuts d fs e
  | endData : Cuts d fs .endData
  | disconnected : Cuts d fs .disconnected
  | peerClose {f : WSFrame} {nowNs : ℤ} (hplain : f.reserved = false) (hclose : f.opcode = .close) :
      Cuts d fs (.frame f nowNs)
  | breaks {f : WSFrame} {nowNs : ℤ} {code : ℕ} (h : Breaks (fs ++ [f.toFrame]) code) :
      Cuts d fs (.frame f nowNs)

/-- Frames are read off the events in order. -/
theorem framesIn_append (events events' : List Event) :
    framesIn (events ++ events') = framesIn events ++ framesIn events' := List.filterMap_append

/-- So are the messages off the actions. -/
theorem handed_append (actions actions' : List Action) :
    handed (actions ++ actions') = handed actions ++ handed actions' := List.filterMap_append

/-- A frame that is sent is no message handed on. -/
theorem handed_map_send (frames : List Bytes) : handed (frames.map .send) = [] := by
  rw [handed, List.filterMap_map, List.filterMap_eq_nil_iff]
  exact fun _ _ => rfl

/-! ## Closing -/

section Steps

variable {cfg : StrategyConfig} {codec : Codec} {l : Listener}

/-- No data reaches the driver any more. -/
def Ended (l : Listener) : Prop := l.dataEnded = true ∨ l.driver.close ≠ none

/-- The fragments of the message that is open. -/
structure Tracks (l : Listener) (start : List WebSocket.Frame) : Prop where
  opened : l.opened = true ↔ start ≠ []
  fragments : l.fragments = start.map WebSocket.Frame.payload
  fragmentBytes : l.fragmentBytes = (contentOf start).length

/-- What `_close` changes. -/
theorem close_fst (l : Listener) : ∃ sent, l.close.1 = { l with isCloseFrameSent := sent } := by
  rw [close]
  split_ifs
  · exact ⟨l.isCloseFrameSent, rfl⟩
  · exact ⟨true, rfl⟩

/-- Neither is a close. -/
theorem handed_close (l : Listener) : handed l.close.2 = [] := by
  rw [close]
  split_ifs
  · rfl
  · rfl

/-- What a verdict does: it is latched unless there is one, and the data ends. -/
structure Closes (l : Listener) (code : ℕ) (r : Listener × List Action) : Prop where
  driver : ∃ reason, r.1.driver = l.driver.latch code reason
  ended : r.1.dataEnded = true
  handed : handed r.2 = []
  fragments : r.1.fragments = l.fragments ∨ r.1.fragments = []
  callbackError : r.1.callbackError = l.callbackError

/-- `_close_with` closes with its code. -/
theorem closes_closeWith (l : Listener) (reason : Bytes) (code : ℕ) :
    Closes l code (l.closeWith reason code) := by
  rw [closeWith]
  have hhanded := handed_close { l with driver := l.driver.noteProtocolError reason code }
  obtain ⟨sent, hsent⟩ := close_fst { l with driver := l.driver.noteProtocolError reason code }
  rw [hsent]
  exact ⟨⟨reason, rfl⟩, rfl, hhanded, Or.inl rfl, rfl⟩

/-- So does `_abort`. -/
theorem closes_abort (l : Listener) (reason : Bytes) (code : ℕ) :
    Closes l code (l.abort reason code) := by
  obtain ⟨hdriver, hended, hhanded, hfragments, herror⟩ := closes_closeWith l.clear reason code
  exact ⟨hdriver, hended, hhanded, Or.inr (hfragments.elim id id), herror⟩

/-! ## Reassembly -/

/-- A frame that continues the message is appended to its fragments. -/
theorem Tracks.concat {start : List WebSocket.Frame} (h : Tracks l start)
    (f : WebSocket.Frame) :
    Tracks { l with
      fragments := l.fragments ++ [f.payload]
      fragmentBytes := l.fragmentBytes + f.payload.length
      opened := true } (start ++ [f]) where
  opened := iff_of_true rfl (List.append_ne_nil_of_right_ne_nil _ (List.cons_ne_nil f []))
  fragments := by
    rw [h.fragments, List.map_append]
    rfl
  fragmentBytes := by
    rw [h.fragmentBytes, WebSocket.contentOf_append, List.length_append]
    simp [contentOf]

/-- So the content of the message grows by its payload. -/
theorem flatten_fragments {start : List WebSocket.Frame} (h : Tracks l start)
    (f : WebSocket.Frame) : (l.fragments ++ [f.payload]).flatten = contentOf (start ++ [f]) := by
  rw [h.fragments, contentOf, List.flatMap_def, List.map_append, List.map_singleton]

/-- A data frame is out of order, goes over the cap, or goes on with the message. -/
theorem reassemble_cases {start : List WebSocket.Frame} (h : Tracks l start) {frame : WSFrame}
    (hdata : frame.opcode.isControl = false) (htext : frame.opcode ≠ .binary) :
    (frame.opcode ≠ WebSocket.expected start ∧
      ∃ reason, l.reassemble frame = (l.abort reason CLOSE_PROTOCOL, none)) ∨
    (frame.opcode = WebSocket.expected start ∧
      MAX_MSG_BYTES < (contentOf (start ++ [frame.toFrame])).length ∧
      ∃ reason, l.reassemble frame = (l.abort reason CLOSE_TOO_BIG, none)) ∨
    (frame.opcode = WebSocket.expected start ∧
      (contentOf (start ++ [frame.toFrame])).length ≤ MAX_MSG_BYTES ∧
      ∃ fragments fragmentBytes opened,
        let l' : Listener := { l with fragments, fragmentBytes, opened }
        (frame.fin = false ∧ l.reassemble frame = ((l', []), none) ∧
            Tracks l' (start ++ [frame.toFrame]) ∨
          frame.fin = true ∧
            l.reassemble frame = ((l', []), some (contentOf (start ++ [frame.toFrame]))) ∧
            Tracks l' [])) := by
  have hcontent : (contentOf (start ++ [frame.toFrame])).length =
      l.fragmentBytes + frame.payload.length := by
    rw [WebSocket.contentOf_append, List.length_append, h.fragmentBytes]
    simp [contentOf]
  have hopcode : frame.opcode = .text ∨ frame.opcode = .continuation := by
    cases hop : frame.opcode with
    | text => exact Or.inl rfl
    | continuation => exact Or.inr rfl
    | binary => exact absurd hop htext
    | _ =>
      rw [hop] at hdata
      cases hdata
  by_cases horder : frame.opcode = WebSocket.expected start
  swap
  · refine Or.inl ⟨horder, ?_⟩
    rw [reassemble]
    by_cases hstart : start = []
    · have hclosed : ¬l.opened = true := fun hopened => h.opened.mp hopened hstart
      rw [WebSocket.expected, if_pos hstart] at horder
      rw [if_pos ⟨hopcode.resolve_left horder, hclosed⟩]
      exact ⟨_, rfl⟩
    · have hopened := h.opened.mpr hstart
      rw [WebSocket.expected, if_neg hstart] at horder
      rw [if_neg fun hboth => hboth.2 hopened, if_pos ⟨horder, hopened⟩]
      exact ⟨_, rfl⟩
  have hpasses : ¬(frame.opcode = .continuation ∧ ¬l.opened = true) ∧
      ¬(¬frame.opcode = .continuation ∧ l.opened = true) := by
    rw [h.opened, horder, WebSocket.expected]
    by_cases hstart : start = []
    · simp [hstart]
    · simp [hstart]
  rw [reassemble]
  rw [if_neg hpasses.1, if_neg hpasses.2]
  by_cases hsingle : frame.fin = true ∧ ¬l.opened = true
  · -- a message of one frame is not buffered
    have hstart : start = [] := by
      by_contra hne
      exact hsingle.2 (h.opened.mpr hne)
    subst hstart
    refine Or.inr (Or.inr
      ⟨horder, ?_, l.fragments, l.fragmentBytes, l.opened, Or.inr ⟨hsingle.1, ?_, h⟩⟩)
    · rw [hcontent, h.fragmentBytes]
      exact (Nat.zero_add _).le.trans (frame.cap hdata)
    · rw [if_pos hsingle, List.nil_append, contentOf, List.flatMap_singleton]
  rw [if_neg hsingle]
  dsimp only
  by_cases hsize : l.fragmentBytes + frame.payload.length > MAX_MSG_BYTES
  · rw [if_pos hsize]
    exact Or.inr (Or.inl ⟨horder, hcontent ▸ hsize, _, rfl⟩)
  rw [if_neg hsize]
  refine Or.inr (Or.inr ⟨horder, hcontent ▸ Nat.not_lt.mp hsize, ?_⟩)
  have htracks := h.concat frame.toFrame
  cases hfin : frame.fin with
  | false =>
    refine ⟨_, _, _, Or.inl ⟨rfl, ?_, htracks⟩⟩
    rw [if_pos Bool.false_ne_true]
    rfl
  | true =>
    refine ⟨[], 0, false,
      Or.inr ⟨rfl, ?_, iff_of_false Bool.false_ne_true (not_not.mpr rfl), rfl, rfl⟩⟩
    rw [if_neg (not_not.mpr rfl), ← flatten_fragments h]
    rfl

/-! ## One step -/

/-- No callback has raised, and none will. -/
structure Healthy (l : Listener) : Prop where
  callbackError : l.callbackError = none
  quiet : l.driver.Quiet

/-- A listener that closes stays healthy. -/
theorem Closes.healthy {code : ℕ} {r : Listener × List Action} (h : Closes l code r)
    (hl : l.Healthy) : r.1.Healthy := by
  obtain ⟨reason, hdriver⟩ := h.driver
  refine ⟨h.callbackError.trans hl.callbackError, ?_⟩
  rw [hdriver]
  exact Quiet.latch hl.quiet code reason

/-- What a listener has read: messages, and the start of another. -/
structure Reading (l : Listener) (fs : List WebSocket.Frame)
    (messages : List (List WebSocket.Frame))
    (start : List WebSocket.Frame) : Prop where
  reads : Reads fs messages start
  capped : Capped messages start
  text : AreText messages
  tracks : Tracks l start
  closeReceived : l.closeReceived = false
  finalized : l.finalized = false
  running : l.driver.close = none → l.dataEnded = false

/-- A callback that hands nothing to the driver, and nothing will be. -/
structure Idles (l : Listener) (r : Listener × List Action) : Prop where
  ended : Ended r.1
  handed : handed r.2 = []
  close : ∀ intent, l.driver.close = some intent → r.1.driver.close = some intent
  fragments : r.1.fragments = l.fragments ∨ r.1.fragments = []
  healthy : l.Healthy → r.1.Healthy

/-- It hands nothing on. -/
theorem Closes.idles {code : ℕ} {r : Listener × List Action} (h : Closes l code r) : Idles l r where
  ended := Or.inl h.ended
  handed := h.handed
  close intent hintent := by
    obtain ⟨reason, hdriver⟩ := h.driver
    rw [hdriver]
    exact close_latch hintent code reason
  fragments := h.fragments
  healthy := h.healthy

/-- A callback that goes on reading. -/
structure ReadsOn (fs : List WebSocket.Frame) (messages : List (List WebSocket.Frame))
    (r : Listener × List Action) : Prop where
  reading : ∃ fresh start, Reading r.1 fs (messages ++ fresh) start ∧
    handed r.2 = fresh.map contentOf
  healthy : r.1.Healthy

variable {fs : List WebSocket.Frame} {messages : List (List WebSocket.Frame)}
  {start : List WebSocket.Frame}

/-- A data frame out of order breaks the framing. -/
theorem Reading.breaks_framing (h : Reading l fs messages start) {frame : WSFrame}
    (hbad : frame.reserved = true ∨
      frame.opcode.isControl = false ∧ frame.opcode ≠ WebSocket.expected start) :
    Breaks (fs ++ [frame.toFrame]) CLOSE_PROTOCOL := by
  refine .framing fun messages' start' hreads => ?_
  obtain ⟨hplain, hnext⟩ := hreads.of_concat
  rcases hbad with hreserved | ⟨hdata, hop⟩
  · rw [hplain] at hreserved
    cases hreserved
  · rcases hnext with hcontrol | ⟨messages'', start'', hreads'', hexpected⟩
    · rw [hdata] at hcontrol
      cases hcontrol
    · obtain ⟨-, rfl⟩ := h.reads.unique hreads''
      exact hop hexpected

/-- What the driver does not end, the listener does not end either. -/
theorem afterBytes_spec (l : Listener) (payload : Bytes) (frames : List Bytes) :
    ∃ isCloseFrameSent dataEnded,
      (l.afterBytes payload frames).1 = { l with isCloseFrameSent, dataEnded } ∧
      (l.driver.close = none → dataEnded = l.dataEnded) ∧
      handed (l.afterBytes payload frames).2 = [payload] := by
  have hhanded : ∀ actions, handed actions = [] →
      handed ((Action.handed payload :: frames.map .send) ++ actions) = [payload] := by
    intro actions hnone
    rw [handed_append, hnone, List.append_nil]
    change payload :: handed (frames.map .send) = _
    rw [handed_map_send]
  rw [afterBytes]
  split_ifs with hclose
  · obtain ⟨sent, hsent⟩ := close_fst l
    refine ⟨sent, true, ?_, fun hnone => ?_, hhanded _ (handed_close l)⟩
    · rw [hsent]
      rfl
    · rw [hnone] at hclose
      cases hclose
  · refine ⟨l.isCloseFrameSent, l.dataEnded, rfl, fun _ => rfl, ?_⟩
    rw [← List.append_nil (_ :: _)]
    exact hhanded [] rfl

/-- A tick changes the driver, and may end the data. -/
theorem onTick_spec (hcodec : codec.Sound) (hl : l.Healthy) (nowNs : ℤ) :
    ∃ driver isCloseFrameSent dataEnded,
      (l.onTick cfg codec nowNs).1 = { l with driver, isCloseFrameSent, dataEnded } ∧
      driver = (l.driver.onTimer cfg codec nowNs).1 ∧ driver.Quiet ∧
      (dataEnded = l.dataEnded ∨ dataEnded = true) ∧
      (driver.close = none → dataEnded = l.dataEnded) ∧
      handed (l.onTick cfg codec nowNs).2 = [] := by
  obtain ⟨⟨frames, hframes⟩, hquiet⟩ := @onTimer_ok cfg codec hcodec _ hl.quiet nowNs
  have hcall : l.driver.onTimer cfg codec nowNs =
      ((l.driver.onTimer cfg codec nowNs).1, .ok frames) := Prod.ext rfl hframes
  rw [onTick]
  generalize l.driver.onTimer cfg codec nowNs = r at hcall hquiet ⊢
  obtain ⟨driver, result⟩ := r
  cases hcall
  dsimp only
  split_ifs with hclose
  · obtain ⟨sent, hsent⟩ := close_fst { l with driver }
    refine ⟨driver, sent, true, ?_, rfl, hquiet, Or.inr rfl, fun hnone => ?_, ?_⟩
    · rw [hsent]
      rfl
    · rw [hnone] at hclose
      cases hclose
    · rw [handed_append, handed_map_send, handed_close]
      rfl
  · exact ⟨driver, l.isCloseFrameSent, l.dataEnded, rfl, rfl, hquiet, Or.inl rfl, fun _ => rfl,
      handed_map_send frames⟩

/-- A data frame on a listener that is open. -/
theorem onData_spec (hcodec : codec.Sound) (hl : l.Healthy) (h : Reading l fs messages start)
    (hopen : l.driver.close = none) {frame : WSFrame} (hplain : frame.reserved = false)
    (hdata : frame.opcode.isControl = false) (nowNs : ℤ) :
    (∃ code, Breaks (fs ++ [frame.toFrame]) code ∧ Closes l code (l.onData cfg codec frame nowNs)) ∨
      ReadsOn (fs ++ [frame.toFrame]) messages (l.onData cfg codec frame nowNs) := by
  by_cases hbinary : frame.opcode = .binary
  · have hop : frame.opcode ≠ WebSocket.expected start := by
      rw [hbinary, WebSocket.expected]
      split_ifs <;> exact fun heq => by contradiction
    -- a binary frame is never expected: the subprotocol is text
    rw [onData, if_pos hbinary]
    exact Or.inl ⟨_, h.breaks_framing (Or.inr ⟨hdata, hop⟩), closes_abort l _ _⟩
  rw [onData, if_neg hbinary]
  rcases reassemble_cases h.tracks hdata hbinary with ⟨hop, reason, heq⟩ |
    ⟨hop, hsize, reason, heq⟩ |
    ⟨hop, hsize, fragments, fragmentBytes, opened, hgoes⟩
  · rw [heq]
    exact Or.inl ⟨_, h.breaks_framing (Or.inr ⟨hdata, hop⟩), closes_abort l reason _⟩
  · rw [heq]
    refine Or.inl ⟨_, ?_, closes_abort l reason _⟩
    -- whether or not the frame ends its message, the message is too long
    rcases h.reads.concat hplain hop with ⟨-, hreads⟩ | ⟨-, hreads⟩
    · exact .size hreads fun hcapped => absurd hcapped.2 (Nat.not_le.mpr hsize)
    · refine .size hreads fun hcapped => absurd (hcapped.1 _ ?_) (Nat.not_le.mpr hsize)
      exact List.mem_append_right _ List.mem_cons_self
  · rcases h.reads.concat hplain hop with ⟨hfin, hreads⟩ | ⟨hfin, hreads⟩
    · rcases hgoes with ⟨-, heq, htracks⟩ | ⟨hfin', -⟩
      · rw [heq]
        -- the message goes on, and nothing is handed over yet
        refine Or.inr ⟨⟨[], start ++ [frame.toFrame], ?_, rfl⟩, hl.callbackError, hl.quiet⟩
        rw [List.append_nil]
        exact ⟨hreads, ⟨h.capped.1, hsize⟩, h.text, htracks, h.closeReceived, h.finalized,
          h.running⟩
      · rw [hfin] at hfin'
        cases hfin'
    · rcases hgoes with ⟨hfin', -⟩ | ⟨-, heq, htracks⟩
      · rw [hfin] at hfin'
        cases hfin'
      have hcapped : Capped (messages ++ [start ++ [frame.toFrame]]) [] :=
        ⟨List.forall_mem_append.mpr ⟨h.capped.1, List.forall_mem_singleton.mpr hsize⟩,
          Nat.zero_le _⟩
      rw [heq]
      dsimp only
      -- the message is whole: it is handed over if it is text
      by_cases hvalid : Utf8.Valid (contentOf (start ++ [frame.toFrame]))
      · rw [if_pos hvalid]
        obtain ⟨⟨frames, hframes⟩, hquiet⟩ :=
          @onBytes_ok cfg codec hcodec _ hl.quiet (contentOf (start ++ [frame.toFrame])) nowNs
        have hcall : l.driver.onBytes cfg codec (contentOf (start ++ [frame.toFrame])) nowNs =
            ((l.driver.onBytes cfg codec (contentOf (start ++ [frame.toFrame])) nowNs).1,
              .ok frames) := Prod.ext rfl hframes
        rw [hcall]
        dsimp only
        obtain ⟨isCloseFrameSent, dataEnded, hafter, hdataEnded, hhanded⟩ := afterBytes_spec
          { l with
            fragments, fragmentBytes, opened
            driver := (l.driver.onBytes cfg codec (contentOf (start ++ [frame.toFrame])) nowNs).1 }
          (contentOf (start ++ [frame.toFrame])) frames
        refine Or.inr ⟨⟨[start ++ [frame.toFrame]], [], ?_, hhanded⟩, ?_⟩
        · rw [hafter]
          have htext : AreText (messages ++ [start ++ [frame.toFrame]]) :=
            List.forall_mem_append.mpr ⟨h.text, List.forall_mem_singleton.mpr hvalid⟩
          exact ⟨hreads, hcapped, htext, ⟨htracks.opened, htracks.fragments, htracks.fragmentBytes⟩,
            h.closeReceived, h.finalized, fun hnone => (hdataEnded hnone).trans (h.running hopen)⟩
        · rw [hafter]
          exact ⟨hl.callbackError, hquiet⟩
      · rw [if_neg hvalid]
        refine Or.inl ⟨_, .text hreads hcapped fun htext => hvalid (htext _ ?_), ?_⟩
        · exact List.mem_append_right _ List.mem_cons_self
        · obtain ⟨hdriver, hended, hhanded, hfragments, herror⟩ :=
            closes_closeWith { l with fragments, fragmentBytes, opened }
              (ascii "text frame is not valid UTF-8") CLOSE_BAD_PAYLOAD
          exact ⟨hdriver, hended, hhanded, Or.inr (hfragments.elim (·.trans htracks.fragments) id),
            herror⟩

/-- An event that does not cut is read on. -/
theorem step_readsOn (hcodec : codec.Sound) (hl : l.Healthy) (h : Reading l fs messages start)
    {e : Event} (huncut : ¬Cuts l.driver fs e) :
    ReadsOn (fs ++ framesIn [e]) messages (l.step cfg codec e) := by
  have hopen : l.driver.close = none := by
    by_contra hlatched
    exact huncut (.decided hlatched)
  cases e with
  | endData => exact absurd .endData huncut
  | disconnected => exact absurd .disconnected huncut
  | tick nowNs =>
    obtain ⟨driver, isCloseFrameSent, dataEnded, htick, -, hquiet, -, hdataEnded, hhanded⟩ :=
      @onTick_spec cfg codec l hcodec hl nowNs
    refine ⟨⟨[], start, ?_, hhanded⟩, ?_⟩
    · change Reading (l.onTick cfg codec nowNs).1 _ _ _
      rw [htick, List.append_nil]
      change Reading _ (fs ++ []) _ _
      rw [List.append_nil]
      exact ⟨h.reads, h.capped, h.text,
        ⟨h.tracks.opened, h.tracks.fragments, h.tracks.fragmentBytes⟩, h.closeReceived, h.finalized,
        fun hnone => (hdataEnded hnone).trans (h.running hopen)⟩
    · change (l.onTick cfg codec nowNs).1.Healthy
      rw [htick]
      exact ⟨hl.callbackError, hquiet⟩
  | frame f nowNs =>
    change ReadsOn (fs ++ [f.toFrame]) messages (l.onWsFrame cfg codec f nowNs)
    rw [onWsFrame, h.closeReceived, if_neg Bool.false_ne_true]
    cases hreserved : f.reserved with
    | true => exact absurd (.breaks (h.breaks_framing (Or.inl hreserved))) huncut
    | false =>
      rw [if_neg Bool.false_ne_true]
      cases hcontrol : f.opcode.isControl with
      | true =>
        rw [if_pos rfl]
        have hreads := h.reads.control hreserved hcontrol
        have hidle : (l.onControl f).1 = l ∧ handed (l.onControl f).2 = [] := by
          rw [onControl]
          cases hop : f.opcode with
          | close => exact absurd (.peerClose hreserved hop) huncut
          | ping => exact ⟨rfl, rfl⟩
          | _ => exact ⟨rfl, rfl⟩
        refine ⟨⟨[], start, ?_, hidle.2⟩, hidle.1.symm ▸ hl⟩
        rw [hidle.1, List.append_nil]
        exact { h with reads := hreads }
      | false =>
        rw [if_neg Bool.false_ne_true, h.running hopen, hopen]
        rcases @onData_spec cfg codec l _ _ _ hcodec hl h hopen f hreserved hcontrol nowNs with
          ⟨code, hbreaks, -⟩ | hon
        · exact absurd (.breaks hbreaks) huncut
        · exact hon

/-- The close of the peer hands nothing on. -/
theorem idles_onPeerClose (l : Listener) (frame : WSFrame) : Idles l (l.onPeerClose frame) := by
  rw [onPeerClose]
  obtain ⟨code, legal⟩ := classifyCloseBody frame.payload
  cases legal with
  | true =>
    refine ⟨Or.inl rfl, ?_, fun _ hintent => hintent, Or.inr rfl,
      fun hl => ⟨hl.callbackError, hl.quiet⟩⟩
    cases code <;> simp only [if_true] <;> split_ifs <;> rfl
  | false =>
    refine ⟨Or.inl rfl, ?_, fun _ hintent => close_latch hintent _ _, Or.inr rfl,
      fun hl => ⟨hl.callbackError, Quiet.latch hl.quiet _ _⟩⟩
    cases code <;> simp only [Bool.false_eq_true, if_false] <;> split_ifs <;> rfl

/-- Neither does the end of the connection. -/
theorem idles_onWsDisconnected (h : Ended l ∨ l.finalized = false) :
    Idles l (l.onWsDisconnected, []) := by
  rw [onWsDisconnected, finalize]
  split_ifs with hfinalized
  · have hended : Ended l := h.resolve_right (Bool.not_eq_false _ |>.mpr hfinalized)
    exact ⟨hended, rfl, fun _ hintent => hintent, Or.inl rfl,
      fun hl => ⟨hl.callbackError, hl.quiet⟩⟩
  · exact ⟨Or.inl rfl, rfl, fun _ hintent => hintent, Or.inl rfl,
      fun hl => ⟨hl.callbackError, fun _ => rfl⟩⟩

/-- Neither does the end of the data. -/
theorem idles_endData (l : Listener) : Idles l (l.endData, []) :=
  ⟨Or.inl rfl, rfl, fun _ hintent => hintent, Or.inl rfl, fun hl => ⟨hl.callbackError, hl.quiet⟩⟩

/-- Once the data has ended, no event hands anything to the driver. -/
theorem idles_step (hcodec : codec.Sound) (hl : l.Healthy) (h : Ended l) (e : Event) :
    Idles l (l.step cfg codec e) := by
  have hsame : ∀ actions, handed actions = [] → Idles l (l, actions) := fun actions hnone =>
    ⟨h, hnone, fun _ hintent => hintent, Or.inl rfl, id⟩
  cases e with
  | endData => exact idles_endData l
  | disconnected => exact idles_onWsDisconnected (Or.inl h)
  | tick nowNs =>
    obtain ⟨driver, isCloseFrameSent, dataEnded, htick, hdriver, hquiet, hended, -, hhanded⟩ :=
      @onTick_spec cfg codec l hcodec hl nowNs
    have hkept : ∀ intent, l.driver.close = some intent → driver.close = some intent := by
      intro intent hintent
      rw [hdriver]
      exact (latches_step cfg codec l.driver (.onTimer nowNs) intent hintent).1
    change Idles l (l.onTick cfg codec nowNs)
    refine ⟨?_, hhanded, ?_, ?_, fun _ => ?_⟩
    · rw [htick]
      rcases h with hdata | hlatched
      · exact Or.inl (hended.elim (·.trans hdata) id)
      · obtain ⟨intent, hintent⟩ := Option.ne_none_iff_exists'.mp hlatched
        refine Or.inr ?_
        rw [show _ = some intent from hkept intent hintent]
        exact fun hnone => by contradiction
    · rw [htick]
      exact hkept
    · rw [htick]
      exact Or.inl rfl
    · rw [htick]
      exact ⟨hl.callbackError, hquiet⟩
  | frame f nowNs =>
    change Idles l (l.onWsFrame cfg codec f nowNs)
    rw [onWsFrame]
    split_ifs with hreceived hreserved hcontrol hended
    · exact hsame [] rfl
    · exact (closes_abort l _ _).idles
    · rw [onControl]
      cases f.opcode with
      | close => exact idles_onPeerClose l f
      | ping => exact hsame _ rfl
      | _ => exact hsame [] rfl
    · exact hsame [] rfl
    · refine absurd ?_ hended
      rw [Bool.or_eq_true, Option.isSome_iff_ne_none]
      exact h

/-- The event that cuts hands nothing to the driver, and a rule that it breaks is answered with the
code of the rule. -/
theorem step_cut (hcodec : codec.Sound) (hl : l.Healthy) (h : Reading l fs messages start)
    {e : Event} (hcut : Cuts l.driver fs e) :
    Idles l (l.step cfg codec e) ∧
      ∀ f nowNs code, e = .frame f nowNs → Breaks (fs ++ [f.toFrame]) code → l.driver.close = none →
        ∃ reason, (l.step cfg codec e).1.driver.close = some { code, reason } := by
  -- a control frame breaks nothing, unless it has a reserved bit
  have hobeys : ∀ {f : WSFrame} {code : ℕ}, f.reserved = false → f.opcode.isControl = true →
      ¬Breaks (fs ++ [f.toFrame]) code := fun hplain hcontrol =>
    Legal.not_breaks ⟨start, h.reads.control hplain hcontrol, h.capped, h.text⟩ _
  cases hcut with
  | decided hlatched =>
    exact ⟨idles_step hcodec hl (Or.inr hlatched) e, fun _ _ _ _ _ hopen => absurd hopen hlatched⟩
  | endData => exact ⟨idles_endData l, fun _ _ _ heq => by contradiction⟩
  | disconnected =>
    exact ⟨idles_onWsDisconnected (Or.inr h.finalized), fun _ _ _ heq => by contradiction⟩
  | @peerClose f nowNs hplain hclose =>
    have hcontrol : f.opcode.isControl = true := by
      rw [hclose]
      rfl
    have hstep : l.step cfg codec (.frame f nowNs) = l.onPeerClose f := by
      change l.onWsFrame cfg codec f nowNs = _
      rw [onWsFrame, h.closeReceived, if_neg Bool.false_ne_true, hplain, if_neg Bool.false_ne_true,
        hcontrol, if_pos rfl, onControl, hclose]
    rw [hstep]
    refine ⟨idles_onPeerClose l f, fun f' nowNs' code heq hbreaks => ?_⟩
    cases heq
    exact absurd hbreaks (hobeys hplain hcontrol)
  | @breaks f nowNs code hbreaks =>
    by_cases hopen : l.driver.close = none
    swap
    · exact ⟨idles_step hcodec hl (Or.inr hopen) _, fun _ _ _ _ _ hnone => absurd hnone hopen⟩
    suffices hcloses : Closes l code (l.onWsFrame cfg codec f nowNs) by
      refine ⟨hcloses.idles, fun f' nowNs' code' heq hbreaks' _ => ?_⟩
      cases heq
      obtain ⟨reason, hdriver⟩ := hcloses.driver
      refine ⟨reason, ?_⟩
      change (l.onWsFrame cfg codec f nowNs).1.driver.close = _
      rw [hdriver, SessionDriver.latch, hopen, hbreaks'.unique hbreaks]
      rfl
    rw [onWsFrame, h.closeReceived, if_neg Bool.false_ne_true]
    cases hreserved : f.reserved with
    | true =>
      rw [if_pos rfl, hbreaks.unique (h.breaks_framing (Or.inl hreserved))]
      exact closes_abort l _ _
    | false =>
      rw [if_neg Bool.false_ne_true]
      cases hcontrol : f.opcode.isControl with
      | true => exact absurd hbreaks (hobeys hreserved hcontrol)
      | false =>
        rw [if_neg Bool.false_ne_true, h.running hopen, hopen]
        rcases @onData_spec cfg codec l _ _ _ hcodec hl h hopen f hreserved hcontrol nowNs with
          ⟨code', hbreaks', hcloses⟩ | ⟨⟨fresh, start', hreading, -⟩, -⟩
        · rw [hbreaks.unique hbreaks']
          exact hcloses
        · exact absurd hbreaks
            (Legal.not_breaks ⟨start', hreading.reads, hreading.capped, hreading.text⟩ _)

end Steps

/-! ## Runs -/

section Runs

variable (cfg : StrategyConfig) (codec : Codec)

/-- Nothing cuts these events, from a new connection on. -/
def Uncut (events : List Event) : Prop :=
  ∀ before e after, events = before ++ e :: after →
    ¬Cuts (run cfg codec before).1.driver (framesIn before) e

/-- What the actions of a run handed to the driver. -/
def handedIn (events : List Event) : List Bytes :=
  handed ((run cfg codec events).2.flatMap Prod.snd)

/-- What a run of events does with its frames. -/
structure Reassembles (events : List Event) : Prop where
  /-- The driver is handed the messages of the longest part that nothing cuts. A rule that the next
  event breaks is answered with the code of the rule. -/
  longest : ∃ before after messages, events = before ++ after ∧ Uncut cfg codec before ∧
    (∀ e rest, after = e :: rest → Cuts (run cfg codec before).1.driver (framesIn before) e) ∧
    Legal (framesIn before) messages ∧ handedIn cfg codec events = messages.map contentOf ∧
    ∀ f nowNs rest code, after = .frame f nowNs :: rest →
      Breaks (framesIn before ++ [f.toFrame]) code → (run cfg codec before).1.driver.close = none →
        ∃ reason, (run cfg codec events).1.driver.close = some { code, reason }
  /-- The first close intent stays. -/
  latched : ∀ before after, events = before ++ after →
    ∀ intent, (run cfg codec before).1.driver.close = some intent →
      (run cfg codec events).1.driver.close = some intent
  /-- Control frames change nothing. -/
  control : ∀ before f nowNs after, events = before ++ .frame f nowNs :: after →
    f.reserved = false → f.opcode = .ping ∨ f.opcode = .pong →
      (run cfg codec events).1 = (run cfg codec (before ++ after)).1 ∧
        handedIn cfg codec events = handedIn cfg codec (before ++ after)
  buffered : ((run cfg codec events).1.fragments.map List.length).sum ≤ MAX_MSG_BYTES
  /-- No callback raises. -/
  calm : (run cfg codec events).1.callbackError = none

variable {cfg codec}

/-- How far a run has come. -/
inductive Judged (cfg : StrategyConfig) (codec : Codec) (events : List Event) : Prop
  | reading {messages : List (List WebSocket.Frame)} {start : List WebSocket.Frame}
      (uncut : Uncut cfg codec events)
      (reading : Reading (run cfg codec events).1 (framesIn events) messages start)
      (handed : handedIn cfg codec events = messages.map contentOf) : Judged cfg codec events
  | ended {before rest : List Event} {e : Event} {messages : List (List WebSocket.Frame)}
      (heq : events = before ++ e :: rest) (uncut : Uncut cfg codec before)
      (cut : Cuts (run cfg codec before).1.driver (framesIn before) e)
      (legal : Legal (framesIn before) messages)
      (handed : handedIn cfg codec events = messages.map contentOf)
      (ended : Ended (run cfg codec events).1)
      (buffered : ((run cfg codec events).1.fragments.map List.length).sum ≤ MAX_MSG_BYTES)
      (answered : ∀ f nowNs code, e = .frame f nowNs →
        Breaks (framesIn before ++ [f.toFrame]) code →
        (run cfg codec before).1.driver.close = none →
          ∃ reason, (run cfg codec events).1.driver.close = some { code, reason }) :
      Judged cfg codec events

/-- What a run hands on is taken event by event. -/
theorem handedIn_concat (events : List Event) (e : Event) :
    handedIn cfg codec (events ++ [e]) =
      handedIn cfg codec events ++ handed ((run cfg codec events).1.step cfg codec e).2 := by
  rw [handedIn, run, Mealy.run_concat, List.flatMap_append, handed_append, List.flatMap_singleton]
  rfl

/-- So is the state it ends in. -/
theorem fst_run_concat (events : List Event) (e : Event) :
    (run cfg codec (events ++ [e])).1 = ((run cfg codec events).1.step cfg codec e).1 := by
  rw [run, Mealy.run_concat]

/-- An event that does not cut the run leaves it uncut. -/
theorem Uncut.concat {events : List Event} {e : Event} (h : Uncut cfg codec events)
    (huncut : ¬Cuts (run cfg codec events).1.driver (framesIn events) e) :
    Uncut cfg codec (events ++ [e]) := by
  intro before e' after heq
  rcases List.eq_nil_or_concat' after with rfl | ⟨after, e'', rfl⟩
  · obtain ⟨rfl, hsame⟩ := List.append_inj' heq rfl
    obtain rfl := List.singleton_inj.mp hsame
    exact huncut
  · rw [← List.cons_append, ← List.append_assoc] at heq
    exact h before e' after (List.append_inj' heq rfl).1

/-- The content of a message is as long as its payloads. -/
theorem length_contentOf (fs : List WebSocket.Frame) :
    (contentOf fs).length = ((fs.map WebSocket.Frame.payload).map List.length).sum := by
  rw [contentOf, List.length_flatMap, List.map_map]
  rfl

/-- While a message is read, the buffer holds no more than it. -/
theorem Reading.buffered {l : Listener} {fs : List WebSocket.Frame}
    {messages : List (List WebSocket.Frame)} {start : List WebSocket.Frame}
    (h : Reading l fs messages start) : (l.fragments.map List.length).sum ≤ MAX_MSG_BYTES := by
  rw [h.tracks.fragments, ← length_contentOf]
  exact h.capped.2

/-- Where nothing is handed on, the buffer grows by nothing. -/
theorem Idles.buffered {l : Listener} {r : Listener × List Action} (h : Idles l r)
    (hl : (l.fragments.map List.length).sum ≤ MAX_MSG_BYTES) :
    (r.1.fragments.map List.length).sum ≤ MAX_MSG_BYTES := by
  rcases h.fragments with hsame | hnone
  · rw [hsame]
    exact hl
  · rw [hnone]
    exact Nat.zero_le _

/-- An event keeps the run judged. -/
theorem judged_concat (hcodec : codec.Sound) {events : List Event} (h : Judged cfg codec events)
    (hl : (run cfg codec events).1.Healthy) (e : Event) :
    Judged cfg codec (events ++ [e]) ∧ (run cfg codec (events ++ [e])).1.Healthy := by
  cases h with
  | @reading messages start huncut hreading hhanded =>
    by_cases hcut : Cuts (run cfg codec events).1.driver (framesIn events) e
    · obtain ⟨hidles, hanswered⟩ := @step_cut cfg codec _ _ _ _ hcodec hl hreading e hcut
      have hlegal : Legal (framesIn events) messages :=
        ⟨start, hreading.reads, hreading.capped, hreading.text⟩
      refine ⟨.ended rfl huncut hcut hlegal ?_ ?_ ?_ ?_, ?_⟩
      · rw [handedIn_concat, hidles.handed, List.append_nil, hhanded]
      · rw [fst_run_concat]
        exact hidles.ended
      · rw [fst_run_concat]
        exact hidles.buffered hreading.buffered
      · rw [fst_run_concat]
        exact hanswered
      · rw [fst_run_concat]
        exact hidles.healthy hl
    · obtain ⟨⟨fresh, start', hreading', hfresh⟩, hl'⟩ :=
        @step_readsOn cfg codec _ _ _ _ hcodec hl hreading e hcut
      rw [← framesIn_append, ← fst_run_concat] at hreading'
      refine ⟨.reading (huncut.concat hcut) hreading' ?_, ?_⟩
      · rw [handedIn_concat, hfresh, List.map_append, hhanded]
      · rw [fst_run_concat]
        exact hl'
  | @ended before rest e' messages heq huncut hcut hlegal hhanded hended hbuffered hanswered =>
    have hidles := @idles_step cfg codec _ hcodec hl hended e
    have heq' : events ++ [e] = before ++ e' :: (rest ++ [e]) := by
      rw [heq, List.append_assoc, List.cons_append]
    refine ⟨.ended heq' huncut hcut hlegal ?_ ?_ ?_ ?_, ?_⟩
    · rw [handedIn_concat, hidles.handed, List.append_nil, hhanded]
    · rw [fst_run_concat]
      exact hidles.ended
    · rw [fst_run_concat]
      exact hidles.buffered hbuffered
    · intro f nowNs code hf hbreaks hopen
      obtain ⟨reason, hreason⟩ := hanswered f nowNs code hf hbreaks hopen
      rw [fst_run_concat]
      exact ⟨reason, hidles.close _ hreason⟩
    · rw [fst_run_concat]
      exact hidles.healthy hl

/-- So every run is judged, and its listener is healthy. -/
theorem judged_run (hcodec : codec.Sound) (events : List Event) :
    Judged cfg codec events ∧ (run cfg codec events).1.Healthy := by
  induction events using List.reverseRecOn with
  | nil =>
    have hcapped : Capped [] [] := ⟨fun _ hm => (by contradiction), Nat.zero_le _⟩
    have htracks : Tracks {} [] := ⟨iff_of_false Bool.false_ne_true (not_not.mpr rfl), rfl, rfl⟩
    have hreading : Reading {} [] [] [] :=
      ⟨.nil, hcapped, fun _ hm => (by contradiction), htracks, rfl, rfl, fun _ => rfl⟩
    refine ⟨.reading (fun before e after heq => ?_) hreading rfl, rfl, fun _ => rfl⟩
    exact absurd heq.symm (List.append_ne_nil_of_right_ne_nil _ (List.cons_ne_nil e after))
  | append_singleton events e ih => exact judged_concat hcodec ih.1 ih.2 e

/-- A latched intent stays. -/
theorem close_run (hcodec : codec.Sound) {l : Listener} (hl : l.Healthy) {intent : CloseIntent}
    (hintent : l.driver.close = some intent) (events : List Event) :
    (Mealy.run (step cfg codec) l events).1.driver.close = some intent := by
  induction events generalizing l with
  | nil => exact hintent
  | cons e events ih =>
    have hended : Ended l := Or.inr (by rw [hintent]; exact fun hnone => by contradiction)
    have hidles := @idles_step cfg codec l hcodec hl hended e
    exact ih (hidles.healthy hl) (hidles.close intent hintent)

/-- A ping or a pong leaves the listener as it is. -/
theorem step_control (l : Listener) {f : WSFrame} (hplain : f.reserved = false)
    (hop : f.opcode = .ping ∨ f.opcode = .pong) (nowNs : ℤ) :
    ∃ actions, l.step cfg codec (.frame f nowNs) = (l, actions) ∧ handed actions = [] := by
  change ∃ actions, l.onWsFrame cfg codec f nowNs = _ ∧ _
  have hcontrol : f.opcode.isControl = true := by
    rcases hop with hop | hop
    · rw [hop]
      rfl
    · rw [hop]
      rfl
  rw [onWsFrame, hplain, hcontrol, if_neg Bool.false_ne_true, if_pos rfl]
  split_ifs
  · exact ⟨[], rfl, rfl⟩
  · rw [onControl]
    rcases hop with hop | hop
    · rw [hop]
      exact ⟨[.pong f.payload], rfl, rfl⟩
    · rw [hop]
      exact ⟨[], rfl, rfl⟩

/-- A ping or a pong inside a message changes nothing that is handed on. -/
theorem run_control (before after : List Event) {f : WSFrame} (hplain : f.reserved = false)
    (hop : f.opcode = .ping ∨ f.opcode = .pong) (nowNs : ℤ) :
    (run cfg codec (before ++ .frame f nowNs :: after)).1 = (run cfg codec (before ++ after)).1 ∧
      handedIn cfg codec (before ++ .frame f nowNs :: after) =
        handedIn cfg codec (before ++ after) := by
  obtain ⟨actions, hstep, hnone⟩ :=
    @step_control cfg codec (run cfg codec before).1 f hplain hop nowNs
  rw [handedIn, handedIn, run, run, Mealy.run_append, Mealy.run_append, Mealy.run]
  rw [run] at hstep
  dsimp only
  rw [hstep]
  refine ⟨rfl, ?_⟩
  rw [List.flatMap_append, List.flatMap_append, List.flatMap_cons, handed_append, handed_append,
    handed_append, hnone, List.nil_append]

end Runs

end Listener

/-- Every run of either codec on a new connection reassembles its frames. -/
theorem run_reassembles (platform : Platform) (hplatform : platform.Documented) (codec : Codec)
    (hcodec : platform.IsArm codec) (cfg : StrategyConfig) (events : List Listener.Event) :
    Listener.Reassembles cfg codec events := by
  have hsound := hcodec.sound hplatform
  obtain ⟨hjudged, hhealthy⟩ := @Listener.judged_run cfg codec hsound events
  refine ⟨?_, ?_, ?_, ?_, hhealthy.callbackError⟩
  · cases hjudged with
    | @reading messages start huncut hreading hhanded =>
      exact ⟨events, [], messages, (List.append_nil _).symm, huncut,
        fun _ _ heq => (by contradiction),
        ⟨start, hreading.reads, hreading.capped, hreading.text⟩, hhanded,
        fun _ _ _ _ heq => (by contradiction)⟩
    | @ended before rest e messages heq huncut hcut hlegal hhanded _ _ hanswered =>
      refine ⟨before, e :: rest, messages, heq, huncut, fun e' rest' hsame => ?_, hlegal, hhanded,
        fun f nowNs rest' code hsame => ?_⟩
      · exact (List.cons.inj hsame).1 ▸ hcut
      · exact hanswered f nowNs code (List.cons.inj hsame).1
  · rintro before after rfl intent hintent
    rw [Listener.run, Mealy.run_append]
    exact Listener.close_run hsound (Listener.judged_run hsound before).2 hintent after
  · rintro before f nowNs after rfl hplain hop
    exact Listener.run_control before after hplain hop nowNs
  · cases hjudged with
    | reading _ hreading _ => exact hreading.buffered
    | ended _ _ _ _ _ _ hbuffered _ => exact hbuffered

/-- The start of a message, a ping, and another message before the first one has ended. -/
def interleavedFrames : List Listener.Event :=
  [.frame { fin := false, opcode := .text, payload := ascii "[",
             whole := by decide, cap := by decide } 0,
    .frame { fin := true, opcode := .ping, payload := [], whole := by decide, cap := by decide } 1,
    .frame { fin := true, opcode := .text, payload := ascii "]",
              whole := by decide, cap := by decide } 2]

theorem run_reassembles_interleaved :
    Listener.Reassembles (quoting 5) Platform.plain.tuned interleavedFrames :=
  run_reassembles .plain Platform.documented_plain _ (Or.inl rfl) (quoting 5) interleavedFrames

end Client

end MarketMaker
