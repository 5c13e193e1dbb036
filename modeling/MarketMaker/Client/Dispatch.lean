import MarketMaker.Client.Contiguity
import MarketMaker.Strategy.Guards

/-!
# What the engine reads of a dispatch

`_dispatch` stamps the commands of the strategy, encodes them and latches a close for each stop
among them. As long as the encoder refuses nothing, its frames are read back by the engine as the
commands themselves, in order and numbered on (`InFlight`), and the close is that of the first stop.
-/

namespace MarketMaker

namespace Client

/-! ## One frame -/

/-- The engine reads this command from the frame. -/
structure ReadAs (frame : Bytes) (msg : InMsg) : Prop where
  size : frame.length ≤ maxInboundMsgBytes
  decodes : ∀ parse, Nlohmann.Correct parse → Nlohmann.decode parse frame = .ok msg

/-- The octets of a string determine each other, also those that are no UTF-8. -/
theorem eq_of_isStr_ofBytes {t t' : Bytes} (h : (PyObject.ofBytes t).IsStr t') : t' = t := by
  obtain ⟨s, hs, hencode⟩ := h
  rw [PyObject.ofBytes, PyObject.str.injEq] at hs
  cases hdecode : Str.decode t with
  | none =>
    -- the lone surrogate that stands for such octets has no UTF-8
    rw [hdecode, Option.getD_none] at hs
    rw [← hs] at hencode
    cases hencode
  | some s' =>
    rw [hdecode, Option.getD_some] at hs
    rw [hs, Str.decode_eq_some_iff, hencode] at hdecode
    exact Option.some.inj hdecode

/-- What carries the fields of a command is that command. -/
theorem eq_of_carries {msg m : InMsg} (h : (toClientMsg msg).Carries m) : m = msg := by
  cases msg with
  | newOrder o =>
    cases h with
    | @newOrder _ o' hcarries =>
      obtain ⟨hv, hseq, hepoch, hmdSeq, hclId, hsymbol, hside, hpx, hqty, hpostOnly⟩ := hcarries
      have hclId := eq_of_isStr_ofBytes hclId
      have hsymbol := eq_of_isStr_ofBytes hsymbol
      have hside := eq_of_isStr_ofBytes hside
      simp only [PyObject.int.injEq, Nat.cast_inj] at hv hseq hepoch hmdSeq hpx hqty
      have hpostOnly := PyObject.bool.inj hpostOnly
      obtain ⟨v, seq, epoch, mdSeq, clId, symbol, side, px, qty, postOnly⟩ := o'
      subst hclId hsymbol hside hv hseq hepoch hmdSeq hpx hqty hpostOnly
      rfl
  | cancelOrder c =>
    cases h with
    | @cancelOrder _ c' hcarries =>
      obtain ⟨hv, hseq, hepoch, hclId⟩ := hcarries
      have hclId := eq_of_isStr_ofBytes hclId
      simp only [PyObject.int.injEq, Nat.cast_inj] at hv hseq hepoch
      obtain ⟨v, seq, epoch, clId⟩ := c'
      subst hclId hv hseq hepoch
      rfl

theorem readAs_of_delivers {frame : Bytes} {msg : InMsg}
    (h : ∀ parse, Nlohmann.Correct parse → Delivers parse (toClientMsg msg) frame) :
    ReadAs frame msg where
  size := (h _ Nlohmann.correct_domOf).size
  decodes parse hparse := by
    obtain ⟨-, m, hdecode, hcarries⟩ := h parse hparse
    rw [hdecode, eq_of_carries hcarries]

/-! ## Frames in flight -/

/-- The frames are read as these commands, stamped for the epoch and numbered on from
`start + 1`. -/
inductive InFlight (epoch : ℕ) : ℕ → List Bytes → List InMsg → Prop
  | nil (start : ℕ) : InFlight epoch start [] []
  | cons {start : ℕ} {frame : Bytes} {frames : List Bytes} {msg : InMsg} {msgs : List InMsg}
      (head : ReadAs frame (stampMsg (start + 1) epoch msg))
      (tail : InFlight epoch (start + 1) frames msgs) :
      InFlight epoch start (frame :: frames) (msg :: msgs)

section InFlight

variable {epoch start : ℕ} {frames frames' : List Bytes} {msgs msgs' : List InMsg}

theorem InFlight.length_eq (h : InFlight epoch start frames msgs) :
    frames.length = msgs.length := by
  induction h with
  | nil => rfl
  | cons _ _ ih => exact congrArg Nat.succ ih

theorem InFlight.append (h : InFlight epoch start frames msgs)
    (h' : InFlight epoch (start + frames.length) frames' msgs') :
    InFlight epoch start (frames ++ frames') (msgs ++ msgs') := by
  induction h with
  | nil => exact h'
  | @cons start _ frames _ _ head _ ih =>
    refine .cons head (ih ?_)
    rw [List.length_cons, Nat.add_comm frames.length, ← Nat.add_assoc] at h'
    exact h'

end InFlight

/-! ## A dispatch -/

/-- The close that a stop latches. -/
def intentOf (reason : Bytes) : CloseIntent where
  code := if (ascii "stale feed").isPrefixOf reason then CLOSE_STALE else CLOSE_PROTOCOL
  reason

/-- What a dispatch makes of a driver. -/
structure Dispatched (s : ℕ) (d : SessionDriver) (cmds : List Cmd) (d' : SessionDriver)
    (sent : List Bytes) : Prop where
  strategy : d'.strategy = d.strategy
  epoch : d'.epoch = some s
  inFlight : InFlight s d.outSeq sent (sends cmds)
  outSeq : d'.outSeq = d.outSeq + (sends cmds).length
  close : d'.close = d.close.or ((stopsIn cmds).head?.map intentOf)

section Dispatch

variable {cfg : StrategyConfig} {codec : Codec} {d : SessionDriver}

theorem close_noteStop (d : SessionDriver) (reason : Bytes) :
    (d.noteStop reason).close = d.close.or (some (intentOf reason)) := by
  rw [SessionDriver.noteStop, SessionDriver.latch]
  cases hclose : d.close with
  | none => rfl
  | some intent => exact hclose

/-- Commands that fit the wire all leave. -/
theorem dispatchLoop_dispatched (hcodec : codec.Sound)
    (hqty : FitsIdentifier maxSymbolLen cfg.symbol → InInt64 (min cfg.qty cfg.maxQty))
    {epoch bound : ℕ} (hepoch : d.epoch = some epoch) (hlt : epoch < 2 ^ 64)
    (hbound : bound < 2 ^ 64) {cmds : List Cmd}
    (hissued : ∀ msg ∈ sends cmds, Issued (FitsIdentifier maxSymbolLen) cfg bound msg)
    (hroom : d.outSeq + (sends cmds).length < 2 ^ 64) (frames : List Bytes) :
    ∃ sent, (d.dispatchLoop codec cmds frames).2 = .ok (frames ++ sent) ∧
      Dispatched epoch d cmds (d.dispatchLoop codec cmds frames).1 sent := by
  induction cmds generalizing d frames with
  | nil =>
    refine ⟨[], by rw [List.append_nil]; rfl, rfl, hepoch, .nil _, rfl, ?_⟩
    exact (Option.or_none).symm
  | cons cmd cmds ih =>
    cases cmd with
    | stopQuoting reason =>
      obtain ⟨hsame, hkept, hseq⟩ := latch_frame d
        (if (ascii "stale feed").isPrefixOf reason then CLOSE_STALE else CLOSE_PROTOCOL) reason
      obtain ⟨sent, hsent, hspec⟩ :=
        @ih (d.noteStop reason) (hkept.trans hepoch) hissued (hseq.symm ▸ hroom) frames
      refine ⟨sent, hsent, hspec.strategy.trans hsame, hspec.epoch, ?_, ?_, ?_⟩
      · have hflight := hspec.inFlight
        rw [show (d.noteStop reason).outSeq = d.outSeq from hseq] at hflight
        exact hflight
      · have hcount := hspec.outSeq
        rw [show (d.noteStop reason).outSeq = d.outSeq from hseq] at hcount
        exact hcount
      · -- the first stop wins
        refine hspec.close.trans ?_
        rw [close_noteStop, Option.or_assoc]
        rfl
    | send msg =>
      have hsends : sends (.send msg :: cmds) = msg :: sends cmds := rfl
      rw [hsends, List.length_cons] at hroom
      rw [hsends, List.forall_mem_cons] at hissued
      have hfits : d.outSeq + 1 < 2 ^ 64 := by omega
      obtain ⟨frame, hdelivers, hstep⟩ :=
        dispatchLoop_send hcodec hqty hepoch hlt hbound hissued.1 hfits cmds frames
      obtain ⟨sent, hsent, hspec⟩ :=
        @ih { d with outSeq := d.outSeq + 1 } hepoch hissued.2 (by dsimp only; omega)
          (frames ++ [frame])
      rw [hstep]
      refine ⟨frame :: sent, ?_, hspec.strategy, hspec.epoch,
        .cons (readAs_of_delivers hdelivers) hspec.inFlight, ?_, hspec.close⟩
      · rw [hsent, List.append_assoc, List.singleton_append]
      · rw [hspec.outSeq, hsends, List.length_cons]
        dsimp only
        omega

/-- A dispatch of what the strategy gives, on a driver that has adopted its epoch. -/
theorem Attached.dispatched {epoch : ℕ} {frames : List Bytes} (h : Attached cfg epoch d frames)
    (hcodec : codec.Sound)
    (hqty : FitsIdentifier maxSymbolLen cfg.symbol → InInt64 (min cfg.qty cfg.maxQty))
    {r : Strategy × List Cmd} (hr : d.strategy.Emits (FitsIdentifier maxSymbolLen) cfg r)
    (hroom : r.1.outSeq < 2 ^ 64) :
    ∃ sent, (({ d with strategy := r.1 } : SessionDriver).dispatch codec r.2).2 = .ok sent ∧
      Dispatched epoch { d with strategy := r.1 } r.2
        (({ d with strategy := r.1 } : SessionDriver).dispatch codec r.2).1 sent := by
  have hcount := hr.count
  obtain ⟨hsync, -, -⟩ := h.numbered (by omega)
  exact @dispatchLoop_dispatched cfg codec { d with strategy := r.1 } hcodec hqty epoch r.1.outSeq
    h.adopted h.lt hroom r.2 hr.issued (by dsimp only; omega) []

end Dispatch

/-! ## Calls -/

section Calls

variable {cfg : StrategyConfig} {codec : Codec} {d : SessionDriver}
  {history : List (SessionCall × List Bytes)} {raw : Bytes} {msg : EngineMsg}

theorem epoch_toOutMsg (msg : EngineMsg) : msg.toOutMsg.epoch = msg.natAttr "epoch" := by
  rw [EngineMsg.toOutMsg]
  cases msg.cls <;> rfl

/-- The driver attaches to the epoch of the first message, and stays attached. -/
theorem Synced.attached (h : Synced cfg codec d history) {epoch : ℕ} (hlt : epoch < 2 ^ 64)
    (hsame : ∀ e, d.epoch = some e → e = epoch) :
    ∃ frames, Attached cfg epoch (d.adopt epoch) frames := by
  rw [SessionDriver.adopt]
  cases hepoch : d.epoch with
  | none =>
    obtain ⟨-, -, hzero, -⟩ := h.before hepoch
    exact ⟨[], hlt, rfl, @Strategy.held_onConnect d.strategy _ cfg _, fun _ =>
      ⟨hzero, hzero.symm, numbered_nil _ _⟩⟩
  | some e =>
    obtain rfl := hsame e hepoch
    exact ⟨_, (h.after e hepoch).2⟩

/-- A frame that is decoded goes to the strategy. -/
theorem onBytes_of_decode (cfg : StrategyConfig) (hopen : d.close = none)
    (hdecode : codec.decode raw = .ok msg) (nowNs : ℤ) :
    d.onBytes cfg codec raw nowNs =
      ({ d.adopt (msg.natAttr "epoch") with
        strategy := ((d.adopt (msg.natAttr "epoch")).strategy.onReport cfg msg.toOutMsg nowNs).1 } :
          SessionDriver).dispatch codec
        ((d.adopt (msg.natAttr "epoch")).strategy.onReport cfg msg.toOutMsg nowNs).2 := by
  rw [SessionDriver.onBytes, hopen, hdecode]
  rfl

/-- An open driver dispatches what its strategy makes of a frame that it decodes. -/
theorem Synced.hears (h : Synced cfg codec d history) (hcodec : codec.Sound)
    (hqty : FitsIdentifier maxSymbolLen cfg.symbol → InInt64 (min cfg.qty cfg.maxQty))
    (hopen : d.close = none) (hdecode : codec.decode raw = .ok msg)
    (hsame : ∀ e, d.epoch = some e → e = msg.toOutMsg.epoch) {nowNs : ℤ}
    (hroom : (d.onBytes cfg codec raw nowNs).1.strategy.outSeq < 2 ^ 64) :
    let a := d.adopt msg.toOutMsg.epoch
    let r := a.strategy.onReport cfg msg.toOutMsg nowNs
    ∃ sent, (d.onBytes cfg codec raw nowNs).2 = .ok sent ∧
      Dispatched msg.toOutMsg.epoch { a with strategy := r.1 } r.2
        (d.onBytes cfg codec raw nowNs).1 sent := by
  intro a r
  rcases hcodec.decode raw with ⟨text, herror⟩ | ⟨msg', hdecode', hlt, hreceived⟩
  · rw [hdecode] at herror
    cases herror
  cases hdecode.symm.trans hdecode'
  have hcall := onBytes_of_decode cfg hopen hdecode nowNs
  rw [← epoch_toOutMsg] at hlt hcall
  obtain ⟨frames, hattached⟩ := h.attached hlt hsame
  have hspares := spares_dispatchLoop codec { a with strategy := r.1 } r.2 []
  rw [hcall] at hroom ⊢
  refine hattached.dispatched hcodec hqty (hattached.held.emits_onReport hreceived nowNs) ?_
  rw [show (SessionDriver.dispatch _ _ _).1.strategy = r.1 from hspares.strategy] at hroom
  exact hroom

/-- An attached driver dispatches what its strategy makes of a tick of the timer. -/
theorem Synced.ticks (h : Synced cfg codec d history) (hcodec : codec.Sound)
    (hqty : FitsIdentifier maxSymbolLen cfg.symbol → InInt64 (min cfg.qty cfg.maxQty)) {epoch : ℕ}
    (hepoch : d.epoch = some epoch) {nowNs : ℤ}
    (hroom : (d.onTimer cfg codec nowNs).1.strategy.outSeq < 2 ^ 64) :
    let r := d.strategy.onTimer cfg nowNs
    ∃ sent, (d.onTimer cfg codec nowNs).2 = .ok sent ∧
      Dispatched epoch { d with strategy := r.1 } r.2 (d.onTimer cfg codec nowNs).1 sent := by
  intro r
  obtain ⟨-, hattached⟩ := h.after epoch hepoch
  have hspares := spares_dispatchLoop codec { d with strategy := r.1 } r.2 []
  refine hattached.dispatched hcodec hqty (hattached.held.emits_onTimer nowNs) ?_
  rw [show (d.onTimer cfg codec nowNs).1.strategy = r.1 from hspares.strategy] at hroom
  exact hroom

/-- Before its first message a driver does nothing on a tick of the timer. -/
theorem Synced.onTimer_of_none (h : Synced cfg codec d history) (hepoch : d.epoch = none)
    (nowNs : ℤ) :
    d.onTimer cfg codec nowNs = (d, .ok []) := by
  have hquiet : d.strategy.onTimer cfg nowNs = (d.strategy, []) := by
    rw [(h.before hepoch).1]
    rfl
  rw [SessionDriver.onTimer, hquiet]
  rfl

/-- The strategy never takes back a number. -/
theorem Synced.outSeq_le (h : Synced cfg codec d history) (hcodec : codec.Sound) (c : SessionCall) :
    d.strategy.outSeq ≤ (d.call cfg codec c).1.strategy.outSeq := by
  cases c with
  | onBytes raw nowNs =>
    cases hclose : d.close with
    | some intent =>
      -- a latched driver reads nothing more
      have hsilent : d.onBytes cfg codec raw nowNs = (d, .ok []) := by
        rw [SessionDriver.onBytes, hclose]
        rfl
      rw [SessionDriver.call, hsilent]
    | none =>
      rcases hcodec.decode raw with ⟨text, herror⟩ | ⟨msg, hdecode, hlt, hreceived⟩
      -- an undecodable frame latches the driver before the strategy hears of it
      · have hlatched : d.onBytes cfg codec raw nowNs =
            (d.latch CLOSE_PROTOCOL (ascii "undecodable frame: " ++ text), .ok []) := by
          rw [SessionDriver.onBytes, hclose, herror]
          rfl
        rw [SessionDriver.call, hlatched, (latch_frame d _ _).1]
      · rw [SessionDriver.call, onBytes_of_decode cfg hclose hdecode]
        cases hepoch : d.epoch with
        | none =>
          -- before its epoch the strategy is the initial one
          rw [(h.before hepoch).1]
          exact Nat.zero_le _
        | some e =>
          -- the epoch is known, so the frame's is not adopted
          have hsame : d.adopt (msg.natAttr "epoch") = d := by
            rw [SessionDriver.adopt, hepoch]
            rfl
          have hcount := ((h.after e hepoch).2.held.emits_onReport hreceived nowNs).count
          have hspares := spares_dispatchLoop codec
            { d with strategy := (d.strategy.onReport cfg msg.toOutMsg nowNs).1 }
            (d.strategy.onReport cfg msg.toOutMsg nowNs).2 []
          rw [hsame, show (SessionDriver.dispatch _ _ _).1.strategy = _ from hspares.strategy]
          dsimp only
          omega
  | onTimer nowNs =>
    cases hepoch : d.epoch with
    | none => rw [SessionDriver.call, h.onTimer_of_none hepoch]
    | some e =>
      have hcount := ((h.after e hepoch).2.held.emits_onTimer nowNs).count
      have hspares := spares_dispatchLoop codec
        { d with strategy := (d.strategy.onTimer cfg nowNs).1 } (d.strategy.onTimer cfg nowNs).2 []
      rw [SessionDriver.call, show (d.onTimer cfg codec nowNs).1.strategy = _ from hspares.strategy]
      dsimp only
      omega
  | noteProtocolError reason code => exact (latch_frame d code reason).1.symm ▸ le_rfl

end Calls

end Client

end MarketMaker
