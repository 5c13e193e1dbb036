import MarketMaker.Client.Heard
import MarketMaker.Lib.Mealy

/-!
# The frames of a session

A driver is called with frames, with ticks of a timer and with verdicts of its adapter. `_stamp`
counts a command before the encoder has seen it, so a refusal leaves a gap, and a timer that fires
after it still sends cancels (`run_contiguous_refused`). The encoder refuses nothing but a quantity
out of the domain; for any other configuration the frames of a run are contiguous
(`run_contiguous`).
-/

namespace MarketMaker

namespace Client

/-! ## Runs -/

/-- A call of the driver. -/
inductive SessionCall
  | onBytes (raw : Bytes) (nowNs : ℤ)
  | onTimer (nowNs : ℤ)
  | noteProtocolError (reason : Bytes) (code : ℕ)

/-- The frames that a call returns. -/
def framesOf : Except Fault (List Bytes) → List Bytes
  | .ok frames => frames
  | .error _ => []

namespace SessionDriver

variable (cfg : StrategyConfig) (codec : Codec)

def call (d : SessionDriver) : SessionCall → SessionDriver × Except Fault (List Bytes)
  | .onBytes raw nowNs => d.onBytes cfg codec raw nowNs
  | .onTimer nowNs => d.onTimer cfg codec nowNs
  | .noteProtocolError reason code => (d.noteProtocolError reason code, .ok [])

def step (d : SessionDriver) (c : SessionCall) : SessionDriver × List Bytes :=
  ((d.call cfg codec c).1, framesOf (d.call cfg codec c).2)

/-- A run of calls on a new driver. -/
abbrev run (calls : List SessionCall) : SessionDriver × List (SessionCall × List Bytes) :=
  Mealy.run (step cfg codec) {} calls

end SessionDriver

/-! ## Contiguous frames -/

/-- The engine reads this envelope from a frame. -/
def HasEnvelope (frame : Bytes) (seq epoch : ℕ) : Prop :=
  ∀ parse, Nlohmann.Correct parse →
    ∃ m, Nlohmann.decode parse frame = .ok m ∧ m.seq = seq ∧ m.epoch = epoch

/-- Frames of an epoch, numbered from the one after `start`. -/
def Numbered (epoch start : ℕ) (frames : List Bytes) : Prop :=
  ∀ i frame, frames[i]? = some frame → HasEnvelope frame (start + i + 1) epoch

/-- The epoch of the first message that is decoded. -/
def firstEpoch (codec : Codec) : List SessionCall → Option ℕ
  | [] => none
  | .onBytes raw _ :: calls =>
    match codec.decode raw with
    | .ok msg => some (msg.natAttr "epoch")
    | .error _ => firstEpoch codec calls
  | _ :: calls => firstEpoch codec calls

/-- The frames of a run, in the order of its calls, are those of one epoch, numbered from 1. -/
def Contiguous (codec : Codec) (history : List (SessionCall × List Bytes)) : Prop :=
  history.flatMap Prod.snd = [] ∨
    ∃ epoch, firstEpoch codec (history.map Prod.fst) = some epoch ∧
      Numbered epoch 0 (history.flatMap Prod.snd)

/-- A step that respects the close intent: a latched intent stays, and silences `on_bytes`. -/
def Latches (cfg : StrategyConfig) (codec : Codec) (d : SessionDriver) (c : SessionCall) : Prop :=
  ∀ intent, d.close = some intent →
    (d.step cfg codec c).1.close = some intent ∧
      ∀ raw nowNs, c = .onBytes raw nowNs → (d.step cfg codec c).2 = []

theorem numbered_nil (epoch start : ℕ) : Numbered epoch start [] := fun _ _ h => by contradiction

theorem Numbered.append {epoch start : ℕ} {frames frames' : List Bytes}
    (h : Numbered epoch start frames) (h' : Numbered epoch (start + frames.length) frames') :
    Numbered epoch start (frames ++ frames') := by
  intro i frame hframe
  rw [List.getElem?_append] at hframe
  split_ifs at hframe with hlt
  · exact h i frame hframe
  · have henvelope := h' _ frame hframe
    rwa [show start + frames.length + (i - frames.length) = start + i by omega] at henvelope

theorem firstEpoch_append (codec : Codec) (calls calls' : List SessionCall) :
    firstEpoch codec (calls ++ calls') =
      (firstEpoch codec calls).or (firstEpoch codec calls') := by
  induction calls with
  | nil => rfl
  | cons c calls ih =>
    cases c with
    | onBytes raw nowNs =>
      rw [List.cons_append, firstEpoch, firstEpoch]
      cases codec.decode raw with
      | ok msg => rfl
      | error exc => exact ih
    | onTimer nowNs => exact ih
    | noteProtocolError reason code => exact ih

/-! ## One command -/

theorem hasEnvelope_of_delivers {frame : Bytes} {seq epoch : ℕ} {msg : InMsg}
    (h : ∀ parse, Nlohmann.Correct parse →
      Delivers parse (toClientMsg (stampMsg seq epoch msg)) frame) :
    HasEnvelope frame seq epoch := by
  intro parse hparse
  obtain ⟨-, m, hdecode, hcarries⟩ := h parse hparse
  refine ⟨m, hdecode, ?_⟩
  cases msg with
  | newOrder o =>
    cases hcarries with
    | newOrder hcarries =>
      exact ⟨(Int.ofNat.inj (PyObject.int.inj hcarries.seq)).symm,
        (Int.ofNat.inj (PyObject.int.inj hcarries.epoch)).symm⟩
  | cancelOrder c =>
    cases hcarries with
    | cancelOrder hcarries =>
      exact ⟨(Int.ofNat.inj (PyObject.int.inj hcarries.seq)).symm,
        (Int.ofNat.inj (PyObject.int.inj hcarries.epoch)).symm⟩

section Dispatch

variable {cfg : StrategyConfig} {codec : Codec} {d : SessionDriver}

theorem close_latch {intent : CloseIntent} (h : d.close = some intent) (code : ℕ) (reason : Bytes) :
    (d.latch code reason).close = some intent := by
  rw [SessionDriver.latch, h]
  exact h

theorem latch_frame (d : SessionDriver) (code : ℕ) (reason : Bytes) :
    (d.latch code reason).strategy = d.strategy ∧ (d.latch code reason).epoch = d.epoch ∧
      (d.latch code reason).outSeq = d.outSeq := by
  rw [SessionDriver.latch]
  split_ifs <;> exact ⟨rfl, rfl, rfl⟩

/-- What a dispatch leaves alone. -/
structure Spares (d d' : SessionDriver) : Prop where
  strategy : d'.strategy = d.strategy
  epoch : d'.epoch = d.epoch
  close : ∀ intent, d.close = some intent → d'.close = some intent

theorem spares_latch (d : SessionDriver) (code : ℕ) (reason : Bytes) :
    Spares d (d.latch code reason) :=
  ⟨(latch_frame d code reason).1, (latch_frame d code reason).2.1,
    fun _ h => close_latch h code reason⟩

theorem Spares.trans {d' d'' : SessionDriver} (h : Spares d d') (h' : Spares d' d'') :
    Spares d d'' :=
  ⟨h'.strategy.trans h.strategy, h'.epoch.trans h.epoch,
    fun intent hintent => h'.close intent (h.close intent hintent)⟩

theorem spares_stamp (d : SessionDriver) (msg : InMsg) : Spares d (d.stamp msg).1 := by
  rw [SessionDriver.stamp]
  dsimp only
  cases hepoch : d.epoch with
  | none => exact ⟨rfl, hepoch.symm, fun _ h => h⟩
  | some epoch => exact ⟨rfl, hepoch.symm, fun _ h => h⟩

theorem spares_dispatchLoop (codec : Codec) (d : SessionDriver) (cmds : List Cmd)
    (frames : List Bytes) :
    Spares d (d.dispatchLoop codec cmds frames).1 := by
  induction cmds generalizing d frames with
  | nil => exact ⟨rfl, rfl, fun _ h => h⟩
  | cons cmd cmds ih =>
    cases cmd with
    | stopQuoting reason => exact (spares_latch d _ reason).trans (ih (d.noteStop reason) frames)
    | send msg =>
      have hstamp := spares_stamp d msg
      rw [SessionDriver.dispatchLoop]
      generalize d.stamp msg = r at hstamp ⊢
      rcases r with ⟨d', fault | stamped⟩
      · exact hstamp
      · dsimp only
        cases codec.encode stamped with
        | ok frame => exact hstamp.trans (ih d' _)
        | error exc =>
          dsimp only
          cases exc.text codec.encodeError with
          | none => exact hstamp
          | some text => exact hstamp.trans (spares_latch d' _ _)

/-- A command that fits the wire takes the next number and leaves as a frame. -/
theorem dispatchLoop_send (hcodec : codec.Sound)
    (hqty : FitsIdentifier maxSymbolLen cfg.symbol → InInt64 (min cfg.qty cfg.maxQty))
    {epoch bound : ℕ} (hepoch : d.epoch = some epoch) (hlt : epoch < 2 ^ 64)
    (hbound : bound < 2 ^ 64) {msg : InMsg}
    (hissued : Issued (FitsIdentifier maxSymbolLen) cfg bound msg)
    (hfits : d.outSeq + 1 < 2 ^ 64) (cmds : List Cmd) (frames : List Bytes) :
    ∃ frame, (∀ parse, Nlohmann.Correct parse →
        Delivers parse (toClientMsg (stampMsg (d.outSeq + 1) epoch msg)) frame) ∧
      d.dispatchLoop codec (.send msg :: cmds) frames =
        ({ d with outSeq := d.outSeq + 1 } : SessionDriver).dispatchLoop codec cmds
          (frames ++ [frame]) := by
  -- what the strategy issues passes the check of the codec
  have hcheck := check_of_issued hissued hbound hfits hlt hqty
  obtain ⟨frame, hencode, hdelivers⟩ := hcodec.encode _ hcheck
  refine ⟨frame, hdelivers, ?_⟩
  rw [SessionDriver.dispatchLoop, SessionDriver.stamp_of_epoch hepoch]
  dsimp only
  rw [hencode]

/-- The commands that the strategy gives leave as frames, numbered on. -/
theorem dispatchLoop_spec (hcodec : codec.Sound)
    (hqty : FitsIdentifier maxSymbolLen cfg.symbol → InInt64 (min cfg.qty cfg.maxQty))
    {epoch bound : ℕ} (hepoch : d.epoch = some epoch) (hlt : epoch < 2 ^ 64)
    (hbound : bound < 2 ^ 64)
    {cmds : List Cmd} (hissued : ∀ msg ∈ sends cmds,
      Issued (FitsIdentifier maxSymbolLen) cfg bound msg)
    (hroom : d.outSeq + (sends cmds).length < 2 ^ 64) (frames : List Bytes) :
    ∃ sent, (d.dispatchLoop codec cmds frames).2 = .ok (frames ++ sent) ∧
      sent.length = (sends cmds).length ∧ Numbered epoch d.outSeq sent ∧
      (d.dispatchLoop codec cmds frames).1.outSeq = d.outSeq + (sends cmds).length := by
  induction cmds generalizing d frames with
  | nil => exact ⟨[], by rw [List.append_nil]; rfl, rfl, numbered_nil _ _, rfl⟩
  | cons cmd cmds ih =>
    cases cmd with
    | stopQuoting reason =>
      obtain ⟨-, hsame, hseq⟩ := latch_frame d
        (if (ascii "stale feed").isPrefixOf reason then CLOSE_STALE else CLOSE_PROTOCOL) reason
      have hspec := @ih (d.noteStop reason) (hsame.trans hepoch) hissued (hseq.symm ▸ hroom) frames
      rw [show (d.noteStop reason).outSeq = d.outSeq from hseq] at hspec
      exact hspec
    | send msg =>
      have hsends : sends (.send msg :: cmds) = msg :: sends cmds := rfl
      rw [hsends, List.length_cons] at hroom ⊢
      rw [hsends, List.forall_mem_cons] at hissued
      have hfits : d.outSeq + 1 < 2 ^ 64 := by omega
      obtain ⟨frame, hdelivers, hstep⟩ :=
        dispatchLoop_send hcodec hqty hepoch hlt hbound hissued.1 hfits cmds frames
      obtain ⟨sent, hsent, hlength, hnumbered, hseq⟩ :=
        @ih { d with outSeq := d.outSeq + 1 } hepoch hissued.2 (by dsimp only; omega)
          (frames ++ [frame])
      rw [hstep]
      refine ⟨frame :: sent, ?_, congrArg Nat.succ hlength, ?_, ?_⟩
      · rw [hsent, List.append_assoc, List.singleton_append]
      · have hfirst : Numbered epoch d.outSeq [frame] := by
          intro i frame' hframe'
          cases i with
          | zero =>
            cases hframe'
            exact hasEnvelope_of_delivers hdelivers
          | succ i => cases hframe'
        exact hfirst.append hnumbered
      · rw [hseq]
        dsimp only
        omega

end Dispatch

/-! ## Runs of a driver -/

section Runs

variable {cfg : StrategyConfig} {codec : Codec}

theorem latches_step (cfg : StrategyConfig) (codec : Codec) (d : SessionDriver) (c : SessionCall) :
    Latches cfg codec d c := by
  intro intent hintent
  cases c with
  | onBytes raw nowNs =>
    have hsilent : d.onBytes cfg codec raw nowNs = (d, .ok []) := by
      rw [SessionDriver.onBytes, hintent]
      rfl
    rw [SessionDriver.step, SessionDriver.call, hsilent]
    exact ⟨hintent, fun _ _ _ => rfl⟩
  | onTimer nowNs =>
    have hspares := spares_dispatchLoop codec
      { d with strategy := (d.strategy.onTimer cfg nowNs).1 } (d.strategy.onTimer cfg nowNs).2 []
    exact ⟨hspares.close intent hintent, fun _ _ heq => by contradiction⟩
  | noteProtocolError reason code =>
    exact ⟨close_latch hintent code reason, fun _ _ heq => by contradiction⟩

/-- A driver that has adopted its epoch, and the frames it has returned. The last part holds as long
as the numbers fit. -/
structure Attached (cfg : StrategyConfig) (epoch : ℕ) (d : SessionDriver) (frames : List Bytes) :
    Prop where
  lt : epoch < 2 ^ 64
  adopted : d.epoch = some epoch
  held : d.strategy.Held (FitsIdentifier maxSymbolLen) cfg
  numbered : d.strategy.outSeq < 2 ^ 64 →
    d.outSeq = d.strategy.outSeq ∧ frames.length = d.outSeq ∧ Numbered epoch 0 frames

theorem Attached.dispatch {epoch : ℕ} {d : SessionDriver} {frames : List Bytes}
    (h : Attached cfg epoch d frames) (hcodec : codec.Sound)
    (hqty : FitsIdentifier maxSymbolLen cfg.symbol → InInt64 (min cfg.qty cfg.maxQty))
    {r : Strategy × List Cmd} (hr : d.strategy.Emits (FitsIdentifier maxSymbolLen) cfg r) :
    Attached cfg epoch (({ d with strategy := r.1 } : SessionDriver).dispatch codec r.2).1
      (frames ++ framesOf (({ d with strategy := r.1 } : SessionDriver).dispatch codec r.2).2) := by
  have hspares := spares_dispatchLoop codec { d with strategy := r.1 } r.2 []
  refine ⟨h.lt, hspares.epoch.trans h.adopted, ?_, fun hroom => ?_⟩
  · change (SessionDriver.dispatchLoop codec _ r.2 []).1.strategy.Held _ cfg
    rw [hspares.strategy]
    exact hr.held
  · change (SessionDriver.dispatchLoop codec _ r.2 []).1.strategy.outSeq < _ at hroom
    rw [hspares.strategy] at hroom
    dsimp only at hroom
    have hcount := hr.count
    obtain ⟨hsync, hlength, hnumbered⟩ := h.numbered (by omega)
    obtain ⟨sent, hsent, hmany, hsentNumbered, hseq⟩ :=
      @dispatchLoop_spec cfg codec
        { d with strategy := r.1 } hcodec hqty epoch r.1.outSeq h.adopted h.lt
        hroom r.2 hr.issued (by dsimp only; omega) []
    change (SessionDriver.dispatchLoop codec _ r.2 []).1.outSeq =
      (SessionDriver.dispatchLoop codec _ r.2 []).1.strategy.outSeq ∧
        (frames ++ framesOf (SessionDriver.dispatchLoop codec _ r.2 []).2).length =
          (SessionDriver.dispatchLoop codec _ r.2 []).1.outSeq ∧
        Numbered epoch 0 (frames ++ framesOf (SessionDriver.dispatchLoop codec _ r.2 []).2)
    rw [hspares.strategy, hseq, hsent, framesOf, List.nil_append, List.length_append]
    dsimp only
    refine ⟨by omega, by omega, hnumbered.append ?_⟩
    rw [hlength, Nat.zero_add]
    exact hsentNumbered

/-- A driver and what it has been called with. -/
structure Synced (cfg : StrategyConfig) (codec : Codec) (d : SessionDriver)
    (history : List (SessionCall × List Bytes)) : Prop where
  before : d.epoch = none → d.strategy = {} ∧ history.flatMap Prod.snd = [] ∧ d.outSeq = 0 ∧
    (d.close = none → firstEpoch codec (history.map Prod.fst) = none)
  after : ∀ epoch, d.epoch = some epoch → firstEpoch codec (history.map Prod.fst) = some epoch ∧
    Attached cfg epoch d (history.flatMap Prod.snd)

/-- A call that returns nothing, and leaves the strategy and the epoch as they are. -/
theorem Synced.idle {d d' : SessionDriver} {history : List (SessionCall × List Bytes)}
    (h : Synced cfg codec d history) (hspares : Spares d d') (hseq : d'.outSeq = d.outSeq)
    {c : SessionCall} (hc : d'.close = none → firstEpoch codec [c] = none) :
    Synced cfg codec d' (history ++ [(c, [])]) := by
  have hframes : (history ++ [(c, ([] : List Bytes))]).flatMap Prod.snd =
      history.flatMap Prod.snd := by
    rw [List.flatMap_append]
    exact List.append_nil _
  have hfirst : firstEpoch codec ((history ++ [(c, ([] : List Bytes))]).map Prod.fst) =
      (firstEpoch codec (history.map Prod.fst)).or (firstEpoch codec [c]) := by
    rw [List.map_append, firstEpoch_append]
    rfl
  refine ⟨fun hnone => ?_, fun epoch hepoch => ?_⟩
  · obtain ⟨hstrategy, hnothing, hzero, hundecoded⟩ := h.before (hspares.epoch ▸ hnone)
    refine ⟨hspares.strategy.trans hstrategy, hframes.trans hnothing, hseq.trans hzero,
      fun hopen => ?_⟩
    have hbefore : d.close = none := by
      by_contra hlatched
      obtain ⟨intent, hintent⟩ := Option.ne_none_iff_exists'.mp hlatched
      rw [hspares.close intent hintent] at hopen
      cases hopen
    rw [hfirst, hundecoded hbefore, hc hopen]
    rfl
  · obtain ⟨hdecoded, hattached⟩ := h.after epoch (hspares.epoch ▸ hepoch)
    rw [hframes, hfirst, hdecoded]
    refine ⟨rfl, hattached.lt, hepoch, hspares.strategy ▸ hattached.held, ?_⟩
    rw [hspares.strategy, hseq]
    exact hattached.numbered

theorem Synced.of_attached (epoch : ℕ) {d' : SessionDriver}
    {history : List (SessionCall × List Bytes)} {c : SessionCall} {frames : List Bytes}
    (h : Attached cfg epoch d' (history.flatMap Prod.snd ++ frames))
    (hfirst : (firstEpoch codec (history.map Prod.fst)).or (firstEpoch codec [c]) = some epoch) :
    Synced cfg codec d' (history ++ [(c, frames)]) := by
  refine ⟨fun hnone => ?_, fun epoch' hepoch' => ?_⟩
  · rw [h.adopted] at hnone
    cases hnone
  · rw [h.adopted] at hepoch'
    cases hepoch'
    rw [List.map_append, firstEpoch_append, List.flatMap_append, List.flatMap_singleton]
    exact ⟨hfirst, h⟩

theorem Synced.onBytes {d : SessionDriver} {history : List (SessionCall × List Bytes)}
    (h : Synced cfg codec d history) (hcodec : codec.Sound)
    (hqty : FitsIdentifier maxSymbolLen cfg.symbol → InInt64 (min cfg.qty cfg.maxQty))
    (raw : Bytes) (nowNs : ℤ) :
    Synced cfg codec (d.onBytes cfg codec raw nowNs).1
      (history ++ [(.onBytes raw nowNs, framesOf (d.onBytes cfg codec raw nowNs).2)]) := by
  rw [SessionDriver.onBytes]
  cases hclose : d.close with
  | some intent =>
    refine h.idle ⟨rfl, rfl, fun _ hintent => hintent⟩ rfl fun hopen => ?_
    rw [hclose] at hopen
    cases hopen
  | none =>
    rw [if_neg (by decide)]
    rcases hcodec.decode raw with ⟨text, hdecode⟩ | ⟨msg, hdecode, hlt, hreceived⟩
    · rw [hdecode]
      refine h.idle (spares_latch d _ _) (latch_frame d _ _).2.2 fun _ => ?_
      rw [firstEpoch, hdecode]
      rfl
    · have hfirst : firstEpoch codec [.onBytes raw nowNs] = some (msg.natAttr "epoch") := by
        rw [firstEpoch, hdecode]
      rw [hdecode]
      dsimp only
      cases hepoch : d.epoch with
      | none =>
        -- the first message that is decoded attaches the driver
        obtain ⟨-, hnothing, hzero, hundecoded⟩ := h.before hepoch
        have hadopt : d.adopt (msg.natAttr "epoch") =
            { d with
              epoch := some (msg.natAttr "epoch")
              strategy := (d.strategy.onConnect (msg.natAttr "epoch")).1 } := by
          rw [SessionDriver.adopt, hepoch]
          rfl
        have hattached : Attached cfg (msg.natAttr "epoch") (d.adopt (msg.natAttr "epoch")) [] := by
          rw [hadopt]
          exact ⟨hlt, rfl, @Strategy.held_onConnect d.strategy _ cfg _, fun _ =>
            ⟨hzero, hzero.symm, numbered_nil _ _⟩⟩
        have hemits := hattached.held.emits_onReport hreceived nowNs
        refine Synced.of_attached (msg.natAttr "epoch") ?_ ?_
        · rw [hnothing]
          exact hattached.dispatch hcodec hqty hemits
        · rw [hundecoded hclose, hfirst]
          rfl
      | some epoch =>
        obtain ⟨hdecoded, hattached⟩ := h.after epoch hepoch
        have hadopt : d.adopt (msg.natAttr "epoch") = d := by
          rw [SessionDriver.adopt, hepoch]
          rfl
        rw [hadopt]
        refine Synced.of_attached epoch ?_ ?_
        · exact hattached.dispatch hcodec hqty (hattached.held.emits_onReport hreceived nowNs)
        · rw [hdecoded]
          rfl

theorem Synced.onTimer {d : SessionDriver} {history : List (SessionCall × List Bytes)}
    (h : Synced cfg codec d history) (hcodec : codec.Sound)
    (hqty : FitsIdentifier maxSymbolLen cfg.symbol → InInt64 (min cfg.qty cfg.maxQty)) (nowNs : ℤ) :
    Synced cfg codec (d.onTimer cfg codec nowNs).1
      (history ++ [(.onTimer nowNs, framesOf (d.onTimer cfg codec nowNs).2)]) := by
  cases hepoch : d.epoch with
  | none =>
    -- no book has arrived, so there is nothing that could be stale
    obtain ⟨hnew, -⟩ := h.before hepoch
    have hidle : d.onTimer cfg codec nowNs = (d, .ok []) := by
      have hquiet : d.strategy.onTimer cfg nowNs = (d.strategy, []) := by
        rw [hnew]
        rfl
      rw [SessionDriver.onTimer, hquiet]
      rfl
    rw [hidle]
    exact h.idle ⟨rfl, rfl, fun _ hintent => hintent⟩ rfl fun _ => rfl
  | some epoch =>
    obtain ⟨hdecoded, hattached⟩ := h.after epoch hepoch
    refine Synced.of_attached epoch ?_ ?_
    · exact hattached.dispatch hcodec hqty (hattached.held.emits_onTimer nowNs)
    · rw [hdecoded]
      rfl

theorem Synced.step {d : SessionDriver} {history : List (SessionCall × List Bytes)}
    (h : Synced cfg codec d history) (hcodec : codec.Sound)
    (hqty : FitsIdentifier maxSymbolLen cfg.symbol → InInt64 (min cfg.qty cfg.maxQty))
    (c : SessionCall) :
    Synced cfg codec (d.step cfg codec c).1 (history ++ [(c, (d.step cfg codec c).2)]) := by
  cases c with
  | onBytes raw nowNs => exact h.onBytes hcodec hqty raw nowNs
  | onTimer nowNs => exact h.onTimer hcodec hqty nowNs
  | noteProtocolError reason code =>
    exact h.idle (spares_latch d code reason) (latch_frame d code reason).2.2 fun _ => rfl

theorem synced_run (hcodec : codec.Sound)
    (hqty : FitsIdentifier maxSymbolLen cfg.symbol → InInt64 (min cfg.qty cfg.maxQty))
    (calls : List SessionCall) :
    Synced cfg codec (SessionDriver.run cfg codec calls).1
      (SessionDriver.run cfg codec calls).2 := by
  refine Mealy.run_induct _ ?_ (fun d history c h => h.step hcodec hqty c) calls
  exact ⟨fun _ => ⟨rfl, rfl, rfl, fun _ => rfl⟩, fun _ hepoch => by contradiction⟩

end Runs

/-- With a quantity that fits the wire, or with a symbol that no engine quotes, the frames of a run
are contiguous, and every step respects the close intent. The strategy counts its commands in
`outSeq`. -/
theorem run_contiguous (platform : Platform) (hplatform : platform.Documented) (codec : Codec)
    (hcodec : platform.IsArm codec) (cfg : StrategyConfig)
    (hqty : FitsIdentifier maxSymbolLen cfg.symbol → InInt64 (min cfg.qty cfg.maxQty))
    (calls : List SessionCall)
    (hfew : (SessionDriver.run cfg codec calls).1.strategy.outSeq < 2 ^ 64) :
    Contiguous codec (SessionDriver.run cfg codec calls).2 ∧
      Mealy.Along (SessionDriver.step cfg codec) (Latches cfg codec) {} calls := by
  have hsynced := synced_run (hcodec.sound hplatform) hqty calls
  refine ⟨?_, Mealy.along_of_step _ (latches_step cfg codec) _ _⟩
  cases hepoch : (SessionDriver.run cfg codec calls).1.epoch with
  | none => exact Or.inl (hsynced.before hepoch).2.1
  | some epoch =>
    obtain ⟨hfirst, hattached⟩ := hsynced.after epoch hepoch
    exact Or.inr ⟨epoch, hfirst, (hattached.numbered hfew).2.2⟩

/-- A platform whose libraries do no more than what is documented. -/
def Platform.plain : Platform where
  decodeError _ := []
  encodeError := []
  limit := .default
  typed := typedDecode
  lib := .plain

theorem Platform.documented_plain : Platform.plain.Documented :=
  ⟨isTypedDecoder_typedDecode _ _, Serializers.minimal_plain⟩

/-- The first book of a session, at epoch 7. -/
def bookFrame : Bytes :=
  ascii ("\x7b\"t\":\"top_of_book\",\"v\":1,\"seq\":1,\"epoch\":7,\"md_seq\":1," ++
    "\"symbol\":\"MOCKUSDT\",\"bid_px\":100,\"bid_qty\":50,\"ask_px\":110,\"ask_qty\":50\x7d")

/-- A book, and then silence until the feed is stale. -/
def silentFeed : List SessionCall := [.onBytes bookFrame 0, .onTimer 1000000001]

/-- The strategy of a client that was started with this quantity. -/
def quoting (qty : ℤ) : StrategyConfig where
  symbol := ascii "MOCKUSDT"
  qty
  maxQty := qty
  staleNs := 1000000000

theorem run_contiguous_quoting :
    Contiguous Platform.plain.naive
        (SessionDriver.run (quoting 5) Platform.plain.naive silentFeed).2 ∧
      Mealy.Along (SessionDriver.step (quoting 5) Platform.plain.naive)
        (Latches (quoting 5) Platform.plain.naive) {} silentFeed :=
  run_contiguous .plain Platform.documented_plain _ (Or.inr rfl) (quoting 5)
    (fun _ => ⟨by decide, by decide⟩) silentFeed (by decide +kernel)

/-- The first order of a book is refused and takes 1 with it; the cancels of the sweep start at
2. -/
theorem run_contiguous_refused :
    (SessionDriver.run (quoting (2 ^ 63)) Platform.plain.naive silentFeed).1.strategy.outSeq <
    2 ^ 64 ∧
      ¬Contiguous Platform.plain.naive
        (SessionDriver.run (quoting (2 ^ 63)) Platform.plain.naive silentFeed).2 := by
  have hrun :
      (SessionDriver.run (quoting (2 ^ 63)) Platform.plain.naive silentFeed).1.strategy.outSeq = 4 ∧
      (SessionDriver.run (quoting (2 ^ 63)) Platform.plain.naive silentFeed).2.flatMap Prod.snd =
      [ascii "\x7b\"t\":\"cancel_order\",\"v\":1,\"seq\":2,\"epoch\":7,\"cl_id\":\"B-1\"\x7d",
       ascii "\x7b\"t\":\"cancel_order\",\"v\":1,\"seq\":3,\"epoch\":7,\"cl_id\":\"S-1\"\x7d"] := by
    decide +kernel
  obtain ⟨hcount, hframes⟩ := hrun
  refine ⟨by rw [hcount]; decide, ?_⟩
  rintro (hnil | ⟨epoch, -, hnumbered⟩)
  · rw [hframes] at hnil
    cases hnil
  · rw [hframes] at hnumbered
    obtain ⟨m, hdecode, hseq, -⟩ := hnumbered 0 _ rfl _ Nlohmann.correct_domOf
    have hread : (Nlohmann.decode (fun span => Nlohmann.domOf (Json.valueOf span))
        (ascii "\x7b\"t\":\"cancel_order\",\"v\":1,\"seq\":2,\"epoch\":7,\"cl_id\":\"B-1\"\x7d")
          |>.toOption.map InMsg.seq) = some 2 := by
      decide +kernel
    rw [hdecode] at hread
    simp [Except.toOption, hseq] at hread

end Client

end MarketMaker
