import MarketMaker.Server.Shutdown

/-!
# The entry cap

The engine stores past the cap; only the session that drives it holds the line, by checking after
every reply. A `Ledger` is the engine with the history of its calls, and `Ledger.Capped` says that
no state in that history holds more than the cap of any epoch. A turn makes at most one `on_new`
call, which finds room because the last check did (`Session.Roomy`), and every other call only gives
room back.
-/

namespace MarketMaker

open OrderEngine (Call)

/-! ## What a call stores -/

namespace OrderEngine

variable {cfg : EngineConfig} {e : OrderEngine}

/-- A new entry counts for its own session only. -/
theorem entryCount_countEntry (entries : OrderedMap ℕ ℕ) (session s : ℕ) :
    ((countEntry entries session).find? s).getD 0 =
      (entries.find? s).getD 0 + if s = session then 1 else 0 := by
  rw [countEntry, OrderedMap.find?_insert]
  split_ifs with hs
  · rw [hs]
    rfl
  · rfl

/-- `on_new` stores at most one entry, and for its own session. -/
theorem entryCount_onNew_le (cfg : EngineConfig) (e : OrderEngine) (session : ℕ) (order : NewOrder)
    (s : ℕ) :
    (step cfg e (.onNew session order)).1.entryCount s ≤
      e.entryCount s + if s = session then 1 else 0 := by
  have hspec := onNew_spec cfg e session order
  simp only [step, routeTo]
  generalize onNew cfg e session order = r at hspec
  cases hspec with
  | duplicate _ => exact Nat.le_add_right _ _
  | rejected _ _ _ => exact (entryCount_countEntry e.entriesBySession session s).le
  | accepted _ _ _ _ _ => exact (entryCount_countEntry e.entriesBySession session s).le

/-- Nothing but `on_new` stores an entry. -/
theorem entryCount_step_le (cfg : EngineConfig) (e : OrderEngine) {c : Call} {s : ℕ}
    (hc : ∀ order, c ≠ .onNew s order) : (step cfg e c).1.entryCount s ≤ e.entryCount s := by
  cases c with
  | onNew session order =>
    have hle := entryCount_onNew_le cfg e session order s
    have hne : s ≠ session := by
      rintro rfl
      exact hc order rfl
    rwa [if_neg hne, Nat.add_zero] at hle
  | onCancel session cancel =>
    have hspec := onCancel_spec e session cancel
    simp only [step, routeTo]
    generalize onCancel e session cancel = r at hspec
    cases hspec with
    | unknown _ => exact le_rfl
    | terminal _ _ => exact le_rfl
    | @cancelled ord _ _ =>
      have hentries : (recordCancel e session cancel.clId ord).1.entriesBySession =
          e.entriesBySession := by
        simp [recordCancel]
      rw [entryCount, entryCount, hentries]
  | onBook book =>
    simp only [step, onBook]
    split_ifs
    · exact le_rfl
    · rw [entryCount, entryCount, entriesBySession_commitFills]
  | endSession session =>
    show ((e.entriesBySession.erase session).find? s).getD 0 ≤ _
    rw [OrderedMap.find?_erase]
    split_ifs
    · exact Nat.zero_le _
    · exact le_rfl

end OrderEngine

/-! ## The history of calls -/

/-- The engine and the history of its calls. -/
structure Ledger where
  engine : OrderEngine
  calls : List (Call × List Routed)

def ServerImpl.ledger (srv : ServerImpl) : Ledger := ⟨srv.engine, srv.calls⟩

def Hub.ledger (h : Hub) : Ledger := ⟨h.engine, h.calls⟩

namespace Ledger

variable {cfg : ServerConfig} {l l' : Ledger} {epoch : ℕ}

/-- An engine call. -/
def call (cfg : ServerConfig) (l : Ledger) (c : Call) : Ledger :=
  { engine := (OrderEngine.step cfg.engine l.engine c).1
    calls := l.calls ++ [(c, (OrderEngine.step cfg.engine l.engine c).2)] }

/-- The cap held after every call so far. -/
structure Capped (cfg : ServerConfig) (l : Ledger) : Prop where
  ran : OrderEngine.run cfg.engine (l.calls.map Prod.fst) = (l.engine, l.calls)
  cap : ∀ calls, calls <+: l.calls → ∀ e,
    (OrderEngine.run cfg.engine (calls.map Prod.fst)).1.entryCount e ≤ cfg.engine.maxSessionEntries

/-- The cap holds of the engine as it is. -/
theorem Capped.now (h : l.Capped cfg) (e : ℕ) :
    l.engine.entryCount e ≤ cfg.engine.maxSessionEntries := by
  have hcap := h.cap l.calls (List.prefix_refl _) e
  rwa [h.ran] at hcap

/-- A call that keeps the cap keeps it of the history too. -/
theorem Capped.call (h : l.Capped cfg) {c : Call}
    (hle : ∀ e, (l.call cfg c).engine.entryCount e ≤ cfg.engine.maxSessionEntries) :
    (l.call cfg c).Capped cfg := by
  have hran : OrderEngine.run cfg.engine ((l.call cfg c).calls.map Prod.fst) =
      ((l.call cfg c).engine, (l.call cfg c).calls) := by
    simp only [Ledger.call, List.map_append, List.map_cons, List.map_nil]
    have hran := h.ran
    rw [OrderEngine.run] at hran ⊢
    rw [Mealy.run_concat, hran]
  refine ⟨hran, fun calls hprefix e => ?_⟩
  rcases List.prefix_concat_iff.mp hprefix with rfl | hold
  · have hnow : (OrderEngine.run cfg.engine ((l.call cfg c).calls.map Prod.fst)).1.entryCount e ≤
        cfg.engine.maxSessionEntries := by
      rw [hran]
      exact hle e
    exact hnow
  · exact h.cap calls hold e

/-- One call that stores nothing, for the epoch or for none. -/
def Frees (cfg : ServerConfig) : Ledger → Ledger → Prop :=
  Relation.ReflTransGen fun l l' => ∃ c, (∀ s order, c ≠ .onNew s order) ∧ l' = l.call cfg c

/-- Calls that store nothing keep the cap, and no session has more entries after them. -/
theorem Frees.capped (h : Frees cfg l l') (hcap : l.Capped cfg) :
    l'.Capped cfg ∧ ∀ e, l'.engine.entryCount e ≤ l.engine.entryCount e := by
  induction h with
  | refl => exact ⟨hcap, fun _ => le_rfl⟩
  | @tail m m' _ hlast ih =>
    obtain ⟨c, hc, rfl⟩ := hlast
    have hle : ∀ e, (m.call cfg c).engine.entryCount e ≤ m.engine.entryCount e := fun e =>
      OrderEngine.entryCount_step_le cfg.engine m.engine (hc e)
    exact ⟨ih.1.call fun e => (hle e).trans (ih.1.now e), fun e => (hle e).trans (ih.2 e)⟩

end Ledger

/-! ## Sessions -/

namespace Session

variable {cfg : ServerConfig} {codec : Codec} {t t' : Turn} {v v' : View}

/-- A session that takes commands may store one more entry. -/
def Roomy (cfg : ServerConfig) (v : View) : Prop :=
  v.line.closing = false → v.line.tornDown = false →
    v.hub.engine.entryCount v.line.epoch < cfg.engine.maxSessionEntries

/-- A session that is closing needs no room. -/
theorem roomy_of_closing (h : v.line.closing = true) : Roomy cfg v := fun hopen => by
  rw [h] at hopen
  cases hopen

/-- Retiring an epoch stores nothing. -/
theorem frees_retire (v : View) : Ledger.Frees cfg v.hub.ledger (v.retire cfg).hub.ledger := by
  unfold View.retire
  split_ifs
  · exact .refl
  · exact .single ⟨.endSession v.line.epoch, (by simp), rfl⟩

/-- A drain calls the engine only to retire the epoch. -/
theorem frees_drain (h : Drain cfg codec v v') : Ledger.Frees cfg v.hub.ledger v'.hub.ledger := by
  cases h with
  | latch code _ _ =>
    let latched : View :=
      { v with
        line :=
          { v.line with
            closing := true
            closeCode := code
            drainThenClose := code.drains
            log := v.line.log ++ [.latched code] } }
    have hretire : Ledger.Frees cfg latched.hub.ledger (latched.retire cfg).hub.ledger :=
      frees_retire latched
    exact hretire
  | write _ _ _ _ _ => exact .refl
  | lose _ _ => exact .refl
  | discard _ _ => exact .refl
  | sendClose _ _ _ => exact .refl

/-- So do several. -/
theorem frees_drains (h : Drains cfg codec v v') : Ledger.Frees cfg v.hub.ledger v'.hub.ledger := by
  induction h with
  | refl => exact .refl
  | tail _ hlast ih => exact ih.trans (frees_drain hlast)

/-- Draining keeps the room, or closes. -/
theorem roomy_drains (h : Drains cfg codec v v') (hroom : Roomy cfg v) : Roomy cfg v' := by
  induction h with
  | refl => exact hroom
  | tail _ hlast ih =>
    cases hlast with
    | latch code _ _ => exact roomy_of_closing (closing_latch _ code)
    | write _ _ _ _ _ => exact ih
    | lose _ _ => exact ih
    | discard _ _ => exact ih
    | sendClose _ _ _ => exact ih

/-- The policy check leaves no breach without a close, whatever was stored before it. -/
theorem roomy_checkPolicyCloses (cfg : ServerConfig) (codec : Codec) (t : Turn) :
    Roomy cfg (checkPolicyCloses cfg codec t).view := by
  have hbegin : ∀ t : Turn, Roomy cfg (beginClose cfg codec .policyError t).view := by
    intro t hc hup
    have hdown := (quiet_beginClose cfg codec .policyError t).tornDown
    have hclosing : (beginClose cfg codec .policyError t).self.closing = true :=
      closing_beginClose (hdown.symm.trans hup)
    rw [show (beginClose cfg codec .policyError t).self.closing = false from hc] at hclosing
    cases hclosing
  unfold checkPolicyCloses
  split_ifs with hc hbreach hcap
  · exact roomy_of_closing hc
  · exact hbegin _
  · exact hbegin _
  · intro _ _
    have hlt : t.srv.engine.entryCount t.self.epoch < cfg.engine.maxSessionEntries := by
      simpa [OrderEngine.entryCapBreached] using hcap
    exact hlt

/-- What one turn of a session does to the ledger: at most one command, and then calls that store
nothing. -/
def Spends (cfg : ServerConfig) (epoch : ℕ) (l l' : Ledger) : Prop :=
  ∃ served, (served = l ∨ ∃ order, served = l.call cfg (.onNew epoch order)) ∧
    Ledger.Frees cfg served l'

/-- Calls that store nothing are no command. -/
theorem spends_of_frees {epoch : ℕ} {l l' : Ledger} (h : Ledger.Frees cfg l l') :
    Spends cfg epoch l l' := ⟨l, Or.inl rfl, h⟩

/-- More calls that store nothing. -/
theorem Spends.frees {epoch : ℕ} {l l' l'' : Ledger} (h : Spends cfg epoch l l')
    (h' : Ledger.Frees cfg l' l'') : Spends cfg epoch l l'' := by
  obtain ⟨served, hserved, hfrees⟩ := h
  exact ⟨served, hserved, hfrees.trans h'⟩

/-- With room for the command, the cap holds through the turn, and no other epoch stores more. -/
theorem Spends.capped {epoch : ℕ} {l l' : Ledger} (h : Spends cfg epoch l l')
    (hcap : l.Capped cfg) (hroom : l.engine.entryCount epoch < cfg.engine.maxSessionEntries) :
    l'.Capped cfg ∧ ∀ e, e ≠ epoch → l'.engine.entryCount e ≤ l.engine.entryCount e := by
  obtain ⟨served, rfl | ⟨order, rfl⟩, hfrees⟩ := h
  · obtain ⟨hcap', hle⟩ := hfrees.capped hcap
    exact ⟨hcap', fun e _ => hle e⟩
  · have hle : ∀ e, (l.call cfg (.onNew epoch order)).engine.entryCount e ≤
        l.engine.entryCount e + if e = epoch then 1 else 0 :=
      OrderEngine.entryCount_onNew_le cfg.engine l.engine epoch order
    have hserved : (l.call cfg (.onNew epoch order)).Capped cfg := by
      refine hcap.call fun e => (hle e).trans ?_
      have hnow := hcap.now e
      split_ifs with he
      · subst he
        omega
      · omega
    obtain ⟨hcap', hle'⟩ := hfrees.capped hserved
    refine ⟨hcap', fun e he => (hle' e).trans ?_⟩
    have hsame := hle e
    rwa [if_neg he, Nat.add_zero] at hsame

/-! ## Commands -/

/-- `pump` stores nothing. -/
theorem frees_pump (cfg : ServerConfig) (codec : Codec) (t : Turn) :
    Ledger.Frees cfg t.srv.ledger (pump cfg codec t).srv.ledger :=
  frees_drains (drains_pump cfg codec t)

/-- A close stores nothing. -/
theorem frees_beginClose (cfg : ServerConfig) (codec : Codec) (code : CloseCode) (t : Turn) :
    Ledger.Frees cfg t.srv.ledger (beginClose cfg codec code t).srv.ledger :=
  frees_drains (drains_beginClose cfg codec code t)

/-- Queueing a report stores nothing, whether or not it closes the session. -/
theorem frees_enqueueReport (cfg : ServerConfig) (codec : Codec) (msg : OutMsg) (cause : Cause)
    (t : Turn) : Ledger.Frees cfg t.srv.ledger (enqueueReport cfg codec msg cause t).srv.ledger :=
  frees_drains (drains_checkPolicyCloses cfg codec
    (markOutboxDepth { t with self := pushReport msg cause t.self }))

/-- Narrating a reject leaves the ledger alone. -/
theorem ledger_emitRejectEvent (code : RejectCode) (t : Turn) :
    (emitRejectEvent code t).srv.ledger = t.srv.ledger :=
  congrArg (fun v => v.hub.ledger) (view_emitRejectEvent code t)

/-- A reject of the session itself stores nothing. -/
theorem frees_pushReject (cfg : ServerConfig) (codec : Codec) (reject : Reject) (code : RejectCode)
    (t : Turn) :
    Ledger.Frees cfg t.srv.ledger (pushReject cfg codec reject code t).srv.ledger := by
  have hfrees := frees_enqueueReport cfg codec (.reject reject) .session
    (emitRejectEvent code (countReject t))
  rw [ledger_emitRejectEvent] at hfrees
  exact hfrees

/-- Noting a reply leaves the ledger alone. -/
theorem ledger_noteNewReply (svc : ℤ) (report : OutMsg) (t : Turn) :
    (noteNewReply svc report t).srv.ledger = t.srv.ledger := by
  cases report with
  | reject reject => exact congrArg (fun v => v.hub.ledger) (view_noteReject reject t)
  | _ => rfl

/-- Noting a reply leaves the ledger alone. -/
theorem ledger_noteCancelReply (report : OutMsg) (t : Turn) :
    (noteCancelReply report t).srv.ledger = t.srv.ledger := by
  cases report with
  | reject reject => exact congrArg (fun v => v.hub.ledger) (view_noteReject reject t)
  | _ => rfl

/-- A new order stores one entry at most, and a session that has reached the cap is closing. -/
theorem spends_serveNew (cfg : ServerConfig) (codec : Codec) (order : NewOrder) (e1Ns : ℤ)
    (t : Turn) :
    Spends cfg t.self.epoch t.srv.ledger (serveNew cfg codec order e1Ns t).srv.ledger ∧
      Roomy cfg (serveNew cfg codec order e1Ns t).view := by
  obtain ⟨m, hreply, -, -⟩ := reply_onNew cfg.engine t.srv.engine t.self.epoch order
  have hreply : (t.srv.call cfg (.onNew t.self.epoch order)).2.map Routed.msg = [m] := hreply
  have hview : ∀ svc (t : Turn), (emitCmdIn cfg svc t).view = t.view := view_emitCmdIn
  unfold serveNew
  dsimp only
  rw [hreply, List.foldl_cons, List.foldl_nil, hview]
  refine ⟨⟨t.srv.ledger.call cfg (.onNew t.self.epoch order), Or.inr ⟨order, rfl⟩, ?_⟩,
    roomy_checkPolicyCloses cfg codec _⟩
  -- the one reply is queued and checked
  have hledger : ∀ svc (t : Turn), (emitCmdIn cfg svc t).srv.ledger = t.srv.ledger := fun svc t =>
    congrArg (fun v => v.hub.ledger) (hview svc t)
  rw [hledger]
  refine Relation.ReflTransGen.trans ?_ (frees_enqueueReport cfg codec _ _ _)
  rw [ledger_noteNewReply]
  exact .refl

/-- A cancel stores nothing. -/
theorem spends_serveCancel (cfg : ServerConfig) (codec : Codec) (cancel : CancelOrder) (e1Ns : ℤ)
    (t : Turn) :
    Spends cfg t.self.epoch t.srv.ledger (serveCancel cfg codec cancel e1Ns t).srv.ledger ∧
      Roomy cfg (serveCancel cfg codec cancel e1Ns t).view := by
  obtain ⟨m, hreply, -, -⟩ := reply_onCancel cfg.engine t.srv.engine t.self.epoch cancel
  have hreply : (t.srv.call cfg (.onCancel t.self.epoch cancel)).2.map Routed.msg = [m] := hreply
  have hview : ∀ svc (t : Turn), (emitCmdIn cfg svc t).view = t.view := view_emitCmdIn
  unfold serveCancel
  dsimp only
  rw [hreply, List.foldl_cons, List.foldl_nil, hview]
  refine ⟨spends_of_frees ?_, roomy_checkPolicyCloses cfg codec _⟩
  have hledger : ∀ svc (t : Turn), (emitCmdIn cfg svc t).srv.ledger = t.srv.ledger := fun svc t =>
    congrArg (fun v => v.hub.ledger) (hview svc t)
  rw [hledger]
  refine Relation.ReflTransGen.trans ?_ (frees_enqueueReport cfg codec _ _ _)
  rw [ledger_noteCancelReply]
  exact .single ⟨.onCancel t.self.epoch cancel, (by simp), rfl⟩

/-- A command of a session with room stores one entry at most, and leaves room. -/
theorem spends_onCommand (cfg : ServerConfig) (codec : Codec) (msg : InMsg) (e1Ns : ℤ)
    (hroom : Roomy cfg t.view) :
    Spends cfg t.self.epoch t.srv.ledger (onCommand cfg codec msg e1Ns t).srv.ledger ∧
      Roomy cfg (onCommand cfg codec msg e1Ns t).view := by
  let counted : Turn := { t with self := { t.self with inSeqExpected := t.self.inSeqExpected + 1 } }
  unfold onCommand
  dsimp only
  split_ifs
  · exact ⟨spends_of_frees (frees_beginClose cfg codec _ t),
      roomy_drains (drains_beginClose cfg codec _ t) hroom⟩
  · exact ⟨spends_of_frees (frees_pushReject cfg codec _ _ counted),
      roomy_checkPolicyCloses cfg codec _⟩
  · cases msg with
    | newOrder order => exact spends_serveNew cfg codec order e1Ns counted
    | cancelOrder cancel => exact spends_serveCancel cfg codec cancel e1Ns counted

/-- So does a frame. -/
theorem spends_onMessage (cfg : ServerConfig) (codec : Codec) (frame : Bytes)
    (hroom : Roomy cfg t.view) :
    Spends cfg t.self.epoch t.srv.ledger (onMessage cfg codec frame t).srv.ledger ∧
      Roomy cfg (onMessage cfg codec frame t).view := by
  -- a reject is queued, checked and pumped
  have hreject : ∀ reject code,
      Spends cfg t.self.epoch t.srv.ledger
          (pump cfg codec (pushReject cfg codec reject code t)).srv.ledger ∧
        Roomy cfg (pump cfg codec (pushReject cfg codec reject code t)).view := fun reject code =>
    ⟨spends_of_frees ((frees_pushReject cfg codec reject code t).trans (frees_pump cfg codec _)),
      roomy_drains (drains_pump cfg codec _) (roomy_checkPolicyCloses cfg codec _)⟩
  unfold onMessage
  split_ifs
  · exact hreject _ _
  · split
    · exact hreject _ _
    · obtain ⟨hspends, hroomy⟩ := spends_onCommand cfg codec _ t.srv.steadyNs.1
        (t := { t with srv := t.srv.steadyNs.2 }) hroom
      exact ⟨hspends.frees (frees_pump cfg codec _), roomy_drains (drains_pump cfg codec _) hroomy⟩

/-! ## Handlers -/

/-- What the handler of a session keeps: the cap, given room for one command, and its room. -/
structure Serves (cfg : ServerConfig) (t t' : Turn) : Prop where
  epoch : t'.self.epoch = t.self.epoch
  spends : Spends cfg t.self.epoch t.srv.ledger t'.srv.ledger
  roomy : Roomy cfg t'.view

/-- What a call of the server on a session keeps: it stores nothing. -/
structure Yields (cfg : ServerConfig) (t t' : Turn) : Prop where
  epoch : t'.self.epoch = t.self.epoch
  frees : Ledger.Frees cfg t.srv.ledger t'.srv.ledger
  roomy : Roomy cfg t.view → Roomy cfg t'.view

/-- Code that stores nothing serves. -/
theorem Yields.serves (h : Yields cfg t t') (hroom : Roomy cfg t.view) : Serves cfg t t' :=
  ⟨h.epoch, spends_of_frees h.frees, h.roomy hroom⟩

/-- A close stores nothing. -/
theorem yields_beginClose (cfg : ServerConfig) (codec : Codec) (code : CloseCode) (t : Turn) :
    Yields cfg t (beginClose cfg codec code t) where
  epoch := (quiet_beginClose cfg codec code t).epoch
  frees := frees_beginClose cfg codec code t
  roomy := roomy_drains (drains_beginClose cfg codec code t)

/-- `pump` stores nothing. -/
theorem yields_pump (cfg : ServerConfig) (codec : Codec) (t : Turn) :
    Yields cfg t (pump cfg codec t) where
  epoch := (quiet_pump cfg codec t).epoch
  frees := frees_pump cfg codec t
  roomy := roomy_drains (drains_pump cfg codec t)

/-- A delivered report stores nothing. -/
theorem yields_deliverReport (cfg : ServerConfig) (codec : Codec) (msg : OutMsg) (mdSeq : ℕ)
    (t : Turn) : Yields cfg t (deliverReport cfg codec msg mdSeq t) := by
  refine ⟨(quiet_deliverReport cfg codec msg mdSeq t).epoch, ?_, ?_⟩
  · unfold deliverReport
    split_ifs
    · exact .refl
    · exact (frees_enqueueReport cfg codec msg _ t).trans (frees_pump cfg codec _)
  · intro hroom
    unfold deliverReport
    split_ifs
    · exact hroom
    · exact roomy_drains (drains_pump cfg codec _) (roomy_checkPolicyCloses cfg codec _)

/-- A delivered tick stores nothing. -/
theorem yields_deliverTob (cfg : ServerConfig) (codec : Codec) (tob : Tob) (t : Turn) :
    Yields cfg t (deliverTob cfg codec tob t) := by
  unfold deliverTob
  split_ifs
  · exact ⟨rfl, .refl, id⟩
  · have hpump := yields_pump cfg codec (enqueueTob tob t)
    exact ⟨hpump.epoch, hpump.frees, hpump.roomy⟩

/-- A teardown leaves no room to ask for. -/
theorem yields_teardown (cfg : ServerConfig) (code : ℕ) (t : Turn) :
    Yields cfg t (teardown cfg code t) := by
  cases hup : t.self.tornDown with
  | true =>
    rw [teardown, if_pos hup]
    exact ⟨rfl, .refl, id⟩
  | false =>
    obtain ⟨hepoch, -, hdown⟩ := self_teardown cfg code hup
    refine ⟨hepoch, ?_, fun _ _ hopen => ?_⟩
    · let marked : View :=
        { t.view with
          line := { t.view.line with tornDown := true, log := t.view.line.log ++ [.closed code] } }
      have hretire : Ledger.Frees cfg marked.hub.ledger (marked.retire cfg).hub.ledger :=
        frees_retire marked
      have hledger : (teardown cfg code t).srv.ledger = (marked.retire cfg).hub.ledger :=
        congrArg (fun v => v.hub.ledger) (view_teardown hup)
      rw [hledger]
      exact hretire
    · rw [show (teardown cfg code t).self.tornDown = false from hopen] at hdown
      cases hdown

/-- An oversize frame stores nothing. -/
theorem yields_onMessageTooBig (cfg : ServerConfig) (codec : Codec) (t : Turn) :
    Yields cfg t (onMessageTooBig cfg t) := by
  have hdrains : Drains cfg codec t.view (latchClose cfg .tooBig false t).1.view :=
    drains_latchClose cfg codec rfl t
  have hlatch : Yields cfg t (latchClose cfg .tooBig false t).1 :=
    ⟨(quiet_latchClose cfg .tooBig false t).epoch, frees_drains hdrains, roomy_drains hdrains⟩
  unfold onMessageTooBig
  dsimp only
  split_ifs
  · exact ⟨hlatch.epoch, hlatch.frees, hlatch.roomy⟩
  · have hdown := yields_teardown cfg (latchClose cfg .tooBig false t).1.self.closeCode.toNat
      (latchClose cfg .tooBig false t).1
    exact ⟨hdown.epoch.trans hlatch.epoch, hlatch.frees.trans hdown.frees,
      fun hroom => hdown.roomy (hlatch.roomy hroom)⟩

/-- A frame is one command at most. -/
theorem serves_onFrame (cfg : ServerConfig) (codec : Codec) (frame : Option Bytes)
    (hroom : Roomy cfg t.view) : Serves cfg t (onFrame cfg codec frame t) := by
  have hepoch := (mild_onFrame cfg codec frame t).epoch
  unfold onFrame at hepoch ⊢
  dsimp only at hepoch ⊢
  split_ifs at hepoch ⊢
  · exact ⟨hepoch, spends_of_frees .refl, hroom⟩
  · cases frame with
    | none =>
      have hclose := yields_beginClose cfg codec .protocolError { t with srv := t.srv.steadyNs.2 }
      exact ⟨hepoch, spends_of_frees hclose.frees, hclose.roomy hroom⟩
    | some frame =>
      obtain ⟨hspends, hroomy⟩ := spends_onMessage cfg codec frame
        (t := { t with srv := t.srv.steadyNs.2 }) hroom
      exact ⟨hepoch, hspends, hroomy⟩

/-- So does the completion of a read. -/
theorem serves_onRead (cfg : ServerConfig) (codec : Codec) (result : ReadResult)
    (hroom : Roomy cfg t.view) : Serves cfg t (onRead cfg codec result t) := by
  let idle : Turn := { t with self := { t.self with reading := .idle } }
  -- clearing the pending read changes neither the ledger nor the view
  have hidle : ∀ t', Serves cfg idle t' → Serves cfg t t' := fun t' h =>
    ⟨h.epoch, h.spends, h.roomy⟩
  have hdown : ∀ code, Serves cfg t (teardown cfg code idle) := fun code =>
    hidle _ ((yields_teardown cfg code idle).serves hroom)
  unfold onRead
  dsimp only
  split_ifs
  · exact hidle idle ⟨rfl, spends_of_frees .refl, hroom⟩
  · cases result with
    | closed peer => exact hdown _
    | timeout => exact hdown _
    | aborted => exact hdown _
    | messageTooBig => exact hidle _ ((yields_onMessageTooBig cfg codec idle).serves hroom)
    | protocolViolation badPayload => exact hdown _
    | failed => exact hdown _
    | binary => exact hidle _ (serves_onFrame cfg codec none (t := idle) hroom)
    | text frame => exact hidle _ (serves_onFrame cfg codec (some frame) (t := idle) hroom)

/-- The completion of a write stores nothing. -/
theorem yields_onWrite (cfg : ServerConfig) (codec : Codec) (result : WriteResult) (t : Turn) :
    Yields cfg t (onWrite cfg codec result t) := by
  let lagged : Turn := noteSendLag { t with self := { t.self with writeInflight := false } }
  have hlagged : ∀ t', Yields cfg lagged t' → Yields cfg t t' := fun t' h =>
    ⟨h.epoch, h.frees, h.roomy⟩
  unfold onWrite
  dsimp only
  split_ifs
  · exact ⟨rfl, .refl, id⟩
  · cases result with
    | ok => exact hlagged _ (yields_pump cfg codec lagged)
    | timeout => exact hlagged _ (yields_teardown cfg _ lagged)
    | aborted => exact hlagged _ (yields_teardown cfg _ lagged)
    | failed => exact hlagged _ (yields_teardown cfg _ lagged)

/-- The completion of the close stores nothing. -/
theorem yields_onCloseFrame (cfg : ServerConfig) (ok : Bool) (t : Turn) :
    Yields cfg t (onCloseFrame cfg ok t) := by
  unfold onCloseFrame
  dsimp only
  split_ifs
  · exact ⟨rfl, .refl, id⟩
  · have hdown := yields_teardown cfg t.self.closeCode.toNat
      { t with self := { t.self with closeInflight := false } }
    exact ⟨hdown.epoch, hdown.frees, hdown.roomy⟩

/-- The end of the drain stores nothing. -/
theorem yields_onDrainRead (cfg : ServerConfig) (ok : Bool) (t : Turn) :
    Yields cfg t (onDrainRead cfg ok t) := by
  unfold onDrainRead
  split_ifs
  · exact ⟨rfl, .refl, id⟩
  · have hdown := yields_teardown cfg t.self.closeCode.toNat
      { t with self := { t.self with reading := .idle } }
    exact ⟨hdown.epoch, hdown.frees, hdown.roomy⟩

/-- The start of the drain stores nothing. -/
theorem yields_drainTransport (cfg : ServerConfig) (t : Turn) :
    Yields cfg t (drainTransport t) := by
  unfold drainTransport
  split_ifs <;> exact ⟨rfl, .refl, id⟩

/-- Every handler of a session with room serves. -/
theorem serves_completes {i : ℕ} {x : Session} {event : World.Event} {f : Turn → Turn}
    (h : World.Completes cfg codec i x event f) (hroom : Roomy cfg t.view) :
    Serves cfg t (f t) := by
  cases h with
  | read result _ => exact serves_onRead cfg codec result hroom
  | write result _ => exact (yields_onWrite cfg codec result t).serves hroom
  | closeFrame ok _ => exact (yields_onCloseFrame cfg ok t).serves hroom
  | oversizeClose _ => exact (yields_drainTransport cfg t).serves hroom
  | drainRead ok _ => exact (yields_onDrainRead cfg ok t).serves hroom

end Session

/-! ## Runs -/

namespace World

variable {cfg : ServerConfig} {codec : Codec} {w w' : World}

/-- The cap held so far, and every session that takes commands may store one more entry. -/
structure Room (cfg : ServerConfig) (w : World) : Prop where
  capped : w.srv.ledger.Capped cfg
  roomy : ∀ x ∈ w.heap, x.epoch ≠ 0 → Session.Roomy cfg (Turn.view ⟨w.srv, x⟩)

/-- Calls that store nothing keep the room of a session they do not touch. -/
theorem roomy_of_frees {srv srv' : ServerImpl} {x : Session} (hcapped : srv.ledger.Capped cfg)
    (hfrees : Ledger.Frees cfg srv.ledger srv'.ledger)
    (h : Session.Roomy cfg (Turn.view ⟨srv, x⟩)) : Session.Roomy cfg (Turn.view ⟨srv', x⟩) :=
  fun hopen hup => ((hfrees.capped hcapped).2 x.epoch).trans_lt (h hopen hup)

/-- The engine moved by calls that store nothing, or not at all. -/
theorem Room.of_frees (h : w.Room cfg) (hfrees : Ledger.Frees cfg w.srv.ledger w'.srv.ledger)
    (hheap : w'.heap = w.heap) : w'.Room cfg := by
  refine ⟨(hfrees.capped h.capped).1, fun x hx hstarted => ?_⟩
  rw [hheap] at hx
  exact roomy_of_frees h.capped hfrees (h.roomy x hx hstarted)

/-- One call of the server on a session. -/
theorem Room.poke (h : w.Room cfg) (i : ℕ) {f : Turn → Turn}
    (hf : ∀ t, Session.Yields cfg t (f t)) : (w.on i f).Room cfg := by
  cases hfound : w.heap[i]? with
  | none =>
    rw [World.on, hfound]
    exact h
  | some x =>
    rw [heap_on hfound]
    have hyields := hf ⟨w.srv, x⟩
    refine ⟨(hyields.frees.capped h.capped).1, fun y hy hstarted => ?_⟩
    rcases List.mem_or_eq_of_mem_set hy with hold | rfl
    · exact roomy_of_frees h.capped hyields.frees (h.roomy y hold hstarted)
    · rw [hyields.epoch] at hstarted
      exact hyields.roomy (h.roomy x (List.mem_of_getElem? hfound) hstarted)

/-- A loop of steps that keep the room keeps it. -/
theorem Room.foldl {α : Type} {f : World → α → World} (hf : ∀ w a, w.Room cfg → (f w a).Room cfg)
    (as : List α) (h : w.Room cfg) : (as.foldl f w).Room cfg := by
  induction as generalizing w with
  | nil => exact h
  | cons a as ih => exact ih (hf w a h)

/-- Closing every session keeps the room. -/
theorem Room.closeAll (h : w.Room cfg) (codec : Codec) : (w.closeAll cfg codec).Room cfg := by
  apply Room.foldl _ _ h
  intro w p h
  exact h.poke p.2 (Session.yields_beginClose cfg codec .goingAway)

/-- Routing a report keeps the room. -/
theorem Room.route (h : w.Room cfg) (codec : Codec) (mdSeq : ℕ) (r : Routed) :
    (w.route cfg codec mdSeq r).Room cfg := by
  obtain ⟨counted, hcount, hroute⟩ := route_cases cfg codec mdSeq w r
  have hcounted : counted.Room cfg := by
    rcases hcount with rfl | rfl
    · exact h
    · exact h.of_frees .refl rfl
  rcases hroute with hroute | ⟨i, hroute⟩
  · rw [hroute]
    exact hcounted
  · rw [hroute]
    exact hcounted.poke i (Session.yields_deliverReport cfg codec r.msg mdSeq)

/-- A book keeps the room: the sweep removes orders and adds no entry. -/
theorem Room.publishBook (h : w.Room cfg) (codec : Codec) (bidPx bidQty askPx askQty : ℤ) :
    (w.publishBook cfg codec bidPx bidQty askPx askQty).Room cfg := by
  have hbook : (w.processed cfg (w.bookOf bidPx bidQty askPx askQty)).Room cfg :=
    h.of_frees (.single ⟨.onBook _, (by simp), rfl⟩) rfl
  apply Room.foldl
  · intro w p h
    exact h.poke p.2 (Session.yields_deliverTob cfg codec _)
  · exact Room.foldl (fun w r h => h.route codec _ r) _ hbook

/-- `finalize` keeps the room. -/
theorem Room.finalize (h : w.Room cfg) : ({ w with srv := w.srv.finalize } : World).Room cfg := by
  refine h.of_frees ?_ rfl
  have hledger : w.srv.finalize.ledger = w.srv.ledger :=
    congrArg Hub.ledger (Session.hub_finalize w.srv)
  rw [hledger]
  exact .refl

/-- A session that closes or has left stores nothing, so every session has room for a command. -/
theorem Room.lt (h : w.Room cfg) (hinv : w.Inv cfg) {x : Session} (hx : x ∈ w.heap)
    (hstarted : x.epoch ≠ 0) :
    w.srv.engine.entryCount x.epoch < cfg.engine.maxSessionEntries := by
  by_cases hleft : x.closing = true ∨ x.tornDown = true
  · rw [(hinv.reaped hx hstarted hleft).2.2.1]
    exact cfg.engine.maxSessionEntries_pos
  · rw [not_or, Bool.not_eq_true, Bool.not_eq_true] at hleft
    exact h.roomy x hx hstarted hleft.1 hleft.2

/-- The completion of a session's own operation. -/
theorem Room.complete (h : w.Room cfg) (hinv : w.Inv cfg) {event : Event} {i : ℕ} {x : Session}
    {f : Turn → Turn} (hfound : w.heap[i]? = some x)
    (hcompletes : Completes cfg codec i x event f) : (w.on i f).Room cfg := by
  have hx : x ∈ w.heap := List.mem_of_getElem? hfound
  have hstarted : x.epoch ≠ 0 := hinv.started_completes hfound hcompletes
  have hserves : Session.Serves cfg ⟨w.srv, x⟩ (f ⟨w.srv, x⟩) :=
    Session.serves_completes hcompletes (h.roomy x hx hstarted)
  obtain ⟨hcapped, hothers⟩ := hserves.spends.capped h.capped (h.lt hinv hx hstarted)
  rw [heap_on hfound]
  refine ⟨hcapped, fun y hy hy0 => ?_⟩
  obtain ⟨j, hj⟩ := List.getElem?_of_mem hy
  by_cases hij : i = j
  · subst hij
    have hlt : i < w.heap.length := (List.getElem?_eq_some_iff.mp hfound).1
    obtain rfl : (f ⟨w.srv, x⟩).self = y := by simpa [hlt] using hj
    exact hserves.roomy
  · -- another session has another epoch
    have hyold : w.heap[j]? = some y := by simpa [hij] using hj
    have hne : y.epoch ≠ x.epoch := fun heq =>
      hij (hinv.net.roster.epoch_inj i j x.line.row y.line.row (Inv.row hfound) (Inv.row hyold)
        hstarted heq.symm)
    intro hopen hup
    exact (hothers y.epoch hne).trans_lt
      (h.roomy y (List.mem_of_getElem? hyold) hy0 hopen hup)

/-- A fresh epoch has nothing stored. -/
theorem Inv.entryCount_fresh (h : w.Inv cfg) :
    w.srv.engine.entryCount (w.srv.nextEpoch + 1) = 0 := by
  have hengine : OrderEngine.Inv cfg.engine w.srv.engine := h.net.roster.engineInv
  refine hengine.entryCount_eq_zero fun key ord hord hsession => ?_
  obtain ⟨-, i, row, hrow, hepoch, -⟩ := h.net.roster.owned key ord hord
  have hle : row.epoch ≤ w.srv.nextEpoch := h.net.roster.epoch_le i row hrow
  omega

/-- A turn keeps the room. -/
theorem Room.step (h : w.Room cfg) (hinv : w.Inv cfg) (codec : Codec) (event : Event) :
    (w.step cfg codec event).Room cfg := by
  have hturned := turned_step cfg codec w event
  generalize w.step cfg codec event = w' at hturned ⊢
  cases hturned with
  | ignored => exact h
  | completed hfound hcompletes => exact h.complete hinv hfound hcompletes
  | fed index _ => exact h.of_frees .refl rfl
  | dropped index _ =>
    have hfed : (w.fed index).Room cfg := h.of_frees .refl rfl
    exact hfed.closeAll codec
  | published index bidPx bidQty askPx askQty _ =>
    have hfed : (w.fed index).Room cfg := h.of_frees .refl rfl
    exact hfed.publishBook codec bidPx bidQty askPx askQty
  | stopped _ index hrunning =>
    have hhalted : (w.fed index).halted.Room cfg := h.of_frees .refl rfl
    rw [beginStop_of_running (w := w.fed index) hrunning]
    split_ifs
    · exact hhalted.finalize
    · exact hhalted.closeAll codec
  | snapshot conflatedOf _ => exact h.of_frees .refl rfl
  | accepted ok =>
    unfold World.onAccept
    dsimp only
    split_ifs <;> exact h.of_frees .refl rfl
  | @requested j request _ =>
    unfold World.onUpgradeRequest
    cases request with
    | none => exact h.of_frees .refl rfl
    | some req =>
      dsimp only
      split_ifs
      · exact h.of_frees .refl rfl
      · exact h.of_frees .refl rfl
      · exact h.of_frees .refl rfl
      · exact h.of_frees .refl rfl
      · -- the new object has no epoch yet
        refine ⟨h.capped, fun x hx hstarted => ?_⟩
        rcases List.mem_append.mp hx with hold | hnew
        · exact h.roomy x hold hstarted
        · rw [List.mem_singleton.mp hnew] at hstarted
          exact absurd rfl hstarted
  | refused _ => exact h.of_frees .refl rfl
  | shaken ok hfound =>
    rw [(hinv.onHandshake_eq hfound ok).2]
    split_ifs
    · exact h.of_frees .refl rfl
    · refine ⟨h.capped, fun x hx hstarted => ?_⟩
      rcases List.mem_or_eq_of_mem_set hx with hold | rfl
      · exact h.roomy x hold hstarted
      · intro _ _
        have hnone : w.srv.engine.entryCount (w.srv.nextEpoch + 1) = 0 := hinv.entryCount_fresh
        exact hnone.trans_lt cfg.engine.maxSessionEntries_pos

/-- Between turns every session that is not closing has room. -/
theorem run_room (cfg : ServerConfig) (codec : Codec) (clock : ℕ → ℤ) (events : List Event) :
    (run cfg codec clock events).Room cfg := by
  induction events using List.reverseRecOn with
  | nil =>
    refine ⟨⟨rfl, fun calls hprefix e => ?_⟩, fun x hx => by cases hx⟩
    rw [List.prefix_nil.mp hprefix]
    exact Nat.zero_le _
  | append_singleton events event ih =>
    rw [run_concat]
    exact ih.step (run_steps cfg codec clock events).2 codec event

/-- The sessions of the map that take commands. -/
def openSessions (w : World) : List (ℕ × ℕ) :=
  w.srv.sessions.toList.filter fun p => w.sessionIs p.2 (!·.closing)

/-- After no engine call of a run does an epoch hold more than the cap. Between turns a session that
takes commands has room for one more entry, one that closes or has left stores nothing, and so the
open sessions bound what the engine stores. -/
theorem run_entryCap (cfg : ServerConfig) (codec : Codec) (clock : ℕ → ℤ) (events : List Event) :
    let w := run cfg codec clock events
    (OrderEngine.run cfg.engine (w.srv.calls.map Prod.fst) = (w.srv.engine, w.srv.calls) ∧
      ∀ calls, calls <+: w.srv.calls → ∀ epoch,
        (OrderEngine.run cfg.engine (calls.map Prod.fst)).1.entryCount epoch ≤
          cfg.engine.maxSessionEntries) ∧
      (∀ x ∈ w.heap, x.epoch ≠ 0 → x.closing = false → x.tornDown = false →
        w.srv.engine.entryCount x.epoch < cfg.engine.maxSessionEntries) ∧
      (∀ x ∈ w.heap, x.epoch ≠ 0 → x.closing = true ∨ x.tornDown = true →
        w.srv.engine.entryCount x.epoch = 0) ∧
      w.srv.engine.orders.toList.length ≤
        w.openSessions.length * cfg.engine.maxSessionEntries := by
  intro w
  have hinv : w.Inv cfg := (run_steps cfg codec clock events).2
  have hroom : w.Room cfg := run_room cfg codec clock events
  have hengine : OrderEngine.Inv cfg.engine w.srv.engine := hinv.net.roster.engineInv
  refine ⟨⟨hroom.capped.ran, hroom.capped.cap⟩, fun x hx hstarted _ _ => hroom.lt hinv hx hstarted,
    fun x hx hstarted hleft => (hinv.reaped hx hstarted hleft).2.2.1, ?_⟩
  -- every stored order is counted under its session, which is open
  have hlength : (w.openSessions.map Prod.fst).length = w.openSessions.length := List.length_map _
  rw [← hlength]
  refine OrderedMap.length_le_mul OrderKey.session ?_ ?_
  · intro key ord hord
    obtain ⟨i, x, hfind, hx, hepoch, hopen, hup⟩ := hinv.owner key ord hord
    refine List.mem_map.mpr ⟨(key.session, i), List.mem_filter.mpr ⟨?_, ?_⟩, rfl⟩
    · exact OrderedMap.find?_eq_some_iff.mp hfind
    · simp [sessionIs, hx, hopen]
  · intro epoch _
    have hcap := hroom.capped.now epoch
    rwa [show w.srv.ledger.engine = w.srv.engine from rfl, hengine.entryCount_eq] at hcap

end World

end MarketMaker
