import MarketMaker.Link.Simulation

/-!
# What holds in the closed loop

After every run of a link a duplex follows it (`run_follows`), so that what is known of the strategy
and the engine, composed, holds of the two programs with the wire between them:

* every frame of the client is read in sequence, none is refused by its session, and the engine
  never refuses an order as a duplicate, as one too many or as unknown (`run_accepted`);
* the driver never raises and closes for a stale feed only (`run_attends`);
* when nothing is on its way the strategy's orders are the live orders of the engine (`run_agrees`).

Counters are unbounded here. What is assumed of a run is that they have stayed within their machine
types (`Tame`).
-/

namespace MarketMaker

open OrderEngine (Call)
open Client (FitsMachine Synced SessionDriver)

namespace Link

/-- The counters of the session's frames and of the client's strategy fit their machine types. -/
def Tame (i : ℕ) (l : Link) : Prop :=
  (∀ frame ∈ l.written i, FitsMachine frame) ∧ l.driver.strategy.outSeq < 2 ^ 64

variable {cfg : ServerConfig} {scfg : StrategyConfig} {parse : Nlohmann.Parse} {arm : Client.Codec}
  {i : ℕ} {clock : ℕ → ℤ} {l : Link} {w' : World} {x x' : Session}

theorem written_eq (hx : l.world.heap[i]? = some x) : l.written i = framesIn x.log := by
  rw [written, hx]

theorem written_timer (l : Link) (nowNs : ℤ) :
    (l.step cfg scfg parse arm i (.timer nowNs)).written i = l.written i := rfl

/-! ## The start of a session -/

/-- A session that has just started is followed by a duplex that has seen the earlier calls. -/
theorem follows_start (hk : w'.Known cfg) (hx : w'.heap[i]? = some x) (hstarted : x.epoch ≠ 0)
    (hlog : x.log = []) (hopen : IsOpen x) (hseq : x.inSeqExpected = 1) :
    ∃ d, Mealy.Reachable (Duplex.step cfg.engine scfg x.epoch) (Duplex.init x.epoch {}) d ∧
      Follows cfg { world := w' } x d := by
  have hlives := not_ended_of_isOpen hk.inv hx hstarted hopen
  have hlive : liveCalls x.epoch w'.srv.calls = w'.srv.calls := liveCalls_of_not_mem hlives
  -- its sequencer has counted nothing, so that it has had nothing served
  have hown : Duplex.ownIn x.epoch w'.srv.calls = [] := by
    obtain ⟨taken, hsequenced⟩ := hk.sequenced
    have hcounted := hsequenced.counted i x hx
    have hnone : taken i = [] := List.length_eq_zero_iff.mp (by omega)
    rw [Duplex.ownIn, hsequenced.served i x hx hstarted, hnone]
    rfl
  obtain ⟨d, hd⟩ := @Duplex.absorb cfg.engine scfg x.epoch
    (Duplex.init x.epoch {}) w'.srv.calls _ [] []
    hk.inv.run_calls hk.fresh (fun c hc hend => hlives (hend ▸ List.mem_map_of_mem hc)) rfl
    (by rw [hown]; exact .nil)
  have hheard : heardOf { world := w' } x = [] := rfl
  refine ⟨d, hd.reaches, ?_, ⟨[], hd.reports.symm, rfl, fun _ hmsg => (by cases hmsg)⟩, ?_,
    hd.inbound, Nat.zero_le _, ?_, hd.strategy, fun _ he => (by cases he),
    fun _ hintent => (by cases hintent), fun _ => ?_⟩
  · show Mealy.run _ {} ((liveCalls x.epoch w'.srv.calls).map Prod.fst) =
      (d.engine, liveCalls x.epoch w'.srv.calls)
    rw [hlive]
    exact hd.engine
  · rw [hheard, newestIn_nil, List.drop_zero]
    show d.books = booksIn (liveCalls x.epoch w'.srv.calls)
    rw [hlive]
    exact hd.books
  · rw [hlog]
    exact fun _ hp => by cases hp
  · refine ⟨0, hseq, ?_, rfl⟩
    rw [hd.commands]
    exact .nil 0

/-! ## The invariant -/

/-- A link, as far as the session at `i` and its client are concerned. -/
structure Tracks (cfg : ServerConfig) (scfg : StrategyConfig) (parse : Nlohmann.Parse)
    (arm : Client.Codec) (i : ℕ) (clock : ℕ → ℤ) (l : Link) : Prop where
  world : ∃ events, l.world = World.run cfg (Nlohmann.codec parse) clock events
  driver : ∃ history, Synced scfg arm l.driver history
  /-- Before the session has started nothing has happened to the client. -/
  idle : (∀ x, l.world.heap[i]? = some x → x.epoch = 0) →
    l.driver = {} ∧ l.sent = [] ∧ l.heard = 0
  follows : l.Tame i → ∀ x, l.world.heap[i]? = some x → x.epoch ≠ 0 →
    ∃ d, Mealy.Reachable (Duplex.step cfg.engine scfg x.epoch) (Duplex.init x.epoch {}) d ∧
      Follows cfg l x d

theorem tracks_init (cfg : ServerConfig) (scfg : StrategyConfig) (parse : Nlohmann.Parse)
    (arm : Client.Codec) (i : ℕ) (clock : ℕ → ℤ) :
    Tracks cfg scfg parse arm i clock (init clock) where
  world := ⟨[], rfl⟩
  driver := ⟨[], fun _ => ⟨rfl, rfl, rfl, fun _ => rfl⟩, fun _ hepoch => by cases hepoch⟩
  idle _ := ⟨rfl, rfl, rfl⟩
  follows _ x hx := by cases hx

namespace Tracks

theorem known (h : Tracks cfg scfg parse arm i clock l) (hset : Setting cfg scfg parse arm) :
    l.world.Known cfg := by
  obtain ⟨events, hworld⟩ := h.world
  rw [hworld]
  exact World.known_run hset.parse hset.inst hset.feed clock events

theorem known_step (h : Tracks cfg scfg parse arm i clock l) (hset : Setting cfg scfg parse arm)
    (turn : World.Event) : (l.world.step cfg (Nlohmann.codec parse) turn).Known cfg := by
  obtain ⟨events, hworld⟩ := h.world
  rw [hworld, ← World.run_concat]
  exact World.known_run hset.parse hset.inst hset.feed clock _

/-- A session that has not started has written nothing. -/
theorem started_of_frame (h : Tracks cfg scfg parse arm i clock l)
    (hset : Setting cfg scfg parse arm) (hx : l.world.heap[i]? = some x) {frame : OutMsg}
    (hframe : frame ∈ framesIn x.log) : x.epoch ≠ 0 := by
  intro hzero
  rw [(h.known hset).inv.unstarted x (List.mem_of_getElem? hx) hzero] at hframe
  cases hframe

/-- A turn of the server only adds to what was written. -/
theorem tame_of_turn (h : Tracks cfg scfg parse arm i clock l) (hset : Setting cfg scfg parse arm)
    {turn : World.Event} {sent : List Bytes}
    (htame : Tame i { l with world := l.world.step cfg (Nlohmann.codec parse) turn, sent }) :
    l.Tame i := by
  refine ⟨fun frame hframe => ?_, htame.2⟩
  cases hx : l.world.heap[i]? with
  | none =>
    rw [written, hx] at hframe
    cases hframe
  | some x =>
    rw [written_eq hx] at hframe
    have hstarted := h.started_of_frame hset hx hframe
    have hinv := (h.known hset).inv
    obtain ⟨x', hx', -⟩ := hinv.getElem?_step (Nlohmann.codec parse) turn hx hstarted
    have hgrows := hinv.line_grows (Nlohmann.codec parse) turn hx hstarted hx'
    have hwritten : written i
        { l with world := l.world.step cfg (Nlohmann.codec parse) turn, sent } =
        framesIn x'.log := written_eq hx'
    exact htame.1 frame (hwritten ▸ (hgrows.log.filterMap _).subset hframe)

/-- What follows the link in the started session follows it after a turn, if each session that was
there before is followed. -/
theorem turn (h : Tracks cfg scfg parse arm i clock l) (hset : Setting cfg scfg parse arm)
    (turn : World.Event) {sent : List Bytes} (hidle : l.sent = [] → sent = [])
    (hfollows : ∀ x x' d, l.world.heap[i]? = some x → x.epoch ≠ 0 →
      (l.world.step cfg (Nlohmann.codec parse) turn).heap[i]? = some x' → Follows cfg l x d →
      ∃ d', Mealy.Reachable (Duplex.step cfg.engine scfg x.epoch) d d' ∧
        Follows cfg { l with world := l.world.step cfg (Nlohmann.codec parse) turn, sent } x' d') :
    Tracks cfg scfg parse arm i clock
      { l with world := l.world.step cfg (Nlohmann.codec parse) turn, sent } := by
  have hinv := (h.known hset).inv
  refine ⟨?_, h.driver, fun hnone => ?_, fun htame x' hx' hstarted' => ?_⟩
  · obtain ⟨events, hworld⟩ := h.world
    exact ⟨events ++ [turn], by rw [World.run_concat, ← hworld]⟩
  · -- a session that has started stays
    have hbefore : ∀ x, l.world.heap[i]? = some x → x.epoch = 0 := by
      intro x hx
      by_contra hstarted
      obtain ⟨x', hx', hepoch, -⟩ := hinv.getElem?_step (Nlohmann.codec parse) turn hx hstarted
      exact hstarted (hepoch.symm.trans (hnone x' hx'))
    obtain ⟨hdriver, hsent, hheard⟩ := h.idle hbefore
    exact ⟨hdriver, hidle hsent, hheard⟩
  · have hold : ∀ x, l.world.heap[i]? = some x → x.epoch ≠ 0 →
        ∃ d, Mealy.Reachable (Duplex.step cfg.engine scfg x'.epoch) (Duplex.init x'.epoch {}) d ∧
          Follows cfg { l with world := l.world.step cfg (Nlohmann.codec parse) turn, sent }
            x' d := by
      intro x hx hstarted
      obtain ⟨d, hreach, hd⟩ := h.follows (h.tame_of_turn hset htame) x hx hstarted
      obtain ⟨d', hreach', hd'⟩ := hfollows x x' d hx hstarted hx' hd
      obtain ⟨y, hy, hepoch, -⟩ := hinv.getElem?_step (Nlohmann.codec parse) turn hx hstarted
      cases hx'.symm.trans hy
      exact ⟨d', hepoch ▸ hreach.trans hreach', hd'⟩
    rcases hinv.touched (Nlohmann.codec parse) turn hx' with ⟨x, hx, htouched⟩ | ⟨-, rfl⟩
    · by_cases hstarted : x.epoch = 0
      · -- the session starts in this turn
        cases htouched with
        | completed hcompletes => exact absurd hstarted (hinv.started_completes hx hcompletes)
        | poked hpoked =>
          exact absurd ((Session.passive_poked hpoked).epoch.trans hstarted) hstarted'
        | started _ =>
          obtain ⟨hdriver, hsent, hheard⟩ := h.idle fun y hy => by
            cases hx.symm.trans hy
            exact hstarted
          obtain ⟨d, hreach, hd⟩ := follows_start (h.known_step hset turn) hx' hstarted'
            rfl ⟨rfl, rfl⟩ rfl
          rw [hdriver, hheard, hidle hsent]
          exact ⟨d, hreach, hd⟩
      · exact hold x hx hstarted
    · exact absurd rfl hstarted'

/-- A call of the driver only adds to what it has counted. -/
theorem tame_of_call (h : Tracks cfg scfg parse arm i clock l) (hset : Setting cfg scfg parse arm)
    {c : Client.SessionCall} {heard : ℕ}
    (htame : (({ l with heard } : Link).act (l.driver.call scfg arm c)).Tame i) : l.Tame i := by
  obtain ⟨platform, hplatform, harm⟩ := hset.arm
  obtain ⟨history, hsynced⟩ := h.driver
  exact ⟨htame.1, (hsynced.outSeq_le (harm.sound hplatform) c).trans_lt htame.2⟩

/-- A call of the driver. -/
theorem called (h : Tracks cfg scfg parse arm i clock l) (hset : Setting cfg scfg parse arm)
    (c : Client.SessionCall) {heard : ℕ}
    (hidle : (∀ x, l.world.heap[i]? = some x → x.epoch = 0) →
      l.driver.call scfg arm c = (l.driver, .ok []) ∧ heard = l.heard)
    (hfollows : ({ l with heard } : Link).act (l.driver.call scfg arm c) |>.Tame i →
      ∀ x d, l.world.heap[i]? = some x → x.epoch ≠ 0 →
      Mealy.Reachable (Duplex.step cfg.engine scfg x.epoch) (Duplex.init x.epoch {}) d →
      Follows cfg l x d → ∃ d', Mealy.Reachable (Duplex.step cfg.engine scfg x.epoch) d d' ∧
        Follows cfg (({ l with heard } : Link).act (l.driver.call scfg arm c)) x d') :
    Tracks cfg scfg parse arm i clock
      (({ l with heard } : Link).act (l.driver.call scfg arm c)) := by
  obtain ⟨platform, hplatform, harm⟩ := hset.arm
  obtain ⟨history, hsynced⟩ := h.driver
  refine ⟨h.world, ⟨_, hsynced.step (harm.sound hplatform) (fun _ => hset.qty) c⟩, fun hnone => ?_,
    fun htame x hx hstarted => ?_⟩
  · obtain ⟨hcall, hheard⟩ := hidle hnone
    obtain ⟨hdriver, hsent, hzero⟩ := h.idle hnone
    rw [hcall, hheard]
    refine ⟨hdriver, ?_, hzero⟩
    show l.sent ++ [] = []
    rw [hsent]
    rfl
  · obtain ⟨d, hreach, hd⟩ := h.follows (h.tame_of_call hset htame) x hx hstarted
    obtain ⟨d', hreach', hd'⟩ := hfollows htame x d hx hstarted hreach hd
    exact ⟨d', hreach.trans hreach', hd'⟩

/-- The client reads a frame. -/
theorem hear (h : Tracks cfg scfg parse arm i clock l) (hset : Setting cfg scfg parse arm)
    {frame : OutMsg} (hframe : (l.written i)[l.heard]? = some frame) (nowNs : ℤ) :
    Tracks cfg scfg parse arm i clock
      (({ l with heard := l.heard + 1 } : Link).act
        (l.driver.call scfg arm (.onBytes (Nlohmann.encode frame) nowNs))) := by
  cases hx : l.world.heap[i]? with
  | none =>
    rw [written, hx] at hframe
    cases hframe
  | some x =>
    rw [written_eq hx] at hframe
    have hstarted := h.started_of_frame hset hx (List.mem_of_getElem? hframe)
    obtain ⟨history, hsynced⟩ := h.driver
    refine h.called hset _ (fun hnone => absurd (hnone x hx) hstarted)
      fun htame y d hy hne hreach hd => ?_
    cases hx.symm.trans hy
    have hwritten : ∀ r, written i (Link.act { l with heard := l.heard + 1 } r) = framesIn x.log :=
      fun _ => written_eq hx
    have hfits : FitsMachine frame := htame.1 frame (hwritten _ ▸ List.mem_of_getElem? hframe)
    obtain ⟨-, d', -, hreach', hd'⟩ := hd.hear hset (h.known hset) hreach hsynced
      (List.mem_of_getElem? hx) hstarted hframe hfits htame.2
    exact ⟨d', hreach', hd'⟩

theorem timer (h : Tracks cfg scfg parse arm i clock l) (hset : Setting cfg scfg parse arm)
    (nowNs : ℤ) :
    Tracks cfg scfg parse arm i clock (l.act (l.driver.call scfg arm (.onTimer nowNs))) := by
  obtain ⟨history, hsynced⟩ := h.driver
  refine h.called hset (.onTimer nowNs) (fun hnone => ⟨?_, rfl⟩)
    fun htame x d hx hstarted hreach hd => ?_
  · exact hsynced.onTimer_of_none (by rw [(h.idle hnone).1]) nowNs
  · obtain ⟨-, d', -, hreach', hd'⟩ := hd.timer hset hsynced htame.2
    exact ⟨d', hreach', hd'⟩

theorem step (h : Tracks cfg scfg parse arm i clock l) (hset : Setting cfg scfg parse arm)
    (event : Event) : Tracks cfg scfg parse arm i clock (l.step cfg scfg parse arm i event) := by
  have hk := h.known hset
  cases event with
  | server turn =>
    rw [Link.step]
    split_ifs with hpeer
    · exact h
    · exact h.turn hset turn id fun x x' d hx hstarted hx' hd =>
        hd.server hk (h.known_step hset turn) (Bool.not_eq_true _ |>.mp hpeer) hx hstarted hx'
  | arrive =>
    rw [Link.step]
    cases hsent : l.sent with
    | nil => exact h
    | cons frame rest =>
      dsimp only
      split_ifs with hreading
      · refine h.turn hset (.read i (.text frame)) (fun hnil => ?_)
          fun x x' d hx hstarted hx' hd => ?_
        · rw [hsent] at hnil
          cases hnil
        · have hmessage : x.reading = .message := by
            simpa [World.sessionIs, hx] using hreading
          exact hd.arrive hset.parse hk (h.known_step hset _) hx hstarted hmessage hsent hx'
      · exact h
  | hear nowNs =>
    rw [Link.step, Link.called]
    cases hframe : (l.written i)[l.heard]? with
    | none => exact h
    | some frame => exact h.hear hset hframe nowNs
  | timer nowNs => exact h.timer hset nowNs

end Tracks

theorem tracks_run (hset : Setting cfg scfg parse arm) (i : ℕ) (clock : ℕ → ℤ)
    (events : List Event) :
    Tracks cfg scfg parse arm i clock (run cfg scfg parse arm i clock events) := by
  induction events using List.reverseRecOn with
  | nil => exact tracks_init cfg scfg parse arm i clock
  | append_singleton events event ih =>
    rw [run_concat]
    exact ih.step hset event

/-! ## Results -/

/-- A client connects, quotes the first book of the feed and hears both acks. -/
def quotes : List Event :=
  [.server (.accept true), .server (.upgradeRequest 0 (some ⟨true, true, false⟩)),
    .server (.handshake 0 true), .server .feed, .hear 0, .server (.write 0 .ok), .arrive,
    .server (.write 0 .ok), .arrive, .server (.write 0 .ok), .hear 1, .hear 2]

abbrev plainParse : Nlohmann.Parse := fun span => Nlohmann.domOf (Json.valueOf span)

abbrev plainArm : Client.Codec := Client.Platform.plain.tuned

def quoted : Link :=
  run World.dropConfig (Client.quoting 10) plainParse plainArm 0 (fun n => n) quotes

theorem run_quotes : run World.dropConfig (Client.quoting 10) plainParse plainArm 0
    (fun n => n) quotes =
    quoted := rfl

/-- A second and a half later the feed is stale. -/
def staleTimer : Event := .timer 1500000000

theorem setting_quoted : Setting World.dropConfig (Client.quoting 10) plainParse plainArm where
  parse := Nlohmann.correct_domOf
  arm := ⟨.plain, Client.Platform.documented_plain, Or.inl rfl⟩
  inst := World.fits_dropInstrument
  feed := World.fits_dropFeed
  symbol := rfl
  qty := ⟨by decide, by decide⟩

/-- The frame of the ack of one of the two orders. -/
def quoteAck (clId : String) (engId : ℕ) : OutMsg :=
  .orderAck
    { seq := engId + 1, epoch := 1, clId := ascii clId, engId, status := ascii "live", svcNs := 1 }

/-- The state after the run, and the driver after the timer. -/
theorem quoted_settled : ∃ x, quoted.world.heap[0]? = some x ∧ x.epoch = 1 ∧ IsOpen x ∧
    x.outbox.reports = [] ∧ framesIn x.log = [World.bookTick, quoteAck "B-1" 1, quoteAck "S-1" 2] ∧
    quoted.heard = 3 ∧ quoted.sent = [] ∧ quoted.driver.strategy.stopped = false ∧
    quoted.driver.strategy.orders.length = 2 ∧ quoted.driver.strategy.outSeq = 2 ∧
    (quoted.step World.dropConfig (Client.quoting 10) plainParse plainArm 0
      staleTimer).driver.strategy.outSeq = 4 ∧
    (quoted.step World.dropConfig (Client.quoting 10) plainParse plainArm 0
      staleTimer).driver.close.isSome = true := by
  have hsettled : (quoted.world.heap[0]?).any (fun x => x.epoch = 1 ∧ IsOpen x ∧
      x.outbox.reports = [] ∧
      framesIn x.log = [World.bookTick, quoteAck "B-1" 1, quoteAck "S-1" 2] ∧
      quoted.heard = 3 ∧ quoted.sent = [] ∧ quoted.driver.strategy.stopped = false ∧
      quoted.driver.strategy.orders.length = 2 ∧ quoted.driver.strategy.outSeq = 2 ∧
      (quoted.step World.dropConfig (Client.quoting 10) plainParse plainArm 0
        staleTimer).driver.strategy.outSeq = 4 ∧
      (quoted.step World.dropConfig (Client.quoting 10) plainParse plainArm 0
        staleTimer).driver.close.isSome = true) = true := by
    decide +kernel
  obtain ⟨x, hx, hfacts⟩ := (Option.any_eq_true _ _).mp hsettled
  exact ⟨x, hx, of_decide_eq_true hfacts⟩

/-- The frames of the run fit. -/
theorem fits_quoted : ∀ frame ∈ [World.bookTick, quoteAck "B-1" 1, quoteAck "S-1" 2],
    FitsMachine frame := by
  intro frame hframe
  rcases List.mem_cons.mp hframe with rfl | hacks
  · exact ⟨by decide, fun ack hack => by cases hack⟩
  · have hack : ∀ clId engId, engId < 2 ^ 32 → FitsMachine (quoteAck clId engId) := by
      intro clId engId hlt
      refine ⟨fun n hn => ?_, fun ack hack => ?_⟩
      · simp only [Client.countersOf, quoteAck, List.mem_cons, List.not_mem_nil, or_false] at hn
        omega
      · cases hack
        exact show InInt64 1 from ⟨by decide, by decide⟩
    rcases List.mem_cons.mp hacks with rfl | hlast
    · exact hack _ _ (by decide)
    · rw [List.mem_singleton.mp hlast]
      exact hack _ _ (by decide)

theorem tame_quoted : quoted.Tame 0 := by
  obtain ⟨x, hx, -, -, -, hframes, -, -, -, -, hcount, -⟩ := quoted_settled
  refine ⟨fun frame hframe => ?_, ?_⟩
  · rw [written_eq hx, hframes] at hframe
    exact fits_quoted frame hframe
  · rw [hcount]
    decide

/-- Every run of a link refines a run of the duplex: some duplex that the strategy and the engine
reach with queues of commands, reports and books between them is in the state of the link. -/
theorem run_follows (hset : Setting cfg scfg parse arm) (i : ℕ) (clock : ℕ → ℤ)
    (events : List Event)
    (htame : (run cfg scfg parse arm i clock events).Tame i) (x : Session)
    (hx : (run cfg scfg parse arm i clock events).world.heap[i]? = some x)
    (hstarted : x.epoch ≠ 0) :
    ∃ d, Mealy.Reachable (Duplex.step cfg.engine scfg x.epoch) (Duplex.init x.epoch {}) d ∧
      Follows cfg (run cfg scfg parse arm i clock events) x d :=
  (tracks_run hset i clock events).follows htame x hx hstarted

theorem run_follows_quotes : ∃ x d, quoted.world.heap[0]? = some x ∧
    Mealy.Reachable (Duplex.step World.dropConfig.engine (Client.quoting 10) x.epoch)
      (Duplex.init x.epoch {}) d ∧ Follows World.dropConfig quoted x d := by
  obtain ⟨x, hx, hepoch, -⟩ := quoted_settled
  have hfollows := run_follows setting_quoted 0 (fun n => n) quotes
  rw [run_quotes] at hfollows
  obtain ⟨d, hreach, hd⟩ := hfollows tame_quoted x hx (by rw [hepoch]; decide)
  exact ⟨x, d, hx, hreach, hd⟩

/-- The server takes whatever the client sends: all that it ever queues for the client are answers
of the engine, among them no reject for a duplicate, for one order too many or for an unknown id. As
long as the session is open, its sequencer and the client's numbers differ by what is in flight, and
the engine holds at most one live order of the client on a side. -/
theorem run_accepted (hset : Setting cfg scfg parse arm) (hcap : 2 ≤ cfg.engine.inst.maxLiveOrders)
    (i : ℕ) (clock : ℕ → ℤ) (events : List Event)
    (htame : (run cfg scfg parse arm i clock events).Tame i) (x : Session)
    (hx : (run cfg scfg parse arm i clock events).world.heap[i]? = some x)
    (hstarted : x.epoch ≠ 0) :
    let l := run cfg scfg parse arm i clock events
    (∀ p ∈ enqueuedIn x.log, p.2 ≠ .session ∧
        ∀ rej, p.1 = .reject rej → rej.code ≠ RejectCode.maxLiveOrders.toString ∧
          rej.code ≠ RejectCode.dupClOrdId.toString ∧
            rej.code ≠ RejectCode.unknownClOrdId.toString) ∧
      (IsOpen x → x.inSeqExpected + l.sent.length = l.driver.outSeq + 1 ∧
        ∀ side, (l.world.srv.engine.orders.count fun k o =>
          k.session = x.epoch ∧ o.st = .live ∧ o.side = side) ≤ 1) := by
  intro l
  have htracks : Tracks cfg scfg parse arm i clock l := tracks_run hset i clock events
  have hk := htracks.known hset
  obtain ⟨d, ⟨devents, hd⟩, h⟩ := htracks.follows htame x hx hstarted
  have hcivil := Duplex.civil_run cfg.engine scfg x.epoch {} devents
  have hgood := Duplex.good_run cfg.engine scfg x.epoch {} devents
  rw [Duplex.run, hd] at hcivil hgood
  refine ⟨fun p hp => ⟨h.speaks p hp, fun rej hrej => ?_⟩, fun hopen => ?_⟩
  · obtain ⟨told, hanswers, -, htold⟩ := h.reports
    have hqueued : p.1 ∈ queuedIn x.log :=
      List.mem_map_of_mem (List.mem_filter.mpr ⟨hp, decide_eq_true (h.speaks p hp)⟩)
    rw [hk.informed.queued x (List.mem_of_getElem? hx) hstarted, hanswers] at hqueued
    have hp := (List.mem_append.mp hqueued).elim (htold p.1) (hcivil p.1)
    have havoid := hp hcap rej hrej
    simp only [Duplex.isAvoidable, not_or] at havoid
    exact havoid
  · obtain ⟨start, hnext, -, hcount⟩ := h.inFlight hopen
    refine ⟨by omega, fun side => ?_⟩
    rw [← h.engine_eq hk.inv hx hstarted hopen]
    exact hgood.live_le_one side

/-- Both orders of the run were taken: the engine holds one on each side. -/
theorem run_accepted_quotes : ∃ x, quoted.world.heap[0]? = some x ∧
    (∀ p ∈ enqueuedIn x.log, p.2 ≠ .session) ∧
      ∀ side, (quoted.world.srv.engine.orders.count fun k o =>
        k.session = x.epoch ∧ o.st = .live ∧ o.side = side) ≤ 1 := by
  obtain ⟨x, hx, hepoch, hopen, -⟩ := quoted_settled
  have haccepted := run_accepted setting_quoted (by decide) 0 (fun n => n) quotes
  rw [run_quotes] at haccepted
  obtain ⟨hanswers, hlive⟩ := haccepted tame_quoted x hx (by rw [hepoch]; decide)
  exact ⟨x, hx, fun p hp => (hanswers p hp).1, (hlive hopen).2⟩

namespace Tracks

/-- The driver returns from the next frame of its session. -/
theorem hear_ok (h : Tracks cfg scfg parse arm i clock l) (hset : Setting cfg scfg parse arm)
    {frame : OutMsg} (hframe : (l.written i)[l.heard]? = some frame) {nowNs : ℤ}
    (htame : (({ l with heard := l.heard + 1 } : Link).act
      (l.driver.call scfg arm (.onBytes (Nlohmann.encode frame) nowNs))).Tame i) :
    ∃ sent, (l.driver.call scfg arm (.onBytes (Nlohmann.encode frame) nowNs)).2 = .ok sent := by
  cases hx : l.world.heap[i]? with
  | none =>
    rw [written, hx] at hframe
    cases hframe
  | some x =>
    rw [written_eq hx] at hframe
    have hmem : frame ∈ framesIn x.log := List.mem_of_getElem? hframe
    have hstarted := h.started_of_frame hset hx hmem
    have hbefore : l.Tame i := h.tame_of_call hset htame
    obtain ⟨history, hsynced⟩ := h.driver
    obtain ⟨d, hreach, hd⟩ := h.follows hbefore x hx hstarted
    obtain ⟨sent, -, hsent, -⟩ := hd.hear hset (h.known hset) hreach hsynced
      (List.mem_of_getElem? hx) hstarted hframe (hbefore.1 frame (written_eq hx ▸ hmem)) htame.2
    exact ⟨sent, hsent⟩

/-- The driver returns from its timer. -/
theorem timer_ok (h : Tracks cfg scfg parse arm i clock l) (hset : Setting cfg scfg parse arm)
    {nowNs : ℤ} (htame : (l.act (l.driver.call scfg arm (.onTimer nowNs))).Tame i) :
    ∃ sent, (l.driver.call scfg arm (.onTimer nowNs)).2 = .ok sent := by
  obtain ⟨history, hsynced⟩ := h.driver
  by_cases hidle : ∀ x, l.world.heap[i]? = some x → x.epoch = 0
  · have hnone : l.driver.epoch = none := by rw [(h.idle hidle).1]
    exact ⟨[], congrArg Prod.snd (hsynced.onTimer_of_none hnone nowNs)⟩
  · push Not at hidle
    obtain ⟨x, hx, hstarted⟩ := hidle
    have hbefore : l.Tame i := h.tame_of_call hset htame
    obtain ⟨d, hreach, hd⟩ := h.follows hbefore x hx hstarted
    obtain ⟨sent, -, hsent, -⟩ := hd.timer hset hsynced htame.2
    exact ⟨sent, hsent⟩

/-- A close that is intended is for a stale feed. -/
theorem code_of_close (h : Tracks cfg scfg parse arm i clock l) (htame : l.Tame i)
    {intent : Client.CloseIntent} (hintent : l.driver.close = some intent) :
    intent.code = Client.CLOSE_STALE := by
  by_cases hidle : ∀ x, l.world.heap[i]? = some x → x.epoch = 0
  · rw [(h.idle hidle).1] at hintent
    cases hintent
  · push Not at hidle
    obtain ⟨x, hx, hstarted⟩ := hidle
    obtain ⟨d, -, hd⟩ := h.follows htame x hx hstarted
    exact (hd.closed intent hintent).1

end Tracks

/-- The driver never raises, whichever frame of its session it reads and whenever its timer fires,
and closes for a stale feed only. -/
theorem run_attends (hset : Setting cfg scfg parse arm) (i : ℕ) (clock : ℕ → ℤ)
    (events : List Event) (event : Event)
    (htame : ((run cfg scfg parse arm i clock events).step cfg scfg parse arm i event).Tame i) :
    let l := run cfg scfg parse arm i clock events
    (∀ call, l.called i event = some call → ∃ sent, (l.driver.call scfg arm call).2 = .ok sent) ∧
      ∀ intent, (l.step cfg scfg parse arm i event).driver.close = some intent →
        intent.code = Client.CLOSE_STALE := by
  intro l
  have htracks : Tracks cfg scfg parse arm i clock l := tracks_run hset i clock events
  have hnext : Tracks cfg scfg parse arm i clock (l.step cfg scfg parse arm i event) :=
    htracks.step hset event
  refine ⟨fun call hcall => ?_, fun intent hintent => ?_⟩
  · cases event with
    | server turn => cases hcall
    | arrive => cases hcall
    | hear nowNs =>
      obtain ⟨frame, hframe, rfl⟩ := Option.map_eq_some_iff.mp hcall
      rw [Link.step, hcall] at htame
      exact htracks.hear_ok hset hframe htame
    | timer nowNs =>
      obtain rfl := Option.some.inj hcall
      exact htracks.timer_ok hset htame
  · exact hnext.code_of_close htame hintent

/-- The timer closes the client of the run. -/
theorem run_attends_quotes : ∃ intent,
    (quoted.step World.dropConfig (Client.quoting 10) plainParse plainArm 0
      staleTimer).driver.close = some intent ∧ intent.code = Client.CLOSE_STALE := by
  obtain ⟨x, hx, -, -, -, hframes, -, -, -, -, -, hcount, hclose⟩ := quoted_settled
  have htame : (quoted.step World.dropConfig (Client.quoting 10) plainParse plainArm 0
      staleTimer).Tame 0 := by
    refine ⟨fun frame hframe => ?_, ?_⟩
    · rw [staleTimer, written_timer, written_eq hx, hframes] at hframe
      exact fits_quoted frame hframe
    · rw [hcount]
      decide
  obtain ⟨intent, hintent⟩ := Option.isSome_iff_exists.mp hclose
  have hattends := run_attends setting_quoted 0 (fun n => n) quotes staleTimer
  rw [run_quotes] at hattends
  exact ⟨intent, hintent, (hattends htame).2 intent hintent⟩

theorem Follows.commands_eq_nil {d : Duplex} (h : Follows cfg l x d) (hopen : IsOpen x)
    (hsent : l.sent = []) : d.commands = [] := by
  obtain ⟨start, -, hflight, -⟩ := h.inFlight hopen
  have hlength := hflight.length_eq
  rw [hsent] at hlength
  exact List.length_eq_zero_iff.mp hlength.symm

/-- All that was answered is written and heard. -/
theorem Follows.reports_eq_nil {d : Duplex} (h : Follows cfg l x d) (hk : l.world.Known cfg)
    (hx : x ∈ l.world.heap) (hstarted : x.epoch ≠ 0) (hheard : l.heard = (framesIn x.log).length)
    (hqueued : x.outbox.reports = []) : d.reports = [] := by
  obtain ⟨told, hanswers, hmany, -⟩ := h.reports
  obtain ⟨done, queued, hstream⟩ := (hk.ordered x hx).streams
  have hnone : queued = [] := List.map_eq_nil_iff.mp (hstream.reports.trans hqueued)
  have hall : l.heardOf x = framesIn x.log := by
    rw [heardOf, hheard, List.take_length]
  -- as many answers as reports written, and these were heard
  have hcount : (answersTo x.epoch l.world.srv.calls).length = told.length := by
    have henqueued : enqueuedIn x.log = done ++ queued := hstream.enqueued
    have hcarried : done.length = (reportsOf (framesIn x.log)).length := hstream.carried.length_eq
    rw [hmany, hall, ← hcarried, ← hk.informed.queued x hx hstarted, queuedIn,
      List.filter_eq_self.mpr fun p hp => decide_eq_true (h.speaks p hp), List.length_map,
      henqueued, hnone, List.append_nil]
  rw [hanswers, List.length_append] at hcount
  exact List.length_eq_zero_iff.mp (by omega)

/-- When nothing is on its way between an open session and its client, a running strategy has
exactly the engine's live orders of the session, all of them `LIVE`. -/
theorem run_agrees (hset : Setting cfg scfg parse arm) (i : ℕ) (clock : ℕ → ℤ) (events : List Event)
    (htame : (run cfg scfg parse arm i clock events).Tame i) (x : Session)
    (hx : (run cfg scfg parse arm i clock events).world.heap[i]? = some x) (hstarted : x.epoch ≠ 0)
    (hopen : IsOpen x) (hsent : (run cfg scfg parse arm i clock events).sent = [])
    (hheard : (run cfg scfg parse arm i clock events).heard = (framesIn x.log).length)
    (hqueued : x.outbox.reports = [])
    (hrun : (run cfg scfg parse arm i clock events).driver.strategy.stopped = false) :
    let l := run cfg scfg parse arm i clock events
    (∀ o ∈ l.driver.strategy.orders, o.state = .live) ∧
      Duplex.believed l.driver.strategy =
        Duplex.liveOrders cfg.engine l.world.srv.engine x.epoch := by
  intro l
  have htracks : Tracks cfg scfg parse arm i clock l := tracks_run hset i clock events
  have hk := htracks.known hset
  obtain ⟨history, hsynced⟩ := htracks.driver
  obtain ⟨d, ⟨devents, hd⟩, h⟩ := htracks.follows htame x hx hstarted
  have hgood := Duplex.good_run cfg.engine scfg x.epoch {} devents
  rw [Duplex.run, hd] at hgood
  -- both have the same orders, also before the client has adopted the epoch
  have hsame : d.strategy.orders = l.driver.strategy.orders ∧ d.strategy.stopped = false := by
    rw [h.client, SessionDriver.adopt]
    cases hepoch : l.driver.epoch with
    | none =>
      rw [(hsynced.before hepoch).1]
      exact ⟨rfl, rfl⟩
    | some e => exact ⟨rfl, hrun⟩
  have hagree := hgood.agree hsame.2 (h.commands_eq_nil hopen hsent)
    (h.reports_eq_nil hk (List.mem_of_getElem? hx) hstarted hheard hqueued)
  rw [Duplex.believed, hsame.1, h.engine_eq hk.inv hx hstarted hopen] at hagree
  exact hagree

/-- The strategy of the run has both orders, and so has the engine. -/
theorem run_agrees_quotes : quoted.driver.strategy.orders.length = 2 ∧
    Duplex.believed quoted.driver.strategy =
      Duplex.liveOrders World.dropConfig.engine quoted.world.srv.engine 1 := by
  obtain ⟨x, hx, hepoch, hopen, hqueued, hframes, hheard, hsent, hrun, horders, -⟩ := quoted_settled
  have hagrees := run_agrees setting_quoted 0 (fun n => n) quotes
  rw [run_quotes] at hagrees
  have hagree := hagrees tame_quoted x hx (by rw [hepoch]; decide) hopen hsent
    (by rw [hframes]; exact hheard) hqueued hrun
  rw [hepoch] at hagree
  exact ⟨horders, hagree.2⟩

end Link

end MarketMaker
