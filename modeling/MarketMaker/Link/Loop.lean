import MarketMaker.Client.Dispatch
import MarketMaker.Duplex.Attention
import MarketMaker.Link.Absorb
import MarketMaker.Link.World
import MarketMaker.Server.Unread

/-!
# A server and its client, over the wire

The server (`World`) with every session it may have, and the client of one of them: the driver of
`mmclient` around the quoting strategy. Two byte streams join them. The client reads the frames of
its session in the order they were written, each of them as the encoder left it; the session's reads
complete with the frames of the client, in the order they were sent. Anything else may happen at the
server at any time: the feed, other sessions and their peers, failures of the transport, a stop.
-/

namespace MarketMaker

open Client (SessionDriver InFlight FitsMachine)

/-- The two ends and what is between them. -/
structure Link where
  world : World
  driver : SessionDriver := {}
  /-- Frames of the client that its session has not read. -/
  sent : List Bytes := []
  /-- How many frames of the session the client has read. -/
  heard : ℕ := 0

namespace Link

/-- What can happen next. -/
inductive Event
  /-- A turn of the server in which the session reads no frame. -/
  | server (event : World.Event)
  /-- The session reads the oldest frame of the client. -/
  | arrive
  /-- The client reads the oldest frame of the session. -/
  | hear (nowNs : ℤ)
  | timer (nowNs : ℤ)

variable (cfg : ServerConfig) (scfg : StrategyConfig) (parse : Nlohmann.Parse) (arm : Client.Codec)
  (i : ℕ)

/-- Before the client has connected. -/
def init (clock : ℕ → ℤ) : Link := { world := World.init clock }

/-- What the session has written. -/
def written (l : Link) : List OutMsg :=
  match l.world.heap[i]? with
  | some x => framesIn x.log
  | none => []

/-- The driver was called: its frames are on their way. -/
def act (l : Link) (r : SessionDriver × Except Client.Fault (List Bytes)) : Link :=
  { l with driver := r.1, sent := l.sent ++ Client.framesOf r.2 }

/-- The call of the driver that an event makes. -/
def called (l : Link) : Event → Option Client.SessionCall
  | .hear nowNs => ((l.written i)[l.heard]?).map fun frame => .onBytes (Nlohmann.encode frame) nowNs
  | .timer nowNs => some (.onTimer nowNs)
  | _ => none

def step (l : Link) (event : Event) : Link :=
  match event with
  | .server turn =>
    if turn.fromPeer i then l
    else { l with world := l.world.step cfg (Nlohmann.codec parse) turn }
  | .arrive =>
    match l.sent with
    | [] => l
    | frame :: rest =>
      if l.world.sessionIs i (·.reading = .message) then
        { l with
          world := l.world.step cfg (Nlohmann.codec parse) (.read i (.text frame))
          sent := rest }
      else l
  | .hear nowNs =>
    match l.called i (.hear nowNs) with
    | some c => { l with heard := l.heard + 1 }.act (l.driver.call scfg arm c)
    | none => l
  | .timer nowNs => l.act (l.driver.call scfg arm (.onTimer nowNs))

/-- The state after a run of events. -/
def run (clock : ℕ → ℤ) (events : List Event) : Link :=
  events.foldl (step cfg scfg parse arm i) (init clock)

theorem run_concat (clock : ℕ → ℤ) (events : List Event) (event : Event) :
    run cfg scfg parse arm i clock (events ++ [event]) =
      (run cfg scfg parse arm i clock events).step cfg scfg parse arm i event := by
  rw [run, List.foldl_append]
  rfl

end Link

/-! ## The server's end -/

theorem Nlohmann.total_codec (parse : Parse) : (codec parse).Total := encode_ne_nil

namespace World

variable {cfg : ServerConfig} {parse : Nlohmann.Parse} {w : World}

/-- What is known of the state after any run of the server. -/
structure Known (cfg : ServerConfig) (w : World) : Prop where
  inv : w.Inv cfg
  ordered : ∀ x ∈ w.heap, x.line.Ordered cfg
  booked : w.net.Booked
  informed : w.Informed
  wired : w.Wired cfg
  sequenced : ∃ taken, w.Sequenced taken

theorem known_run (hparse : Nlohmann.Correct parse) (hinst : FitsInstrument cfg.engine.inst)
    (hfeed : FitsFeed cfg.feed) (clock : ℕ → ℤ) (events : List Event) :
    (run cfg (Nlohmann.codec parse) clock events).Known cfg where
  inv := (run_steps cfg _ clock events).2
  ordered _ hx := run_ordered cfg (Nlohmann.total_codec parse) clock events hx
  booked := run_netBooked cfg _ clock events
  informed := run_informed cfg _ clock events
  wired := run_wired hinst hfeed (Nlohmann.telling_codec hparse) clock events
  sequenced := ⟨_, run_sequenced cfg _ clock events⟩

/-- The engine's calls, as a run. -/
theorem Inv.run_calls (h : w.Inv cfg) :
    Mealy.run (OrderEngine.step cfg.engine) {} (w.srv.calls.map Prod.fst) =
      (w.srv.engine, w.srv.calls) :=
  h.net.roster.ran

/-- No book among them was stale. -/
theorem Known.fresh (h : w.Known cfg) :
    Mealy.Along (OrderEngine.step cfg.engine) Duplex.IsFreshCall {} (w.srv.calls.map Prod.fst) := by
  refine (OrderEngine.run_inOrder cfg.engine ?_).2.2
  rw [mdSeqs_booksIn, show (booksIn w.srv.calls).map Book.mdSeq = _ from h.booked.numbered]
  exact List.pairwise_lt_range' _ (by decide)

/-- A session is open as long as its epoch lives. -/
theorem Inv.ended_iff (h : w.Inv cfg) {i : ℕ} {x : Session} (hx : w.heap[i]? = some x)
    (hstarted : x.epoch ≠ 0) :
    OrderEngine.Call.endSession x.epoch ∈ w.srv.calls.map Prod.fst ↔
      x.closing = true ∨ x.tornDown = true := by
  have hretired : x.epochRetired = (x.closing || x.tornDown) :=
    (h.sound (List.mem_of_getElem? hx)).retired
  rw [← Bool.or_eq_true, ← hretired]
  refine (h.net.roster.ended x.epoch).trans ⟨?_, fun hret => ?_⟩
  · rintro ⟨-, j, r, hr, hepoch, hret⟩
    obtain rfl := h.net.roster.epoch_inj i j x.line.row r (Inv.row hx) hr hstarted hepoch.symm
    cases (Inv.row hx).symm.trans hr
    exact hret
  · exact ⟨hstarted, i, x.line.row, Inv.row hx, rfl, hret⟩

/-- After its end an epoch is answered nothing, and serves no command. -/
theorem Inv.silent_after (h : w.Inv cfg) (epoch : ℕ) :
    answersTo epoch (liveCalls epoch w.srv.calls) = answersTo epoch w.srv.calls ∧
      Duplex.ownIn epoch (liveCalls epoch w.srv.calls) = Duplex.ownIn epoch w.srv.calls := by
  have hsilent : w.srv.calls.Pairwise fun a b => ∀ e, a.1 = .endSession e → ¬Involves e b :=
    h.net.roster.silent
  generalize w.srv.calls = calls at hsilent
  induction calls with
  | nil => exact ⟨rfl, rfl⟩
  | cons c calls ih =>
    obtain ⟨hfirst, hrest⟩ := List.pairwise_cons.mp hsilent
    by_cases hend : c.1 = .endSession epoch
    · -- the epoch ends here: no later call involves it
      have hlive : liveCalls epoch (c :: calls) = [] := by simp [liveCalls, hend]
      have hown : ∀ d ∈ calls, ¬Involves epoch d := fun d hd => hfirst d hd epoch hend
      have hanswers : answersTo epoch calls = [] := answersTo_eq_nil fun d hd =>
        Or.inr fun r hr hsession => hown d hd (Or.inr (Or.inr (Or.inr ⟨r, hr, hsession⟩)))
      have hserved : ∀ d ∈ calls, Duplex.ownIn epoch [d] = [] := by
        rintro ⟨call, out⟩ hd
        rcases Duplex.call_cases epoch call with ⟨book, rfl⟩ | hother | ⟨msg, rfl⟩ | rfl
        · rfl
        · exact Duplex.ownIn_other hother out
        · refine absurd ?_ (hown _ hd)
          cases msg with
          | newOrder order => exact Or.inl ⟨order, rfl⟩
          | cancelOrder cancel => exact Or.inr (Or.inl ⟨cancel, rfl⟩)
        · rfl
      have hownIn : Duplex.ownIn epoch calls = [] := by
        clear hsilent ih hfirst hrest hlive hown hanswers
        induction calls with
        | nil => rfl
        | cons d calls ih =>
          rw [← List.singleton_append, Duplex.ownIn_append, hserved d List.mem_cons_self,
            ih fun d' hd' => hserved d' (List.mem_cons_of_mem _ hd')]
          rfl
      have hhead : Duplex.ownIn epoch [c] = [] := by
        obtain ⟨call, out⟩ := c
        obtain rfl : call = .endSession epoch := hend
        rfl
      have hsplit : c :: calls = [c] ++ calls := rfl
      rw [hlive, hsplit, answersTo_append, Duplex.ownIn_append, hanswers, hownIn, hhead, answersTo,
        answersTo, List.flatMap_singleton, if_pos hend]
      exact ⟨rfl, rfl⟩
    · have hlive : liveCalls epoch (c :: calls) = [c] ++ liveCalls epoch calls := by
        simp [liveCalls, hend]
      obtain ⟨hanswers, hownIn⟩ := ih hrest
      have hsplit : c :: calls = [c] ++ calls := rfl
      rw [hlive, hsplit, answersTo_append, answersTo_append, Duplex.ownIn_append,
        Duplex.ownIn_append, hanswers, hownIn]
      exact ⟨rfl, rfl⟩

end World

end MarketMaker
