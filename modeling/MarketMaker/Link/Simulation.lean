import MarketMaker.Link.Follows

/-!
# The link refines the duplex

Each event of a link is matched by events of the duplex that follows it: a turn of the server by the
calls it makes, a frame that the session reads by a command, a frame that the client reads by a
report or a tick, the timer by the timer. What the two ends exchange are octets; that they read what
was meant is `Client.decode_encode` one way and `Client.InFlight` the other.
-/

namespace MarketMaker

open OrderEngine (Call reportsTo)
open Client (FitsMachine InFlight ReadAs Synced Dispatched)

namespace Link

/-! ## What the parties rely on -/

/-- The instrument, the feed and the quantity are in the domains of the wire, the client quotes the
symbol of the engine, and the libraries do what is documented. -/
structure Setting (cfg : ServerConfig) (scfg : StrategyConfig) (parse : Nlohmann.Parse)
    (arm : Client.Codec) : Prop where
  parse : Nlohmann.Correct parse
  arm : ∃ platform : Client.Platform, platform.Documented ∧ platform.IsArm arm
  inst : FitsInstrument cfg.engine.inst
  feed : FitsFeed cfg.feed
  symbol : cfg.engine.inst.symbol = scfg.symbol
  qty : InInt64 (min scfg.qty scfg.maxQty)

section Frames

variable {cfg : ServerConfig} {w : World} {x : Session} {n : ℕ} {frame : OutMsg}

theorem wrote_of_framesIn {log : List Entry} (h : frame ∈ framesIn log) :
    Entry.wrote frame ∈ log := by
  obtain ⟨entry, hentry, hsome⟩ := List.mem_filterMap.mp h
  cases entry with
  | wrote m =>
    cases hsome
    exact hentry
  | _ => cases hsome

/-- The frames of a session are numbered, and carry its epoch. -/
theorem envelope_at (hk : w.Known cfg) (hx : x ∈ w.heap)
    (hframe : (framesIn x.log)[n]? = some frame) :
    frame.seq = n + 1 ∧ frame.epoch = x.epoch := by
  obtain ⟨done, queued, hstream⟩ := (hk.ordered x hx).streams
  refine ⟨?_, hstream.epochs frame (List.mem_of_getElem? hframe)⟩
  have hseq : ((framesIn x.log).map OutMsg.seq)[n]? = some frame.seq := by
    rw [List.getElem?_map, hframe]
    rfl
  have hnumbered : (framesIn x.log).map OutMsg.seq = List.range' 1 (framesIn x.log).length :=
    hstream.numbered
  rw [hnumbered, List.getElem?_range' (List.getElem?_eq_some_iff.mp hframe).1] at hseq
  have hsame := Option.some.inj hseq
  omega

theorem take_succ_framesIn (hframe : (framesIn x.log)[n]? = some frame) :
    (framesIn x.log).take (n + 1) = (framesIn x.log).take n ++ [frame] := by
  rw [List.take_add_one, hframe]
  rfl

/-- A tick is the tick of a book of the epoch, and newer than the ticks before it. -/
theorem tick_at (hk : w.Known cfg) (hx : x ∈ w.heap) {tob : Tob}
    (hframe : (framesIn x.log)[n]? = some (.tob tob)) :
    newestIn ((framesIn x.log).take n) < tob.mdSeq ∧
      ∃ book rest, (booksIn (liveCalls x.epoch w.srv.calls)).drop (tob.mdSeq - 1) = book :: rest ∧
        rest = (booksIn (liveCalls x.epoch w.srv.calls)).drop tob.mdSeq ∧
        (Duplex.tobOf cfg.engine book).stamp (n + 1) x.epoch = .tob tob := by
  have hmem : OutMsg.tob tob ∈ framesIn x.log := List.mem_of_getElem? hframe
  -- the book it is of
  obtain ⟨book, hbook, seq, epoch, htob⟩ :=
    ((hk.wired.lines x hx).wrote _ (wrote_of_framesIn hmem)).published tob rfl
  have hsame : tob.mdSeq = book.mdSeq := congrArg Tob.mdSeq htob
  obtain ⟨j, hj⟩ := List.getElem?_of_mem hbook
  have hnumber : book.mdSeq = j + 1 := by
    have hseq : ((booksIn w.srv.calls).map Book.mdSeq)[j]? = some book.mdSeq := by
      rw [List.getElem?_map, hj]
      rfl
    have hlength : (booksIn w.srv.calls).length = w.srv.nextMdSeq := hk.booked.length
    have hlt : j < w.srv.nextMdSeq := hlength ▸ (List.getElem?_eq_some_iff.mp hj).1
    rw [show (booksIn w.srv.calls).map Book.mdSeq = _ from hk.booked.numbered,
      show w.net.hub.nextMdSeq = w.srv.nextMdSeq from rfl, List.getElem?_range' hlt] at hseq
    have hsame := Option.some.inj hseq
    omega
  rw [hnumber] at hsame
  have htold : tob.mdSeq ≤ (booksIn (liveCalls x.epoch w.srv.calls)).length := by
    refine hk.booked.told x.line (List.mem_map_of_mem hx) _ ((hk.ordered x hx).ticking.known _ ?_)
    show _ ∈ tobsIn x.log
    rw [← mdSeqs_framesIn]
    exact List.mem_filterMap.mpr ⟨_, hmem, rfl⟩
  -- it was told while the epoch lived, so the book is among those of the epoch
  have hlive : (booksIn (liveCalls x.epoch w.srv.calls))[j]? = some book := by
    obtain ⟨more, hmore⟩ := booksIn_mono (isPrefix_liveCalls x.epoch w.srv.calls)
    rwa [← hmore, List.getElem?_append_left (by omega)] at hj
  refine ⟨?_, book, _, ?_, rfl, ?_⟩
  · -- the ticks are written in increasing order
    rcases newestIn_cases ((framesIn x.log).take n) with hzero | hearlier
    · rw [hzero, hsame]
      exact Nat.succ_pos j
    · have hsorted : (tobsIn x.log).Pairwise (· < ·) := (hk.ordered x hx).ticking.sorted
      rw [← mdSeqs_framesIn, ← List.take_append_drop n (framesIn x.log), List.filterMap_append,
        List.pairwise_append] at hsorted
      have hlater : OutMsg.tob tob ∈ (framesIn x.log).drop n :=
        List.mem_of_getElem? (i := 0) (by rw [List.getElem?_drop]; exact hframe)
      exact hsorted.2.2 _ hearlier _ (List.mem_filterMap.mpr ⟨_, hlater, rfl⟩)
  · obtain ⟨hlt, hget⟩ := List.getElem?_eq_some_iff.mp hlive
    rw [hsame, Nat.add_sub_cancel, List.drop_eq_getElem_cons hlt, hget]
  · obtain ⟨hseq, hepoch⟩ := envelope_at hk hx hframe
    rw [← hseq, ← hepoch, htob]
    rfl

/-- A report is the next answer that the client has not heard, up to the service time of an ack. -/
theorem report_at (hk : w.Known cfg) (hx : x ∈ w.heap) (hstarted : x.epoch ≠ 0)
    (hspeaks : ∀ p ∈ enqueuedIn x.log, p.2 ≠ .session) (hframe : (framesIn x.log)[n]? = some frame)
    (hreport : frame.isTob = false) :
    ∃ p rest, (answersTo x.epoch w.srv.calls).drop (reportsOf ((framesIn x.log).take n)).length =
        p.1 :: rest ∧ frame = frameOf (n + 1) x.epoch p := by
  obtain ⟨done, queued, hstream⟩ := (hk.ordered x hx).streams
  have hcarried : List.Forall₂ (Carries x.epoch) done (reportsOf (framesIn x.log)) :=
    hstream.carried
  -- the frame is the first report after those among the frames before it
  have hsplit : (reportsOf (framesIn x.log)).drop (reportsOf ((framesIn x.log).take n)).length =
      frame :: reportsOf ((framesIn x.log).drop (n + 1)) := by
    have hwhole : framesIn x.log =
        (framesIn x.log).take n ++ frame :: (framesIn x.log).drop (n + 1) := by
      obtain ⟨hlt, hget⟩ := List.getElem?_eq_some_iff.mp hframe
      rw [← hget, ← List.drop_eq_getElem_cons hlt, List.take_append_drop]
    have hreports : reportsOf (framesIn x.log) = reportsOf ((framesIn x.log).take n) ++
        (frame :: reportsOf ((framesIn x.log).drop (n + 1))) := by
      nth_rewrite 1 [hwhole]
      rw [reportsOf, List.filter_append, List.filter_cons_of_pos (by simp [hreport])]
      rfl
    rw [hreports, List.drop_left]
  have hrest := List.forall₂_drop (reportsOf ((framesIn x.log).take n)).length hcarried
  rw [hsplit] at hrest
  generalize hpending : done.drop (reportsOf ((framesIn x.log).take n)).length = pending at hrest
  cases hrest with
  | @cons p _ tail _ hp _ =>
    -- nothing queued is the session's own, so the queue is the answers
    have hanswers : answersTo x.epoch w.srv.calls = (enqueuedIn x.log).map Prod.fst := by
      rw [← hk.informed.queued x hx hstarted, queuedIn, List.filter_eq_self.mpr]
      exact fun p hp => decide_eq_true (hspeaks p hp)
    have henqueued : enqueuedIn x.log = done ++ queued := hstream.enqueued
    have hlt : (reportsOf ((framesIn x.log).take n)).length ≤ done.length := by
      have hpos := congrArg List.length hpending
      rw [List.length_drop, List.length_cons] at hpos
      omega
    refine ⟨p, (tail ++ queued).map Prod.fst, ?_, ?_⟩
    · rw [hanswers, henqueued, List.map_append, List.drop_append_of_le_length (by simpa using hlt),
        ← List.map_drop, hpending, List.map_cons, List.cons_append, ← List.map_append]
    · rw [← (envelope_at hk hx hframe).1]
      exact hp

/-- The strategy does not read the service time of an ack. -/
theorem onReport_frameOf (scfg : StrategyConfig) (st : Strategy) (seq epoch : ℕ)
    (p : OutMsg × Cause)
    (nowNs : ℤ) :
    st.onReport scfg (frameOf seq epoch p) nowNs =
      st.onReport scfg (p.1.stamp seq epoch) nowNs := by
  obtain ⟨msg, cause⟩ := p
  cases msg with
  | orderAck ack => cases cause <;> rfl
  | _ => rfl

end Frames

/-! ## Turns of the server -/

section Turns

variable {cfg : ServerConfig} {scfg : StrategyConfig} {codec : Codec} {l : Link} {i : ℕ}
  {x x' : Session} {d : Duplex} {new : List (Call × List Routed)}

/-- The calls of a turn, after those before it. -/
theorem calls_step {w : World} (hinv : w.Inv cfg) (codec : Codec) (event : World.Event) :
    ∃ new, (w.step cfg codec event).srv.calls = w.srv.calls ++ new := by
  obtain ⟨new, hnew⟩ := (grows_netSteps (hinv.step_netSteps codec event).1).1
  exact ⟨new, hnew.symm⟩

/-- A session hands the engine what it consumes, if it carries its epoch. -/
theorem ownIn_step {w : World} (hinv : w.Inv cfg) {event : World.Event} (hx : w.heap[i]? = some x)
    (hstarted : x.epoch ≠ 0) (hcalls : (w.step cfg codec event).srv.calls = w.srv.calls ++ new) :
    Duplex.ownIn x.epoch new =
      (w.consumed codec i event).toList.filter fun msg => msg.epoch = x.epoch := by
  obtain ⟨served, hheard⟩ := hinv.heard codec event
  have hserved := hheard.served
  rw [hcalls, servedIn_append] at hserved
  rw [Duplex.ownIn, List.append_cancel_left hserved]
  exact hheard.taken i x hx hstarted

/-- A turn in which the session reads no frame. -/
theorem Follows.server (h : Follows cfg l x d) (hk : l.world.Known cfg) {turn : World.Event}
    (hk' : (l.world.step cfg codec turn).Known cfg) (hpeer : turn.fromPeer i = false)
    (hx : l.world.heap[i]? = some x) (hstarted : x.epoch ≠ 0)
    (hx' : (l.world.step cfg codec turn).heap[i]? = some x') :
    ∃ d', Mealy.Reachable (Duplex.step cfg.engine scfg x.epoch) d d' ∧
      Follows cfg { l with world := l.world.step cfg codec turn } x' d' := by
  obtain ⟨new, hcalls⟩ := calls_step hk.inv codec turn
  have hnone : l.world.consumed codec i turn = none := World.consumed_of_not_fromPeer hpeer
  have hown := ownIn_step hk.inv hx hstarted hcalls
  have hcounted := hk.inv.counted codec turn hx hx'
  rw [hnone] at hown hcounted
  refine h.turn hk hk' hx hstarted (hk.inv.line_grows codec turn hx hstarted hx') hcalls
    (hk.inv.speaks codec hpeer hx hstarted hx') fun hopen => ?_
  obtain ⟨start, hnext, hflight, hcount⟩ := h.inFlight hopen
  refine ⟨[], d.commands, rfl, ?_, start, hcounted.trans hnext, hflight, hcount⟩
  rw [hown]
  exact .nil

end Turns

/-! ## A frame of the client -/

section Arrive

variable {cfg : ServerConfig} {scfg : StrategyConfig} {parse : Nlohmann.Parse} {l : Link} {i : ℕ}
  {x x' : Session} {d : Duplex} {frame : Bytes} {rest : List Bytes}

/-- The engine answers a command of the session. -/
theorem answersTo_ne_nil {w : World} (hk : w.Known cfg) {calls new : List (Call × List Routed)}
    (hcalls : w.srv.calls = calls ++ new) {s : ℕ} (hown : Duplex.ownIn s new ≠ []) :
    answersTo s new ≠ [] := by
  obtain ⟨msg, hmsg⟩ := List.exists_mem_of_ne_nil _ hown
  obtain ⟨p, hp, -⟩ := List.mem_map.mp hmsg
  obtain ⟨hserved, hsession⟩ := List.mem_filter.mp hp
  obtain ⟨⟨c, out⟩, hc, hcommand⟩ := List.mem_filterMap.mp hserved
  have hsession : p.1 = s := of_decide_eq_true hsession
  -- its reply is in the batch that the call drew
  have hmem : (c, out) ∈ (OrderEngine.run cfg.engine (w.srv.calls.map Prod.fst)).2 := by
    rw [show (OrderEngine.run cfg.engine (w.srv.calls.map Prod.fst)).2 = w.srv.calls from
      congrArg Prod.snd hk.inv.run_calls, hcalls]
    exact List.mem_append_right calls hc
  obtain ⟨e, hout⟩ := Mealy.output_of_mem_run _ hmem
  have hreply : c ≠ .endSession s ∧ reportsTo s out ≠ [] := by
    dsimp only at hout
    subst hout
    cases c with
    | onNew t order =>
      obtain rfl : t = s := (congrArg Prod.fst (Option.some.inj hcommand)).trans hsession
      obtain ⟨reply, hreply, -⟩ := Session.reply_onNew cfg.engine e t order
      refine ⟨fun heq => (by cases heq), ?_⟩
      rw [(isFor_step e (Or.inl ⟨order, rfl⟩)).reportsTo]
      exact fun hnil => List.cons_ne_nil _ _ (hreply.symm.trans hnil)
    | onCancel t cancel =>
      obtain rfl : t = s := (congrArg Prod.fst (Option.some.inj hcommand)).trans hsession
      obtain ⟨reply, hreply, -⟩ := Session.reply_onCancel cfg.engine e t cancel
      refine ⟨fun heq => (by cases heq), ?_⟩
      rw [(isFor_step e (Or.inr (Or.inl ⟨cancel, rfl⟩))).reportsTo]
      exact fun hnil => List.cons_ne_nil _ _ (hreply.symm.trans hnil)
    | onBook book => cases hcommand
    | endSession t => cases hcommand
  intro hnil
  have hall := List.flatMap_eq_nil_iff.mp hnil (c, out) hc
  rw [if_neg hreply.1] at hall
  exact hreply.2 hall

/-- A frame in flight is consumed as the command it was made of. -/
theorem consumed_of_readAs {w : World} (hparse : Nlohmann.Correct parse) (hlisten : w.Listening i x)
    {msg : InMsg} {start : ℕ} (hread : ReadAs frame (Client.stampMsg (start + 1) x.epoch msg))
    (hnext : x.inSeqExpected = start + 1) :
    w.consumed (Nlohmann.codec parse) i (.read i (.text frame)) =
        some (Client.stampMsg (start + 1) x.epoch msg) ∧
      (Nlohmann.codec parse).decode frame = .ok (Client.stampMsg (start + 1) x.epoch msg) := by
  obtain ⟨hx, hreading, hopen, hup⟩ := hlisten
  have hdecode : (Nlohmann.codec parse).decode frame =
      .ok (Client.stampMsg (start + 1) x.epoch msg) := by
    rw [Nlohmann.codec]
    dsimp only
    rw [hread.decodes parse hparse]
  have hseq : (Client.stampMsg (start + 1) x.epoch msg).seq = x.inSeqExpected := by
    rw [hnext]
    cases msg <;> rfl
  have haccepts : x.accepts (Nlohmann.codec parse) frame =
      some (Client.stampMsg (start + 1) x.epoch msg) := by
    rw [Session.accepts, if_neg (not_lt.mpr hread.size), hdecode]
    exact if_pos hseq
  refine ⟨?_, hdecode⟩
  rw [World.consumed, if_pos rfl, hx]
  dsimp only
  rw [if_pos hreading, Session.taken, hopen, hup]
  exact haccepts

/-- The engine answers the command, and this is all that is queued. -/
theorem speaks_of_readAs {w : World} {codec : Codec} (hk : w.Known cfg)
    (hk' : (w.step cfg codec (.read i (.text frame))).Known cfg) (hlisten : w.Listening i x)
    (hstarted : x.epoch ≠ 0)
    (hx' : (w.step cfg codec (.read i (.text frame))).heap[i]? = some x')
    (hsize : frame.length ≤ maxInboundMsgBytes) {msg : InMsg}
    (hdecode : codec.decode frame = .ok msg) {new : List (Call × List Routed)}
    (hcalls : (w.step cfg codec (.read i (.text frame))).srv.calls = w.srv.calls ++ new)
    (hown : Duplex.ownIn x.epoch new ≠ []) : x.Speaks x' := by
  have hx : w.heap[i]? = some x := hlisten.1
  have hgrows := hk.inv.line_grows codec (.read i (.text frame)) hx hstarted hx'
  obtain ⟨y, answer, hy, hqueued, hverdict, -, -⟩ := hlisten.frame cfg codec frame
  cases hx'.symm.trans hy
  -- of the answers that are queued, those that are not the session's own are the engine's
  have hanswers := hk'.informed.queued x' (List.mem_of_getElem? hx')
    (fun h0 => hstarted (hgrows.epoch.symm.trans h0))
  rw [queuedIn_of_enqueuedIn hqueued, hk.informed.queued x (List.mem_of_getElem? hx) hstarted,
    show x'.epoch = x.epoch from hgrows.epoch, hcalls, answersTo_append] at hanswers
  have hsome := answersTo_ne_nil hk' hcalls hown
  rw [← List.append_cancel_left hanswers] at hsome
  refine ⟨answer, hqueued, ?_⟩
  cases hverdict with
  | undecoded code spelled why =>
    rcases why with ⟨hlong, -⟩ | ⟨-, err, herr, -⟩
    · exact absurd hsize (not_le.mpr hlong)
    · rw [hdecode] at herr
      cases herr
  | outOfSeq _ decoded gap => exact absurd rfl hsome
  | consumed _ _ _ _ =>
    -- one answer is queued, and some answer is the engine's
    intro q hq hsession
    rw [List.mem_singleton.mp hq] at hsession
    rw [List.filter_singleton, decide_eq_false (by rw [hsession]; exact fun hne => hne rfl)]
      at hsome
    exact hsome rfl

/-- The session reads the oldest frame of the client. -/
theorem Follows.arrive (h : Follows cfg l x d) (hparse : Nlohmann.Correct parse)
    (hk : l.world.Known cfg)
    (hk' : (l.world.step cfg (Nlohmann.codec parse) (.read i (.text frame))).Known cfg)
    (hx : l.world.heap[i]? = some x) (hstarted : x.epoch ≠ 0) (hreading : x.reading = .message)
    (hsent : l.sent = frame :: rest)
    (hx' : (l.world.step cfg (Nlohmann.codec parse) (.read i (.text frame))).heap[i]? = some x') :
    ∃ d', Mealy.Reachable (Duplex.step cfg.engine scfg x.epoch) d d' ∧
      Follows cfg
        { l with
          world := l.world.step cfg (Nlohmann.codec parse) (.read i (.text frame))
          sent := rest } x' d' := by
  obtain ⟨new, hcalls⟩ := calls_step hk.inv (Nlohmann.codec parse) (.read i (.text frame))
  have hown := ownIn_step hk.inv hx hstarted hcalls
  have hgrows := hk.inv.line_grows (Nlohmann.codec parse) (.read i (.text frame)) hx hstarted hx'
  by_cases hopen : IsOpen x
  · have hlisten : l.world.Listening i x := ⟨hx, hreading, hopen.1, hopen.2⟩
    obtain ⟨start, hnext, hflight, hcount⟩ := h.inFlight hopen
    rw [hsent] at hflight
    generalize hcommands : d.commands = commands at hflight
    cases hflight with
    | @cons _ _ _ msg left hread hflight =>
      obtain ⟨hconsumed, hdecode⟩ := consumed_of_readAs hparse hlisten hread hnext
      have hepoch : (Client.stampMsg (start + 1) x.epoch msg).epoch = x.epoch := by
        cases msg <;> rfl
      have hcounted := hk.inv.counted (Nlohmann.codec parse) (.read i (.text frame)) hx hx'
      rw [hconsumed] at hown hcounted
      rw [Option.toList_some, List.filter_singleton, decide_eq_true hepoch] at hown
      have hspeaks : x.Speaks x' := speaks_of_readAs hk hk' hlisten hstarted hx' hread.size hdecode
        hcalls (by rw [hown]; exact List.cons_ne_nil _ _)
      refine h.turn hk hk' hx hstarted hgrows hcalls hspeaks fun _ => ?_
      refine ⟨[msg], left, hcommands, ?_, start + 1, ?_, hflight, ?_⟩
      · rw [hown]
        exact .cons ⟨_, _, rfl⟩ .nil
      · rw [hcounted, hnext]
        rfl
      · rw [hcount, hsent, List.length_cons]
        omega
  · -- a session that closes is deaf
    have hleft : x.closing = true ∨ x.tornDown = true := by
      by_contra hnone
      rw [not_or, Bool.not_eq_true, Bool.not_eq_true] at hnone
      exact hopen hnone
    obtain ⟨-, y, hy, hqueued⟩ := hk.inv.deaf (Nlohmann.codec parse) hx hleft (.text frame)
    cases hx'.symm.trans hy
    exact h.turn hk hk' hx hstarted hgrows hcalls (Session.speaks_same hqueued) fun hopen' =>
      absurd hopen' hopen

end Arrive

/-! ## Calls of the driver -/

section Driver

variable {cfg : ServerConfig} {scfg : StrategyConfig} {parse : Nlohmann.Parse} {arm : Client.Codec}
  {l : Link} {x : Session} {d : Duplex} {frame : OutMsg}
  {history : List (Client.SessionCall × List Bytes)}

theorem adopt_frame (driver : Client.SessionDriver) (epoch : ℕ) :
    (driver.adopt epoch).outSeq = driver.outSeq ∧ (driver.adopt epoch).close = driver.close := by
  rw [Client.SessionDriver.adopt]
  split_ifs <;> exact ⟨rfl, rfl⟩

theorem adopt_of_epoch {driver : Client.SessionDriver} {e : ℕ} (h : driver.epoch = some e)
    (epoch : ℕ) :
    driver.adopt epoch = driver := by
  rw [Client.SessionDriver.adopt, h]
  rfl

/-- What the strategy makes of a call goes the same way on both levels. -/
theorem Follows.flight_act (h : Follows cfg l x d) {r : Strategy × List Cmd}
    {answer : Client.SessionDriver × Except Client.Fault (List Bytes)} {sent : List Bytes}
    (hanswer : answer.2 = .ok sent)
    (hspec : Dispatched x.epoch { l.driver.adopt x.epoch with strategy := r.1 } r.2 answer.1 sent)
    (hopen : IsOpen x) :
    ∃ start, x.inSeqExpected = start + 1 ∧
      InFlight x.epoch start (l.act answer).sent (d.commands ++ sends r.2) ∧
        (l.act answer).driver.outSeq = start + (l.act answer).sent.length := by
  have hact : (l.act answer).sent = l.sent ++ sent := by
    rw [act, hanswer]
    rfl
  obtain ⟨start, hnext, hflight, hcount⟩ := h.inFlight hopen
  have hsent := hspec.inFlight
  have hseq : answer.1.outSeq = _ := hspec.outSeq
  dsimp only at hsent hseq
  rw [(adopt_frame l.driver x.epoch).1, hcount] at hsent hseq
  rw [hact]
  refine ⟨start, hnext, hflight.append hsent, ?_⟩
  show answer.1.outSeq = _
  rw [hseq, List.length_append, hsent.length_eq, Nat.add_assoc]

/-- The next frame of the session, as a delivery of the duplex. -/
structure Delivers (cfg : ServerConfig) (scfg : StrategyConfig) (l : Link) (x : Session)
    (d : Duplex) (frame : OutMsg) (nowNs : ℤ) (event : Duplex.Event) (msg : OutMsg)
    (reports : List OutMsg) (books : List Book) : Prop where
  step : (Duplex.step cfg.engine scfg x.epoch d event).1 =
    ({ d with reports, books } : Duplex).deliver scfg x.epoch msg nowNs
  same : d.strategy.onReport scfg (msg.stamp (l.heard + 1) x.epoch) nowNs =
    d.strategy.onReport scfg frame nowNs
  reports : ∃ told, answersTo x.epoch l.world.srv.calls = told ++ reports ∧
    told.length = (reportsOf ((framesIn x.log).take (l.heard + 1))).length ∧
      ∀ msg ∈ told, Duplex.Civil cfg.engine msg
  books : books = (booksIn (l.servedTo x)).drop (newestIn ((framesIn x.log).take (l.heard + 1)))
  stops : stopsIn (d.strategy.onReport scfg frame nowNs).2 = []

/-- A tick comes in with its book; the books in between are conflated away. -/
theorem Follows.delivers_tick (h : Follows cfg l x d) (hk : l.world.Known cfg)
    (hsymbol : cfg.engine.inst.symbol = scfg.symbol) (hattentive : Duplex.Attentive x.epoch d)
    (hx : x ∈ l.world.heap) {tob : Tob} (hframe : (framesIn x.log)[l.heard]? = some (.tob tob))
    (nowNs : ℤ) :
    ∃ event msg reports books,
      Delivers cfg scfg l x d (.tob tob) nowNs event msg reports books := by
  have htake := take_succ_framesIn hframe
  obtain ⟨told, hanswers, hmany, hcivil⟩ := h.reports
  obtain ⟨hnewer, book, rest, hbook, hrest, hstamp⟩ := tick_at hk hx hframe
  have hdrop : d.books.drop (tob.mdSeq - 1 - newestIn ((framesIn x.log).take l.heard)) =
      book :: rest := by
    rw [h.books, List.drop_drop, ← hbook]
    congr 1
    rw [heardOf]
    omega
  refine ⟨.tob (tob.mdSeq - 1 - newestIn ((framesIn x.log).take l.heard)) nowNs,
    Duplex.tobOf cfg.engine book, d.reports, rest, ?_, ?_, ⟨told, hanswers, ?_, hcivil⟩, ?_, ?_⟩
  · rw [Duplex.step, hdrop]
  · rw [hstamp]
  · rw [htake, reportsOf_tick]
    exact hmany
  · rw [htake, newestIn_tick]
    exact hrest
  · rw [← hstamp, show l.heard = d.inbound from h.inbound.symm]
    have hmem : book ∈ d.books := List.mem_of_mem_drop (hdrop ▸ List.mem_cons_self)
    exact hattentive.stops_tob hsymbol hmem nowNs

/-- A report that is written is the oldest of those in flight. -/
theorem Follows.delivers_report (h : Follows cfg l x d) (hk : l.world.Known cfg)
    (hgood : Duplex.Good cfg.engine x.epoch d) (hattentive : Duplex.Attentive x.epoch d)
    (hpolite : ∀ msg ∈ d.reports, Duplex.Civil cfg.engine msg) (hx : x ∈ l.world.heap)
    (hstarted : x.epoch ≠ 0) (hframe : (framesIn x.log)[l.heard]? = some frame)
    (hreport : frame.isTob = false) (nowNs : ℤ) :
    ∃ event msg reports books, Delivers cfg scfg l x d frame nowNs event msg reports books := by
  have htake := take_succ_framesIn hframe
  obtain ⟨told, hanswers, hmany, hcivil⟩ := h.reports
  obtain ⟨p, rest, hdrop, rfl⟩ := report_at hk hx hstarted h.speaks hframe hreport
  have hpending : d.reports = p.1 :: rest := by
    rw [← hdrop, hanswers, ← heardOf, ← hmany, List.drop_left]
  have hstep : (Duplex.step cfg.engine scfg x.epoch d (.report nowNs)).1 =
      ({ d with reports := rest } : Duplex).deliver scfg x.epoch p.1 nowNs := by
    rw [Duplex.step, hpending]
  refine ⟨.report nowNs, p.1, rest, d.books, hstep, ?_, ⟨told ++ [p.1], ?_, ?_, ?_⟩, ?_, ?_⟩
  · rw [onReport_frameOf]
  · rw [hanswers, hpending, List.append_assoc]
    rfl
  · rw [htake, reportsOf_report hreport, List.length_append, List.length_append, hmany]
    rfl
  · intro msg hmsg
    rcases List.mem_append.mp hmsg with hold | hnew
    · exact hcivil msg hold
    · rw [List.mem_singleton.mp hnew]
      exact hpolite p.1 (hpending ▸ List.mem_cons_self)
  · rw [htake, newestIn_report hreport]
    exact h.books
  · rw [onReport_frameOf, show l.heard = d.inbound from h.inbound.symm]
    exact hattentive.stops_report scfg (hgood.isTob_eq_false (hpending ▸ List.mem_cons_self)) nowNs

theorem Follows.delivers (h : Follows cfg l x d) (hk : l.world.Known cfg)
    (hsymbol : cfg.engine.inst.symbol = scfg.symbol)
    (hreach : Mealy.Reachable (Duplex.step cfg.engine scfg x.epoch) (Duplex.init x.epoch {}) d)
    (hx : x ∈ l.world.heap) (hstarted : x.epoch ≠ 0)
    (hframe : (framesIn x.log)[l.heard]? = some frame) (nowNs : ℤ) :
    ∃ event msg reports books, Delivers cfg scfg l x d frame nowNs event msg reports books := by
  obtain ⟨events, rfl⟩ := hreach
  have hgood := Duplex.good_run cfg.engine scfg x.epoch {} events
  have hattentive := Duplex.attentive_run hsymbol x.epoch {} events
  have hpolite := Duplex.civil_run cfg.engine scfg x.epoch {} events
  cases htob : frame.isTob with
  | true =>
    obtain ⟨tob, rfl⟩ : ∃ tob, frame = .tob tob := by
      cases frame with
      | tob tob => exact ⟨tob, rfl⟩
      | _ => cases htob
    exact h.delivers_tick hk hsymbol hattentive hx hframe nowNs
  | false => exact h.delivers_report hk hgood hattentive hpolite hx hstarted hframe htob nowNs

/-- The delivery hands the frame to the strategy. -/
theorem Follows.deliver_eq (h : Follows cfg l x d) {nowNs : ℤ} {event : Duplex.Event} {msg : OutMsg}
    {reports : List OutMsg} {books : List Book}
    (hdelivers : Delivers cfg scfg l x d frame nowNs event msg reports books) :
    ({ d with reports, books } : Duplex).deliver scfg x.epoch msg nowNs =
      Duplex.act { d with reports, books, inbound := l.heard + 1 }
        (d.strategy.onReport scfg frame nowNs) := by
  rw [Duplex.deliver, show ({ d with reports, books } : Duplex).inbound = l.heard from h.inbound,
    hdelivers.same]

/-- A driver that has closed is silent, and so is its strategy, which has stopped. -/
theorem Follows.hear_closed (h : Follows cfg l x d) {nowNs : ℤ} {event : Duplex.Event}
    {msg : OutMsg}
    {reports : List OutMsg} {books : List Book}
    (hdelivers : Delivers cfg scfg l x d frame nowNs event msg reports books)
    (hframe : (framesIn x.log)[l.heard]? = some frame) {intent : Client.CloseIntent}
    (hclose : l.driver.close = some intent) :
    Follows cfg ({ l with heard := l.heard + 1 }.act (l.driver, .ok [])) x
      (({ d with reports, books } : Duplex).deliver scfg x.epoch msg nowNs) := by
  rw [h.deliver_eq hdelivers, Strategy.onReport_of_stopped scfg (h.closed intent hclose).2]
  refine ⟨h.engine, hdelivers.reports, hdelivers.books, rfl,
    (List.getElem?_eq_some_iff.mp hframe).1,
    h.speaks, h.client, h.adopted, h.closed, fun hopen => ?_⟩
  obtain ⟨start, hnext, hflight, hcount⟩ := h.inFlight hopen
  refine ⟨start, hnext, ?_, ?_⟩
  · show InFlight x.epoch start (l.sent ++ []) (d.commands ++ [])
    rw [List.append_nil, List.append_nil]
    exact hflight
  · show l.driver.outSeq = start + (l.sent ++ []).length
    rw [List.append_nil]
    exact hcount

/-- The client reads the next frame of its session. -/
theorem Follows.hear (h : Follows cfg l x d) (hset : Setting cfg scfg parse arm)
    (hk : l.world.Known cfg)
    (hreach : Mealy.Reachable (Duplex.step cfg.engine scfg x.epoch) (Duplex.init x.epoch {}) d)
    (hdriver : Client.Synced scfg arm l.driver history) (hx : x ∈ l.world.heap)
    (hstarted : x.epoch ≠ 0)
    (hframe : (framesIn x.log)[l.heard]? = some frame) (hfits : FitsMachine frame) {nowNs : ℤ}
    (hroom : (l.driver.onBytes scfg arm (Nlohmann.encode frame) nowNs).1.strategy.outSeq < 2 ^ 64) :
    ∃ sent d', (l.driver.onBytes scfg arm (Nlohmann.encode frame) nowNs).2 = .ok sent ∧
      Mealy.Reachable (Duplex.step cfg.engine scfg x.epoch) d d' ∧
      Follows cfg
        ({ l with heard := l.heard + 1 }.act
          (l.driver.onBytes scfg arm (Nlohmann.encode frame) nowNs)) x d' := by
  -- the frame is at the head of one of the two queues of the abstract machine
  obtain ⟨event, msg, reports, books, hdelivers⟩ :=
    h.delivers hk hset.symbol hreach hx hstarted hframe nowNs
  obtain ⟨platform, hplatform, harm⟩ := hset.arm
  have hmoves : Mealy.Reachable (Duplex.step cfg.engine scfg x.epoch) d
      (({ d with reports, books } : Duplex).deliver scfg x.epoch msg nowNs) :=
    hdelivers.step ▸ .single _ d event
  cases hclose : l.driver.close with
  | some intent =>
    -- a driver that is closing ignores what it hears
    have hsilent : l.driver.onBytes scfg arm (Nlohmann.encode frame) nowNs =
        (l.driver, .ok []) := by
      rw [Client.SessionDriver.onBytes, hclose]
      rfl
    rw [hsilent]
    exact ⟨[], _, rfl, hmoves, h.hear_closed hdelivers hframe hclose⟩
  | none =>
    obtain ⟨-, hepoch⟩ := envelope_at hk hx hframe
    -- the frame was written by the server, so the client decodes it to what was meant
    have hgenuine : Genuine cfg l.world.srv.calls frame :=
      (hk.wired.lines x hx).wrote _ (wrote_of_framesIn (List.mem_of_getElem? hframe))
    obtain ⟨decoded, hdecode, hframe'⟩ := Client.decode_encode hplatform harm ⟨hfits, hgenuine.fits⟩
    have hsaid : decoded.toOutMsg.epoch = x.epoch := hframe'.symm ▸ hepoch
    obtain ⟨sent, hsent, hspec⟩ := hdriver.hears (harm.sound hplatform)
      (fun _ => hset.qty) hclose hdecode
      (fun e he => (h.adopted e he).trans hsaid.symm) hroom
    rw [hsaid, hframe', ← h.client] at hspec
    refine ⟨sent, _, hsent, hmoves, ?_⟩
    rw [h.deliver_eq hdelivers]
    refine ⟨h.engine, hdelivers.reports, hdelivers.books, rfl,
      (List.getElem?_eq_some_iff.mp hframe).1, h.speaks, ?_, ?_, ?_, fun hopen => ?_⟩
    · show _ = ((l.driver.onBytes scfg arm (Nlohmann.encode frame) nowNs).1.adopt x.epoch).strategy
      rw [adopt_of_epoch hspec.epoch, hspec.strategy]
      rfl
    · intro e he
      exact Option.some.inj (he.symm.trans hspec.epoch)
    · intro intent hintent
      have hnone := hspec.close
      rw [hdelivers.stops, (adopt_frame l.driver x.epoch).2, hclose] at hnone
      cases hintent.symm.trans hnone
    · exact h.flight_act hsent hspec hopen

/-- The timer closes for a stale feed, or has closed before. -/
theorem Follows.closed_timer (h : Follows cfg l x d) {nowNs : ℤ} {epoch : ℕ}
    {driver' : Client.SessionDriver} {sent : List Bytes}
    (hspec : Dispatched epoch { l.driver with strategy := (d.strategy.onTimer scfg nowNs).1 }
      (d.strategy.onTimer scfg nowNs).2 driver' sent)
    {intent : Client.CloseIntent} (hintent : driver'.close = some intent) :
    intent.code = Client.CLOSE_STALE ∧ (d.strategy.onTimer scfg nowNs).1.stopped = true := by
  have hclose : some intent = l.driver.close.or _ := hintent.symm.trans hspec.close
  rcases Strategy.onTimer_guards scfg d.strategy nowNs with hidle | ⟨hstopped, -, -, -, -, hstale⟩
  · -- nothing happened
    rw [hidle, stopsIn, List.filterMap_nil, List.head?_nil, Option.map_none, Option.or_none]
      at hclose
    rw [hidle]
    exact h.closed intent hclose.symm
  · refine ⟨?_, hstopped⟩
    cases hbefore : l.driver.close with
    | some earlier =>
      -- the first close stands
      rw [hbefore, Option.some_or] at hclose
      rw [Option.some.inj hclose]
      exact (h.closed earlier hbefore).1
    | none =>
      rw [hbefore, Option.none_or] at hclose
      obtain ⟨reason, hreason, hlatched⟩ := Option.map_eq_some_iff.mp hclose.symm
      have hhead := hstale reason (List.mem_of_head? hreason)
      rw [← hlatched, Client.intentOf, if_pos (List.isPrefixOf_iff_prefix.mpr hhead)]

/-- The timer of the client. -/
theorem Follows.timer (h : Follows cfg l x d) (hset : Setting cfg scfg parse arm)
    (hdriver : Client.Synced scfg arm l.driver history) {nowNs : ℤ}
    (hroom : (l.driver.onTimer scfg arm nowNs).1.strategy.outSeq < 2 ^ 64) :
    ∃ sent d', (l.driver.onTimer scfg arm nowNs).2 = .ok sent ∧
      Mealy.Reachable (Duplex.step cfg.engine scfg x.epoch) d d' ∧
      Follows cfg (l.act (l.driver.onTimer scfg arm nowNs)) x d' := by
  obtain ⟨platform, hplatform, harm⟩ := hset.arm
  cases hepoch : l.driver.epoch with
  | none =>
    rw [hdriver.onTimer_of_none hepoch]
    refine ⟨[], d, rfl, .refl _ d, ?_⟩
    have hsame : l.act (l.driver, .ok []) = l := by
      rw [act, Client.framesOf, List.append_nil]
    rw [hsame]
    exact h
  | some e =>
    obtain rfl := h.adopted e hepoch
    obtain ⟨sent, hsent, hspec⟩ :=
      hdriver.ticks (harm.sound hplatform) (fun _ => hset.qty) hepoch hroom
    have hclient : d.strategy = l.driver.strategy := by
      rw [h.client, adopt_of_epoch hepoch]
    rw [← hclient] at hspec
    have hacts : Dispatched x.epoch
        { l.driver.adopt x.epoch with strategy := (d.strategy.onTimer scfg nowNs).1 }
        (d.strategy.onTimer scfg nowNs).2 (l.driver.onTimer scfg arm nowNs).1 sent := by
      rw [adopt_of_epoch hepoch]
      exact hspec
    refine ⟨sent, _, hsent, .single _ d (.timer nowNs), ?_⟩
    refine ⟨h.engine, h.reports, h.books, h.inbound, h.bounded, h.speaks, ?_, ?_, ?_,
      fun hopen => ?_⟩
    · show (d.strategy.onTimer scfg nowNs).1 =
        ((l.driver.onTimer scfg arm nowNs).1.adopt x.epoch).strategy
      rw [adopt_of_epoch hspec.epoch, hspec.strategy]
    · intro e he
      exact Option.some.inj (he.symm.trans hspec.epoch)
    · exact fun intent hintent => h.closed_timer hspec hintent
    · exact h.flight_act hsent hacts hopen

end Driver

end Link

end MarketMaker
