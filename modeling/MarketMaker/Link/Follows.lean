import MarketMaker.Link.Loop

/-!
# The abstraction of a link

A duplex follows a link if its parties and its channels are those of one session: the engine has
made the calls that were made while the session's epoch lived, the reports in flight are the answers
that the client has not heard, the books are those after the last tick it heard, and the commands
are read from the frames in flight. A turn of the server, whatever it does to other sessions, is
matched by events of the duplex (`Follows.turn`).
-/

namespace MarketMaker

open OrderEngine (Call)
open Client (InFlight)

namespace Link

/-! ## What was heard -/

/-- The number of the book of a tick. -/
def mdSeqOf? : OutMsg → Option ℕ
  | .tob tob => some tob.mdSeq
  | _ => none

/-- The last book among some frames, or 0. -/
def newestIn (frames : List OutMsg) : ℕ := (frames.filterMap mdSeqOf?).getLast?.getD 0

/-- The frames among them that are no ticks. -/
def reportsOf (frames : List OutMsg) : List OutMsg := frames.filter fun frame => !frame.isTob

/-- The frames of a session that its client has read. -/
def heardOf (l : Link) (x : Session) : List OutMsg := (framesIn x.log).take l.heard

section Heard

variable {frames : List OutMsg} {frame : OutMsg} {log : List Entry}

theorem mdSeqs_framesIn (log : List Entry) : (framesIn log).filterMap mdSeqOf? = tobsIn log :=
  List.filterMap_congr fun frame _ => by cases frame <;> rfl

theorem newestIn_nil : newestIn [] = 0 := rfl

theorem newestIn_tick (frames : List OutMsg) (tob : Tob) :
    newestIn (frames ++ [.tob tob]) = tob.mdSeq := by
  rw [newestIn, List.filterMap_append]
  simp [mdSeqOf?]

theorem newestIn_report (h : frame.isTob = false) :
    newestIn (frames ++ [frame]) = newestIn frames := by
  have hnone : mdSeqOf? frame = none := by
    cases frame with
    | tob m => cases h
    | _ => rfl
  rw [newestIn, List.filterMap_append, List.filterMap_cons, hnone]
  simp [newestIn]

/-- It is 0 or the number of a tick. -/
theorem newestIn_cases (frames : List OutMsg) :
    newestIn frames = 0 ∨ newestIn frames ∈ frames.filterMap mdSeqOf? := by
  rw [newestIn]
  cases hlast : (frames.filterMap mdSeqOf?).getLast? with
  | none => exact Or.inl rfl
  | some k => exact Or.inr (List.mem_of_getLast? hlast)

theorem reportsOf_tick (frames : List OutMsg) (tob : Tob) :
    reportsOf (frames ++ [.tob tob]) = reportsOf frames := by
  rw [reportsOf, List.filter_append]
  exact List.append_nil _

theorem reportsOf_report (h : frame.isTob = false) :
    reportsOf (frames ++ [frame]) = reportsOf frames ++ [frame] := by
  rw [reportsOf, List.filter_append, List.filter_singleton, h]
  rfl

/-- What was heard stays heard. -/
theorem take_framesIn {log log' : List Entry} (h : log <+: log') {n : ℕ}
    (hn : n ≤ (framesIn log).length) : (framesIn log').take n = (framesIn log).take n := by
  obtain ⟨more, rfl⟩ := h
  rw [framesIn_append, List.take_append_of_le_length hn]

end Heard

/-! ## The relation -/

/-- The session takes frames of its peer. -/
def IsOpen (x : Session) : Prop := x.closing = false ∧ x.tornDown = false

instance (x : Session) : Decidable (IsOpen x) :=
  inferInstanceAs (Decidable (x.closing = false ∧ x.tornDown = false))

/-- The calls that were made while the session's epoch lived. -/
def servedTo (l : Link) (x : Session) : List (Call × List Routed) :=
  liveCalls x.epoch l.world.srv.calls

/-- A duplex is in the state of a link, as far as the session `x` and its client are concerned. -/
structure Follows (cfg : ServerConfig) (l : Link) (x : Session) (d : Duplex) : Prop where
  engine : Mealy.run (OrderEngine.step cfg.engine) {} ((l.servedTo x).map Prod.fst) =
    (d.engine, l.servedTo x)
  /-- The reports in flight are those that were answered and not heard. -/
  reports : ∃ told, answersTo x.epoch l.world.srv.calls = told ++ d.reports ∧
    told.length = (reportsOf (l.heardOf x)).length ∧ ∀ msg ∈ told, Duplex.Civil cfg.engine msg
  /-- The books in flight are those after the last tick that was heard. -/
  books : d.books = (booksIn (l.servedTo x)).drop (newestIn (l.heardOf x))
  inbound : d.inbound = l.heard
  bounded : l.heard ≤ (framesIn x.log).length
  /-- The session has refused nothing on its own. -/
  speaks : ∀ p ∈ enqueuedIn x.log, p.2 ≠ .session
  /-- The strategy is the client's, which adopts the epoch with the first frame. -/
  client : d.strategy = (l.driver.adopt x.epoch).strategy
  adopted : ∀ epoch, l.driver.epoch = some epoch → epoch = x.epoch
  closed : ∀ intent, l.driver.close = some intent →
    intent.code = Client.CLOSE_STALE ∧ d.strategy.stopped = true
  /-- The commands in flight are read from the frames in flight, numbered on from the last that the
  session has read. -/
  inFlight : IsOpen x → ∃ start, x.inSeqExpected = start + 1 ∧
    InFlight x.epoch start l.sent d.commands ∧ l.driver.outSeq = start + l.sent.length

variable {cfg : ServerConfig} {scfg : StrategyConfig} {l : Link} {w' : World} {i : ℕ}
    {x x' : Session}
  {d : Duplex} {new : List (Call × List Routed)}

/-- The epoch of an open session lives. -/
theorem not_ended_of_isOpen {w : World} (hinv : w.Inv cfg) (hx : w.heap[i]? = some x)
    (hstarted : x.epoch ≠ 0) (hopen : IsOpen x) :
    Call.endSession x.epoch ∉ w.srv.calls.map Prod.fst := by
  rw [hinv.ended_iff hx hstarted, hopen.1, hopen.2]
  decide

/-- As long as the session is open the duplex has the engine of the server. -/
theorem Follows.engine_eq (h : Follows cfg l x d) (hinv : l.world.Inv cfg)
    (hx : l.world.heap[i]? = some x) (hstarted : x.epoch ≠ 0) (hopen : IsOpen x) :
    d.engine = l.world.srv.engine := by
  have hrun := h.engine
  rw [servedTo, liveCalls_of_not_mem (not_ended_of_isOpen hinv hx hstarted hopen), hinv.run_calls]
    at hrun
  exact (congrArg Prod.fst hrun).symm

/-- The ticks of a session are of books that its epoch has seen. -/
theorem newest_le {w : World} (hk : w.Known cfg) (hx : x ∈ w.heap) (n : ℕ) :
    newestIn ((framesIn x.log).take n) ≤ (booksIn (liveCalls x.epoch w.srv.calls)).length := by
  rcases newestIn_cases ((framesIn x.log).take n) with hzero | hmem
  · rw [hzero]
    exact Nat.zero_le _
  · refine hk.booked.told x.line (List.mem_map_of_mem hx) _ ((hk.ordered x hx).ticking.known _ ?_)
    show _ ∈ tobsIn x.log
    rw [← mdSeqs_framesIn]
    exact ((List.take_sublist n _).filterMap _).subset hmem

/-- A batch of calls, while the epoch lives. -/
theorem Follows.absorb (h : Follows cfg l x d) (hk' : w'.Known cfg)
    (hcalls : w'.srv.calls = l.world.srv.calls ++ new)
    (hlives : Call.endSession x.epoch ∉ l.world.srv.calls.map Prod.fst) {taken left : List InMsg}
    (hcommands : d.commands = taken ++ left)
    (hown : List.Forall₂ Duplex.IsStamped taken (Duplex.ownIn x.epoch new)) :
    ∃ d', Duplex.Absorbs cfg.engine scfg x.epoch d (liveCalls x.epoch new) left d' ∧
      Mealy.run (OrderEngine.step cfg.engine) {} ((liveCalls x.epoch w'.srv.calls).map Prod.fst) =
        (d'.engine, liveCalls x.epoch w'.srv.calls) ∧
      answersTo x.epoch new = answersTo x.epoch (liveCalls x.epoch new) := by
  have hengine := h.engine
  rw [servedTo, liveCalls_of_not_mem hlives] at hengine
  have hlive : liveCalls x.epoch w'.srv.calls = l.world.srv.calls ++ liveCalls x.epoch new := by
    rw [hcalls, liveCalls_append hlives]
  -- the engine's run goes through the calls of the epoch
  obtain ⟨e, hbefore, -⟩ :=
    Mealy.exists_run_of_prefix _ hk'.inv.run_calls (isPrefix_liveCalls x.epoch w'.srv.calls)
  have hfresh := hk'.fresh
  obtain ⟨more, hmore⟩ := isPrefix_liveCalls x.epoch w'.srv.calls
  rw [← hmore, List.map_append, Mealy.along_append] at hfresh
  have hfresh := hfresh.1
  rw [hlive, List.map_append] at hbefore hfresh
  rw [Mealy.run_append, hengine] at hbefore
  rw [Mealy.along_append, hengine] at hfresh
  obtain ⟨he, hhistory⟩ := Prod.mk.inj hbefore
  -- what comes after the end of the epoch does not concern it
  obtain ⟨hanswers, hserved⟩ := hk'.inv.silent_after x.epoch
  rw [hlive, hcalls, answersTo_append, answersTo_append] at hanswers
  rw [hlive, hcalls, Duplex.ownIn_append, Duplex.ownIn_append] at hserved
  have hanswers := List.append_cancel_left hanswers
  have hserved := List.append_cancel_left hserved
  obtain ⟨d', hd'⟩ := @Duplex.absorb cfg.engine scfg x.epoch d (liveCalls x.epoch new) e taken left
    (Prod.ext he (List.append_cancel_left hhistory)) hfresh.2
    (not_mem_liveCalls x.epoch new) hcommands
    (hserved.symm ▸ hown)
  refine ⟨d', hd', ?_, hanswers.symm⟩
  rw [hlive, List.map_append, Mealy.run_append, hengine, hd'.engine]

/-! ## A turn of the server -/

theorem Follows.bounded_turn (h : Follows cfg l x d) (hgrows : x.line.Grows x'.line) :
    l.heard ≤ (framesIn x'.log).length :=
  h.bounded.trans (hgrows.log.filterMap _).length_le

theorem Follows.speaks_turn (h : Follows cfg l x d) (hspeaks : x.Speaks x') :
    ∀ p ∈ enqueuedIn x'.log, p.2 ≠ .session := by
  obtain ⟨answer, hqueued, hcauses⟩ := hspeaks
  intro p hp
  rw [hqueued] at hp
  exact (List.mem_append.mp hp).elim (h.speaks p) (hcauses p)

/-- A turn after the end of the epoch changes nothing for the client. -/
theorem Follows.turn_ended (h : Follows cfg l x d) (hk : l.world.Known cfg) (hk' : w'.Known cfg)
    (hx : l.world.heap[i]? = some x) (hstarted : x.epoch ≠ 0) (hgrows : x.line.Grows x'.line)
    (hcalls : w'.srv.calls = l.world.srv.calls ++ new) (hspeaks : x.Speaks x')
    (hended : Call.endSession x.epoch ∈ l.world.srv.calls.map Prod.fst) (sent : List Bytes) :
    Follows cfg { l with world := w', sent } x' d := by
  have hepoch : x'.epoch = x.epoch := hgrows.epoch
  have hheard : (framesIn x'.log).take l.heard = (framesIn x.log).take l.heard :=
    take_framesIn hgrows.log h.bounded
  have hlive : liveCalls x.epoch w'.srv.calls = liveCalls x.epoch l.world.srv.calls := by
    rw [hcalls, liveCalls_append_of_mem hended]
  -- the session is closing or gone, and stays so
  have hshut : ¬IsOpen x' := by
    rintro ⟨hopen, hup⟩
    rcases (hk.inv.ended_iff hx hstarted).mp hended with hclosing | hdown
    · exact Bool.false_ne_true (hopen.symm.trans (hgrows.closing hclosing))
    · exact Bool.false_ne_true (hup.symm.trans (hgrows.tornDown hdown))
  obtain ⟨told, hanswers, hmany, hcivil⟩ := h.reports
  refine ⟨?_, ⟨told, ?_, ?_, hcivil⟩, ?_, h.inbound, h.bounded_turn hgrows, h.speaks_turn hspeaks,
    ?_, ?_, h.closed, fun hopen => absurd hopen hshut⟩
  · show Mealy.run _ {} ((liveCalls x'.epoch w'.srv.calls).map Prod.fst) =
      (d.engine, liveCalls x'.epoch w'.srv.calls)
    rw [hepoch, hlive]
    exact h.engine
  · show answersTo x'.epoch w'.srv.calls = _
    rw [hepoch, ← (hk'.inv.silent_after x.epoch).1, hlive, (hk.inv.silent_after x.epoch).1,
      hanswers]
  · show told.length = (reportsOf ((framesIn x'.log).take l.heard)).length
    rw [hheard]
    exact hmany
  · show d.books = (booksIn (liveCalls x'.epoch w'.srv.calls)).drop
      (newestIn ((framesIn x'.log).take l.heard))
    rw [hepoch, hlive, hheard]
    exact h.books
  · rw [hepoch]
    exact h.client
  · rw [hepoch]
    exact h.adopted

/-- A turn while the epoch lives: the duplex absorbs its calls. -/
theorem Follows.turn_live (h : Follows cfg l x d) (hk : l.world.Known cfg) (hk' : w'.Known cfg)
    (hx : l.world.heap[i]? = some x) (hgrows : x.line.Grows x'.line)
    (hcalls : w'.srv.calls = l.world.srv.calls ++ new) (hspeaks : x.Speaks x')
    (hlives : Call.endSession x.epoch ∉ l.world.srv.calls.map Prod.fst)
    {taken left : List InMsg} (hcommands : d.commands = taken ++ left)
    (hown : List.Forall₂ Duplex.IsStamped taken (Duplex.ownIn x.epoch new)) {start : ℕ}
    (hnext : x'.inSeqExpected = start + 1) {sent : List Bytes}
    (hflight : InFlight x.epoch start sent left)
    (hcount : l.driver.outSeq = start + sent.length) :
    ∃ d', Mealy.Reachable (Duplex.step cfg.engine scfg x.epoch) d d' ∧
      Follows cfg { l with world := w', sent } x' d' := by
  have hepoch : x'.epoch = x.epoch := hgrows.epoch
  have hheard : (framesIn x'.log).take l.heard = (framesIn x.log).take l.heard :=
    take_framesIn hgrows.log h.bounded
  have hlive : liveCalls x.epoch l.world.srv.calls = l.world.srv.calls :=
    liveCalls_of_not_mem hlives
  obtain ⟨told, hanswers, hmany, hcivil⟩ := h.reports
  -- the duplex takes the calls as events of its own, in their order
  obtain ⟨d', habsorbs, hengine, hnew⟩ := h.absorb hk' hcalls hlives hcommands hown
  refine ⟨d', habsorbs.reaches, ?_, ⟨told, ?_, ?_, hcivil⟩, ?_, ?_, h.bounded_turn hgrows,
    h.speaks_turn hspeaks, ?_, ?_, ?_, fun _ => ⟨start, hnext, ?_, hcount⟩⟩
  · show Mealy.run _ {} ((liveCalls x'.epoch w'.srv.calls).map Prod.fst) =
      (d'.engine, liveCalls x'.epoch w'.srv.calls)
    rw [hepoch]
    exact hengine
  · show answersTo x'.epoch w'.srv.calls = _
    rw [hepoch, hcalls, answersTo_append, hanswers, habsorbs.reports, hnew, List.append_assoc]
  · show told.length = (reportsOf ((framesIn x'.log).take l.heard)).length
    rw [hheard]
    exact hmany
  · -- what was heard is of books before these
    show d'.books = (booksIn (liveCalls x'.epoch w'.srv.calls)).drop
      (newestIn ((framesIn x'.log).take l.heard))
    have hbooks := h.books
    have hle := newest_le hk (List.mem_of_getElem? hx) l.heard
    rw [servedTo, hlive, heardOf] at hbooks
    rw [hlive] at hle
    rw [hepoch, hheard, hcalls, liveCalls_append hlives, booksIn_append,
      List.drop_append_of_le_length hle, habsorbs.books, hbooks]
  · exact habsorbs.inbound.trans h.inbound
  · rw [hepoch, habsorbs.strategy]
    exact h.client
  · rw [hepoch]
    exact h.adopted
  · rw [habsorbs.strategy]
    exact h.closed
  · rw [hepoch, habsorbs.commands]
    exact hflight

/-- A turn of the server, in which the session may read the commands that were sent first. -/
theorem Follows.turn (h : Follows cfg l x d) (hk : l.world.Known cfg) (hk' : w'.Known cfg)
    (hx : l.world.heap[i]? = some x) (hstarted : x.epoch ≠ 0)
    (hgrows : x.line.Grows x'.line) (hcalls : w'.srv.calls = l.world.srv.calls ++ new)
    (hspeaks : x.Speaks x') {sent : List Bytes}
    (hown : IsOpen x → ∃ taken left, d.commands = taken ++ left ∧
      List.Forall₂ Duplex.IsStamped taken (Duplex.ownIn x.epoch new) ∧
      ∃ start, x'.inSeqExpected = start + 1 ∧ InFlight x.epoch start sent left ∧
        l.driver.outSeq = start + sent.length) :
    ∃ d', Mealy.Reachable (Duplex.step cfg.engine scfg x.epoch) d d' ∧
      Follows cfg { l with world := w', sent } x' d' := by
  by_cases hended : Call.endSession x.epoch ∈ l.world.srv.calls.map Prod.fst
  · exact ⟨d, .refl _ d, h.turn_ended hk hk' hx hstarted hgrows hcalls hspeaks hended sent⟩
  -- an epoch that lives is that of an open session
  · have hopen : IsOpen x := by
      have hleft := fun hleft => hended ((hk.inv.ended_iff hx hstarted).mpr hleft)
      exact ⟨Bool.not_eq_true _ |>.mp fun hc => hleft (Or.inl hc),
        Bool.not_eq_true _ |>.mp fun hd => hleft (Or.inr hd)⟩
    obtain ⟨taken, left, hcommands, hserved, start, hnext, hflight, hcount⟩ := hown hopen
    exact h.turn_live hk hk' hx hgrows hcalls hspeaks hended hcommands hserved hnext hflight hcount

end Link

end MarketMaker
