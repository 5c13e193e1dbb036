import MarketMaker.Bench.Pairing

/-!
# Whose stamps a probe records

The invariant of a probe and an engine that talk over FIFO channels, for any interleaving. What is
in flight is the commands answered and not yet heard of, then the commands not yet answered;
`Flight` says that they are those of one cycle, the timed one last. Every earlier timed command has
its own record.
-/

namespace MarketMaker

namespace Harness

open OrderEngine

/-! ## Notes -/

section Notes

variable (mode : Mode) (notes notes' : List Note)

/-- The timed commands are read off the notes in order. -/
@[simp]
theorem timed_append : timed mode (notes ++ notes') = timed mode notes ++ timed mode notes' :=
  List.filterMap_append

/-- So are the arrivals. -/
@[simp]
theorem arrivals_append : arrivals (notes ++ notes') = arrivals notes ++ arrivals notes' :=
  List.filterMap_append

/-- What the engine answers is no command. -/
@[simp]
theorem timed_answered (serial : ℕ) (out : List OutMsg) : timed mode [.answered serial out] = [] :=
  rfl

/-- It has not arrived yet. -/
@[simp]
theorem arrivals_answered (serial : ℕ) (out : List OutMsg) :
    arrivals [.answered serial out] = [] := rfl

/-- An arrival is no command. -/
@[simp]
theorem timed_arrived (serial : ℕ) (msg : OutMsg) (clockNs : ℤ) :
    timed mode [.arrived serial msg clockNs] = [] := rfl

/-- It arrives under the serial of its command. -/
@[simp]
theorem arrivals_arrived (serial : ℕ) (msg : OutMsg) (clockNs : ℤ) :
    arrivals [.arrived serial msg clockNs] = [serial] := rfl

/-- The note of a command that is sent. -/
def sentNote (clockNs : ℤ) (c : InMsg × ℕ) : Note := .sent c.2 c.1 clockNs

/-- A command that is sent has not arrived. -/
@[simp]
theorem arrivals_sent (clockNs : ℤ) (cmds : List (InMsg × ℕ)) :
    arrivals (cmds.map (sentNote clockNs)) = [] := by
  rw [arrivals, List.filterMap_map, List.filterMap_eq_nil_iff]
  exact fun _ _ => rfl

/-- Commands that the mode does not time leave no trace among the timed ones. -/
theorem timed_sent_of_untimed {p : Probe} (clockNs : ℤ) {cmds : List (InMsg × ℕ)}
    (h : ∀ c ∈ cmds, Untimed p c.1) : timed p.mode (cmds.map (sentNote clockNs)) = [] := by
  rw [timed, List.filterMap_map, List.filterMap_eq_nil_iff]
  intro c hc
  exact if_neg (h c hc).not_isTimed

end Notes

/-! ## The invariant -/

/-- The report answers the command whose serial number it carries. -/
def Answers (c : InMsg × ℕ) (report : OutMsg × Option ℕ) : Prop :=
  report.2 = some c.2 ∧ Acks c.1 report.1

/-- What is in flight, and the timed command in it. -/
inductive Flight (p : Probe) (live : Option ℕ) : List (InMsg × ℕ) → List TimedCommand → Prop
  | ready (hpend : p.pendingId = none) (hready : ¬p.finished = true → Ready p live) :
      Flight p live [] []
  | waiting {earlier : List (InMsg × ℕ)} {msg : InMsg} {serial : ℕ}
      (hpend : p.pendingId = some (orderId p.nextId)) (hopen : ¬p.finished = true)
      (hearlier : ∀ c ∈ earlier, Untimed p c.1) (hcloses : Closes p msg live)
      (hdue : p.pendingIntendedNs = p.dueNs p.count p.pendingSentNs) :
      Flight p live (earlier ++ [(msg, serial)]) [⟨serial, msg, p.pendingSentNs⟩]

/-- Record `i` is the one of the command `c`: when it was due, when it was sent, and when its ack
arrived. -/
structure Recorded (p : Probe) (notes : List Note) (i : ℕ) (c : TimedCommand) : Prop where
  intended : p.intendedNs[i]? = some (p.dueNs i c.sentNs)
  sent : p.sentNs[i]? = some c.sentNs
  done : ∃ ack doneNs, .arrived c.serial ack doneNs ∈ notes ∧ Acks c.msg ack ∧
    p.doneNs[i]? = some doneNs

namespace Flight

variable {p : Probe} {live : Option ℕ} {pipe : List (InMsg × ℕ)} {opened : List TimedCommand}

/-- With no command pending there is nothing in flight. -/
theorem of_idle (h : Flight p live pipe opened) (hpend : p.pendingId = none) :
    pipe = [] ∧ opened = [] ∧ (¬p.finished = true → Ready p live) := by
  cases h with
  | ready _ hready => exact ⟨rfl, rfl, hready⟩
  | waiting hpend' _ _ _ _ => exact absurd (hpend'.symm.trans hpend) (Option.some_ne_none _)

/-- The cycle that something in flight belongs to. -/
theorem of_cons {c : InMsg × ℕ} {rest : List (InMsg × ℕ)} (h : Flight p live (c :: rest) opened) :
    p.pendingId = some (orderId p.nextId) ∧ ¬p.finished = true ∧
      p.pendingIntendedNs = p.dueNs p.count p.pendingSentNs ∧
      ((Untimed p c.1 ∧ Flight p live rest opened) ∨
        (Closes p c.1 live ∧ rest = [] ∧ opened = [⟨c.2, c.1, p.pendingSentNs⟩])) := by
  generalize hpipe : c :: rest = pipe at h
  cases h with
  | ready _ _ => cases hpipe
  | @waiting earlier msg serial hpend hopen hearlier hcloses hdue =>
    refine ⟨hpend, hopen, hdue, ?_⟩
    cases earlier with
    | nil =>
      cases hpipe
      exact Or.inr ⟨hcloses, rfl, rfl⟩
    | cons c' earlier =>
      obtain ⟨rfl, rfl⟩ := List.cons.inj hpipe
      have hothers : ∀ c ∈ earlier, Untimed p c.1 := fun c hc =>
        hearlier c (List.mem_cons_of_mem _ hc)
      exact Or.inl ⟨hearlier _ List.mem_cons_self, .waiting hpend hopen hothers hcloses hdue⟩

end Flight

/-- What was recorded stays so. -/
theorem Recorded.mono {p : Probe} {notes notes' : List Note} {i : ℕ} {c : TimedCommand}
    (h : Recorded p notes i c) (hsub : notes ⊆ notes') : Recorded p notes' i c := by
  obtain ⟨ack, doneNs, hmem, hack, hdone⟩ := h.done
  exact ⟨h.intended, h.sent, ack, doneNs, hsub hmem, hack, hdone⟩

/-- What the run has been so far, beside what is in flight. -/
structure Past where
  /-- The highest order number that the engine has seen. -/
  used : ℕ := 0
  /-- The number of the order that rests. -/
  live : Option ℕ := none
  /-- The number of the order that will rest when the commands in flight have been answered. -/
  next : Option ℕ := none
  /-- The commands whose answer is in flight. -/
  answered : List (InMsg × ℕ) := []
  /-- The timed commands that have a record. -/
  closed : List TimedCommand := []
  /-- The timed command that has none yet. -/
  opened : List TimedCommand := []

/-- The constructor arguments of a probe do not change. -/
structure SameArgs (p₀ p : Probe) : Prop where
  mode : p.mode = p₀.mode
  total : p.total = p₀.total

/-- There is room for every sample. -/
structure Sized (p : Probe) : Prop where
  intended : p.intendedNs.length = p.total
  sent : p.sentNs.length = p.total
  done : p.doneNs.length = p.total
  count_le : p.count ≤ p.total

structure Good (cfg : EngineConfig) (s : ℕ) (p₀ : Probe) (x : Rig) (notes : List Note)
    (past : Past) : Prop where
  inv : Inv cfg x.engine
  holds : Holds cfg s x.engine past.used past.live
  admits : Admits past.used past.live (x.commands.map Prod.fst) x.probe.nextId past.next
  answers : List.Forall₂ Answers past.answered x.reports
  flight : Flight x.probe past.next (past.answered ++ x.commands) past.opened
  serials : arrivals notes ++ (past.answered ++ x.commands).map Prod.snd = List.range x.sent
  timed_eq : timed p₀.mode notes = past.closed ++ past.opened
  length_closed : past.closed.length = x.probe.count
  issued_eq : x.probe.issued = (past.closed ++ past.opened).length
  recorded : ∀ i c, past.closed[i]? = some c → Recorded x.probe notes i c
  sized : Sized x.probe
  args : SameArgs p₀ x.probe
  fresh : x.connected = false → x.probe.epoch = 0 ∧ x.probe.pendingId = none ∧
    x.probe.cancelPhase = false ∧ x.probe.count = 0
  accepted : ∀ serial out, .answered serial out ∈ notes → ∃ ack, out = [ack] ∧
    ∀ m, ack ≠ .reject m

variable {cfg : EngineConfig} {s : ℕ} {p₀ : Probe} {x : Rig} {notes : List Note} {past : Past}

/-- What a probe may change without touching its cycle. -/
theorem Flight.congr {p : Probe} {live : Option ℕ} {pipe : List (InMsg × ℕ)}
    {opened : List TimedCommand} (h : Flight p live pipe opened) (epoch mdSeq : ℕ) (done : Bool) :
    Flight { p with epoch, mdSeq, done } live pipe opened := by
  cases h with
  | ready hpend hready =>
    refine .ready hpend fun hopen => ?_
    have hold := hready hopen
    exact ⟨hold.newest, hold.phase, hold.liveId⟩
  | waiting hpend hopen hearlier hcloses hdue =>
    refine .waiting hpend hopen hearlier ?_ hdue
    cases hcloses with
    | new hid hpos hphase => exact .new hid hpos hphase
    | cancel hid hmode hphase => exact .cancel hid hmode hphase

/-- An ack names the order of its command. -/
theorem Acks.clId_eq {msg : InMsg} {ack : OutMsg} (h : Acks msg ack) :
    ack.clId = some msg.clId := by
  cases msg <;> cases ack <;> first | exact h.elim | exact congrArg some h

/-- An ack is no reject. -/
theorem Acks.ne_reject {msg : InMsg} {ack : OutMsg} (h : Acks msg ack) (m : Reject) :
    ack ≠ .reject m := by
  rintro rfl
  cases msg <;> exact h

namespace Good

/-- Nothing is pending at the start. -/
theorem init {mode : Mode} {total : ℤ} {periodNs : Option ℕ} {p : Probe}
    (h : Probe.new mode total periodNs = some p) (cfg : EngineConfig) (s : ℕ) :
    Good cfg s p { probe := p } [] {} := by
  unfold Probe.new at h
  split_ifs at h
  cases h
  exact
    { inv := inv_init cfg
      holds := .init cfg s
      admits := .nil
      answers := .nil
      flight := .ready rfl fun _ =>
        ⟨fun _ hn => (by contradiction), fun _ => rfl, fun _ => ⟨rfl, rfl⟩⟩
      serials := rfl
      timed_eq := rfl
      length_closed := rfl
      issued_eq := rfl
      recorded := fun i c hc => by simp at hc
      sized := ⟨by simp, by simp, by simp, Nat.zero_le _⟩
      args := ⟨rfl, rfl⟩
      fresh := fun _ => ⟨rfl, rfl, rfl, rfl⟩
      accepted := fun _ _ hmem => by contradiction }

/-! ## The engine's side -/

/-- A call that reports nothing to the session and keeps its standing. -/
private theorem quiet_call (h : Good cfg s p₀ x notes past) {c : Call} (books : List Book)
    (hstep : Holds cfg s (OrderEngine.step cfg x.engine c).1 past.used past.live ∧
      reportsTo s (OrderEngine.step cfg x.engine c).2 = []) :
    Good cfg s p₀ { x.call cfg s c none with books } notes past := by
  have hreports : (x.call cfg s c none).reports = x.reports := by
    rw [Rig.call, hstep.2, List.map_nil, List.append_nil]
  exact
    { h with
      inv := inv_step h.inv c
      holds := hstep.1
      answers := by
        rw [hreports]
        exact h.answers }

/-- A book far from the orders keeps the rig good. -/
theorem book (h : Good cfg s p₀ x notes past) {book : Book} (hfresh : x.engine.isFresh book)
    (hfar : ¬crosses book .bid BID_PX = true) (books : List Book) :
    Good cfg s p₀ { x.call cfg s (.onBook book) none with books } notes past :=
  h.quiet_call books (h.holds.book h.inv hfresh hfar)

/-- So does a call of another session. -/
theorem other (h : Good cfg s p₀ x notes past) {c : Call} (hother : Duplex.isOther s c = true) :
    Good cfg s p₀ (x.call cfg s c none) notes past :=
  h.quiet_call x.books (h.holds.other h.inv hother)

/-- The engine has answered the oldest command in flight. -/
private theorem answered (h : Good cfg s p₀ x notes past) {msg : InMsg} {serial : ℕ}
    {rest : List (InMsg × ℕ)} (hcmds : x.commands = (msg, serial) :: rest) {c : Call} {used : ℕ}
    {live : Option ℕ} {ack : OutMsg}
    (hholds : Holds cfg s (OrderEngine.step cfg x.engine c).1 used live)
    (hout : reportsTo s (OrderEngine.step cfg x.engine c).2 = [ack]) (hack : Acks msg ack)
    (hadmits : Admits used live (rest.map Prod.fst) x.probe.nextId past.next) :
    Good cfg s p₀ (({ x with commands := rest } : Rig).call cfg s c serial)
      (notes ++ [.answered serial (reportsTo s (OrderEngine.step cfg x.engine c).2)])
      { past with used, live, answered := past.answered ++ [(msg, serial)] } := by
  have hpipe : (past.answered ++ [(msg, serial)]) ++ rest = past.answered ++ x.commands := by
    rw [hcmds, List.append_assoc, List.singleton_append]
  refine
    { h with
      inv := inv_step h.inv c
      holds := hholds
      admits := hadmits
      answers := ?_
      flight := ?_
      serials := ?_
      timed_eq := by rw [timed_append, timed_answered, List.append_nil, h.timed_eq]
      recorded := fun i c hc => (h.recorded i c hc).mono (List.subset_append_left _ _)
      accepted := fun k out hmem => ?_ }
  · simp only [Rig.call, hout]
    exact List.rel_append h.answers (.cons ⟨rfl, hack⟩ .nil)
  · simp only [Rig.call]
    rw [hpipe]
    exact h.flight
  · simp only [Rig.call]
    rw [hpipe, arrivals_append, arrivals_answered, List.append_nil]
    exact h.serials
  · rcases List.mem_append.mp hmem with hmem | hmem
    · exact h.accepted k out hmem
    · obtain ⟨rfl, rfl⟩ := Note.answered.inj (List.mem_singleton.mp hmem)
      exact ⟨ack, hout, hack.ne_reject⟩

/-- A command that the engine serves is acked under its serial. -/
theorem command (h : Good cfg s p₀ x notes past) (hsuits : Suits cfg.inst) {msg : InMsg}
    {serial : ℕ} {rest : List (InMsg × ℕ)} (hcmds : x.commands = (msg, serial) :: rest) :
    ∃ past', Good cfg s p₀
      (({ x with commands := rest } : Rig).call cfg s (Duplex.callOf s msg) serial)
      (notes ++ [.answered serial
        (reportsTo s (OrderEngine.step cfg x.engine (Duplex.callOf s msg)).2)]) past' := by
  have hadmits := h.admits
  have hholds := h.holds
  rw [hcmds, List.map_cons] at hadmits
  generalize past.used = used at hadmits hholds
  generalize past.live = live at hadmits hholds
  cases hadmits with
  | new hid horder hrest =>
    obtain ⟨hholds', ack, hout, hack⟩ := hholds.new h.inv hsuits hid horder
    exact ⟨_, h.answered hcmds hholds' hout hack hrest⟩
  | cancel hid hrest =>
    obtain ⟨hholds', ack, hout, hack⟩ := hholds.cancel hid
    exact ⟨_, h.answered hcmds hholds' hout hack hrest⟩

/-! ## The probe's side -/

/-- A probe that notes something beside its cycle. -/
theorem congr (h : Good cfg s p₀ x notes past) (hconn : x.connected = true) (epoch mdSeq : ℕ)
    (done : Bool) :
    Good cfg s p₀ { x with probe := { x.probe with epoch, mdSeq, done } } notes past :=
  { h with
    flight := h.flight.congr epoch mdSeq done
    recorded := fun i c hc => ⟨(h.recorded i c hc).1, (h.recorded i c hc).2, (h.recorded i c hc).3⟩
    sized := ⟨h.sized.1, h.sized.2, h.sized.3, h.sized.4⟩
    args := ⟨h.args.1, h.args.2⟩
    fresh := fun hno => by simp [hconn] at hno }

/-- The exception of a probe that has finished changes nothing else. -/
theorem raised (h : Good cfg s p₀ x notes past) :
    Good cfg s p₀ { x with raised := true } notes past :=
  { h with }

/-- `on_connect` finds a probe that has done nothing. -/
theorem connect (h : Good cfg s p₀ x notes past) (startNs : ℤ) :
    Good cfg s p₀ (x.connect s startNs) notes past ∧ (x.connect s startNs).connected = true := by
  rw [Rig.connect]
  split_ifs with hconn
  · exact ⟨h, hconn⟩
  · obtain ⟨-, hpend, hphase, hcount⟩ := h.fresh (by simpa using hconn)
    obtain ⟨hpipe, hopened, hready⟩ := h.flight.of_idle hpend
    have hclosed : past.closed = [] := List.length_eq_zero_iff.mp (h.length_closed.trans hcount)
    refine ⟨{ h with flight := ?_, recorded := ?_, sized := ?_, args := ?_, fresh := ?_ }, rfl⟩
    · rw [hpipe, hopened]
      refine .ready rfl fun hopen => ?_
      have hold := hready hopen
      exact ⟨hold.newest, fun hmode => hphase.symm.trans (hold.phase hmode), fun hmode =>
        ⟨rfl, (hold.liveId hmode).2⟩⟩
    · rw [hclosed]
      exact fun i c hc => by simp at hc
    · exact ⟨h.sized.1, h.sized.2, h.sized.3, h.sized.4⟩
    · exact ⟨h.args.1, h.args.2⟩
    · exact fun hno => by cases hno

/-- The probe starts a cycle. -/
theorem launch (h : Good cfg s p₀ x notes past) (hconn : x.connected = true)
    (hpend : x.probe.pendingId = none) (hopen : ¬x.probe.finished = true) {clockNs : ℤ}
    {r : Probe × List InMsg} {live : Option ℕ} (hl : Launches x.probe past.next clockNs r live) :
    ∃ past', Good cfg s p₀ (x.act (r.1, some r.2) clockNs).1
      (notes ++ (x.act (r.1, some r.2) clockNs).2) past' := by
  obtain ⟨hpipe, hopened, -⟩ := h.flight.of_idle hpend
  obtain ⟨hanswered, hcmds⟩ := List.append_eq_nil_iff.mp hpipe
  cases hl with
  | @intro p' earlier msg _ n liveId hp' hadmits hearlier hcloses =>
    -- the engine holds what the probe believes, since nothing is in flight
    obtain ⟨hused, hlive⟩ : past.used = x.probe.nextId ∧ past.live = past.next := by
      have hold := h.admits
      rw [hcmds] at hold
      exact hold.eq_of_nil
    have hnumbered : (earlier ++ [msg]).zipIdx x.sent =
        earlier.zipIdx x.sent ++ [(msg, x.sent + earlier.length)] := by
      rw [List.zipIdx_append, List.zipIdx_singleton]
    have hsent : ∀ c ∈ earlier.zipIdx x.sent, Untimed p' c.1 := fun c hc =>
      hearlier c.1 (List.fst_mem_of_mem_zipIdx hc)
    have hmode : p'.mode = p₀.mode := by
      rw [hp']
      exact h.args.mode
    have hnotes : timed p₀.mode
        ((earlier.zipIdx x.sent ++ [(msg, x.sent + earlier.length)]).map (sentNote clockNs)) =
        [⟨x.sent + earlier.length, msg, clockNs⟩] := by
      rw [List.map_append, timed_append, ← hmode, timed_sent_of_untimed clockNs hsent]
      simp [timed, sentNote, hcloses.isTimed]
    have hnotes' : timed p₀.mode (notes ++
        (earlier.zipIdx x.sent ++ [(msg, x.sent + earlier.length)]).map (sentNote clockNs)) =
        past.closed ++ [⟨x.sent + earlier.length, msg, clockNs⟩] := by
      rw [timed_append, hnotes, h.timed_eq, hopened, List.append_nil]
    refine ⟨{ past with
        answered := [], next := live, opened := [⟨x.sent + earlier.length, msg, clockNs⟩] }, ?_⟩
    have hreports : x.reports = [] := by
      have hanswers := h.answers
      rw [hanswered] at hanswers
      exact List.forall₂_nil_left_iff.mp hanswers
    have hserials : arrivals notes = List.range x.sent := by
      have hold := h.serials
      rwa [hpipe, List.map_nil, List.append_nil] at hold
    have hserials' : List.range x.sent ++ ((earlier ++ [msg]).zipIdx x.sent).map Prod.snd =
        List.range (x.sent + (earlier ++ [msg]).length) := by
      rw [List.zipIdx_map_snd, List.range_eq_range', List.range_eq_range']
      simpa using @List.range'_append_1 0 x.sent (earlier ++ [msg]).length
    have hissued : x.probe.issued = x.probe.count := by
      rw [h.issued_eq, hopened, List.append_nil, h.length_closed]
    subst hp'
    simp only [Rig.act, hnumbered, hcmds, List.nil_append]
    exact
      { inv := h.inv
        holds := h.holds
        admits := by
          simp only [hused, hlive, List.map_append, List.map_cons, List.map_nil,
            List.zipIdx_map_fst]
          exact hadmits
        answers := by
          rw [hreports]
          exact .nil
        flight := by
          refine .waiting rfl hopen hsent hcloses ?_
          simp only [hissued]
          rfl
        serials := by
          have hquiet : arrivals (((earlier ++ [msg]).zipIdx x.sent).map
              fun c => Note.sent c.2 c.1 clockNs) = [] := arrivals_sent clockNs _
          rw [← hnumbered, arrivals_append, hquiet, hserials, List.append_nil]
          exact hserials'
        timed_eq := hnotes'
        length_closed := h.length_closed
        issued_eq := by simp [hissued, h.length_closed]
        recorded := fun i c hc => by
          obtain ⟨hintended, hsent', hdone⟩ :=
            (h.recorded i c hc).mono (List.subset_append_left _ _)
          exact ⟨hintended, hsent', hdone⟩
        sized := ⟨h.sized.1, h.sized.2, h.sized.3, h.sized.4⟩
        args := ⟨h.args.1, h.args.2⟩
        fresh := fun hno => by simp [hconn] at hno
        accepted := fun k out hmem => by
          rcases List.mem_append.mp hmem with hmem | hmem
          · exact h.accepted k out hmem
          · obtain ⟨c, -, hc⟩ := List.mem_map.mp hmem
            cases hc }

end Good

/-- The probe when the command it times is acked: record `count` is written. -/
def Probe.closed (p : Probe) (ack : OutMsg) (doneNs : ℤ) (cancelPhase : Bool) : Probe :=
  { p.settle ack with
    intendedNs := p.intendedNs.set p.count p.pendingIntendedNs
    sentNs := p.sentNs.set p.count p.pendingSentNs
    doneNs := p.doneNs.set p.count doneNs
    count := p.count + 1
    cancelPhase }

/-- The ack of the timed command makes the probe ready. -/
theorem Closes.ready {p : Probe} {msg : InMsg} {live : Option ℕ} (h : Closes p msg live)
    {ack : OutMsg} (hack : Acks msg ack) (doneNs : ℤ) :
    Ready (p.closed ack doneNs (if p.mode = .react then p.cancelPhase else !p.cancelPhase))
      live := by
  cases h with
  | @new order hid hpos hphase =>
    refine ⟨fun n hn => ⟨(Option.some.inj hn).symm, ?_⟩, fun hmode => ?_, fun hmode => ?_⟩
    · rw [← Option.some.inj hn]
      exact hpos
    · have hmode' : p.mode ≠ .react := hmode
      simp [Probe.closed, hmode', hphase]
    · have hmode' : p.mode = .react := hmode
      cases ack with
      | orderAck a =>
        have hclId : a.clId = order.clId := hack
        simp [Probe.closed, Probe.settle, hmode', hphase, hclId, hid]
      | tob _ => exact hack.elim
      | cancelAck _ => exact hack.elim
      | reject _ => exact hack.elim
      | fill _ => exact hack.elim
  | cancel hid hmode hphase =>
    refine ⟨fun n hn => (by contradiction), fun _ => ?_, fun hreact => absurd hreact hmode⟩
    simp [Probe.closed, hmode, hphase]

namespace Good

/-- The oldest report in flight is the ack of the oldest command answered. -/
private theorem heard (h : Good cfg s p₀ x notes past) {ack : OutMsg} {tag : Option ℕ}
    {rest : List (OutMsg × Option ℕ)} (hreports : x.reports = (ack, tag) :: rest) :
    ∃ msg serial answered, tag = some serial ∧ Acks msg ack ∧
      List.Forall₂ Answers answered rest ∧ past.answered = (msg, serial) :: answered := by
  have hanswers := h.answers
  rw [hreports] at hanswers
  obtain ⟨⟨msg, serial⟩, answered, ⟨htag, hack⟩, hrest, hanswered⟩ :=
    List.forall₂_cons_right_iff.mp hanswers
  exact ⟨msg, serial, answered, htag, hack, hrest, hanswered⟩

/-- The record that is written is the one of the timed command, and the earlier ones stay. -/
private theorem recorded_close (h : Good cfg s p₀ x notes past)
    (hcount : x.probe.count < x.probe.total) (hdue : x.probe.pendingIntendedNs =
      x.probe.dueNs x.probe.count x.probe.pendingSentNs) {msg : InMsg} {serial : ℕ} {ack : OutMsg}
    (hack : Acks msg ack) (clockNs : ℤ) (phase : Bool) (i : ℕ) (c : TimedCommand)
    (hc : (past.closed ++ [⟨serial, msg, x.probe.pendingSentNs⟩])[i]? = some c) :
    Recorded (x.probe.closed ack clockNs phase) (notes ++ [.arrived serial ack clockNs]) i c := by
  by_cases hi : i < past.closed.length
  · rw [List.getElem?_append_left hi] at hc
    have hne : x.probe.count ≠ i := by
      rw [← h.length_closed]
      omega
    obtain ⟨hintended, hsent, a, doneNs, hmem, hacks, hdone⟩ :=
      (h.recorded i c hc).mono (List.subset_append_left notes [.arrived serial ack clockNs])
    refine ⟨?_, ?_, a, doneNs, hmem, hacks, ?_⟩
    · exact (List.getElem?_set_ne hne).trans hintended
    · exact (List.getElem?_set_ne hne).trans hsent
    · exact (List.getElem?_set_ne hne).trans hdone
  · rw [List.getElem?_append_right (not_lt.mp hi)] at hc
    obtain ⟨hlt, rfl⟩ := List.getElem?_eq_some_iff.mp hc
    have hi : i = x.probe.count := by
      rw [List.length_singleton, h.length_closed] at hlt
      rw [h.length_closed] at hi
      omega
    subst hi
    simp only [List.getElem_singleton]
    refine ⟨?_, ?_, ack, clockNs, ?_, hack, ?_⟩
    · rw [Probe.closed, List.getElem?_set_self (by rw [h.sized.intended]; exact hcount), hdue]
      rfl
    · exact List.getElem?_set_self (by rw [h.sized.sent]; exact hcount)
    · exact List.mem_append_right _ (List.mem_singleton.mpr rfl)
    · exact List.getElem?_set_self (by rw [h.sized.done]; exact hcount)

/-- The ack of the timed command arrives: the command has its record. -/
theorem close (h : Good cfg s p₀ x notes past) (hconn : x.connected = true) {ack : OutMsg}
    {tag : Option ℕ} {rest : List (OutMsg × Option ℕ)} (hreports : x.reports = (ack, tag) :: rest)
    (hid : ack.clId = x.probe.pendingId) (clockNs : ℤ) (phase : Bool)
    (hphase : (x.probe.closed ack clockNs phase).finished = true ∨
      phase = if x.probe.mode = .react then x.probe.cancelPhase else !x.probe.cancelPhase) :
    ∃ past', past'.next = past.next ∧
      Good cfg s p₀
        { x with reports := rest, probe := x.probe.closed ack clockNs phase }
        (notes ++ Rig.arrivalOf (ack, tag) clockNs) past' := by
  obtain ⟨msg, serial, answered, rfl, hack, hrest, hanswered⟩ := h.heard hreports
  have hflight := h.flight
  rw [hanswered, List.cons_append] at hflight
  obtain ⟨hpend, hopen, hdue, ⟨huntimed, -⟩ | ⟨hcloses, hpipe, hopened⟩⟩ := hflight.of_cons
  · -- an order that is not timed has another id
    rw [hack.clId_eq, hpend, Option.some.injEq] at hid
    exact absurd hid huntimed.clId_ne
  obtain ⟨rfl, hcmds⟩ := List.append_eq_nil_iff.mp hpipe
  have hcount : x.probe.count < x.probe.total := by simpa [Probe.finished] using hopen
  have harrival : Rig.arrivalOf (ack, some serial) clockNs = [.arrived serial ack clockNs] := rfl
  have hserials := h.serials
  rw [hanswered, hcmds] at hserials
  refine ⟨{ past with
      answered := [], closed := past.closed ++ [⟨serial, msg, x.probe.pendingSentNs⟩]
      opened := [] }, rfl, ?_⟩
  rw [harrival]
  exact
    { inv := h.inv
      holds := h.holds
      admits := h.admits
      answers := hrest
      flight := by
        simp only [hcmds, List.append_nil]
        refine .ready rfl fun hgoes => ?_
        obtain rfl := hphase.resolve_left hgoes
        exact hcloses.ready hack clockNs
      serials := by
        simp only [hcmds, List.append_nil, List.map_nil, arrivals_append, arrivals_arrived]
        exact hserials
      timed_eq := by
        rw [timed_append, timed_arrived, h.timed_eq, hopened, List.append_nil]
      length_closed := by
        rw [List.length_append, h.length_closed]
        rfl
      issued_eq := by
        rw [List.append_nil, ← hopened]
        exact h.issued_eq
      recorded := h.recorded_close hcount hdue hack clockNs phase
      sized :=
        { intended := List.length_set.trans h.sized.intended
          sent := List.length_set.trans h.sized.sent
          done := List.length_set.trans h.sized.done
          count_le := hcount }
      args := ⟨h.args.1, h.args.2⟩
      fresh := fun hno => by simp [hconn] at hno
      accepted := fun k out hmem => by
        rcases List.mem_append.mp hmem with hmem | hmem
        · exact h.accepted k out hmem
        · cases List.mem_singleton.mp hmem }

/-- The ack of a command that is not timed arrives: the cycle goes on. -/
theorem ignore (h : Good cfg s p₀ x notes past) {ack : OutMsg} {tag : Option ℕ}
    {rest : List (OutMsg × Option ℕ)} (hreports : x.reports = (ack, tag) :: rest)
    (hid : ack.clId ≠ x.probe.pendingId) (clockNs : ℤ) :
    ∃ past', Good cfg s p₀ { x with reports := rest }
      (notes ++ Rig.arrivalOf (ack, tag) clockNs) past' := by
  obtain ⟨msg, serial, answered, rfl, hack, hrest, hanswered⟩ := h.heard hreports
  have hflight := h.flight
  have hserials := h.serials
  rw [hanswered, List.cons_append] at hflight hserials
  obtain ⟨hpend, -, -, ⟨-, hflight'⟩ | ⟨hcloses, -, -⟩⟩ := hflight.of_cons
  · have harrival : Rig.arrivalOf (ack, some serial) clockNs = [.arrived serial ack clockNs] := rfl
    refine ⟨{ past with answered }, ?_⟩
    rw [harrival]
    exact
      { h with
        answers := hrest
        flight := hflight'
        serials := by
          rw [arrivals_append, arrivals_arrived, List.append_assoc]
          exact hserials
        timed_eq := by
          rw [timed_append, timed_arrived, List.append_nil]
          exact h.timed_eq
        recorded := fun i c hc => (h.recorded i c hc).mono (List.subset_append_left _ _)
        accepted := fun k out hmem => by
          rcases List.mem_append.mp hmem with hmem | hmem
          · exact h.accepted k out hmem
          · cases List.mem_singleton.mp hmem }
  · refine absurd ?_ hid
    rw [hack.clId_eq, hpend, hcloses.clId_eq]

end Good

/-! ## What the methods do -/

/-- A probe that sends nothing only moves on. -/
theorem Rig.act_nil (x : Rig) (p : Probe) (clockNs : ℤ) :
    x.act (p, some []) clockNs = ({ x with probe := p }, []) := by
  simp [Rig.act]

/-- What a method returns replaces the probe. -/
theorem Rig.act_probe (x : Rig) (q : Probe) (r : Probe × Option (List InMsg)) (clockNs : ℤ) :
    ({ x with probe := q } : Rig).act r clockNs = x.act r clockNs := by
  obtain ⟨p, cmds⟩ := r
  cases cmds <;> rfl

/-- An ack for another order is ignored. -/
theorem Probe.onAck_of_ne {p : Probe} {ack : OutMsg} (h : ack.clId ≠ p.pendingId) (doneNs : ℤ) :
    p.onAck ack doneNs = (p, some []) :=
  if_pos (Or.inr h)

/-- The ack that is waited for closes its cycle. -/
theorem Probe.onAck_of_eq {p : Probe} {ack : OutMsg} {clId : Bytes} (hs : Sized p)
    (hcount : p.count < p.total) (hid : ack.clId = p.pendingId) (hpend : p.pendingId = some clId)
    (doneNs : ℤ) :
    p.onAck ack doneNs =
      if (p.closed ack doneNs p.cancelPhase).finished then
        ({ p.closed ack doneNs p.cancelPhase with done := true }, some [])
      else
        match p.mode with
        | .idle =>
          (((p.closed ack doneNs !p.cancelPhase).issue doneNs doneNs).1,
            some ((p.closed ack doneNs !p.cancelPhase).issue doneNs doneNs).2)
        | .paced => (p.closed ack doneNs !p.cancelPhase).paced doneNs
        | .react => (p.closed ack doneNs p.cancelPhase, some []) := by
  have hsome : ¬(ack.clId.isNone ∨ ack.clId ≠ p.pendingId) := by
    simp [hid, hpend]
  rw [Probe.onAck, if_neg (by simpa using hsome)]
  simp only [Probe.record, setItem, hs.intended, hs.sent, hs.done, if_pos hcount]
  rfl

namespace Good

/-- The probe returns no command. -/
private theorem nothing (h : Good cfg s p₀ x notes past) (clockNs : ℤ) :
    ∃ past', Good cfg s p₀ (x.act (x.probe, some []) clockNs).1
      (notes ++ (x.act (x.probe, some []) clockNs).2) past' := by
  rw [Rig.act_nil, List.append_nil]
  exact ⟨past, h⟩

/-- A new cycle is issued where none is pending. -/
private theorem issue (h : Good cfg s p₀ x notes past) (hconn : x.connected = true)
    (hpend : x.probe.pendingId = none) (hopen : ¬x.probe.finished = true)
    (hmode : x.probe.mode ≠ .react) {clockNs intendedNs : ℤ}
    (hdue : intendedNs = x.probe.dueNs x.probe.issued clockNs) :
    ∃ past', Good cfg s p₀
      (x.act ((x.probe.issue clockNs intendedNs).1, some (x.probe.issue clockNs intendedNs).2)
        clockNs).1
      (notes ++ (x.act ((x.probe.issue clockNs intendedNs).1,
        some (x.probe.issue clockNs intendedNs).2) clockNs).2) past' := by
  subst hdue
  obtain ⟨-, -, hready⟩ := h.flight.of_idle hpend
  obtain ⟨live, hl⟩ := (hready hopen).issue hmode clockNs
  exact h.launch hconn hpend hopen hl

/-- So at the pace of the timer. -/
private theorem paced (h : Good cfg s p₀ x notes past) (hconn : x.connected = true)
    (hopen : ¬x.probe.finished = true) (hmode : x.probe.mode = .paced) (clockNs : ℤ) :
    ∃ past', Good cfg s p₀ (x.act (x.probe.paced clockNs) clockNs).1
      (notes ++ (x.act (x.probe.paced clockNs) clockNs).2) past' := by
  rw [Probe.paced]
  split_ifs with hpend
  · exact h.nothing clockNs
  cases hperiod : x.probe.periodNs with
  | none =>
    refine ⟨past, ?_⟩
    simp only [Rig.act, List.append_nil]
    exact h.raised
  | some periodNs =>
    simp only
    split_ifs with hearly
    · exact h.nothing clockNs
    · refine h.issue hconn (by simpa using hpend) hopen (by simp [hmode]) ?_
      rw [Probe.dueNs, hmode, hperiod]

/-- So on a book. -/
private theorem react (h : Good cfg s p₀ x notes past) (hconn : x.connected = true)
    (hmode : x.probe.mode = .react) (clockNs : ℤ) :
    ∃ past', Good cfg s p₀
      (x.act ((x.probe.react clockNs).1, some (x.probe.react clockNs).2) clockNs).1
      (notes ++ (x.act ((x.probe.react clockNs).1, some (x.probe.react clockNs).2) clockNs).2)
      past' := by
  by_cases hidle : x.probe.pendingId.isSome ∨ x.probe.finished ∨ x.probe.epoch = 0
  · rw [Probe.react, if_pos hidle]
    exact h.nothing clockNs
  · push Not at hidle
    obtain ⟨hpend, hopen, hepoch⟩ := hidle
    have hpend' : x.probe.pendingId = none := by simpa using hpend
    obtain ⟨-, -, hready⟩ := h.flight.of_idle hpend'
    obtain ⟨live, hl⟩ := (hready hopen).react hmode hpend' hopen hepoch clockNs
    exact h.launch hconn hpend' hopen hl

/-- The timer keeps the rig good. -/
theorem timer (h : Good cfg s p₀ x notes past) (clockNs : ℤ) :
    ∃ past', Good cfg s p₀ (x.act (x.probe.onTimer clockNs) clockNs).1
      (notes ++ (x.act (x.probe.onTimer clockNs) clockNs).2) past' := by
  rw [Probe.onTimer]
  split_ifs with hquiet hpaced hpend
  · exact h.nothing clockNs
  · push Not at hquiet
    have hconn : x.connected = true := by
      by_contra hno
      exact hquiet.1 (h.fresh (by simpa using hno)).1
    exact h.paced hconn hquiet.2.1 hpaced clockNs
  · exact h.nothing clockNs
  · push Not at hquiet
    have hconn : x.connected = true := by
      by_contra hno
      exact hquiet.1 (h.fresh (by simpa using hno)).1
    exact h.issue hconn (by simpa using hpend) hquiet.2.1 hquiet.2.2 (Probe.dueNs_of_ne hpaced).symm

/-- So does a book that the probe reads. -/
theorem tob (h : Good cfg s p₀ x notes past) (books : List Book) (tob : Tob) (startNs clockNs : ℤ) :
    ∃ past', Good cfg s p₀
      (({ x with books } : Rig).deliver s (.tob tob) startNs clockNs).1
      (notes ++ (({ x with books } : Rig).deliver s (.tob tob) startNs clockNs).2) past' := by
  have hbooks : Good cfg s p₀ { x with books } notes past := { h with }
  obtain ⟨hgood, hconn⟩ := hbooks.connect startNs
  rw [Rig.deliver]
  generalize ({ x with books } : Rig).connect s startNs = y at hgood hconn
  have hnoted := hgood.congr hconn y.probe.epoch tob.mdSeq y.probe.done
  simp only [Probe.onReport, Probe.onBook]
  rw [← Rig.act_probe y { y.probe with mdSeq := tob.mdSeq }]
  split_ifs with hmode
  · exact hnoted.react hconn hmode clockNs
  · exact hnoted.nothing clockNs

/-- A report in flight is no first message. -/
private theorem connected_of_reports (h : Good cfg s p₀ x notes past) {report : OutMsg × Option ℕ}
    {rest : List (OutMsg × Option ℕ)} (hreports : x.reports = report :: rest) :
    x.connected = true := by
  by_contra hno
  obtain ⟨-, hpend, -, -⟩ := h.fresh (by simpa using hno)
  obtain ⟨hpipe, -, -⟩ := h.flight.of_idle hpend
  have hanswers := h.answers
  rw [(List.append_eq_nil_iff.mp hpipe).1, hreports] at hanswers
  cases hanswers

/-- The ack of the timed command: a record, and in idle and paced perhaps the next command. -/
private theorem settled (h : Good cfg s p₀ x notes past) (hconn : x.connected = true)
    {ack : OutMsg} {tag : Option ℕ} {rest : List (OutMsg × Option ℕ)}
    (hreports : x.reports = (ack, tag) :: rest) (hid : ack.clId = x.probe.pendingId)
    {clId : Bytes} (hpend : x.probe.pendingId = some clId)
    (hcount : x.probe.count < x.probe.total) (clockNs : ℤ) :
    ∃ past', Good cfg s p₀
      (({ x with reports := rest } : Rig).act (x.probe.onAck ack clockNs) clockNs).1
      (notes ++ (Rig.arrivalOf (ack, tag) clockNs ++
        (({ x with reports := rest } : Rig).act (x.probe.onAck ack clockNs) clockNs).2)) past' := by
  have hclose := h.close hconn hreports hid clockNs
  rw [Probe.onAck_of_eq h.sized hcount hid hpend, ← List.append_assoc]
  split_ifs with hfinished
  · obtain ⟨past', -, hgood⟩ := hclose x.probe.cancelPhase (Or.inl hfinished)
    have hdone := hgood.congr hconn x.probe.epoch x.probe.mdSeq true
    rw [Rig.act_nil, List.append_nil]
    exact ⟨past', hdone⟩
  have hopen : ∀ phase, ¬(x.probe.closed ack clockNs phase).finished = true := fun _ => hfinished
  cases hmode : x.probe.mode with
  | idle =>
    obtain ⟨past', -, hgood⟩ := hclose (!x.probe.cancelPhase) (Or.inr (by simp [hmode]))
    have hmode' : (x.probe.closed ack clockNs !x.probe.cancelPhase).mode ≠ .react := by
      simp [Probe.closed, Probe.settle, hmode]
    have hdue : clockNs = (x.probe.closed ack clockNs !x.probe.cancelPhase).dueNs
        (x.probe.closed ack clockNs !x.probe.cancelPhase).issued clockNs :=
      (Probe.dueNs_of_ne (by simp [Probe.closed, Probe.settle, hmode])).symm
    have hnext := hgood.issue hconn rfl (hopen _) hmode' hdue
    rw [Rig.act_probe { x with reports := rest }] at hnext
    exact hnext
  | paced =>
    obtain ⟨past', -, hgood⟩ := hclose (!x.probe.cancelPhase) (Or.inr (by simp [hmode]))
    have hnext := hgood.paced hconn (hopen _) (by simp [Probe.closed, Probe.settle, hmode]) clockNs
    rw [Rig.act_probe { x with reports := rest }] at hnext
    exact hnext
  | react =>
    obtain ⟨past', -, hgood⟩ := hclose x.probe.cancelPhase (Or.inr (by simp [hmode]))
    rw [Rig.act_nil, List.append_nil]
    exact ⟨past', hgood⟩

/-- So does an ack that it reads. -/
theorem report (h : Good cfg s p₀ x notes past) {ack : OutMsg} {tag : Option ℕ}
    {rest : List (OutMsg × Option ℕ)} (hreports : x.reports = (ack, tag) :: rest)
    (startNs clockNs : ℤ) :
    ∃ past', Good cfg s p₀ (({ x with reports := rest } : Rig).deliver s ack startNs clockNs).1
      (notes ++ (Rig.arrivalOf (ack, tag) clockNs ++
        (({ x with reports := rest } : Rig).deliver s ack startNs clockNs).2)) past' := by
  have hconn := h.connected_of_reports hreports
  obtain ⟨msg, serial, answered, -, hack, -, hanswered⟩ := h.heard hreports
  have hflight := h.flight
  rw [hanswered, List.cons_append] at hflight
  obtain ⟨hpend, hopen, -, -⟩ := hflight.of_cons
  have hcount : x.probe.count < x.probe.total := by simpa [Probe.finished] using hopen
  -- the engine answers with an ack, which is no tick and no reject
  have honReport : x.probe.onReport ack clockNs = x.probe.onAck ack clockNs := by
    cases msg <;> cases ack <;> first | exact hack.elim | rfl
  have hdeliver : ({ x with reports := rest } : Rig).deliver s ack startNs clockNs =
      ({ x with reports := rest } : Rig).act (x.probe.onAck ack clockNs) clockNs := by
    rw [Rig.deliver, Rig.connect, if_pos hconn]
    exact congrArg (fun r => ({ x with reports := rest } : Rig).act r clockNs) honReport
  rw [hdeliver]
  by_cases hid : ack.clId = x.probe.pendingId
  · exact h.settled hconn hreports hid hpend hcount clockNs
  · obtain ⟨past', hgood⟩ := h.ignore hreports hid clockNs
    rw [Probe.onAck_of_ne hid, Rig.act_nil, List.append_nil]
    exact ⟨past', hgood⟩

/-- One event keeps the invariant. -/
theorem step (h : Good cfg s p₀ x notes past) (hsuits : Suits cfg.inst) {ev : Rig.Event}
    (hfar : ev.IsFar) :
    ∃ past', Good cfg s p₀ (Rig.step cfg s x ev).1 (notes ++ (Rig.step cfg s x ev).2) past' := by
  have hsame : ∃ past', Good cfg s p₀ x (notes ++ []) past' := by
    rw [List.append_nil]
    exact ⟨past, h⟩
  cases ev with
  | book book =>
    simp only [Rig.step]
    split_ifs with hfresh
    · rw [List.append_nil]
      exact ⟨past, h.book hfresh hfar (x.books ++ [book])⟩
    · exact hsame
  | other c =>
    simp only [Rig.step]
    split_ifs with hother
    · rw [List.append_nil]
      exact ⟨past, h.other hother⟩
    · exact hsame
  | command =>
    simp only [Rig.step]
    rcases hcmds : x.commands with _ | ⟨⟨msg, serial⟩, rest⟩
    · exact hsame
    · exact h.command hsuits hcmds
  | report startNs clockNs =>
    simp only [Rig.step]
    split_ifs with hraised
    · exact hsame
    · rcases hreports : x.reports with _ | ⟨⟨ack, tag⟩, rest⟩
      · exact hsame
      · exact h.report hreports startNs clockNs
  | tob conflated startNs clockNs =>
    simp only [Rig.step]
    split_ifs with hraised
    · exact hsame
    · rcases hbooks : x.books.drop conflated with _ | ⟨book, rest⟩
      · exact hsame
      · exact h.tob rest _ startNs clockNs
  | timer clockNs =>
    simp only [Rig.step]
    split_ifs with hraised
    · exact hsame
    · exact h.timer clockNs

/-- One cycle at most is open. -/
theorem length_opened (h : Good cfg s p₀ x notes past) : past.opened.length ≤ 1 := by
  have hflight := h.flight
  generalize past.answered ++ x.commands = pipe at hflight
  generalize past.opened = opened at hflight ⊢
  cases hflight with
  | ready _ _ => exact Nat.zero_le 1
  | waiting _ _ _ _ _ => exact le_rfl

/-- A command that has a record has been acked. -/
theorem mem_arrivals (h : Good cfg s p₀ x notes past) {c : TimedCommand} (hc : c ∈ past.closed) :
    c.serial ∈ arrivals notes := by
  obtain ⟨i, hi⟩ := List.mem_iff_getElem?.mp hc
  obtain ⟨ack, doneNs, hmem, -, -⟩ := (h.recorded i c hi).done
  exact List.mem_filterMap.mpr ⟨_, hmem, rfl⟩

/-- So one timed command at most is outstanding. -/
theorem length_outstanding (h : Good cfg s p₀ x notes past) :
    (outstanding p₀.mode notes).length ≤ 1 := by
  have hclosed : (past.closed.filter fun c => decide (c.serial ∉ arrivals notes)) = [] := by
    rw [List.filter_eq_nil_iff]
    intro c hc
    simp [h.mem_arrivals hc]
  rw [outstanding, h.timed_eq, List.filter_append, hclosed, List.nil_append]
  exact (List.length_filter_le _ _).trans h.length_opened

/-- No answer arrives twice. -/
theorem nodup_arrivals (h : Good cfg s p₀ x notes past) : (arrivals notes).Nodup := by
  have hall : (arrivals notes ++ (past.answered ++ x.commands).map Prod.snd).Nodup := by
    rw [h.serials]
    exact List.nodup_range
  exact hall.of_append_left

end Good

/-- What holds of every run of a probe. -/
theorem good_run {mode : Mode} {total : ℤ} {periodNs : Option ℕ} {probe : Probe}
    (hprobe : Probe.new mode total periodNs = some probe) (hsuits : Suits cfg.inst) (s : ℕ)
    {events : List Rig.Event} (hfar : ∀ ev ∈ events, ev.IsFar) :
    ∃ past, Good cfg s probe (Rig.run cfg s probe events).1
      (observed (Rig.run cfg s probe events).2) past := by
  refine Mealy.run_induct_along (Rig.step cfg s)
    (P := fun x history => ∃ past, Good cfg s probe x (observed history) past)
    ⟨{}, Good.init hprobe cfg s⟩ (fun x history ev hev hgood => ?_)
    (Mealy.along_of_forall (Rig.step cfg s) hfar _)
  obtain ⟨past, hgood⟩ := hgood
  have hobserved : observed (history ++ [(ev, (Rig.step cfg s x ev).2)]) =
      observed history ++ (Rig.step cfg s x ev).2 := by
    simp [observed]
  rw [hobserved]
  exact hgood.step hsuits hev

/-- The engine accepts every command of a probe, of which at most one rests and at most one timed
one is outstanding; and each record is the one of its own command. -/
theorem Rig.run_attributed (cfg : EngineConfig) (s : ℕ) {mode : Mode} {total : ℤ}
    {periodNs : Option ℕ} {probe : Probe} (hprobe : Probe.new mode total periodNs = some probe)
    (hsuits : Suits cfg.inst) {events : List Event} (hfar : ∀ ev ∈ events, ev.IsFar) :
    let x := (run cfg s probe events).1
    let notes := observed (run cfg s probe events).2
    (∀ serial out, .answered serial out ∈ notes → ∃ ack, out = [ack] ∧ ∀ m, ack ≠ .reject m) ∧
      x.engine.liveTotal s ≤ 1 ∧ (outstanding mode notes).length ≤ 1 ∧
      (x.probe.count : ℤ) ≤ total ∧ (arrivals notes).Nodup ∧
      ∀ i < x.probe.count, ∃ c, (timed mode notes)[i]? = some c ∧ Recorded x.probe notes i c := by
  obtain ⟨past, h⟩ := good_run hprobe hsuits s hfar
  obtain ⟨hpos, rfl⟩ : 0 < total ∧ probe =
      { mode, total := total.toNat, periodNs, intendedNs := List.replicate total.toNat 0
        sentNs := List.replicate total.toNat 0, doneNs := List.replicate total.toNat 0 } := by
    unfold Probe.new at hprobe
    split_ifs at hprobe with hle
    exact ⟨not_le.mp hle, (Option.some.inj hprobe).symm⟩
  refine ⟨h.accepted, h.holds.liveTotal_le_one, h.length_outstanding, ?_, h.nodup_arrivals,
    fun i hi => ?_⟩
  · have htotal := h.args.total
    have hle := h.sized.count_le
    simp only at htotal
    omega
  · rw [← h.length_closed] at hi
    obtain ⟨c, hc⟩ : ∃ c, past.closed[i]? = some c := ⟨_, List.getElem?_eq_getElem hi⟩
    refine ⟨c, ?_, h.recorded i c hc⟩
    have htimed := h.timed_eq
    simp only at htimed
    rw [htimed, List.getElem?_append_left hi]
    exact hc

/-- Two cycles of a paced run: the second command is due before the first is acked. -/
def pacing : List Rig.Event :=
  [.book { bidPx := 9995, bidQty := 10, askPx := 10005, askQty := 10, mdSeq := 1 }, .tob 0 5 6,
    .timer 10, .command, .report 0 20, .timer 25, .command, .report 0 30]

def pacedProbe : Probe :=
  { mode := .paced, total := 2, periodNs := some 5, intendedNs := [0, 0], sentNs := [0, 0]
    doneNs := [0, 0] }

theorem Rig.run_attributed_pacing :
    let x := (run specConfig 1 pacedProbe pacing).1
    let notes := observed (run specConfig 1 pacedProbe pacing).2
    (x.probe.intendedNs, x.probe.sentNs, x.probe.doneNs) = ([5, 10], [10, 20], [20, 30]) ∧
    (∀ serial out, .answered serial out ∈ notes → ∃ ack, out = [ack] ∧ ∀ m, ack ≠ .reject m) ∧
      x.engine.liveTotal 1 ≤ 1 ∧ (outstanding .paced notes).length ≤ 1 ∧
      (x.probe.count : ℤ) ≤ 2 ∧ (arrivals notes).Nodup ∧
      ∀ i < x.probe.count, ∃ c, (timed .paced notes)[i]? = some c ∧ Recorded x.probe notes i c :=
  ⟨by decide +kernel,
    Rig.run_attributed specConfig 1 (by rfl) ⟨by decide +kernel, by decide⟩ (by decide)⟩

end Harness

end MarketMaker
