import MarketMaker.Server.Run
import MarketMaker.Server.Stream

/-!
# What the server guarantees

The invariants of the net, read back on the server: for every clock, every configuration and every
sequence of completions. `run_steps` is the bridge; everything else is one of the invariants of
`Server.Invariant` and `Server.Stream` at the lines of a run.
-/

namespace MarketMaker

open OrderEngine (Call)

/-! ## The history of engine calls -/

/-- The call reports no fill. -/
def NoFill (c : Call × List Routed) : Prop := ∀ r ∈ c.2, ∀ fill, r.msg ≠ .fill fill

/-- The hub made some more calls, none of which reports a fill. -/
def Hub.Extends (h h' : Hub) : Prop := ∃ new, h'.calls = h.calls ++ new ∧ ∀ c ∈ new, NoFill c

theorem Hub.Extends.refl (h : Hub) : h.Extends h := ⟨[], by simp, by simp⟩

theorem Hub.Extends.trans {h h' h'' : Hub} (first : h.Extends h') (second : h'.Extends h'') :
    h.Extends h'' := by
  obtain ⟨new, heq, hnew⟩ := first
  obtain ⟨new', heq', hnew'⟩ := second
  refine ⟨new ++ new', by rw [heq', heq, List.append_assoc], fun c hc => ?_⟩
  exact (List.mem_append.mp hc).elim (hnew c) (hnew' c)

section History

variable {cfg : ServerConfig} {codec : Codec} {v v' : View} {n n' : Net}

/-- Only a book reports fills. -/
theorem noFill_step (e : OrderEngine) {c : Call} (hc : ∀ book, c ≠ .onBook book) :
    NoFill (c, (OrderEngine.step cfg.engine e c).2) := by
  intro r hr fill hfill
  cases c with
  | onNew session order =>
    have hspec := OrderEngine.onNew_spec cfg.engine e session order
    simp only [OrderEngine.step, OrderEngine.routeTo, List.mem_map] at hr
    obtain ⟨m, hm, rfl⟩ := hr
    generalize OrderEngine.onNew cfg.engine e session order = out at hspec hm
    cases hspec with
    | duplicate _ => simp_all
    | rejected _ _ _ => simp_all [OrderEngine.recordReject]
    | accepted _ _ _ _ _ => simp_all [OrderEngine.recordAccept]
  | onCancel session cancel =>
    have hspec := OrderEngine.onCancel_spec e session cancel
    simp only [OrderEngine.step, OrderEngine.routeTo, List.mem_map] at hr
    obtain ⟨m, hm, rfl⟩ := hr
    generalize OrderEngine.onCancel e session cancel = out at hspec hm
    cases hspec with
    | unknown _ => simp_all
    | terminal _ _ => simp_all
    | cancelled _ _ => simp_all [OrderEngine.recordCancel]
  | onBook book => exact hc book rfl
  | endSession session =>
    simp only [OrderEngine.step, OrderEngine.routeTo, OrderEngine.endSession, List.mem_map,
      OrderEngine.sessionAcks, List.mem_filterMap] at hr
    obtain ⟨m, ⟨p, -, hp⟩, rfl⟩ := hr
    split_ifs at hp
    cases hp
    cases hfill

theorem Hub.extends_call (h : Hub) {c : Call} (hc : ∀ book, c ≠ .onBook book) :
    h.Extends (h.call cfg c) :=
  ⟨_, rfl, fun c' hc' => by rw [List.mem_singleton.mp hc']; exact noFill_step h.engine hc⟩

private theorem extends_retire (v : View) : v.hub.Extends (v.retire cfg).hub := by
  unfold View.retire
  split_ifs
  · exact Hub.Extends.refl _
  · exact Hub.extends_call _ (by simp)

private theorem extends_drain (h : Drain cfg codec v v') : v.hub.Extends v'.hub := by
  cases h with
  | latch code _ _ => exact extends_retire _
  | write _ _ _ _ _ => exact Hub.Extends.refl _
  | lose _ _ => exact Hub.Extends.refl _
  | discard _ _ => exact Hub.Extends.refl _
  | sendClose _ _ _ => exact Hub.Extends.refl _

private theorem extends_drains (h : Drains cfg codec v v') : v.hub.Extends v'.hub := by
  induction h with
  | refl => exact Hub.Extends.refl _
  | tail _ hlast ih => exact ih.trans (extends_drain hlast)

private theorem extends_act (h : Act cfg codec v v') : v.hub.Extends v'.hub := by
  cases h with
  | drain hdrain => exact extends_drain hdrain
  | enqueue _ hchecked _ =>
    have hextends := extends_drains hchecked
    exact hextends
  | serve _ _ hown =>
    refine Hub.extends_call _ fun book hbook => ?_
    rcases hown with ⟨_, rfl⟩ | ⟨_, rfl⟩ <;> cases hbook
  | tick _ _ _ _ => exact Hub.Extends.refl _
  | written => exact Hub.Extends.refl _
  | tearDown code _ => exact extends_retire _

/-- Moves add no fill to the history. -/
theorem extends_moves (h : Moves cfg codec n n') : n.hub.Extends n'.hub := by
  induction h with
  | refl => exact Hub.Extends.refl _
  | tail _ hlast ih =>
    refine ih.trans ?_
    cases hlast with
    | act _ _ hact => exact extends_act hact
    | create => exact Hub.Extends.refl _
    | start _ => exact Hub.Extends.refl _

/-- A line that has an epoch keeps it. -/
theorem epoch_move (h : Move cfg codec n n') {i : ℕ} {l : Line} (hl : n.lines[i]? = some l)
    (hstarted : l.epoch ≠ 0) : ∃ l', n'.lines[i]? = some l' ∧ l'.epoch = l.epoch := by
  have hlt : i < n.lines.length := (List.getElem?_eq_some_iff.mp hl).1
  cases h with
  | @act j l₀ v hfound _ hact =>
    by_cases hij : j = i
    · subst hij
      cases hl.symm.trans hfound
      exact ⟨v.line, List.getElem?_set_self hlt, epoch_act hact⟩
    · exact ⟨l, (List.getElem?_set_ne hij).trans hl, rfl⟩
  | create => exact ⟨l, (List.getElem?_append_left hlt).trans hl, rfl⟩
  | @start j hfound =>
    have hij : j ≠ i := by
      rintro rfl
      cases hl.symm.trans hfound
      exact hstarted rfl
    exact ⟨l, (List.getElem?_set_ne hij).trans hl, rfl⟩

/-- Along a run the history of calls only grows, and epochs stay. -/
theorem grows_netSteps (h : NetSteps cfg codec n n') :
    n.hub.calls <+: n'.hub.calls ∧ ∀ (i : ℕ) l, n.lines[i]? = some l → l.epoch ≠ 0 →
      ∃ l', n'.lines[i]? = some l' ∧ l'.epoch = l.epoch := by
  induction h with
  | refl => exact ⟨List.prefix_refl _, fun i l hl _ => ⟨l, hl, rfl⟩⟩
  | tail _ hlast ih =>
    cases hlast with
    | move hmove =>
      obtain ⟨new, hnew, -⟩ := extends_moves (.single hmove)
      refine ⟨ih.1.trans (hnew ▸ List.prefix_append _ _), fun i l hl hne => ?_⟩
      obtain ⟨l₁, hl₁, hepoch⟩ := ih.2 i l hl hne
      obtain ⟨l', hl', hepoch'⟩ := epoch_move hmove hl₁ (hepoch ▸ hne)
      exact ⟨l', hl', hepoch'.trans hepoch⟩
    | publish _ => exact ⟨ih.1.trans (List.prefix_append _ _), ih.2⟩

end History

/-! ## Runs -/

namespace World

variable {cfg : ServerConfig} {codec : Codec} {w : World}

/-- A turn is a sequence of steps of the net. -/
theorem Inv.step_netSteps (h : w.Inv cfg) (codec : Codec) (event : Event) :
    NetSteps cfg codec w.net (w.step cfg codec event).net ∧ (w.step cfg codec event).Inv cfg := by
  rcases h.step codec event with ⟨hmoves, hinv⟩ | ⟨index, bidPx, bidQty, askPx, askQty, heq⟩
  · exact ⟨Relation.ReflTransGen.mono (fun _ _ hm => NetStep.move hm) _ _ hmoves, hinv⟩
  · obtain ⟨hnet, hfed⟩ := h.gauges { w with srv := { w.srv with feedIndex := index } } rfl rfl
      fun _ _ hij => hij
    obtain ⟨w', hpublished, hmoves, hinv, -⟩ :=
      hfed.publishBook codec bidPx bidQty askPx askQty
    rw [heq, hpublished]
    have hbook : (w.bookOf bidPx bidQty askPx askQty).mdSeq = w.net.hub.nextMdSeq + 1 := rfl
    refine ⟨.head (.publish hbook) ?_, hinv⟩
    exact Relation.ReflTransGen.mono (fun _ _ hm => NetStep.move hm) _ _ hmoves

theorem Inv.foldl_step (h : w.Inv cfg) (codec : Codec) (events : List Event) :
    NetSteps cfg codec w.net (events.foldl (World.step cfg codec) w).net ∧
      (events.foldl (World.step cfg codec) w).Inv cfg := by
  induction events generalizing w with
  | nil => exact ⟨.refl, h⟩
  | cons event events ih =>
    obtain ⟨hfirst, hinv⟩ := h.step_netSteps codec event
    obtain ⟨hrest, hfinal⟩ := ih hinv
    exact ⟨hfirst.trans hrest, hfinal⟩

/-- The state after any run of turns is reached by steps of the net, and satisfies the invariant. -/
theorem run_steps (cfg : ServerConfig) (codec : Codec) (clock : ℕ → ℤ) (events : List Event) :
    NetSteps cfg codec {} (run cfg codec clock events).net ∧ (run cfg codec clock events).Inv cfg :=
  (inv_init cfg clock).foldl_step codec events

/-- The line invariants of `Server.Stream`, for every session of a run. -/
theorem run_ordered (cfg : ServerConfig) (htotal : codec.Total) (clock : ℕ → ℤ)
    (events : List Event) {x : Session} (hx : x ∈ (run cfg codec clock events).heap) :
    x.line.Ordered cfg := by
  have hlines : ∀ l ∈ (run cfg codec clock events).net.lines, l.Sound cfg ∧ l.Ordered cfg := by
    refine (run_steps cfg codec clock events).1.forall_line ?_ ?_ ?_
    · exact fun epoch => ⟨sound_fresh cfg epoch, Line.Ordered.fresh cfg epoch⟩
    · exact fun v v' hact h => ⟨sound_act hact h.1, h.2.act hact htotal h.1⟩
    · exact fun l hl => by cases hl
  exact (hlines x.line (List.mem_map_of_mem hx)).2

/-! ## The outbound stream -/

/-- Frames are numbered from one and carry the epoch; the reports written are a prefix of those
queued, the rest is in the outbox with the service times of its acks; ticks increase; and a tick is
written after every fill of its book and of earlier ones. -/
theorem run_stream (cfg : ServerConfig) (codec : Codec) (htotal : codec.Total) (clock : ℕ → ℤ)
    (events : List Event) (x : Session) (hx : x ∈ (run cfg codec clock events).heap) :
    (framesIn x.log).map OutMsg.seq = List.range' 1 (framesIn x.log).length ∧
      (∀ frame ∈ framesIn x.log, frame.epoch = x.epoch) ∧
      (∃ done queued, enqueuedIn x.log = done ++ queued ∧
        List.Forall₂ (Carries x.epoch) done (reportsIn x.log) ∧
        queued.map Prod.fst = x.outbox.reports ∧ x.pendingSvc = queued.filterMap View.svcOf ∧
        ∀ p ∈ done ++ queued, Answers p.1 p.2) ∧
      (tobsIn x.log).Pairwise (· < ·) ∧
      ∀ pre tob post, x.log = pre ++ .wrote (.tob tob) :: post →
        List.Forall₂ (Carries x.epoch) (enqueuedIn pre) (reportsIn pre) ∧
          ∀ p ∈ enqueuedIn post, ∀ k, p.2 = .book k → tob.mdSeq < k := by
  have hord := run_ordered cfg htotal clock events hx
  obtain ⟨done, queued, hstream⟩ := hord.streams
  refine ⟨hstream.numbered, hstream.epochs, ⟨done, queued, hstream.enqueued, hstream.carried,
    hstream.reports, hstream.pending, hstream.answers⟩, hord.ticking.sorted,
    fun pre tob post hlog => ⟨hord.ticking.before pre tob post hlog, fun p hp k hk => ?_⟩⟩
  -- what was queued after the tick comes from a later book
  obtain ⟨entry, hentry, hqueued⟩ := List.mem_filterMap.mp hp
  obtain ⟨msg, cause, q, rfl⟩ : ∃ msg cause q, entry = .enqueued msg cause q := by
    cases entry with
    | enqueued msg cause q => exact ⟨msg, cause, q, rfl⟩
    | _ => cases hqueued
  cases hqueued
  cases hk
  have hafter := hord.ticking.after
  change x.log.Pairwise _ at hafter
  rw [hlog] at hafter
  have htail := (List.pairwise_append.mp hafter).2.1
  exact (List.pairwise_cons.mp htail).1 _ hentry tob msg k q rfl rfl

/-- A server whose feed publishes one book and then drops every session. -/
def dropConfig : ServerConfig where
  engine := specConfig
  reportHwm := 4
  maxSessions := 2
  telemetryVerbose := false
  loopFeed := false
  feed := [.set 95 10 100 10, .drop]
  reportHwm_pos := by decide
  maxSessions_pos := by decide

/-- A codec that knows one order. -/
def dropCodec : Codec where
  decode frame :=
    if frame = [1] then
      .ok (.newOrder
        { seq := 1, epoch := 1, clId := ascii "a", symbol := ascii "MOCKUSDT", side := ascii "B",
          px := 100, qty := 10, postOnly := false })
    else .error ⟨.malformed, []⟩
  encode _ := [0]

/-- A session is opened, its order is acked and filled, and it is closed with the fill queued. -/
def dropEvents : List Event :=
  [.accept true, .upgradeRequest 0 (some ⟨true, true, false⟩), .handshake 0 true,
    .read 0 (.text [1]), .feed, .feed, .write 0 .ok, .write 0 .ok]

theorem dropCodec_total : dropCodec.Total := fun _ => List.cons_ne_nil _ _

theorem run_stream_drop :
    ∃ x ∈ (run dropConfig dropCodec (fun n => 5 * n) dropEvents).heap,
      (framesIn x.log).length = 2 ∧
        (framesIn x.log).map OutMsg.seq = List.range' 1 (framesIn x.log).length := by
  have hrun : ∃ x ∈ (run dropConfig dropCodec (fun n => 5 * n) dropEvents).heap,
      (framesIn x.log).length = 2 := by decide
  obtain ⟨x, hx, hframes⟩ := hrun
  exact ⟨x, hx, hframes, (run_stream dropConfig dropCodec dropCodec_total _ dropEvents x hx).1⟩

/-! ## Closing -/

/-- A close that drains sends its frame after every queued report was written; no tick is written
after the close is latched, and nothing after its frame. -/
theorem run_policyClose (cfg : ServerConfig) (codec : Codec) (htotal : codec.Total)
    (clock : ℕ → ℤ) (events : List Event) (x : Session)
    (hx : x ∈ (run cfg codec clock events).heap) (code : CloseCode)
    (hcode : code = .policyError ∨ code = .goingAway) (hlatched : .latched code ∈ x.log) :
    (∀ pre post, x.log = pre ++ .latched code :: post →
        ∀ frame ∈ framesIn post, frame.isTob = false) ∧
      ∀ pre post, x.log = pre ++ .closeFrame :: post →
        List.Forall₂ (Carries x.epoch) (enqueuedIn x.log) (reportsIn pre) ∧
          framesIn post = [] := by
  have hord := run_ordered cfg htotal clock events hx
  have hcloses := hord.closes
  obtain ⟨hclosing, hcloseCode⟩ := hcloses.latched code hlatched
  refine ⟨fun pre post hlog frame hframe => ?_, fun pre post hlog => ?_⟩
  · obtain ⟨entry, hentry, hwrote⟩ := List.mem_filterMap.mp hframe
    obtain rfl : entry = .wrote frame := by
      cases entry with
      | wrote frame' =>
        cases hwrote
        rfl
      | _ => cases hwrote
    have hnoTob := hcloses.noTob
    change x.log.Pairwise _ at hnoTob
    rw [hlog] at hnoTob
    have htail := (List.pairwise_append.mp hnoTob).2.1
    exact (List.pairwise_cons.mp htail).1 _ hentry code frame rfl rfl
  · have hlast := hcloses.last
    change x.log.Pairwise _ at hlast
    rw [hlog] at hlast
    have htail := (List.pairwise_cons.mp (List.pairwise_append.mp hlast).2.1).1
    have hpost : framesIn post = [] := by
      refine List.filterMap_eq_nil_iff.mpr fun entry hentry => ?_
      cases entry with
      | wrote frame => exact absurd rfl ((htail _ hentry rfl).1 frame)
      | _ => rfl
    refine ⟨?_, hpost⟩
    -- the frame was sent with nothing left to write
    have hsent : x.closeFrameSent = true :=
      (hcloses.sent (by rw [show x.line.log = x.log from rfl, hlog]; simp)).1
    have hdrain : x.drainThenClose = true := by
      refine (hcloses.drains hclosing).trans ?_
      rw [hcloseCode]
      rcases hcode with rfl | rfl <;> rfl
    have hempty : x.outbox.reports = [] := hcloses.drained hsent hdrain
    obtain ⟨done, queued, hstream⟩ := hord.streams
    have hqueued : queued = [] := List.map_eq_nil_iff.mp (hstream.reports.trans hempty)
    have henqueued : enqueuedIn x.log = done := by
      rw [show enqueuedIn x.log = done ++ queued from hstream.enqueued, hqueued, List.append_nil]
    have hreports : reportsIn x.log = reportsIn pre := by
      have hframes : framesIn (.closeFrame :: post) = [] := hpost
      rw [hlog, reportsIn_append, reportsIn, reportsIn, hframes, List.filter_nil, List.append_nil]
    rw [henqueued, ← hreports]
    exact hstream.carried

theorem run_policyClose_drop :
    ∃ x ∈ (run dropConfig dropCodec (fun n => 5 * n) dropEvents).heap,
      .latched .goingAway ∈ x.log ∧ .closeFrame ∈ x.log ∧ (enqueuedIn x.log).length = 2 ∧
        ∀ pre post, x.log = pre ++ .closeFrame :: post →
          List.Forall₂ (Carries x.epoch) (enqueuedIn x.log) (reportsIn pre) ∧
            framesIn post = [] := by
  have hrun : ∃ x ∈ (run dropConfig dropCodec (fun n => 5 * n) dropEvents).heap,
      .latched .goingAway ∈ x.log ∧ .closeFrame ∈ x.log ∧ (enqueuedIn x.log).length = 2 := by
    decide
  obtain ⟨x, hx, hlatched, hsent, hqueued⟩ := hrun
  exact ⟨x, hx, hlatched, hsent, hqueued, (run_policyClose dropConfig dropCodec dropCodec_total _
    dropEvents x hx .goingAway (Or.inr rfl) hlatched).2⟩

/-! ## The backlog -/

/-- However slowly a peer reads, its outbox never holds more than the mark plus a batch, and
between turns a session that is not closing is within the mark. -/
theorem run_backlog (cfg : ServerConfig) (codec : Codec) (clock : ℕ → ℤ) (events : List Event) :
    ∀ x ∈ (run cfg codec clock events).heap,
      x.outbox.reports.length ≤ cfg.reportHwm + max 1 cfg.engine.inst.maxLiveOrders.toNat ∧
      (∀ msg cause queued, .enqueued msg cause queued ∈ x.log →
        queued ≤ cfg.reportHwm + max 1 cfg.engine.inst.maxLiveOrders.toNat) ∧
      (x.closing = false → x.outbox.reports.length ≤ cfg.reportHwm) := by
  intro x hx
  have hsound := (run_steps cfg codec clock events).2.sound hx
  refine ⟨hsound.backlog, hsound.queued, fun hc => hsound.unbreached ?_⟩
  by_contra hbreach
  have hclosing : x.closing = true := hsound.settled (Bool.eq_true_of_not_eq_false hbreach)
  rw [hc] at hclosing
  cases hclosing

theorem run_backlog_drop :
    ∃ x ∈ (run dropConfig dropCodec (fun n => 5 * n) dropEvents).heap,
      ¬enqueuedIn x.log = [] ∧ ∀ msg cause queued, .enqueued msg cause queued ∈ x.log →
        queued ≤ dropConfig.reportHwm + max 1 dropConfig.engine.inst.maxLiveOrders.toNat := by
  have hrun : ∃ x ∈ (run dropConfig dropCodec (fun n => 5 * n) dropEvents).heap,
      ¬enqueuedIn x.log = [] := by decide
  obtain ⟨x, hx, hqueued⟩ := hrun
  exact ⟨x, hx, hqueued, (run_backlog dropConfig dropCodec _ dropEvents x hx).2.1⟩

/-! ## Cancel on disconnect -/

/-- Every stored order belongs to a session of the map that takes commands. -/
theorem Inv.owner (h : w.Inv cfg) (key : OrderKey) (ord : Order)
    (hord : w.srv.engine.orders.find? key = some ord) :
    ∃ i x, w.srv.sessions.find? key.session = some i ∧ w.heap[i]? = some x ∧
      x.epoch = key.session ∧ x.closing = false ∧ x.tornDown = false := by
  obtain ⟨hne, i, row, hrow, hepoch, hlive⟩ := h.net.roster.owned key ord hord
  simp only [World.net, List.map_map, List.getElem?_map, Option.map_eq_some_iff] at hrow
  obtain ⟨x, hx, rfl⟩ := hrow
  obtain ⟨hc, hup⟩ : x.closing = false ∧ x.tornDown = false := by
    have hretired := (h.sound (List.mem_of_getElem? hx)).retired.symm.trans hlive
    simpa [Session.line] using hretired
  exact ⟨i, x, h.mapped.mpr ⟨hne, x, hx, hepoch, hup⟩, hx, hepoch, hc, hup⟩

/-- A retired epoch has nothing stored. -/
theorem Inv.reaped (h : w.Inv cfg) {x : Session} (hx : x ∈ w.heap) (hstarted : x.epoch ≠ 0)
    (hleft : x.closing = true ∨ x.tornDown = true) :
    .endSession x.epoch ∈ w.srv.calls.map Prod.fst ∧
      (∀ key ord, w.srv.engine.orders.find? key = some ord → key.session ≠ x.epoch) ∧
      w.srv.engine.entryCount x.epoch = 0 ∧ w.srv.engine.liveCount x.epoch = 0 := by
  obtain ⟨i, hi⟩ := List.getElem?_of_mem hx
  have hengine : OrderEngine.Inv cfg.engine w.srv.engine := h.net.roster.engineInv
  have hretired : x.epochRetired = true := by
    refine (h.sound hx).retired.trans ?_
    rcases hleft with hc | hdown <;> simp [Session.line, *]
  have hnone : ∀ key ord, w.srv.engine.orders.find? key = some ord → key.session ≠ x.epoch := by
    intro key ord hord hsession
    obtain ⟨-, j, row, hrow, hepoch, hlive⟩ := h.net.roster.owned key ord hord
    -- the owner would be the retired session itself
    have hij : i = j := h.net.roster.epoch_inj i j x.line.row row (Inv.row hi) hrow hstarted
      (hsession.symm.trans hepoch.symm)
    subst hij
    cases (Inv.row hi).symm.trans hrow
    rw [show x.line.row.retired = true from hretired] at hlive
    cases hlive
  refine ⟨?_, hnone, ?_, ?_⟩
  · exact (h.net.roster.ended x.epoch).mpr ⟨hstarted, i, x.line.row, Inv.row hi, rfl, hretired⟩
  · exact hengine.entryCount_eq_zero hnone
  · rw [OrderEngine.liveCount_eq hengine.indexed, OrderEngine.liveTotal,
      OrderedMap.count_eq_zero_iff]
    intro key ord hord
    simp [hnone key ord hord]

/-- In a silent history no epoch is ended twice. -/
private theorem count_endSession_le {calls : List (Call × List Routed)}
    (h : calls.Pairwise fun a b => ∀ e, a.1 = .endSession e → ¬Involves e b) (e : ℕ) :
    (calls.map Prod.fst).count (.endSession e) ≤ 1 := by
  induction calls with
  | nil => simp
  | cons c calls ih =>
    rw [List.pairwise_cons] at h
    rw [List.map_cons, List.count_cons]
    split_ifs with hc
    · -- after the first call that ends the epoch there is none
      have hend : c.1 = .endSession e := by simpa using hc
      have hnone : Call.endSession e ∉ calls.map Prod.fst := by
        intro hmem
        obtain ⟨b, hb, hbe⟩ := List.mem_map.mp hmem
        exact h.1 b hb e hend (Or.inr (Or.inr (Or.inl hbe)))
      rw [List.count_eq_zero_of_not_mem hnone]
    · exact ih h.2

/-- The fills of a turn are queued for sessions of the map. -/
theorem Inv.fills_delivered (h : w.Inv cfg) (codec : Codec) (event : Event) :
    ∃ new, (w.step cfg codec event).srv.calls = w.srv.calls ++ new ∧
      ∀ c ∈ new, ∀ r ∈ c.2, ∀ fill, r.msg = .fill fill →
        ∃ book i x x', c.1 = .onBook book ∧ w.srv.sessions.find? r.session = some i ∧
          (w.step cfg codec event).srv.sessions.find? r.session = some i ∧
          w.heap[i]? = some x ∧ (w.step cfg codec event).heap[i]? = some x' ∧
          enqueuedIn x'.log = enqueuedIn x.log ++
            (OrderEngine.reportsTo r.session c.2).map fun msg => (msg, .book book.mdSeq) := by
  rcases h.step codec event with ⟨hmoves, -⟩ | ⟨index, bidPx, bidQty, askPx, askQty, heq⟩
  · obtain ⟨new, hnew, hnoFill⟩ := extends_moves hmoves
    exact ⟨new, hnew, fun c hc r hr fill hfill => absurd hfill (hnoFill c hc r hr fill)⟩
  · obtain ⟨-, hfed⟩ := h.gauges { w with srv := { w.srv with feedIndex := index } } rfl rfl
      fun _ _ hij => hij
    obtain ⟨w', hpublished, hmoves, -, hsessions, hqueued⟩ :=
      hfed.publishBook codec bidPx bidQty askPx askQty
    obtain ⟨new, hnew, hnoFill⟩ := extends_moves hmoves
    let book := w.bookOf bidPx bidQty askPx askQty
    let out := (OrderEngine.step cfg.engine w.srv.engine (.onBook book)).2
    rw [heq, hpublished]
    refine ⟨(.onBook book, out) :: new, ?_, fun c hc r hr fill hfill => ?_⟩
    · change w'.net.hub.calls = _
      rw [hnew]
      exact List.append_assoc w.srv.calls [(.onBook book, out)] new
    rcases List.mem_cons.mp hc with rfl | hlater
    · -- the filled order's session is in the map
      obtain ⟨i, x, hfind, hx, -⟩ := (hfed.batch codec book rfl).target r hr
      have hfind : w.srv.sessions.find? r.session = some i := hfind
      obtain ⟨x', hx', hlog⟩ := hqueued r.session i x hfind hx
      exact ⟨book, i, x, x', rfl, hfind, by rw [hsessions]; exact hfind, hx, hx', hlog⟩
    · exact absurd hfill (hnoFill c hlater r hr fill)

/-- Every stored order belongs to a session of the map that is neither closing nor torn down. Once a
session is either, its epoch was ended, once, nothing of it is stored, and no later call is made
for it or reports to it. Every fill is queued for a session of the map, and no epoch is used
twice. -/
theorem run_cancelOnDisconnect (cfg : ServerConfig) (codec : Codec) (clock : ℕ → ℤ)
    (events : List Event) :
    let w := run cfg codec clock events
    (∀ key ord, w.srv.engine.orders.find? key = some ord →
        ∃ i x, w.srv.sessions.find? key.session = some i ∧ w.heap[i]? = some x ∧
          x.epoch = key.session ∧ x.closing = false ∧ x.tornDown = false) ∧
      (∀ x ∈ w.heap, x.epoch ≠ 0 → x.closing = true ∨ x.tornDown = true →
        .endSession x.epoch ∈ w.srv.calls.map Prod.fst ∧
        (∀ key ord, w.srv.engine.orders.find? key = some ord → key.session ≠ x.epoch) ∧
        w.srv.engine.entryCount x.epoch = 0 ∧ w.srv.engine.liveCount x.epoch = 0 ∧
        ∀ later, ∃ new,
          (run cfg codec clock (events ++ later)).srv.calls = w.srv.calls ++ new ∧
            ∀ c ∈ new, ¬Involves x.epoch c) ∧
      (w.srv.calls.Pairwise fun a b => ∀ e, a.1 = .endSession e → ¬Involves e b) ∧
      (∀ e, (w.srv.calls.map Prod.fst).count (.endSession e) ≤ 1) ∧
      (∀ event, ∃ new, (w.step cfg codec event).srv.calls = w.srv.calls ++ new ∧
        ∀ c ∈ new, ∀ r ∈ c.2, ∀ fill, r.msg = .fill fill →
          ∃ book i x x', c.1 = .onBook book ∧ w.srv.sessions.find? r.session = some i ∧
            (w.step cfg codec event).srv.sessions.find? r.session = some i ∧
            w.heap[i]? = some x ∧ (w.step cfg codec event).heap[i]? = some x' ∧
            enqueuedIn x'.log = enqueuedIn x.log ++
              (OrderEngine.reportsTo r.session c.2).map fun msg => (msg, .book book.mdSeq)) ∧
      ∀ later (i j : ℕ) (x y : Session), w.heap[i]? = some x →
        (run cfg codec clock (events ++ later)).heap[j]? = some y → x.epoch ≠ 0 →
          x.epoch = y.epoch → i = j := by
  intro w
  have hinv : w.Inv cfg := (run_steps cfg codec clock events).2
  have hlater : ∀ later, NetSteps cfg codec w.net (run cfg codec clock (events ++ later)).net ∧
      (run cfg codec clock (events ++ later)).Inv cfg := by
    intro later
    rw [run, List.foldl_append]
    exact hinv.foldl_step codec later
  refine ⟨hinv.owner, fun x hx hstarted hleft => ?_, hinv.net.roster.silent,
    count_endSession_le hinv.net.roster.silent, hinv.fills_delivered codec,
    fun later i j x y hx hy hstarted hepoch => ?_⟩
  · obtain ⟨hended, hnone, hentries, hlive⟩ := hinv.reaped hx hstarted hleft
    refine ⟨hended, hnone, hentries, hlive, fun later => ?_⟩
    obtain ⟨hsteps, hfinal⟩ := hlater later
    obtain ⟨new, hnew⟩ := (grows_netSteps hsteps).1
    refine ⟨new, hnew.symm, fun c hc => ?_⟩
    -- the call that ended the epoch comes before the new ones
    have hsilent := hfinal.net.roster.silent
    rw [← hnew] at hsilent
    obtain ⟨a, ha, hend⟩ := List.mem_map.mp hended
    exact (List.pairwise_append.mp hsilent).2.2 a ha c hc x.epoch hend
  · obtain ⟨hsteps, hfinal⟩ := hlater later
    have hline : w.net.lines[i]? = some x.line := by simp [World.net, hx]
    obtain ⟨l, hl, hkeep⟩ := (grows_netSteps hsteps).2 i x.line hline hstarted
    have hrow : ((run cfg codec clock (events ++ later)).net.lines.map Line.row)[i]? =
        some l.row := by
      rw [List.getElem?_map, hl]
      rfl
    refine hfinal.net.roster.epoch_inj i j l.row y.line.row hrow (Inv.row hy) ?_ ?_
    · exact fun h0 => hstarted (hkeep.symm.trans h0)
    · exact hkeep.trans hepoch

end World

end MarketMaker
