import MarketMaker.Server.Invariant
import MarketMaker.Server.Refine

/-!
# Every turn of the server is made of steps of the net

`World.Inv` adds to the invariant of the net what the handlers rely on besides: an object without
an epoch is a fresh one, and a pending handshake owns such an object. `World.Inv.step` shows that a
turn keeps it and that its effect on the net is a sequence of steps. Within a turn that publishes a
book, `Batch` says why every fill finds its session in the map, with room in its outbox.
-/

namespace MarketMaker

namespace World

variable {cfg : ServerConfig} {codec : Codec} {w : World}

/-- What holds between turns. -/
structure Inv (cfg : ServerConfig) (w : World) : Prop where
  net : w.net.Inv cfg
  unstarted : ∀ x ∈ w.heap, x.epoch = 0 → x = Session.create cfg
  handshaking : ∀ (i j : ℕ), w.pending[i]? = some (.handshaking j) →
    ∃ x, w.heap[j]? = some x ∧ x.epoch = 0
  handshaking_inj : ∀ (i i' j : ℕ), w.pending[i]? = some (.handshaking j) →
    w.pending[i']? = some (.handshaking j) → i = i'

theorem inv_init (cfg : ServerConfig) (clock : ℕ → ℤ) : (init clock).Inv cfg where
  net := Net.inv_init cfg
  unstarted x hx := by cases hx
  handshaking i j h := by simp [init] at h
  handshaking_inj i i' j h := by simp [init] at h

namespace Inv

theorem sound (h : w.Inv cfg) {x : Session} (hx : x ∈ w.heap) : x.line.Sound cfg :=
  h.net.sound x.line (List.mem_map_of_mem hx)

/-- An object that has done anything has an epoch. -/
theorem started (h : w.Inv cfg) {i : ℕ} {x : Session} (hx : w.heap[i]? = some x)
    (hne : x ≠ Session.create cfg) : x.epoch ≠ 0 := fun h0 =>
  hne (h.unstarted x (List.mem_of_getElem? hx) h0)

theorem row {i : ℕ} {x : Session} (hx : w.heap[i]? = some x) :
    (w.net.lines.map Line.row)[i]? = some x.line.row := by
  simp [World.net, hx]

/-- What the map says of an open epoch. -/
theorem mapped (h : w.Inv cfg) {e i : ℕ} :
    w.srv.sessions.find? e = some i ↔
      e ≠ 0 ∧ ∃ x, w.heap[i]? = some x ∧ x.epoch = e ∧ x.tornDown = false := by
  have hroster := h.net.roster.mapped e i
  refine hroster.trans (and_congr_right fun _ => ⟨?_, ?_⟩)
  · rintro ⟨r, hr, hepoch, hdown⟩
    simp only [World.net, List.map_map, List.getElem?_map, Option.map_eq_some_iff] at hr
    obtain ⟨x, hx, rfl⟩ := hr
    exact ⟨x, hx, hepoch, hdown⟩
  · rintro ⟨x, hx, hepoch, hdown⟩
    exact ⟨x.line.row, row hx, hepoch, hdown⟩

/-! ## Bookkeeping -/

/-- Gauges, telemetry and pending operations are not part of the net. -/
theorem gauges (h : w.Inv cfg) (w' : World) (hhub : w'.srv.hub = w.srv.hub)
    (hheap : w'.heap = w.heap)
    (hpending : ∀ (i j : ℕ), w'.pending[i]? = some (.handshaking j) →
      w.pending[i]? = some (.handshaking j)) :
    w'.net = w.net ∧ w'.Inv cfg := by
  have hnet : w'.net = w.net := by rw [World.net, World.net, hhub, hheap]
  refine ⟨hnet, hnet ▸ h.net, hheap ▸ h.unstarted, fun i j hij => ?_, fun i i' j hij hi'j => ?_⟩
  · rw [hheap]
    exact h.handshaking i j (hpending i j hij)
  · exact h.handshaking_inj i i' j (hpending i j hij) (hpending i' j hi'j)

/-- Releasing a pending upgrade leaves the other ones. -/
theorem pending_set {pending : List Upgrade} {i : ℕ} {u : Upgrade} (hu : ∀ j, u ≠ .handshaking j)
    (i' j : ℕ) (h : (pending.set i u)[i']? = some (.handshaking j)) :
    i' ≠ i ∧ pending[i']? = some (.handshaking j) := by
  rw [List.getElem?_set] at h
  split_ifs at h with hi hlt
  · exact absurd (Option.some.inj h) (hu j)
  · exact ⟨fun heq => hi heq.symm, h⟩

end Inv

/-! ## A session's code -/

private theorem moves_of_acts {lines : List Line} {i : ℕ} {v v' : View} (hi : i < lines.length)
    (hstarted : v.line.epoch ≠ 0) (h : Acts cfg codec v v') :
    Moves cfg codec ⟨v.hub, lines.set i v.line⟩ ⟨v'.hub, lines.set i v'.line⟩ ∧
      v'.line.epoch = v.line.epoch := by
  induction h with
  | refl => exact ⟨.refl, rfl⟩
  | @tail u u' _ hlast ih =>
    obtain ⟨hmoves, hepoch⟩ := ih
    have hfound : (lines.set i u.line)[i]? = some u.line := by simp [hi]
    have hmove : Move cfg codec ⟨u.hub, lines.set i u.line⟩
        ⟨u'.hub, (lines.set i u.line).set i u'.line⟩ := .act hfound (hepoch ▸ hstarted) hlast
    rw [List.set_set] at hmove
    exact ⟨hmoves.tail hmove, (epoch_act hlast).trans hepoch⟩

/-- The effect of a session's turn on the world. -/
theorem heap_on {i : ℕ} {x : Session} {f : Turn → Turn} (hx : w.heap[i]? = some x) :
    w.on i f =
      { w with srv := (f ⟨w.srv, x⟩).srv, heap := w.heap.set i (f ⟨w.srv, x⟩).self } := by
  rw [on, hx]

/-- A started session's turn is a sequence of moves. -/
theorem Inv.on (h : w.Inv cfg) {i : ℕ} {x : Session} {f : Turn → Turn} (hx : w.heap[i]? = some x)
    (hstarted : x.epoch ≠ 0)
    (hacts : Acts cfg codec (Turn.view ⟨w.srv, x⟩) (f ⟨w.srv, x⟩).view) :
    Moves cfg codec w.net (w.on i f).net ∧ (w.on i f).Inv cfg ∧
      (f ⟨w.srv, x⟩).self.epoch = x.epoch := by
  have hlt : i < w.net.lines.length := by
    simpa [World.net] using (List.getElem?_eq_some_iff.mp hx).1
  have hself : w.net.lines.set i x.line = w.net.lines := by
    obtain ⟨hi, rfl⟩ := List.getElem?_eq_some_iff.mp hx
    simp only [World.net]
    rw [← List.map_set, List.set_getElem_self]
  obtain ⟨hmoves, hepoch⟩ := moves_of_acts hlt hstarted hacts
  have hmoves : Moves cfg codec w.net (w.on i f).net := by
    simp only [Turn.view, hself] at hmoves
    rw [heap_on hx, World.net, World.net, List.map_set]
    exact hmoves
  have hepoch : (f ⟨w.srv, x⟩).self.epoch = x.epoch := hepoch
  refine ⟨hmoves, ⟨h.net.moves hmoves, fun y hy h0 => ?_, fun k j hkj => ?_, ?_⟩, hepoch⟩
  · rw [heap_on hx] at hy
    rcases List.mem_or_eq_of_mem_set hy with hold | rfl
    · exact h.unstarted y hold h0
    · exact absurd (hepoch.symm.trans h0) hstarted
  · rw [heap_on hx] at hkj ⊢
    obtain ⟨y, hy, hy0⟩ := h.handshaking k j hkj
    -- the object of a handshake is another one
    have hne : i ≠ j := by
      rintro rfl
      rw [hx] at hy
      cases hy
      exact hstarted hy0
    exact ⟨y, by rw [List.getElem?_set_ne hne, hy], hy0⟩
  · rw [heap_on hx]
    exact h.handshaking_inj

/-- The same turn for every session of a list that is in the map. -/
theorem Inv.foldl_on (f : Turn → Turn) (hacts : ∀ t, Acts cfg codec t.view (f t).view)
    (ps : List (ℕ × ℕ)) (h : w.Inv cfg)
    (hps : ∀ p ∈ ps, ∃ x, w.heap[p.2]? = some x ∧ x.epoch ≠ 0) :
    Moves cfg codec w.net (ps.foldl (fun w p => w.on p.2 f) w).net ∧
      (ps.foldl (fun w p => w.on p.2 f) w).Inv cfg := by
  induction ps generalizing w with
  | nil => exact ⟨.refl, h⟩
  | cons p ps ih =>
    obtain ⟨x, hx, hstarted⟩ := hps p List.mem_cons_self
    obtain ⟨hfirst, hinv, hepoch⟩ := h.on hx hstarted (hacts _)
    have hrest : ∀ q ∈ ps, ∃ y, (w.on p.2 f).heap[q.2]? = some y ∧ y.epoch ≠ 0 := by
      intro q hq
      obtain ⟨y, hy, hy0⟩ := hps q (List.mem_cons_of_mem _ hq)
      rw [heap_on hx]
      by_cases hpq : p.2 = q.2
      · have hlt : q.2 < w.heap.length := (List.getElem?_eq_some_iff.mp hy).1
        exact ⟨_, by rw [hpq, List.getElem?_set_self hlt], by rw [hepoch]; exact hstarted⟩
      · exact ⟨y, by rw [List.getElem?_set_ne hpq, hy], hy0⟩
    obtain ⟨hmoves, hfinal⟩ := ih hinv hrest
    exact ⟨hfirst.trans hmoves, hfinal⟩

/-- The sessions of the map are started. -/
theorem Inv.open_started (h : w.Inv cfg) :
    ∀ p ∈ w.srv.sessions.toList, ∃ x, w.heap[p.2]? = some x ∧ x.epoch ≠ 0 := by
  rintro ⟨e, i⟩ hp
  obtain ⟨hne, x, hx, hepoch, -⟩ := h.mapped.mp (OrderedMap.find?_eq_some_iff.mpr hp)
  exact ⟨x, hx, hepoch ▸ hne⟩

/-! ## Stopping -/

theorem Inv.closeAll (h : w.Inv cfg) (codec : Codec) :
    Moves cfg codec w.net (w.closeAll cfg codec).net ∧ (w.closeAll cfg codec).Inv cfg :=
  h.foldl_on _ (fun t => Session.acts_of_drains (Session.drains_beginClose cfg codec .goingAway t))
    _
    h.open_started

theorem Inv.beginStop (h : w.Inv cfg) (codec : Codec) :
    Moves cfg codec w.net (w.beginStop cfg codec).net ∧ (w.beginStop cfg codec).Inv cfg := by
  unfold World.beginStop
  dsimp only
  split_ifs with hstopping hempty
  · exact ⟨.refl, h⟩
  · obtain ⟨hnet, hinv⟩ := h.gauges
      { w with
        srv := ({ w.srv with stopping := true, acceptorOpen := false } : ServerImpl).finalize }
      (Session.hub_finalize _) rfl fun _ _ hij => hij
    exact ⟨by rw [hnet], hinv⟩
  · obtain ⟨hnet, hinv⟩ := h.gauges
      { w with srv := { w.srv with stopping := true, acceptorOpen := false } }
      rfl rfl fun _ _ hij => hij
    rw [← hnet]
    exact hinv.closeAll codec

/-! ## Books -/

/-- What a batch of fills relies on, with `rs` still to be routed. -/
structure Batch (cfg : ServerConfig) (codec : Codec) (mdSeq : ℕ) (w : World) (rs : List Routed) :
    Prop where
  inv : w.Inv cfg
  current : w.srv.nextMdSeq = mdSeq
  fills : ∀ r ∈ rs, ∃ fill, r.msg = .fill fill
  early : ∀ x ∈ w.heap, ∀ k ∈ ticksIn x.log, k < mdSeq
  /-- The session is in the map, takes reports and has room for all of its fills. -/
  target : ∀ r ∈ rs, ∃ i x, w.srv.sessions.find? r.session = some i ∧ w.heap[i]? = some x ∧
    x.outbox.reports.length + rs.countP (fun q => q.session = r.session) ≤ cfg.backlog ∧
    (codec.Total → Session.Busy x)

/-- What delivering a report does to its session. -/
structure Delivered (codec : Codec) (p : OutMsg × Cause) (x x' : Session) : Prop where
  epoch : x'.epoch = x.epoch
  reports : x'.outbox.reports.length ≤ x.outbox.reports.length + 1
  enqueued : enqueuedIn x'.log = enqueuedIn x.log ++ [p]
  ticks : ticksIn x'.log = ticksIn x.log
  busy : codec.Total → Session.Busy x → Session.Busy x'

theorem Inv.deliverReport (h : w.Inv cfg) {i : ℕ} {x : Session} {msg : OutMsg} {mdSeq : ℕ}
    (hx : w.heap[i]? = some x) (hstarted : x.epoch ≠ 0)
    (hmay : MayPush cfg codec (Turn.view ⟨w.srv, x⟩) msg (.book mdSeq)) :
    ∃ w' x', w.on i (Session.deliverReport cfg codec msg mdSeq) = w' ∧
      Moves cfg codec w.net w'.net ∧ w'.Inv cfg ∧ w'.srv.sessions = w.srv.sessions ∧
      w'.srv.nextMdSeq = w.srv.nextMdSeq ∧ w'.heap = w.heap.set i x' ∧
      Delivered codec (msg, .book mdSeq) x x' := by
  obtain ⟨hmoves, hinv, hepoch⟩ := h.on hx hstarted (Session.acts_deliverReport hmay)
  have hkeeps := keeps_drains (Session.drains_deliverReport cfg codec msg mdSeq hmay.up)
  refine ⟨_, (Session.deliverReport cfg codec msg mdSeq ⟨w.srv, x⟩).self, rfl, hmoves, hinv, ?_, ?_,
    ?_, hepoch, ?_, ?_, ?_, fun htotal hbusy => ?_⟩
  · rw [heap_on hx]
    exact hkeeps.sessions
  · rw [heap_on hx]
    exact hkeeps.nextMdSeq
  · rw [heap_on hx]
  · refine hkeeps.reports.length_le.trans ?_
    simp [View.push, Outbox.pushReport_of_not_isTob hmay.isReport, Turn.view, Session.line]
  · exact hkeeps.enqueued.trans (by simp [View.push, enqueuedIn, Turn.view, Session.line])
  · exact hkeeps.ticks.trans (by simp [View.push, ticksIn, Turn.view, Session.line])
  · exact Session.busy_deliverReport htotal hmay.up hmay.isReport
      (h.sound (List.mem_of_getElem? hx)).isReport hbusy

/-- Routing one fill of a batch. -/
theorem Batch.route {mdSeq : ℕ} {r : Routed} {rs : List Routed}
    (h : Batch cfg codec mdSeq w (r :: rs)) :
    ∃ w' i x x', World.route cfg codec mdSeq w r = w' ∧ Moves cfg codec w.net w'.net ∧
      Batch cfg codec mdSeq w' rs ∧ w'.srv.sessions = w.srv.sessions ∧
      w.srv.sessions.find? r.session = some i ∧ w.heap[i]? = some x ∧ w'.heap = w.heap.set i x' ∧
      Delivered codec (r.msg, .book mdSeq) x x' := by
  obtain ⟨fill, hmsg⟩ := h.fills r List.mem_cons_self
  obtain ⟨i, x, hfind, hx, hroom, hbusy⟩ := h.target r List.mem_cons_self
  obtain ⟨hne, x₀, hx₀, hepoch, hup⟩ := h.inv.mapped.mp hfind
  obtain rfl : x = x₀ := Option.some.inj (hx.symm.trans hx₀)
  have hcount : (r :: rs).countP (fun q => q.session = r.session) =
      rs.countP (fun q => q.session = r.session) + 1 := by simp
  -- the fill is counted, which does not show in the net
  let counted : World :=
    { w with
      srv := { w.srv with counters := { w.srv.counters with fills := w.srv.counters.fills + 1 } } }
  obtain ⟨hnet, hinv⟩ := h.inv.gauges counted rfl rfl fun _ _ hij => hij
  have hroute : World.route cfg codec mdSeq w r =
      counted.on i (Session.deliverReport cfg codec r.msg mdSeq) := by
    simp only [World.route, hmsg, hfind, counted]
  have hmay : MayPush cfg codec (Turn.view ⟨counted.srv, x⟩) r.msg (.book mdSeq) := by
    refine ⟨hup, by rw [hmsg]; rfl, fun ack hack => ?_, fun htotal => (hbusy htotal).1, ?_,
      fun k hk => ?_⟩
    · rw [hmsg] at hack
      cases hack
    · change x.outbox.reports.length < _
      omega
    · cases hk
      exact h.early x (List.mem_of_getElem? hx)
  obtain ⟨w', x', heq, hmoves, hinv', hsessions, hcurrent, hheap, hdel⟩ :=
    hinv.deliverReport hx (hepoch ▸ hne) hmay
  refine ⟨w', i, x, x', hroute.trans heq, hnet ▸ hmoves, ⟨hinv', hcurrent.trans h.current,
    fun q hq => h.fills q (List.mem_cons_of_mem _ hq), fun y hy k hk => ?_, fun q hq => ?_⟩,
    hsessions, hfind, hx, hheap, hdel⟩
  · rw [hheap] at hy
    rcases List.mem_or_eq_of_mem_set hy with hold | rfl
    · exact h.early y hold k hk
    · exact h.early x (List.mem_of_getElem? hx) k (hdel.ticks ▸ hk)
  · obtain ⟨j, y, hfindq, hy, hroomq, hbusyq⟩ := h.target q (List.mem_cons_of_mem _ hq)
    by_cases hij : i = j
    · -- another fill for the same session
      subst hij
      obtain ⟨-, y₀, hy₀, hepochq, -⟩ := h.inv.mapped.mp hfindq
      obtain rfl : x = y₀ := Option.some.inj (hx.symm.trans hy₀)
      have hsame : q.session = r.session := hepochq.symm.trans hepoch
      have hlt : i < w.heap.length := (List.getElem?_eq_some_iff.mp hx).1
      refine ⟨i, x', by rw [hsessions]; exact hfindq, ?_, ?_, fun htotal =>
        hdel.busy htotal (hbusy htotal)⟩
      · rw [hheap]
        exact List.getElem?_set_self hlt
      · have hlen := hdel.reports
        rw [hsame]
        omega
    · refine ⟨j, y, by rw [hsessions]; exact hfindq, ?_, ?_, hbusyq⟩
      · rw [hheap, List.getElem?_set_ne hij]
        exact hy
      · refine le_trans (Nat.add_le_add_left ?_ _) hroomq
        exact (List.sublist_cons_self r rs).countP_le

/-- Routing a whole batch: each session of the map is handed its fills, in order. -/
theorem Batch.routes {mdSeq : ℕ} (rs : List Routed) (h : Batch cfg codec mdSeq w rs) :
    ∃ w', rs.foldl (World.route cfg codec mdSeq) w = w' ∧ Moves cfg codec w.net w'.net ∧
      Batch cfg codec mdSeq w' [] ∧ w'.srv.sessions = w.srv.sessions ∧
      ∀ e i x, w.srv.sessions.find? e = some i → w.heap[i]? = some x →
        ∃ x', w'.heap[i]? = some x' ∧ enqueuedIn x'.log =
          enqueuedIn x.log ++ (OrderEngine.reportsTo e rs).map fun msg => (msg, .book mdSeq) := by
  induction rs generalizing w with
  | nil => exact ⟨w, rfl, .refl, h, rfl, fun e i x _ hx => ⟨x, hx, by simp [OrderEngine.reportsTo]⟩⟩
  | cons r rs ih =>
    obtain ⟨w₁, i, x, x₁, heq, hmoves, hbatch, hsessions, hfind, hx, hheap, hdel⟩ := h.route
    obtain ⟨w', heq', hmoves', hbatch', hsessions', hqueued⟩ := ih hbatch
    refine ⟨w', by rw [List.foldl_cons, heq, heq'], hmoves.trans hmoves', hbatch',
      hsessions'.trans hsessions, fun e j y hfinde hy => ?_⟩
    by_cases hij : i = j
    · subst hij
      obtain rfl : x = y := Option.some.inj (hx.symm.trans hy)
      -- the map has one entry for the object
      have hsame : r.session = e := by
        obtain ⟨-, y₁, hy₁, hr, -⟩ := h.inv.mapped.mp hfind
        obtain ⟨-, y₂, hy₂, he, -⟩ := h.inv.mapped.mp hfinde
        obtain rfl : y₁ = y₂ := Option.some.inj (hy₁.symm.trans hy₂)
        exact hr.symm.trans he
      have hlt : i < w.heap.length := (List.getElem?_eq_some_iff.mp hx).1
      obtain ⟨x', hx', hlog⟩ := hqueued e i x₁ (hsessions ▸ hfinde)
        (by rw [hheap, List.getElem?_set_self hlt])
      refine ⟨x', hx', ?_⟩
      rw [hlog, hdel.enqueued, List.append_assoc]
      simp [OrderEngine.reportsTo, hsame]
    · have hne : r.session ≠ e := by
        rintro rfl
        exact hij (Option.some.inj (hfind.symm.trans hfinde))
      obtain ⟨x', hx', hlog⟩ := hqueued e j y (hsessions ▸ hfinde)
        (by rw [hheap, List.getElem?_set_ne hij, hy])
      refine ⟨x', hx', ?_⟩
      rw [hlog]
      simp [OrderEngine.reportsTo, hne]

theorem Inv.deliverTob (h : w.Inv cfg) (codec : Codec) {i : ℕ} {x : Session} {tob : Tob}
    (hx : w.heap[i]? = some x) (hstarted : x.epoch ≠ 0) (hcurrent : tob.mdSeq = w.srv.nextMdSeq)
    (hnewer : ∀ k ∈ ticksIn x.log, k < tob.mdSeq) :
    ∃ w' x', w.on i (Session.deliverTob cfg codec tob) = w' ∧ Moves cfg codec w.net w'.net ∧
      w'.Inv cfg ∧ w'.srv.sessions = w.srv.sessions ∧ w'.srv.nextMdSeq = w.srv.nextMdSeq ∧
      w'.heap = w.heap.set i x' ∧ enqueuedIn x'.log = enqueuedIn x.log := by
  obtain ⟨hmoves, hinv, -⟩ :=
    h.on (f := Session.deliverTob cfg codec tob) hx hstarted
      (Session.acts_deliverTob (t := ⟨w.srv, x⟩) hcurrent hnewer)
  refine ⟨_, (Session.deliverTob cfg codec tob ⟨w.srv, x⟩).self, rfl, hmoves, hinv, ?_⟩
  rw [heap_on hx]
  by_cases hskip : (x.tornDown || x.closing) = true
  · have hnone : Session.deliverTob cfg codec tob ⟨w.srv, x⟩ = ⟨w.srv, x⟩ := by
      rw [Session.deliverTob, if_pos hskip]
    rw [hnone]
    exact ⟨rfl, rfl, rfl, rfl⟩
  · obtain ⟨hup, hc⟩ : x.tornDown = false ∧ x.closing = false := by simpa using hskip
    have hkeeps := keeps_drains
      (Session.drains_deliverTob (t := ⟨w.srv, x⟩) cfg codec tob hup hc)
    refine ⟨hkeeps.sessions, hkeeps.nextMdSeq, rfl, ?_⟩
    exact hkeeps.enqueued.trans (by simp [View.tick, enqueuedIn, Turn.view, Session.line])

/-- The fan-out of a tick queues no report. -/
theorem Inv.fanOut (codec : Codec) {tob : Tob} (ps : List (ℕ × ℕ)) (h : w.Inv cfg)
    (hcurrent : tob.mdSeq = w.srv.nextMdSeq) (hdistinct : (ps.map Prod.fst).Nodup)
    (hps : ∀ p ∈ ps, ∃ x, w.heap[p.2]? = some x ∧ x.epoch = p.1 ∧ p.1 ≠ 0 ∧
      ∀ k ∈ ticksIn x.log, k < tob.mdSeq) :
    ∃ w', ps.foldl (fun w p => w.on p.2 (Session.deliverTob cfg codec tob)) w = w' ∧
      Moves cfg codec w.net w'.net ∧ w'.Inv cfg ∧ w'.srv.sessions = w.srv.sessions ∧
      w'.heap.map (fun x => enqueuedIn x.log) = w.heap.map fun x => enqueuedIn x.log := by
  induction ps generalizing w with
  | nil => exact ⟨w, rfl, .refl, h, rfl, rfl⟩
  | cons p ps ih =>
    obtain ⟨x, hx, hepoch, hne, hnewer⟩ := hps p List.mem_cons_self
    obtain ⟨w₁, x₁, heq, hmoves, hinv, hsessions, hseq, hheap, hlog⟩ :=
      h.deliverTob codec hx (hepoch ▸ hne) hcurrent hnewer
    rw [List.map_cons, List.nodup_cons] at hdistinct
    have hrest : ∀ q ∈ ps, ∃ y, w₁.heap[q.2]? = some y ∧ y.epoch = q.1 ∧ q.1 ≠ 0 ∧
        ∀ k ∈ ticksIn y.log, k < tob.mdSeq := by
      intro q hq
      obtain ⟨y, hy, hyepoch, hqne, hynewer⟩ := hps q (List.mem_cons_of_mem _ hq)
      -- entries of different epochs are different objects
      have hpq : p.2 ≠ q.2 := by
        intro hpq
        rw [← hpq, hx] at hy
        cases hy
        exact hdistinct.1 (List.mem_map.mpr ⟨q, hq, hyepoch.symm.trans hepoch⟩)
      exact ⟨y, by rw [hheap, List.getElem?_set_ne hpq, hy], hyepoch, hqne, hynewer⟩
    obtain ⟨w', heq', hmoves', hinv', hsessions', hqueued⟩ :=
      ih hinv (hseq ▸ hcurrent) hdistinct.2 hrest
    refine ⟨w', by rw [List.foldl_cons, heq, heq'], hmoves.trans hmoves', hinv',
      hsessions'.trans hsessions, ?_⟩
    rw [hqueued, hheap, List.map_set, hlog]
    obtain ⟨hlt, rfl⟩ := List.getElem?_eq_some_iff.mp hx
    rw [← List.map_set, List.set_getElem_self]

/-- The book that a `set` event publishes. -/
def bookOf (w : World) (bidPx bidQty askPx askQty : ℤ) : Book :=
  { bidPx, bidQty, askPx, askQty, mdSeq := w.srv.nextMdSeq + 1 }

/-- The engine has processed the book, and nothing is routed yet. -/
def processed (cfg : ServerConfig) (w : World) (book : Book) : World :=
  { w with
    srv := (({ w.srv with nextMdSeq := w.srv.nextMdSeq + 1 } : ServerImpl).steadyNs.2.call cfg
      (.onBook book)).1 }

theorem Inv.processed (h : w.Inv cfg) (book : Book) :
    (w.processed cfg book).net = w.net.publish cfg book ∧ (w.processed cfg book).Inv cfg :=
  ⟨rfl, h.net.publish book, h.unstarted, h.handshaking, h.handshaking_inj⟩

/-- Every fill of a book finds its session open, with room for all of the session's fills. -/
theorem Inv.batch (h : w.Inv cfg) (codec : Codec) (book : Book)
    (hbook : book.mdSeq = w.srv.nextMdSeq + 1) :
    Batch cfg codec book.mdSeq (w.processed cfg book)
      (OrderEngine.step cfg.engine w.srv.engine (.onBook book)).2 := by
  have hengine := h.net.roster.engineInv
  refine ⟨(h.processed book).2, hbook.symm,
    fun r hr => (OrderEngine.mem_onBook hengine.indexed hr).1,
    fun x hx k hk => ?_, fun r hr => ?_⟩
  · have hle : k ≤ w.srv.nextMdSeq := h.net.ticks x.line (List.mem_map_of_mem hx) k hk
    omega
  · -- the filled order belongs to a session that is not closing
    obtain ⟨-, key, ord, hkey, hord⟩ := OrderEngine.mem_onBook hengine.indexed hr
    obtain ⟨hne, i, row, hrow, hepoch, hlive⟩ := h.net.roster.owned key ord hord
    simp only [World.net, List.map_map, List.getElem?_map, Option.map_eq_some_iff] at hrow
    obtain ⟨x, hx, rfl⟩ := hrow
    have hsound := h.sound (List.mem_of_getElem? hx)
    obtain ⟨hc, hup⟩ : x.closing = false ∧ x.tornDown = false := by
      have hretired := hsound.retired.symm.trans hlive
      simpa [Session.line] using hretired
    have hfind : w.srv.sessions.find? r.session = some i :=
      h.mapped.mpr ⟨hkey ▸ hne, x, hx, hepoch.trans hkey, hup⟩
    have hunsent : x.closeFrameSent = false := by
      by_contra hsent
      have hclosing : x.closing = true := hsound.sent (by simpa [Session.line] using hsent)
      rw [hc] at hclosing
      cases hclosing
    refine ⟨i, x, hfind, hx, ?_, fun _ => ⟨hunsent, fun hclosing => ?_⟩⟩
    · have hbreach : x.outbox.reportHwmBreached = false := by
        by_contra hne
        have hclosing : x.closing = true := hsound.settled (by simpa [Session.line] using hne)
        rw [hc] at hclosing
        cases hclosing
      have hqueued : x.outbox.reports.length ≤ cfg.reportHwm := hsound.unbreached hbreach
      have hfills : (OrderEngine.step cfg.engine w.srv.engine (.onBook book)).2.countP
          (fun q => q.session = r.session) ≤ cfg.engine.inst.maxLiveOrders.toNat :=
        (OrderEngine.countP_onBook_le hengine.indexed book r.session).trans
          (hengine.liveCap r.session)
      unfold ServerConfig.backlog
      omega
    · rw [hc] at hclosing
      cases hclosing

/-- A published book: each session of the map is handed its fills and then the tick. -/
theorem Inv.publishBook (h : w.Inv cfg) (codec : Codec) (bidPx bidQty askPx askQty : ℤ) :
    ∃ w', World.publishBook cfg codec w bidPx bidQty askPx askQty = w' ∧
      Moves cfg codec (w.net.publish cfg (w.bookOf bidPx bidQty askPx askQty)) w'.net ∧
      w'.Inv cfg ∧ w'.srv.sessions = w.srv.sessions ∧
      ∀ e i x, w.srv.sessions.find? e = some i → w.heap[i]? = some x →
        ∃ x', w'.heap[i]? = some x' ∧ enqueuedIn x'.log = enqueuedIn x.log ++
          (OrderEngine.reportsTo e (OrderEngine.step cfg.engine w.srv.engine
            (.onBook (w.bookOf bidPx bidQty askPx askQty))).2).map
              fun msg => (msg, .book (w.srv.nextMdSeq + 1)) := by
  obtain ⟨w₁, heq, hmoves, hbatch, hsessions, hqueued⟩ :=
    (h.batch codec (w.bookOf bidPx bidQty askPx askQty) rfl).routes
  have hps : ∀ p ∈ w₁.srv.sessions.toList, ∃ x, w₁.heap[p.2]? = some x ∧ x.epoch = p.1 ∧ p.1 ≠ 0 ∧
      ∀ k ∈ ticksIn x.log, k < (tobOf cfg (w.bookOf bidPx bidQty askPx askQty)).mdSeq := by
    rintro ⟨e, i⟩ hp
    obtain ⟨hne, x, hx, hepoch, -⟩ := hbatch.inv.mapped.mp (OrderedMap.find?_eq_some_iff.mpr hp)
    exact ⟨x, hx, hepoch, hne, hbatch.early x (List.mem_of_getElem? hx)⟩
  obtain ⟨w', heq', hmoves', hinv', hsessions', hsame⟩ :=
    hbatch.inv.fanOut codec w₁.srv.sessions.toList hbatch.current.symm
      w₁.srv.sessions.keys_nodup hps
  refine ⟨w', ?_, ?_, hinv', hsessions'.trans hsessions, fun e i x hfind hx => ?_⟩
  · rw [← heq', ← heq]
    rfl
  · rw [← (h.processed _).1]
    exact hmoves.trans hmoves'
  · obtain ⟨x₁, hx₁, hlog⟩ := hqueued e i x hfind hx
    have hmapped := congrArg (fun l => l[i]?) hsame
    simp only [List.getElem?_map, hx₁, Option.map_some, Option.map_eq_some_iff] at hmapped
    obtain ⟨x', hx', hlog'⟩ := hmapped
    exact ⟨x', hx', hlog'.trans hlog⟩

/-! ## Accepting -/

private theorem net_eq_moves {w' : World} (h : w'.net = w.net ∧ w'.Inv cfg) :
    Moves cfg codec w.net w'.net ∧ w'.Inv cfg :=
  ⟨by rw [h.1], h.2⟩

theorem Inv.onAccept (h : w.Inv cfg) (ok : Bool) :
    (w.onAccept cfg ok).net = w.net ∧ (w.onAccept cfg ok).Inv cfg := by
  unfold World.onAccept
  dsimp only
  split_ifs
  · exact h.gauges _ rfl rfl fun _ _ hij => hij
  · exact ⟨rfl, h⟩
  · exact h.gauges _ rfl rfl fun _ _ hij => hij
  · -- a new upgrade is no handshake yet
    refine h.gauges _ rfl rfl fun i j hij => ?_
    simp only [pruneUpgrades, List.getElem?_append] at hij
    split_ifs at hij with hlt
    · exact hij
    · rw [List.getElem?_singleton] at hij
      split_ifs at hij
      cases hij
  · exact h.gauges _ rfl rfl fun _ _ hij => hij

/-- A pending upgrade leaves for a state that is no handshake. -/
theorem Inv.settle (h : w.Inv cfg) (w' : World) (i : ℕ) {u : Upgrade} (hu : ∀ j, u ≠ .handshaking j)
    (hhub : w'.srv.hub = w.srv.hub) (hheap : w'.heap = w.heap)
    (hpending : w'.pending = w.pending.set i u) : w'.net = w.net ∧ w'.Inv cfg := by
  refine h.gauges w' hhub hheap fun i' j hij => ?_
  rw [hpending] at hij
  exact (Inv.pending_set hu i' j hij).2

theorem Inv.onUpgradeRequest (h : w.Inv cfg) (codec : Codec) (i : ℕ)
    (request : Option UpgradeRequest) :
    Moves cfg codec w.net (w.onUpgradeRequest cfg i request).net ∧
      (w.onUpgradeRequest cfg i request).Inv cfg := by
  unfold World.onUpgradeRequest
  cases request with
  | none => exact net_eq_moves (h.settle _ i (u := .released) (by rintro _ ⟨⟩) rfl rfl rfl)
  | some req =>
    dsimp only
    split_ifs
    · exact net_eq_moves (h.settle _ i (u := .released) (by rintro _ ⟨⟩) rfl rfl rfl)
    · exact net_eq_moves (h.settle _ i (u := .refusing) (by rintro _ ⟨⟩) rfl rfl rfl)
    · exact net_eq_moves (h.settle _ i (u := .refusing) (by rintro _ ⟨⟩) rfl rfl rfl)
    · exact net_eq_moves (h.settle _ i (u := .refusing) (by rintro _ ⟨⟩) rfl rfl rfl)
    · -- the session object is created, and the upgrade owns it until the handshake is over
      have hmove : Moves cfg codec w.net
          { w.net with lines := w.net.lines ++ [Line.fresh cfg] } := .single .create
      have hlines : (w.heap ++ [Session.create cfg]).map Session.line =
          w.net.lines ++ [Line.fresh cfg] := by
        simp [World.net, Session.line, Session.create, Line.fresh]
      have hold : ∀ (i' j : ℕ), (w.pending.set i (.handshaking w.heap.length))[i']? =
          some (.handshaking j) → (i' = i ∧ j = w.heap.length) ∨
            w.pending[i']? = some (.handshaking j) := by
        intro i' j hij
        rw [List.getElem?_set] at hij
        split_ifs at hij with hi hlt
        · cases hij
          exact Or.inl ⟨hi.symm, rfl⟩
        · exact Or.inr hij
      have hlt : ∀ {i' j : ℕ}, w.pending[i']? = some (.handshaking j) → j < w.heap.length := by
        intro i' j hij
        obtain ⟨x, hx, -⟩ := h.handshaking i' j hij
        exact (List.getElem?_eq_some_iff.mp hx).1
      rw [← hlines] at hmove
      refine ⟨hmove, h.net.moves hmove, fun x hx h0 => ?_, fun i' j hij => ?_,
        fun i' i'' j hij hi'j => ?_⟩
      · rcases List.mem_append.mp hx with hmem | hnew
        · exact h.unstarted x hmem h0
        · exact List.mem_singleton.mp hnew
      · rcases hold i' j hij with ⟨-, rfl⟩ | hij
        · exact ⟨Session.create cfg, by simp [pruneUpgrades], rfl⟩
        · obtain ⟨x, hx, h0⟩ := h.handshaking i' j hij
          exact ⟨x, (List.getElem?_append_left (hlt hij)).trans hx, h0⟩
      · rcases hold i' j hij with ⟨hi, hj⟩ | hfirst <;>
          rcases hold i'' j hi'j with ⟨hi', hj'⟩ | hsecond
        · exact hi.trans hi'.symm
        · exact absurd (hj ▸ hlt hsecond) (lt_irrefl _)
        · exact absurd (hj' ▸ hlt hfirst) (lt_irrefl _)
        · exact h.handshaking_inj i' i'' j hfirst hsecond

/-- A session whose handshake succeeds takes the next epoch and starts. -/
theorem Inv.start (h : w.Inv cfg) (codec : Codec) {i j : ℕ}
    (hpending : w.pending[i]? = some (.handshaking j)) (opened : World)
    (hhub : opened.srv.hub =
      { w.srv.hub with
        nextEpoch := w.srv.nextEpoch + 1
        sessions := w.srv.sessions.insert (w.srv.nextEpoch + 1) j })
    (hheap : opened.heap = w.heap) (hreleased : opened.pending = w.pending.set i .released) :
    Moves cfg codec w.net (opened.on j (Session.start (w.srv.nextEpoch + 1))).net ∧
      (opened.on j (Session.start (w.srv.nextEpoch + 1))).Inv cfg := by
  obtain ⟨x, hx, h0⟩ := h.handshaking i j hpending
  have hcreate : x = Session.create cfg := h.unstarted x (List.mem_of_getElem? hx) h0
  subst hcreate
  have hline : w.net.lines[j]? = some (Line.fresh cfg) := by
    simp [World.net, hx, Session.line, Session.create, Line.fresh]
  have hnet : (opened.on j (Session.start (w.srv.nextEpoch + 1))).net =
      { hub := opened.srv.hub
        lines := w.net.lines.set j { Line.fresh cfg with epoch := w.srv.nextEpoch + 1 } } := by
    rw [heap_on (hheap ▸ hx), hheap]
    simp only [World.net, List.map_set]
    rfl
  have hmove : Moves cfg codec w.net (opened.on j (Session.start (w.srv.nextEpoch + 1))).net := by
    rw [hnet, hhub]
    exact .single (.start hline)
  refine ⟨hmove, h.net.moves hmove, fun y hy hy0 => ?_, fun i' k hik => ?_,
    fun i' i'' k hik hi'k => ?_⟩
  · rw [heap_on (hheap ▸ hx), hheap] at hy
    rcases List.mem_or_eq_of_mem_set hy with hold | rfl
    · exact h.unstarted y hold hy0
    · cases hy0
  · rw [heap_on (hheap ▸ hx), hheap] at *
    rw [hreleased] at hik
    obtain ⟨hne, hik⟩ := Inv.pending_set (u := .released) (by rintro _ ⟨⟩) i' k hik
    obtain ⟨y, hy, hy0⟩ := h.handshaking i' k hik
    -- another upgrade owns another object
    have hjk : j ≠ k := by
      rintro rfl
      exact hne (h.handshaking_inj i' i j hik hpending)
    exact ⟨y, (List.getElem?_set_ne hjk).trans hy, hy0⟩
  · rw [heap_on (hheap ▸ hx)] at hik hi'k
    rw [hreleased] at hik hi'k
    exact h.handshaking_inj i' i'' k (Inv.pending_set (u := .released) (by rintro _ ⟨⟩) i' k hik).2
      (Inv.pending_set (u := .released) (by rintro _ ⟨⟩) i'' k hi'k).2

theorem Inv.onHandshake (h : w.Inv cfg) (codec : Codec) {i j : ℕ}
    (hpending : w.pending[i]? = some (.handshaking j)) (ok : Bool) :
    Moves cfg codec w.net (w.onHandshake i j ok).net ∧ (w.onHandshake i j ok).Inv cfg := by
  unfold World.onHandshake
  dsimp only
  split_ifs
  · exact net_eq_moves (h.settle _ i (u := .released) (by rintro _ ⟨⟩) rfl rfl rfl)
  · exact h.start codec hpending _ rfl rfl rfl

/-! ## Turns -/

/-- The completion of a session's operation. -/
private theorem Inv.on_pending (h : w.Inv cfg) {i : ℕ} {p : Session → Bool}
    (hp : p (Session.create cfg) = false) {f : Turn → Turn} (hacts : ∀ x ∈ w.heap,
      Acts cfg codec (Turn.view ⟨w.srv, x⟩) (f ⟨w.srv, x⟩).view) :
    Moves cfg codec w.net (if w.sessionIs i p then w.on i f else w).net ∧
      (if w.sessionIs i p then w.on i f else w).Inv cfg := by
  split_ifs with his
  · cases hx : w.heap[i]? with
    | none =>
      rw [sessionIs, hx] at his
      cases his
    | some x =>
      rw [sessionIs, hx] at his
      have hne : x ≠ Session.create cfg := by
        rintro rfl
        rw [show p (Session.create cfg) = true from his] at hp
        cases hp
      obtain ⟨hmoves, hinv, -⟩ := h.on hx (h.started hx hne) (hacts x (List.mem_of_getElem? hx))
      exact ⟨hmoves, hinv⟩
  · exact ⟨.refl, h⟩

/-- A session that is not closing accepts frames. -/
theorem Inv.accepts (h : w.Inv cfg) {x : Session} (hx : x ∈ w.heap) (hup : x.tornDown = false)
    (hc : x.closing = false) : Session.Open cfg (Turn.view ⟨w.srv, x⟩) where
  notClosing := hc
  up := hup
  notSent := by
    change x.closeFrameSent = false
    by_contra hsent
    have hclosing : x.closing = true := (h.sound hx).sent (Bool.eq_true_of_not_eq_false hsent)
    rw [hc] at hclosing
    cases hclosing
  room := (h.sound hx).room hc

/-- The turn of the feed timer, unless it publishes a book. -/
theorem Inv.onFeedEvent (h : w.Inv cfg) (codec : Codec) :
    (Moves cfg codec w.net (w.onFeedEvent cfg codec).net ∧ (w.onFeedEvent cfg codec).Inv cfg) ∨
      ∃ index bidPx bidQty askPx askQty, w.onFeedEvent cfg codec =
        World.publishBook cfg codec { w with srv := { w.srv with feedIndex := index } }
          bidPx bidQty askPx askQty := by
  generalize hfed : w.onFeedEvent cfg codec = w'
  unfold World.onFeedEvent at hfed
  dsimp only at hfed
  split at hfed
  · exact Or.inl (hfed ▸ ⟨.refl, h⟩)
  split at hfed
  · exact Or.inl (hfed ▸ h.beginStop codec)
  -- the feed moves on, which does not show in the net
  generalize (if w.srv.feedIndex ≥ cfg.feed.length then 0 else w.srv.feedIndex) = index at hfed
  obtain ⟨hnet, hinv⟩ := h.gauges { w with srv := { w.srv with feedIndex := index + 1 } } rfl rfl
    fun _ _ hij => hij
  split at hfed
  · next bidPx bidQty askPx askQty _ =>
    exact Or.inr ⟨index + 1, bidPx, bidQty, askPx, askQty, hfed.symm⟩
  · exact Or.inl (hfed ▸ net_eq_moves ⟨hnet, hinv⟩)
  · have hclosed := hinv.closeAll codec
    rw [hnet, hfed] at hclosed
    exact Or.inl hclosed
  · have hstopped := hinv.beginStop codec
    rw [hnet, hfed] at hstopped
    exact Or.inl hstopped
  · exact Or.inl (hfed ▸ net_eq_moves ⟨hnet, hinv⟩)

/-- A turn that publishes no book is a sequence of moves. -/
theorem Inv.step (h : w.Inv cfg) (codec : Codec) (event : Event) :
    (Moves cfg codec w.net (w.step cfg codec event).net ∧ (w.step cfg codec event).Inv cfg) ∨
      ∃ index bidPx bidQty askPx askQty, w.step cfg codec event =
        World.publishBook cfg codec { w with srv := { w.srv with feedIndex := index } }
          bidPx bidQty askPx askQty := by
  cases event with
  -- a book of the feed is the one event that is more than moves of single sessions
  | feed => exact h.onFeedEvent codec
  | accept ok =>
    refine Or.inl ?_
    simp only [World.step]
    split_ifs
    · exact net_eq_moves (h.onAccept ok)
    · exact ⟨.refl, h⟩
  | upgradeRequest i request =>
    refine Or.inl ?_
    simp only [World.step]
    split_ifs
    · exact h.onUpgradeRequest codec i request
    · exact ⟨.refl, h⟩
  | refusalWritten i =>
    refine Or.inl ?_
    simp only [World.step]
    split_ifs
    · exact net_eq_moves (h.settle _ i (u := .released) (by rintro _ ⟨⟩) rfl rfl rfl)
    · exact ⟨.refl, h⟩
  | handshake i ok =>
    refine Or.inl ?_
    simp only [World.step]
    split
    · next j hpending => exact h.onHandshake codec hpending ok
    · exact ⟨.refl, h⟩
  | read i result =>
    -- a read is served while the session is open; the rest of the completions always are
    exact Or.inl (h.on_pending rfl fun x hx =>
      Session.acts_onRead fun hup hc => h.accepts hx hup hc)
  | write i result => exact Or.inl (h.on_pending rfl fun x _ => Session.acts_onWrite result _)
  | closeFrame i ok => exact Or.inl (h.on_pending rfl fun x _ => Session.acts_onCloseFrame ok _)
  | oversizeClose i =>
    refine Or.inl (h.on_pending rfl fun x _ => ?_)
    rw [Session.view_drainTransport]
  | drainRead i ok => exact Or.inl (h.on_pending rfl fun x _ => Session.acts_onDrainRead ok _)
  | snapshot =>
    refine Or.inl ?_
    simp only [World.step]
    split_ifs
    · exact ⟨.refl, h⟩
    · exact net_eq_moves (h.gauges _ rfl rfl fun _ _ hij => hij)
  | stop => exact Or.inl (h.beginStop codec)

end World

end MarketMaker
