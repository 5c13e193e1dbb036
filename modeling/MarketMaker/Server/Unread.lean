import MarketMaker.Server.Inbound

/-!
# Turns in which a peer is not heard

A session refuses frames with rejects of its own. In a turn that completes no read of a frame it has
nothing to refuse, so that what it queues comes from the engine (`Inv.speaks`). Whatever the turn,
its log only grows and a close is never taken back (`Inv.line_grows`).
-/

namespace MarketMaker

/-- The event is what a frame of the peer of the session at `i` makes of a read. -/
def World.Event.fromPeer (i : ℕ) : World.Event → Bool
  | .read j (.text _) => j = i
  | .read j .binary => j = i
  | .read j .messageTooBig => j = i
  | .read j (.protocolViolation _) => j = i
  | _ => false

/-! ## Lines grow -/

/-- Nothing is taken back. -/
structure Line.Grows (l l' : Line) : Prop where
  epoch : l'.epoch = l.epoch
  log : l.log <+: l'.log
  closing : l.closing = true → l'.closing = true
  tornDown : l.tornDown = true → l'.tornDown = true

section Grows

variable {cfg : ServerConfig} {codec : Codec} {l l' l'' : Line} {v v' : View} {n n' : Net}

theorem Line.Grows.refl (l : Line) : l.Grows l := ⟨rfl, List.prefix_refl _, id, id⟩

theorem Line.Grows.trans (h : l.Grows l') (h' : l'.Grows l'') : l.Grows l'' where
  epoch := h'.epoch.trans h.epoch
  log := h.log.trans h'.log
  closing hc := h'.closing (h.closing hc)
  tornDown hd := h'.tornDown (h.tornDown hd)

theorem grows_drain (h : Drain cfg codec v v') : v.line.Grows v'.line := by
  have hkeeps := keeps_drain h
  refine ⟨hkeeps.epoch, ?_, hkeeps.closing, fun hd => hkeeps.tornDown.trans hd⟩
  cases h with
  | latch code _ _ =>
    rw [View.line_latch]
    exact List.prefix_append _ _
  | write _ _ _ _ _ => exact List.prefix_append _ _
  | lose _ _ => exact List.prefix_refl _
  | discard _ _ => exact List.prefix_append _ _
  | sendClose _ _ _ => exact List.prefix_append _ _

theorem grows_drains (h : Drains cfg codec v v') : v.line.Grows v'.line := by
  induction h with
  | refl => exact .refl _
  | tail _ hlast ih => exact ih.trans (grows_drain hlast)

theorem grows_act (h : Act cfg codec v v') : v.line.Grows v'.line := by
  cases h with
  | drain hdrain => exact grows_drain hdrain
  | @enqueue _ msg cause _ hchecked _ =>
    have hpush : v.line.Grows (v.push msg cause).line := ⟨rfl, List.prefix_append _ _, id, id⟩
    exact hpush.trans (grows_drains hchecked)
  | serve _ _ _ => exact .refl _
  | tick _ _ _ _ => exact ⟨rfl, List.prefix_append _ _, id, id⟩
  | written => exact ⟨rfl, List.prefix_refl _, id, id⟩
  | tearDown code _ =>
    rw [View.line_tearDown]
    exact ⟨rfl, List.prefix_append _ _, id, fun _ => rfl⟩

/-- A started line keeps its place. -/
theorem line_grows_netSteps (h : NetSteps cfg codec n n') {i : ℕ} (hl : n.lines[i]? = some l)
    (hstarted : l.epoch ≠ 0) : ∃ l', n'.lines[i]? = some l' ∧ l.Grows l' := by
  induction h with
  | refl => exact ⟨l, hl, .refl l⟩
  | @tail m m' _ hlast ih =>
    obtain ⟨k, hk, hgrows⟩ := ih
    have hk0 : k.epoch ≠ 0 := fun h0 => hstarted (hgrows.epoch.symm.trans h0)
    have hlt : i < m.lines.length := (List.getElem?_eq_some_iff.mp hk).1
    cases hlast with
    | publish _ => exact ⟨k, hk, hgrows⟩
    | move hmove =>
      cases hmove with
      | @act j k₀ v hfound _ hact =>
        -- only the line that acts changes
        by_cases hij : j = i
        · subst hij
          cases hk.symm.trans hfound
          exact ⟨v.line, List.getElem?_set_self hlt, hgrows.trans (grows_act hact)⟩
        · exact ⟨k, (List.getElem?_set_ne hij).trans hk, hgrows⟩
      | create => exact ⟨k, (List.getElem?_append_left hlt).trans hk, hgrows⟩
      | @start j hfound =>
        -- a line starts at epoch 0, so it is another one
        have hij : j ≠ i := by
          rintro rfl
          cases hk.symm.trans hfound
          exact hk0 rfl
        exact ⟨k, (List.getElem?_set_ne hij).trans hk, hgrows⟩

end Grows

/-! ## What a session queues unasked -/

namespace Session

variable {cfg : ServerConfig} {codec : Codec} {x x' x'' : Session} {t t' : Turn}

/-- Nothing was queued but reports of the engine. -/
def Speaks (x x' : Session) : Prop :=
  ∃ answer, enqueuedIn x'.log = enqueuedIn x.log ++ answer ∧ ∀ p ∈ answer, p.2 ≠ .session

theorem speaks_same (h : enqueuedIn x'.log = enqueuedIn x.log) : Speaks x x' :=
  ⟨[], h.trans (List.append_nil _).symm, fun _ hp => by cases hp⟩

theorem Speaks.trans (h : Speaks x x') (h' : Speaks x' x'') : Speaks x x'' := by
  obtain ⟨answer, hqueued, hcauses⟩ := h
  obtain ⟨answer', hqueued', hcauses'⟩ := h'
  refine ⟨answer ++ answer', by rw [hqueued', hqueued, List.append_assoc], fun p hp => ?_⟩
  exact (List.mem_append.mp hp).elim (hcauses p) (hcauses' p)

theorem speaks_drains (h : Drains cfg codec t.view t'.view) : Speaks t.self t'.self :=
  speaks_same (keeps_drains h).enqueued

theorem speaks_teardown (cfg : ServerConfig) (code : ℕ) (t : Turn) :
    Speaks t.self (teardown cfg code t).self := by
  cases hup : t.self.tornDown with
  | true =>
    rw [teardown, if_pos hup]
    exact speaks_same rfl
  | false =>
    have hview : (teardown cfg code t).view = t.view.tearDown cfg code := view_teardown hup
    refine speaks_same ((congrArg (fun v => enqueuedIn v.line.log) hview).trans ?_)
    rw [View.line_tearDown, enqueuedIn_append]
    exact List.append_nil _

/-- The server's own calls queue fills only. -/
theorem speaks_poked (h : Poked cfg codec x x') : Speaks x x' := by
  cases h with
  | goingAway srv => exact speaks_drains (t := ⟨srv, x⟩) (drains_beginClose cfg codec .goingAway _)
  | report srv msg mdSeq =>
    unfold deliverReport
    split_ifs
    · exact speaks_same rfl
    · have hqueues := (queues_enqueueReport cfg codec msg (.book mdSeq) ⟨srv, x⟩).drains
        (drains_pump cfg codec _)
      refine ⟨_, hqueues, fun p hp => ?_⟩
      rw [List.mem_singleton.mp hp]
      exact fun heq => by cases heq
  | tick srv tob =>
    unfold deliverTob
    split_ifs
    · exact speaks_same rfl
    · have hticked : Speaks x (enqueueTob tob ⟨srv, x⟩).self := by
        refine speaks_same ?_
        show enqueuedIn (x.log ++ [.ticked tob.mdSeq]) = enqueuedIn x.log
        rw [enqueuedIn_append]
        exact List.append_nil _
      exact hticked.trans (speaks_drains (drains_pump cfg codec _))

theorem speaks_pokes (h : Relation.ReflTransGen (Poked cfg codec) x x') : Speaks x x' := by
  induction h with
  | refl => exact speaks_same rfl
  | tail _ hlast ih => exact ih.trans (speaks_poked hlast)

theorem speaks_completes {i : ℕ} {event : World.Event} {f : Turn → Turn}
    (h : World.Completes cfg codec i x event f) (hpeer : event.fromPeer i = false)
    (srv : ServerImpl) : Speaks x (f ⟨srv, x⟩).self := by
  cases h with
  | read result _ =>
    let idle : Turn := ⟨srv, { x with reading := .idle }⟩
    have hidle : Speaks x idle.self := speaks_same rfl
    have hdown : ∀ code, Speaks x (teardown cfg code idle).self := fun code =>
      hidle.trans (speaks_teardown cfg code idle)
    unfold onRead
    dsimp only
    split_ifs
    · exact hidle
    · cases result with
      | closed peer => exact hdown _
      | timeout => exact hdown _
      | aborted => exact hdown _
      | failed => exact hdown _
      -- a frame, short or too long, comes from the peer
      | _ => simp [World.Event.fromPeer] at hpeer
  | write result _ =>
    let lagged : Turn := noteSendLag ⟨srv, { x with writeInflight := false }⟩
    have hlagged : Speaks x lagged.self := speaks_same rfl
    unfold onWrite
    dsimp only
    split_ifs
    · exact speaks_same rfl
    · cases result with
      | ok => exact hlagged.trans (speaks_drains (drains_pump cfg codec lagged))
      | timeout => exact hlagged.trans (speaks_teardown cfg _ lagged)
      | aborted => exact hlagged.trans (speaks_teardown cfg _ lagged)
      | failed => exact hlagged.trans (speaks_teardown cfg _ lagged)
  | closeFrame ok _ =>
    unfold onCloseFrame
    dsimp only
    split_ifs
    · exact speaks_same rfl
    · exact speaks_teardown cfg _ ⟨srv, { x with closeInflight := false }⟩
  | oversizeClose _ =>
    unfold drainTransport
    split_ifs <;> exact speaks_same rfl
  | drainRead ok _ =>
    unfold onDrainRead
    split_ifs
    · exact speaks_same rfl
    · exact speaks_teardown cfg _ ⟨srv, { x with reading := .idle }⟩

end Session

/-! ## Turns -/

namespace World

variable {cfg : ServerConfig} {codec : Codec} {w : World}

theorem Inv.line_grows (h : w.Inv cfg) (codec : Codec) (event : Event) {i : ℕ} {x x' : Session}
    (hx : w.heap[i]? = some x) (hstarted : x.epoch ≠ 0)
    (hx' : (w.step cfg codec event).heap[i]? = some x') : x.line.Grows x'.line := by
  have hline : w.net.lines[i]? = some x.line := by simp [World.net, hx]
  obtain ⟨l, hl, hgrows⟩ := line_grows_netSteps (h.step_netSteps codec event).1 hline hstarted
  have hline' : (w.step cfg codec event).net.lines[i]? = some x'.line := by simp [World.net, hx']
  cases hl.symm.trans hline'
  exact hgrows

/-- A turn that reads no frame of the peer queues reports of the engine only. -/
theorem Inv.speaks (h : w.Inv cfg) (codec : Codec) {event : Event} {i : ℕ} {x x' : Session}
    (hpeer : event.fromPeer i = false) (hx : w.heap[i]? = some x) (hstarted : x.epoch ≠ 0)
    (hx' : (w.step cfg codec event).heap[i]? = some x') : x.Speaks x' := by
  obtain ⟨y, hy, -, htouched⟩ := h.getElem?_step codec event hx hstarted
  cases hx'.symm.trans hy
  cases htouched with
  | completed hcompletes => exact Session.speaks_completes hcompletes hpeer w.srv
  | started hfresh =>
    rw [hfresh] at hstarted
    exact absurd rfl hstarted
  | poked hpoked => exact Session.speaks_pokes hpoked

/-- Nor does it consume a command. -/
theorem consumed_of_not_fromPeer {codec : Codec} {event : Event} {i : ℕ}
    (hpeer : event.fromPeer i = false) : w.consumed codec i event = none := by
  cases hc : w.consumed codec i event with
  | none => rfl
  | some msg =>
    obtain ⟨x, result, rfl, -, -, htaken⟩ := consumed_eq_some hc
    cases result with
    | text frame => simp [Event.fromPeer] at hpeer
    | _ => cases htaken

end World

end MarketMaker
