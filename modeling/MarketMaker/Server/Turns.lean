import MarketMaker.Server.Calm
import MarketMaker.Server.Guarantees

/-!
# What a turn does to one session

A session's own completions run its handlers. Everything else that reaches it in a turn comes from
the server: a close as going away, a fill or a tick. `World.Pokes` collects what such calls leave
alone, and `World.touched` says once what a turn can do to a given session, so that a property of
sessions is checked once per handler.
-/

namespace MarketMaker

/-- The calls the server makes on a session that asked for nothing. -/
inductive Session.Poked (cfg : ServerConfig) (codec : Codec) (x : Session) : Session → Prop
  | goingAway (srv : ServerImpl) : Poked cfg codec x (beginClose cfg codec .goingAway ⟨srv, x⟩).self
  | report (srv : ServerImpl) (msg : OutMsg) (mdSeq : ℕ) :
      Poked cfg codec x (deliverReport cfg codec msg mdSeq ⟨srv, x⟩).self
  | tick (srv : ServerImpl) (tob : Tob) : Poked cfg codec x (deliverTob cfg codec tob ⟨srv, x⟩).self

/-- All of them are quiet. -/
theorem Session.quiet_poked {cfg : ServerConfig} {codec : Codec} {x x' : Session}
    (h : Poked cfg codec x x') : ∃ srv t', t'.self = x' ∧ Quiet ⟨srv, x⟩ t' := by
  cases h with
  | goingAway srv => exact ⟨srv, _, rfl, quiet_beginClose cfg codec .goingAway _⟩
  | report srv msg mdSeq => exact ⟨srv, _, rfl, quiet_deliverReport cfg codec msg mdSeq _⟩
  | tick srv tob => exact ⟨srv, _, rfl, quiet_deliverTob cfg codec tob _⟩

/-- What the server's calls leave alone in a session. -/
structure Session.Passive (x x' : Session) : Prop where
  epoch : x'.epoch = x.epoch
  inSeqExpected : x'.inSeqExpected = x.inSeqExpected
  reading : x'.reading = x.reading
  tornDown : x'.tornDown = x.tornDown
  closed : closedIn x'.log = closedIn x.log

theorem Session.passive_poked {cfg : ServerConfig} {codec : Codec} {x x' : Session}
    (h : Relation.ReflTransGen (Poked cfg codec) x x') : Passive x x' := by
  induction h with
  | refl => exact ⟨rfl, rfl, rfl, rfl, rfl⟩
  | tail _ hlast ih =>
    obtain ⟨srv, t', rfl, hquiet⟩ := quiet_poked hlast
    exact ⟨hquiet.epoch.trans ih.epoch, hquiet.inSeqExpected.trans ih.inSeqExpected,
      hquiet.reading.trans ih.reading, hquiet.tornDown.trans ih.tornDown,
      hquiet.closed.trans ih.closed⟩

namespace World

variable {cfg : ServerConfig} {codec : Codec} {w w' w'' : World}

/-! ## The server's calls -/

/-- Only the server's calls on sessions happened. -/
structure Pokes (cfg : ServerConfig) (codec : Codec) (w w' : World) : Prop where
  srv : w.srv.Calm w'.srv
  served : servedIn w'.srv.calls = servedIn w.srv.calls
  pending : w'.pending = w.pending
  length : w'.heap.length = w.heap.length
  heap : ∀ (i : ℕ) x, w.heap[i]? = some x →
    ∃ x', w'.heap[i]? = some x' ∧ Relation.ReflTransGen (Session.Poked cfg codec) x x'

theorem Pokes.refl (w : World) : Pokes cfg codec w w :=
  ⟨.refl _, rfl, rfl, rfl, fun _ x hx => ⟨x, hx, .refl⟩⟩

theorem Pokes.trans (h : Pokes cfg codec w w') (h' : Pokes cfg codec w' w'') :
    Pokes cfg codec w w'' := by
  refine ⟨h.srv.trans h'.srv, h'.served.trans h.served, h'.pending.trans h.pending,
    h'.length.trans h.length, fun i x hx => ?_⟩
  obtain ⟨x', hx', hpoked⟩ := h.heap i x hx
  obtain ⟨x'', hx'', hpoked'⟩ := h'.heap i x' hx'
  exact ⟨x'', hx'', hpoked.trans hpoked'⟩

/-- One call of the server on a session. -/
theorem pokes_on (w : World) (i : ℕ) {f : Turn → Turn} (hquiet : ∀ t, Session.Quiet t (f t))
    (hpoked : ∀ srv x, Session.Poked cfg codec x (f ⟨srv, x⟩).self) :
    Pokes cfg codec w (w.on i f) := by
  cases hx : w.heap[i]? with
  | none =>
    rw [World.on, hx]
    exact .refl w
  | some x =>
    have hlt : i < w.heap.length := (List.getElem?_eq_some_iff.mp hx).1
    rw [heap_on hx]
    have hturn := hquiet ⟨w.srv, x⟩
    refine ⟨hturn.srv, hturn.served, rfl, by simp, fun j y hy => ?_⟩
    by_cases hij : i = j
    · subst hij
      cases hx.symm.trans hy
      exact ⟨_, List.getElem?_set_self hlt, .single (hpoked w.srv x)⟩
    · exact ⟨y, (List.getElem?_set_ne hij).trans hy, .refl⟩

theorem pokes_foldl {α : Type} {f : World → α → World} (hf : ∀ w a, Pokes cfg codec w (f w a))
    (as : List α) (w : World) : Pokes cfg codec w (as.foldl f w) := by
  induction as generalizing w with
  | nil => exact .refl w
  | cons a as ih => exact (hf w a).trans (ih _)

theorem pokes_closeAll (cfg : ServerConfig) (codec : Codec) (w : World) :
    Pokes cfg codec w (w.closeAll cfg codec) := by
  apply pokes_foldl
  intro w p
  exact pokes_on w p.2 (Session.quiet_beginClose cfg codec .goingAway) fun srv x =>
    Session.Poked.goingAway srv

theorem pokes_route (cfg : ServerConfig) (codec : Codec) (mdSeq : ℕ) (w : World) (r : Routed) :
    Pokes cfg codec w (w.route cfg codec mdSeq r) := by
  obtain ⟨counted, hcount, hroute⟩ := route_cases cfg codec mdSeq w r
  have hcounted : Pokes cfg codec w counted := by
    rcases hcount with rfl | rfl
    · exact .refl counted
    · exact ⟨.silent rfl rfl rfl rfl rfl rfl rfl rfl, rfl, rfl, rfl, fun _ x hx => ⟨x, hx, .refl⟩⟩
  refine hcounted.trans ?_
  rcases hroute with hroute | ⟨i, hroute⟩
  · rw [hroute]
    exact .refl counted
  · rw [hroute]
    exact pokes_on counted i (Session.quiet_deliverReport cfg codec r.msg mdSeq) fun srv x =>
      Session.Poked.report srv r.msg mdSeq

theorem pokes_fanOut (cfg : ServerConfig) (codec : Codec) (tob : Tob) (w : World) :
    Pokes cfg codec w (w.fanOut cfg codec tob) := by
  apply pokes_foldl
  intro w p
  exact pokes_on w p.2 (Session.quiet_deliverTob cfg codec tob) fun srv x =>
    Session.Poked.tick srv tob

/-- Once the engine has processed a book, the rest of its publication is calls on sessions. -/
theorem pokes_publishBook (cfg : ServerConfig) (codec : Codec) (w : World)
    (bidPx bidQty askPx askQty : ℤ) :
    Pokes cfg codec (w.processed cfg (w.bookOf bidPx bidQty askPx askQty))
      (w.publishBook cfg codec bidPx bidQty askPx askQty) :=
  (pokes_foldl (pokes_route cfg codec _) _ _).trans (pokes_fanOut cfg codec _ _)

/-! ## Turns -/

/-- The code a completion is recorded with if it tears a session down and no close was latched. -/
def Event.record : Event → Option ℕ
  | .read _ result => result.record
  | .write _ result => result.record
  | _ => none

/-- The completion of an operation of the session at `i`, and its handler. -/
inductive Completes (cfg : ServerConfig) (codec : Codec) (i : ℕ) (x : Session) :
    Event → (Turn → Turn) → Prop
  | read (result : Session.ReadResult) (pending : x.reading = .message) :
      Completes cfg codec i x (.read i result) (Session.onRead cfg codec result)
  | write (result : Session.WriteResult) (pending : x.writeInflight = true) :
      Completes cfg codec i x (.write i result) (Session.onWrite cfg codec result)
  | closeFrame (ok : Bool) (pending : x.closeInflight = true) :
      Completes cfg codec i x (.closeFrame i ok) (Session.onCloseFrame cfg ok)
  | oversizeClose (pending : x.reading = .closing) :
      Completes cfg codec i x (.oversizeClose i) Session.drainTransport
  | drainRead (ok : Bool) (pending : x.reading = .drain) :
      Completes cfg codec i x (.drainRead i ok) (Session.onDrainRead cfg ok)

/-- The feed has moved to `index`. -/
def fed (w : World) (index : ℕ) : World := { w with srv := { w.srv with feedIndex := index } }

/-- The server is stopping: nothing is accepted any more. -/
def halted (w : World) : World :=
  { w with srv := { w.srv with stopping := true, acceptorOpen := false } }

/-- The first stop finalizes at once, or closes every session and leaves that to the last. -/
theorem beginStop_of_running (h : w.srv.stopping = false) :
    w.beginStop cfg codec =
      if w.srv.sessions.toList.isEmpty then { w.halted with srv := w.halted.srv.finalize }
      else w.halted.closeAll cfg codec := by
  rw [beginStop, if_neg (by simp [h])]
  rfl

/-- The server once the object at `j` has entered the map under the next epoch. -/
def opened (w : World) (j : ℕ) : ServerImpl :=
  { w.srv with
    handshaking := w.srv.handshaking.filter (· ≠ j)
    nextEpoch := w.srv.nextEpoch + 1
    sessions := w.srv.sessions.insert (w.srv.nextEpoch + 1) j
    peakSessions :=
      max w.srv.peakSessions (w.srv.sessions.insert (w.srv.nextEpoch + 1) j).toList.length }

/-- A handshake that succeeds while the server runs starts its session. -/
theorem Inv.onHandshake_eq (h : w.Inv cfg) {i j : ℕ}
    (hfound : w.pending[i]? = some (.handshaking j)) (ok : Bool) :
    w.heap[j]? = some (Session.create cfg) ∧ w.onHandshake i j ok =
      if !ok || w.srv.stopping then
        { w with
          srv := { w.srv with handshaking := w.srv.handshaking.filter (· ≠ j) }
          pending := w.pending.set i .released }
      else
        { srv := (w.opened j).emitEvent .sessionOpen (w.srv.nextEpoch + 1 : ℕ) 0
          heap := w.heap.set j
            { Session.create cfg with epoch := w.srv.nextEpoch + 1, reading := .message }
          pending := w.pending.set i .released } := by
  obtain ⟨x, hx, h0⟩ := h.handshaking i j hfound
  obtain rfl : x = Session.create cfg := h.unstarted x (List.mem_of_getElem? hx) h0
  refine ⟨hx, ?_⟩
  unfold World.onHandshake
  dsimp only
  split_ifs
  · rfl
  · rw [World.on]
    simp only [hx]
    rfl

/-- What a turn can be. -/
inductive Turned (cfg : ServerConfig) (codec : Codec) (w : World) : Event → World → Prop
  /-- The operation is not pending, or the handler finds the server stopping. -/
  | ignored (event : Event) : Turned cfg codec w event w
  | completed {event : Event} {i : ℕ} {x : Session} {f : Turn → Turn}
      (found : w.heap[i]? = some x) (completes : Completes cfg codec i x event f) :
      Turned cfg codec w event (w.on i f)
  | fed (index : ℕ) (running : w.srv.stopping = false) : Turned cfg codec w .feed (w.fed index)
  | dropped (index : ℕ) (running : w.srv.stopping = false) :
      Turned cfg codec w .feed ((w.fed index).closeAll cfg codec)
  | published (index : ℕ) (bidPx bidQty askPx askQty : ℤ) (running : w.srv.stopping = false) :
      Turned cfg codec w .feed ((w.fed index).publishBook cfg codec bidPx bidQty askPx askQty)
  | stopped (event : Event) (index : ℕ) (running : w.srv.stopping = false) :
      Turned cfg codec w event ((w.fed index).beginStop cfg codec)
  | snapshot (conflatedOf : ℕ → ℕ) (running : w.srv.stopping = false) :
      Turned cfg codec w .snapshot { w with srv := w.srv.pushSnapshot conflatedOf }
  | accepted (ok : Bool) : Turned cfg codec w (.accept ok) (w.onAccept cfg ok)
  | requested {i : ℕ} (request : Option UpgradeRequest) (found : w.pending[i]? = some .reading) :
      Turned cfg codec w (.upgradeRequest i request) (w.onUpgradeRequest cfg i request)
  | refused {i : ℕ} (found : w.pending[i]? = some .refusing) :
      Turned cfg codec w (.refusalWritten i) { w with pending := w.pending.set i .released }
  | shaken {i j : ℕ} (ok : Bool) (found : w.pending[i]? = some (.handshaking j)) :
      Turned cfg codec w (.handshake i ok) (w.onHandshake i j ok)

/-- A completion is handled when its operation is pending. -/
private theorem turned_on {i : ℕ} {event : Event} {p : Session → Bool} {f : Turn → Turn}
    (h : ∀ x, p x = true → Completes cfg codec i x event f) :
    Turned cfg codec w event (if w.sessionIs i p then w.on i f else w) := by
  split_ifs with his
  · cases hx : w.heap[i]? with
    | none =>
      rw [sessionIs, hx] at his
      cases his
    | some x =>
      rw [sessionIs, hx] at his
      exact .completed hx (h x his)
  · exact .ignored event

private theorem turned_beginStop (event : Event) :
    Turned cfg codec w event (w.beginStop cfg codec) := by
  cases hstopping : w.srv.stopping with
  | true =>
    rw [beginStop, if_pos hstopping]
    exact .ignored event
  | false => exact .stopped event w.srv.feedIndex hstopping

private theorem turned_feed : Turned cfg codec w .feed (w.onFeedEvent cfg codec) := by
  generalize hfed : w.onFeedEvent cfg codec = w'
  unfold World.onFeedEvent at hfed
  dsimp only at hfed
  split at hfed
  · exact hfed ▸ .ignored _
  next hrunning =>
  have hrunning : w.srv.stopping = false := by simpa using hrunning
  split at hfed
  · exact hfed ▸ turned_beginStop _
  generalize (if w.srv.feedIndex ≥ cfg.feed.length then 0 else w.srv.feedIndex) = index at hfed
  split at hfed
  · exact hfed ▸ .published (index + 1) _ _ _ _ hrunning
  · exact hfed ▸ .fed (index + 1) hrunning
  · exact hfed ▸ .dropped (index + 1) hrunning
  · exact hfed ▸ .stopped _ (index + 1) hrunning
  · exact hfed ▸ .fed (index + 1) hrunning

theorem turned_step (cfg : ServerConfig) (codec : Codec) (w : World) (event : Event) :
    Turned cfg codec w event (w.step cfg codec event) := by
  cases event with
  | accept ok =>
    simp only [step]
    split_ifs
    · exact .accepted ok
    · exact .ignored _
  | upgradeRequest i request =>
    simp only [step]
    split_ifs with hfound
    · exact .requested request hfound
    · exact .ignored _
  | refusalWritten i =>
    simp only [step]
    split_ifs with hfound
    · exact .refused hfound
    · exact .ignored _
  | handshake i ok =>
    simp only [step]
    split
    · next j hfound => exact .shaken ok hfound
    · exact .ignored _
  | read i result => exact turned_on fun x hx => .read result (by simpa using hx)
  | write i result => exact turned_on fun x hx => .write result hx
  | closeFrame i ok => exact turned_on fun x hx => .closeFrame ok hx
  | oversizeClose i => exact turned_on fun x hx => .oversizeClose (by simpa using hx)
  | drainRead i ok => exact turned_on fun x hx => .drainRead ok (by simpa using hx)
  | feed => exact turned_feed
  | snapshot =>
    simp only [step]
    split_ifs with hstopping
    · exact .ignored _
    · exact .snapshot _ (by simpa using hstopping)
  | stop => exact turned_beginStop _

/-! ## From the session's side -/

/-- What a turn can do to the session `x` at `i`. -/
inductive Touched (cfg : ServerConfig) (codec : Codec) (w : World) (event : Event) (i : ℕ)
    (x : Session) : Session → Prop
  | completed {f : Turn → Turn} (completes : Completes cfg codec i x event f) :
      Touched cfg codec w event i x (f ⟨w.srv, x⟩).self
  | started (fresh : x = Session.create cfg) :
      Touched cfg codec w event i x
        { Session.create cfg with epoch := w.srv.nextEpoch + 1, reading := .message }
  | poked {x' : Session} (poked : Relation.ReflTransGen (Session.Poked cfg codec) x x') :
      Touched cfg codec w event i x x'

theorem Touched.refl (cfg : ServerConfig) (codec : Codec) (w : World) (event : Event) (i : ℕ)
    (x : Session) : Touched cfg codec w event i x x := .poked .refl

private theorem touched_pokes {event : Event} {i : ℕ} {x' : Session} {w₁ : World}
    (h : Pokes cfg codec w₁ w') (hheap : w₁.heap = w.heap) (hx' : w'.heap[i]? = some x') :
    ∃ x, w.heap[i]? = some x ∧ Touched cfg codec w event i x x' := by
  have hlt : i < w.heap.length := by
    rw [← hheap, ← h.length]
    exact (List.getElem?_eq_some_iff.mp hx').1
  obtain ⟨x'', hx'', hpoked⟩ := h.heap i w.heap[i] (by rw [hheap, List.getElem?_eq_getElem hlt])
  cases hx'.symm.trans hx''
  exact ⟨_, List.getElem?_eq_getElem hlt, .poked hpoked⟩

/-- Every session after a turn was there before and was touched, or has just been created. -/
theorem Inv.touched (h : w.Inv cfg) (codec : Codec) (event : Event) {i : ℕ} {x' : Session}
    (hx' : (w.step cfg codec event).heap[i]? = some x') :
    (∃ x, w.heap[i]? = some x ∧ Touched cfg codec w event i x x') ∨
      w.heap[i]? = none ∧ x' = Session.create cfg := by
  have hsame : ∀ w' : World, w'.heap = w.heap → w'.heap[i]? = some x' →
      ∃ x, w.heap[i]? = some x ∧ Touched cfg codec w event i x x' := fun w' hheap hx' =>
    ⟨x', hheap ▸ hx', .refl _ _ _ _ _ _⟩
  have hturned := turned_step cfg codec w event
  generalize w.step cfg codec event = w' at hturned hx'
  cases hturned with
  | ignored => exact Or.inl (hsame w rfl hx')
  | @completed _ j x f hfound hcompletes =>
    refine Or.inl ?_
    rw [heap_on hfound] at hx'
    by_cases hij : j = i
    · subst hij
      have hlt : j < w.heap.length := (List.getElem?_eq_some_iff.mp hfound).1
      obtain rfl : (f ⟨w.srv, x⟩).self = x' := by simpa [hlt] using hx'
      exact ⟨x, hfound, .completed hcompletes⟩
    · exact ⟨x', by simpa [hij] using hx', .refl _ _ _ _ _ _⟩
  | fed index _ => exact Or.inl (hsame (w.fed index) rfl hx')
  | dropped index _ => exact Or.inl (touched_pokes (pokes_closeAll cfg codec (w.fed index)) rfl hx')
  | published index bidPx bidQty askPx askQty _ =>
    exact Or.inl (touched_pokes (pokes_publishBook cfg codec (w.fed index) _ _ _ _) rfl hx')
  | stopped _ index hrunning =>
    refine Or.inl ?_
    rw [beginStop_of_running (w := w.fed index) hrunning] at hx'
    split_ifs at hx'
    · exact hsame (w.fed index) rfl hx'
    · exact touched_pokes (pokes_closeAll cfg codec (w.fed index).halted) rfl hx'
  | snapshot conflatedOf _ => exact Or.inl (hsame w rfl hx')
  | accepted ok =>
    refine Or.inl (hsame (w.onAccept cfg ok) ?_ hx')
    unfold World.onAccept
    dsimp only
    split_ifs <;> rfl
  | @requested j request _ =>
    -- a new session object stands at the end
    have hheap : (w.onUpgradeRequest cfg j request).heap = w.heap ∨
        (w.onUpgradeRequest cfg j request).heap = w.heap ++ [Session.create cfg] := by
      unfold World.onUpgradeRequest
      cases request with
      | none => exact Or.inl rfl
      | some req =>
        dsimp only
        split_ifs
        · exact Or.inl rfl
        · exact Or.inl rfl
        · exact Or.inl rfl
        · exact Or.inl rfl
        · exact Or.inr rfl
    rcases hheap with hheap | hheap
    · exact Or.inl (hsame _ hheap hx')
    · rw [hheap, List.getElem?_append] at hx'
      split_ifs at hx' with hlt
      · exact Or.inl (hsame w rfl hx')
      · rw [List.getElem?_singleton] at hx'
        split_ifs at hx'
        cases hx'
        exact Or.inr ⟨List.getElem?_eq_none (not_lt.mp hlt), rfl⟩
  | refused _ => exact Or.inl (hsame w rfl hx')
  | @shaken k j ok hfound =>
    refine Or.inl ?_
    obtain ⟨hx, heq⟩ := h.onHandshake_eq hfound ok
    rw [heq] at hx'
    split_ifs at hx'
    · exact hsame w rfl hx'
    · by_cases hij : j = i
      · subst hij
        have hlt : j < w.heap.length := (List.getElem?_eq_some_iff.mp hx).1
        rw [List.getElem?_set_self hlt] at hx'
        cases hx'
        exact ⟨_, hx, .started rfl⟩
      · exact ⟨x', by simpa [hij] using hx', .refl _ _ _ _ _ _⟩

/-- A started session stays where it is, with its epoch. -/
theorem Inv.getElem?_step (h : w.Inv cfg) (codec : Codec) (event : Event) {i : ℕ} {x : Session}
    (hx : w.heap[i]? = some x) (hstarted : x.epoch ≠ 0) :
    ∃ x', (w.step cfg codec event).heap[i]? = some x' ∧ x'.epoch = x.epoch ∧
      Touched cfg codec w event i x x' := by
  have hline : w.net.lines[i]? = some x.line := by simp [World.net, hx]
  obtain ⟨l, hl, hepoch⟩ :=
    (grows_netSteps (h.step_netSteps codec event).1).2 i x.line hline hstarted
  simp only [World.net, List.getElem?_map, Option.map_eq_some_iff] at hl
  obtain ⟨x', hx', rfl⟩ := hl
  rcases h.touched codec event hx' with ⟨x₀, hx₀, htouched⟩ | ⟨hnone, -⟩
  · cases hx.symm.trans hx₀
    exact ⟨x', hx', hepoch, htouched⟩
  · rw [hx] at hnone
    cases hnone

theorem run_concat (cfg : ServerConfig) (codec : Codec) (clock : ℕ → ℤ) (events : List Event)
    (event : Event) :
    run cfg codec clock (events ++ [event]) =
      (run cfg codec clock events).step cfg codec event := by
  rw [run, List.foldl_append]
  rfl

/-- A property of sessions that every way of touching one keeps holds in every run. -/
theorem run_forall_session {P : Session → Prop} (hcreate : P (Session.create cfg))
    (htouched : ∀ w event i x x', w.Inv cfg → w.heap[i]? = some x → P x →
      Touched cfg codec w event i x x' → P x')
    (clock : ℕ → ℤ) (events : List Event) : ∀ x ∈ (run cfg codec clock events).heap, P x := by
  induction events using List.reverseRecOn with
  | nil => exact fun x hx => by cases hx
  | append_singleton events event ih =>
    intro x hx
    have hinv := (run_steps cfg codec clock events).2
    rw [run_concat] at hx
    obtain ⟨i, hi⟩ := List.getElem?_of_mem hx
    rcases hinv.touched codec event hi with ⟨x₀, hx₀, htouch⟩ | ⟨-, rfl⟩
    · exact htouched _ event i x₀ x hinv hx₀ (ih x₀ (List.mem_of_getElem? hx₀)) htouch
    · exact hcreate

end World

end MarketMaker
