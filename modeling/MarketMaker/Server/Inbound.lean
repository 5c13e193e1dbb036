import MarketMaker.Server.Frames

/-!
# Inbound sequencing

`World.consumedIn` collects the commands a session consumes along a run. Its sequencer counts
exactly these, and the engine is handed those that carry the session's epoch. After a command out
of sequence the session hears nothing.
-/

namespace MarketMaker

/-! ## Turns -/

namespace World

variable {cfg : ServerConfig} {codec : Codec} {w w' : World}

/-- The command an event is consumed as by the session at `i`. -/
def consumed (codec : Codec) (w : World) (i : ℕ) : Event → Option InMsg
  | .read j result =>
    if j = i then
      match w.heap[i]? with
      | some x => if x.reading = .message then x.taken codec result else none
      | none => none
    else none
  | _ => none

/-- The commands the session at `i` consumes along a run. -/
def consumedFrom (cfg : ServerConfig) (codec : Codec) (i : ℕ) : World → List Event → List InMsg
  | _, [] => []
  | w, event :: events =>
    (w.consumed codec i event).toList ++ consumedFrom cfg codec i (w.step cfg codec event) events

def consumedIn (cfg : ServerConfig) (codec : Codec) (clock : ℕ → ℤ) (i : ℕ) (events : List Event) :
    List InMsg := consumedFrom cfg codec i (init clock) events

theorem consumedFrom_concat (i : ℕ) (events : List Event) (event : Event) (w : World) :
    consumedFrom cfg codec i w (events ++ [event]) = consumedFrom cfg codec i w events ++
      ((events.foldl (step cfg codec) w).consumed codec i event).toList := by
  induction events generalizing w with
  | nil => simp [consumedFrom]
  | cons first events ih =>
    rw [List.cons_append, consumedFrom, consumedFrom, ih, List.append_assoc]
    rfl

theorem consumed_eq_some {i : ℕ} {event : Event} {msg : InMsg}
    (h : w.consumed codec i event = some msg) :
    ∃ x result, event = .read i result ∧ w.heap[i]? = some x ∧ x.reading = .message ∧
      x.taken codec result = some msg := by
  cases event with
  | read j result =>
    simp only [consumed] at h
    split_ifs at h with hij
    subst hij
    split at h
    · next x hx =>
      split_ifs at h with hreading
      exact ⟨x, result, rfl, hx, hreading, h⟩
    · cases h
  | _ => cases h

/-- What a turn adds to the commands handed to the engine, and to the sequencers. -/
structure Heard (cfg : ServerConfig) (codec : Codec) (w : World) (event : Event) (w' : World)
    (new : List (ℕ × InMsg)) : Prop where
  served : servedIn w'.srv.calls = servedIn w.srv.calls ++ new
  own : ∀ p ∈ new, p.2.epoch = p.1 ∧ ∃ (i : ℕ) (x : Session), w.heap[i]? = some x ∧
    x.epoch = p.1 ∧ x.epoch ≠ 0
  taken : ∀ (i : ℕ) x, w.heap[i]? = some x → x.epoch ≠ 0 →
    (new.filter fun p => p.1 = x.epoch).map Prod.snd =
      (w.consumed codec i event).toList.filter fun msg => msg.epoch = x.epoch

/-- Nothing was heard. -/
theorem Heard.nothing {event : Event} (hserved : servedIn w'.srv.calls = servedIn w.srv.calls)
    (hconsumed : ∀ i, w.consumed codec i event = none) : Heard cfg codec w event w' [] where
  served := hserved.trans (List.append_nil _).symm
  own p hp := by cases hp
  taken i x _ _ := by
    rw [hconsumed i]
    rfl

/-- A turn that completes no read hands nothing to the engine. -/
theorem served_turned {event : Event} (h : Turned cfg codec w event w') (hinv : w.Inv cfg)
    (hread : ∀ i result, event ≠ .read i result) :
    servedIn w'.srv.calls = servedIn w.srv.calls := by
  have hfinalize : ∀ srv : ServerImpl, srv.finalize.calls = srv.calls := fun srv =>
    congrArg Hub.calls (Session.hub_finalize srv)
  cases h with
  | ignored => rfl
  | @completed _ i x f hfound hcompletes =>
    rw [heap_on hfound]
    have hnone : x.takenBy codec event = none := by
      cases event with
      | read j result => exact absurd rfl (hread j result)
      | _ => rfl
    have hheard := Session.hears_completes hcompletes w.srv
    rw [hnone] at hheard
    exact hheard.served.trans (List.append_nil _)
  | fed index _ => rfl
  | dropped index _ => exact (pokes_closeAll cfg codec (w.fed index)).served
  | published index bidPx bidQty askPx askQty _ =>
    refine (pokes_publishBook cfg codec (w.fed index) bidPx bidQty askPx askQty).served.trans ?_
    simp [processed, ServerImpl.call, ServerImpl.steadyNs, servedIn, commandOf, fed]
  | stopped _ index hrunning =>
    rw [beginStop_of_running (w := w.fed index) hrunning]
    split_ifs
    · exact congrArg servedIn (hfinalize _)
    · exact (pokes_closeAll cfg codec (w.fed index).halted).served
  | snapshot conflatedOf _ => rfl
  | accepted ok =>
    unfold World.onAccept
    dsimp only
    split_ifs <;> rfl
  | @requested j request _ =>
    unfold World.onUpgradeRequest
    cases request with
    | none => rfl
    | some req =>
      dsimp only
      split_ifs <;> rfl
  | refused _ => rfl
  | shaken ok hfound =>
    rw [(hinv.onHandshake_eq hfound ok).2]
    split_ifs <;> rfl

theorem Inv.heard (h : w.Inv cfg) (codec : Codec) (event : Event) :
    ∃ new, Heard cfg codec w event (w.step cfg codec event) new := by
  by_cases hread : ∃ j result x, event = .read j result ∧ w.heap[j]? = some x ∧ x.reading = .message
  · obtain ⟨j, result, x, rfl, hx, hreading⟩ := hread
    have hstep : w.step cfg codec (.read j result) = w.on j (Session.onRead cfg codec result) := by
      rw [World.step, if_pos (by simp [sessionIs, hx, hreading])]
    have hcompletes : Completes cfg codec j x (.read j result) (Session.onRead cfg codec result) :=
      .read result hreading
    have hstarted : x.epoch ≠ 0 := h.started_completes hx hcompletes
    have hheard := Session.hears_onRead cfg codec result ⟨w.srv, x⟩
    rw [hstep, heap_on hx]
    refine ⟨_, hheard.served, fun p hp => ?_, fun i y hy hy0 => ?_⟩
    · obtain ⟨msg, hmsg, rfl⟩ := List.mem_map.mp hp
      have hepoch : msg.epoch = x.epoch := by simpa using (List.mem_filter.mp hmsg).2
      exact ⟨hepoch, j, x, hx, rfl, hstarted⟩
    · by_cases hij : j = i
      · subst hij
        cases hx.symm.trans hy
        simp [consumed, hx, hreading, List.filter_map, Function.comp_def]
      · -- another session has another epoch
        have hne : x.epoch ≠ y.epoch := fun heq =>
          hij (h.net.roster.epoch_inj j i x.line.row y.line.row (Inv.row hx)
            (Inv.row hy) hstarted heq)
        simp [consumed, hij, hne, List.filter_map, Function.comp_def]
  · have hconsumed : ∀ i, w.consumed codec i event = none := by
      intro i
      cases hc : w.consumed codec i event with
      | none => rfl
      | some msg =>
        obtain ⟨x, result, hevent, hx, hreading, -⟩ := consumed_eq_some hc
        exact absurd ⟨i, result, x, hevent, hx, hreading⟩ hread
    refine ⟨[], Heard.nothing ?_ hconsumed⟩
    by_cases hevent : ∃ j result, event = .read j result
    · obtain ⟨j, result, rfl⟩ := hevent
      have hidle : w.sessionIs j (·.reading = .message) = false := by
        rw [sessionIs]
        split
        · next x hx =>
          rw [decide_eq_false_iff_not]
          exact fun hreading => hread ⟨j, result, x, rfl, hx, hreading⟩
        · rfl
      rw [World.step, hidle]
      rfl
    · refine served_turned (turned_step cfg codec w event) h fun i result heq => ?_
      exact hevent ⟨i, result, heq⟩

/-- A sequencer moves by the command its session consumed. -/
theorem Inv.counted (h : w.Inv cfg) (codec : Codec) (event : Event) {i : ℕ} {x x' : Session}
    (hx : w.heap[i]? = some x) (hx' : (w.step cfg codec event).heap[i]? = some x') :
    x'.inSeqExpected = x.inSeqExpected + (w.consumed codec i event).toList.length := by
  by_cases hread : ∃ result, event = .read i result ∧ x.reading = .message
  · obtain ⟨result, rfl, hreading⟩ := hread
    have hlt : i < w.heap.length := (List.getElem?_eq_some_iff.mp hx).1
    rw [World.step, if_pos (by simp [sessionIs, hx, hreading]), heap_on hx] at hx'
    obtain rfl : (Session.onRead cfg codec result ⟨w.srv, x⟩).self = x' := by simpa [hlt] using hx'
    simpa [consumed, hx, hreading] using
      (Session.hears_onRead cfg codec result ⟨w.srv, x⟩).inSeqExpected
  · have hconsumed : w.consumed codec i event = none := by
      cases hc : w.consumed codec i event with
      | none => rfl
      | some msg =>
        obtain ⟨y, result, hevent, hy, hreading, -⟩ := consumed_eq_some hc
        cases hx.symm.trans hy
        exact absurd ⟨result, hevent, hreading⟩ hread
    rw [hconsumed]
    rcases h.touched codec event hx' with ⟨y, hy, htouched⟩ | ⟨hnone, -⟩
    · cases hx.symm.trans hy
      cases htouched with
      | completed hcompletes =>
        have hnone : x.takenBy codec event = none := by
          cases hcompletes with
          | read result hpending => exact absurd ⟨result, rfl, hpending⟩ hread
          | _ => rfl
        have hheard := Session.hears_completes hcompletes w.srv
        rw [hnone] at hheard
        exact hheard.inSeqExpected
      | started hfresh =>
        rw [hfresh]
        rfl
      | poked hpoked => exact (Session.passive_poked hpoked).inSeqExpected
    · rw [hx] at hnone
      cases hnone

/-! ## Runs -/

/-- What the sequencers and the engine have heard, given the commands each session consumed. -/
structure Sequenced (w : World) (taken : ℕ → List InMsg) : Prop where
  counted : ∀ (i : ℕ) x, w.heap[i]? = some x → x.inSeqExpected = 1 + (taken i).length
  seqs : ∀ i, (taken i).map InMsg.seq = List.range' 1 (taken i).length
  unheard : ∀ i, (∀ x, w.heap[i]? = some x → x.epoch = 0) → taken i = []
  served : ∀ (i : ℕ) x, w.heap[i]? = some x → x.epoch ≠ 0 →
    ((servedIn w.srv.calls).filter fun p => p.1 = x.epoch).map Prod.snd =
      (taken i).filter fun msg => msg.epoch = x.epoch
  own : ∀ p ∈ servedIn w.srv.calls, p.2.epoch = p.1 ∧ ∃ (i : ℕ) (x : Session),
    w.heap[i]? = some x ∧ x.epoch = p.1 ∧ x.epoch ≠ 0

theorem Sequenced.step {taken : ℕ → List InMsg} (h : w.Sequenced taken) (hinv : w.Inv cfg)
    (codec : Codec) (event : Event) :
    (w.step cfg codec event).Sequenced fun i => taken i ++ (w.consumed codec i event).toList := by
  obtain ⟨new, hheard⟩ := hinv.heard codec event
  -- only a started session consumes, and what it consumes carries the expected number
  have hconsumed : ∀ i msg, w.consumed codec i event = some msg →
      ∃ x, w.heap[i]? = some x ∧ x.epoch ≠ 0 ∧ msg.seq = x.inSeqExpected := by
    intro i msg hmsg
    obtain ⟨x, result, rfl, hx, hreading, htaken⟩ := consumed_eq_some hmsg
    have hcompletes : Completes cfg codec i x (.read i result) (Session.onRead cfg codec result) :=
      .read result hreading
    exact ⟨x, hx, hinv.started_completes hx hcompletes, Session.seq_of_taken htaken⟩
  have hidle : ∀ i, (∀ x, w.heap[i]? = some x → x.epoch = 0) →
      w.consumed codec i event = none := by
    intro i hnone
    cases hc : w.consumed codec i event with
    | none => rfl
    | some msg =>
      obtain ⟨x, hx, hstarted, -⟩ := hconsumed i msg hc
      exact absurd (hnone x hx) hstarted
  refine ⟨fun i x' hx' => ?_, fun i => ?_, fun i hnone => ?_, fun i x' hx' hstarted => ?_,
    fun p hp => ?_⟩
  · rcases hinv.touched codec event hx' with ⟨x, hx, -⟩ | ⟨hnone, rfl⟩
    · rw [hinv.counted codec event hx hx', h.counted i x hx, List.length_append, Nat.add_assoc]
    · have hunborn : ∀ x, w.heap[i]? = some x → x.epoch = 0 := fun x hx => by
        rw [hnone] at hx
        cases hx
      rw [h.unheard i hunborn, hidle i hunborn]
      rfl
  · cases hc : w.consumed codec i event with
    | none => simpa using h.seqs i
    | some msg =>
      obtain ⟨x, hx, -, hseq⟩ := hconsumed i msg hc
      rw [Option.toList_some, List.map_append, h.seqs i, List.length_append, List.length_singleton,
        List.range'_concat, List.map_singleton, hseq, h.counted i x hx, Nat.one_mul]
  · -- a session that has not started now had not started before
    have hbefore : ∀ x, w.heap[i]? = some x → x.epoch = 0 := by
      intro x hx
      by_contra hstarted
      obtain ⟨x', hx', hepoch, -⟩ := hinv.getElem?_step codec event hx hstarted
      exact hstarted (hepoch.symm.trans (hnone x' hx'))
    rw [h.unheard i hbefore, hidle i hbefore]
    rfl
  · rw [hheard.served, List.filter_append, List.map_append, List.filter_append]
    rcases hinv.touched codec event hx' with ⟨x, hx, -⟩ | ⟨-, rfl⟩
    · by_cases hold : x.epoch = 0
      · -- the session started in this turn: its epoch is new, and nothing was heard for it
        have hunstarted : ∀ y, w.heap[i]? = some y → y.epoch = 0 := fun y hy => by
          cases hx.symm.trans hy
          exact hold
        have hnext : (w.step cfg codec event).Inv cfg := (hinv.step_netSteps codec event).2
        have hnew : ∀ ps : List (ℕ × InMsg), (∀ p ∈ ps, ∃ (j : ℕ) (y : Session),
            w.heap[j]? = some y ∧ y.epoch = p.1 ∧ y.epoch ≠ 0) →
            ps.filter (fun p => p.1 = x'.epoch) = [] := by
          intro ps howned
          rw [List.filter_eq_nil_iff]
          intro p hp heq
          obtain ⟨j, y, hy, hepoch, hy0⟩ := howned p hp
          obtain ⟨y', hy', hkept, -⟩ := hinv.getElem?_step codec event hy hy0
          have hsame : x'.epoch = y'.epoch := by
            rw [hkept, hepoch]
            exact (of_decide_eq_true heq).symm
          obtain rfl : i = j := hnext.net.roster.epoch_inj i j x'.line.row y'.line.row
            (Inv.row hx') (Inv.row hy') hstarted hsame
          exact hy0 (hunstarted y hy)
        rw [hnew _ fun p hp => (h.own p hp).2, hnew _ fun p hp => (hheard.own p hp).2,
          h.unheard i hunstarted, hidle i hunstarted]
        rfl
      · obtain ⟨y, hy, hepoch, -⟩ := hinv.getElem?_step codec event hx hold
        cases hx'.symm.trans hy
        rw [hepoch, h.served i x hx hold, hheard.taken i x hx hold]
    · exact absurd rfl hstarted
  · rw [hheard.served] at hp
    have hbefore : p.2.epoch = p.1 ∧ ∃ (i : ℕ) (x : Session), w.heap[i]? = some x ∧
        x.epoch = p.1 ∧ x.epoch ≠ 0 := (List.mem_append.mp hp).elim (h.own p) (hheard.own p)
    obtain ⟨hown, i, x, hx, hepoch, hstarted⟩ := hbefore
    obtain ⟨x', hx', hkept, -⟩ := hinv.getElem?_step codec event hx hstarted
    exact ⟨hown, i, x', hx', hkept.trans hepoch, fun h0 => hstarted (hkept.symm.trans h0)⟩

theorem run_sequenced (cfg : ServerConfig) (codec : Codec) (clock : ℕ → ℤ) (events : List Event) :
    (run cfg codec clock events).Sequenced fun i => consumedIn cfg codec clock i events := by
  induction events using List.reverseRecOn with
  | nil =>
    refine ⟨fun i x hx => ?_, fun i => rfl, fun i _ => rfl, fun i x hx => ?_, fun p hp => ?_⟩
    · cases hx
    · cases hx
    · cases hp
  | append_singleton events event ih =>
    have hnext := ih.step (run_steps cfg codec clock events).2 codec event
    rw [run_concat]
    have hconcat : (fun i => consumedIn cfg codec clock i (events ++ [event])) = fun i =>
        consumedIn cfg codec clock i events ++
          ((run cfg codec clock events).consumed codec i event).toList :=
      funext fun i => consumedFrom_concat i events event (init clock)
    rw [hconcat]
    exact hnext

/-- A latched close stays along a run. -/
theorem shut_netSteps {n n' : Net} {code : CloseCode} (h : NetSteps cfg codec n n') {i : ℕ}
    {l : Line} (hl : n.lines[i]? = some l) (hstarted : l.epoch ≠ 0) (hs : Session.Shut code l) :
    ∃ l', n'.lines[i]? = some l' ∧ l'.epoch = l.epoch ∧ Session.Shut code l' := by
  induction h with
  | refl => exact ⟨l, hl, rfl, hs⟩
  | @tail m m' _ hlast ih =>
    obtain ⟨k, hk, hepoch, hshut⟩ := ih
    have hk0 : k.epoch ≠ 0 := fun h0 => hstarted (hepoch.symm.trans h0)
    have hlt : i < m.lines.length := (List.getElem?_eq_some_iff.mp hk).1
    cases hlast with
    | publish _ => exact ⟨k, hk, hepoch, hshut⟩
    | move hmove =>
      cases hmove with
      | @act j k₀ v hfound _ hact =>
        by_cases hij : j = i
        · subst hij
          cases hk.symm.trans hfound
          exact ⟨v.line, List.getElem?_set_self hlt, (epoch_act hact).trans hepoch,
            Session.shut_act hact hshut⟩
        · exact ⟨k, (List.getElem?_set_ne hij).trans hk, hepoch, hshut⟩
      | create => exact ⟨k, (List.getElem?_append_left hlt).trans hk, hepoch, hshut⟩
      | @start j hfound =>
        have hij : j ≠ i := by
          rintro rfl
          cases hk.symm.trans hfound
          exact hk0 rfl
        exact ⟨k, (List.getElem?_set_ne hij).trans hk, hepoch, hshut⟩

/-- A closing session stays so, with its code, and its sequencer stands still. -/
theorem Inv.shut (h : w.Inv cfg) (codec : Codec) {i : ℕ} {x : Session} {code : CloseCode}
    (hx : w.heap[i]? = some x) (hstarted : x.epoch ≠ 0) (hs : Session.Shut code x.line)
    (later : List Event) :
    ∃ y, (later.foldl (World.step cfg codec) w).heap[i]? = some y ∧ y.epoch = x.epoch ∧
      Session.Shut code y.line ∧ y.inSeqExpected = x.inSeqExpected := by
  induction later generalizing w x with
  | nil => exact ⟨x, hx, rfl, hs, rfl⟩
  | cons event later ih =>
    have hline : w.net.lines[i]? = some x.line := by simp [World.net, hx]
    obtain ⟨l, hl, hepoch, hshut⟩ :=
      shut_netSteps (h.step_netSteps codec event).1 hline hstarted hs
    simp only [World.net, List.getElem?_map, Option.map_eq_some_iff] at hl
    obtain ⟨y, hy, rfl⟩ := hl
    have hnone : w.consumed codec i event = none := by
      cases hc : w.consumed codec i event with
      | none => rfl
      | some msg =>
        obtain ⟨z, result, -, hz, -, htaken⟩ := consumed_eq_some hc
        cases hx.symm.trans hz
        have hclosing : x.closing = true := hs.1
        cases result with
        | text frame =>
          rw [Session.taken, hclosing, Bool.true_or, if_pos rfl] at htaken
          cases htaken
        | _ => cases htaken
    have hcounted := h.counted codec event hx hy
    rw [hnone] at hcounted
    obtain ⟨z, hz, hzepoch, hzshut, hzseq⟩ :=
      ih (h.step_netSteps codec event).2 hy (fun h0 => hstarted (hepoch.symm.trans h0)) hshut
    exact ⟨z, hz, hzepoch.trans hepoch, hzshut, hzseq.trans hcounted⟩

/-- A session that closes or has left hears nothing. -/
theorem Inv.deaf (h : w.Inv cfg) (codec : Codec) {i : ℕ} {x : Session} (hx : w.heap[i]? = some x)
    (hleft : x.closing = true ∨ x.tornDown = true) (result : Session.ReadResult) :
    (w.step cfg codec (.read i result)).srv.engine = w.srv.engine ∧
      ∃ y, (w.step cfg codec (.read i result)).heap[i]? = some y ∧
        enqueuedIn y.log = enqueuedIn x.log := by
  have hretired : x.epochRetired = true := by
    refine (h.sound (List.mem_of_getElem? hx)).retired.trans ?_
    rcases hleft with hc | hdown <;> simp [Session.line, *]
  have hlt : i < w.heap.length := (List.getElem?_eq_some_iff.mp hx).1
  rw [World.step]
  split_ifs
  · obtain ⟨hengine, hqueued⟩ :=
      Session.deaf_onRead (t := ⟨w.srv, x⟩) cfg codec result hleft hretired
    rw [heap_on hx]
    exact ⟨hengine, _, List.getElem?_set_self hlt, hqueued⟩
  · exact ⟨rfl, x, hx, rfl⟩

/-- An open session that waits for a frame. -/
def Listening (w : World) (i : ℕ) (x : Session) : Prop :=
  w.heap[i]? = some x ∧ x.reading = .message ∧ x.closing = false ∧ x.tornDown = false

/-- What a frame does to a session that waits for it. -/
theorem Listening.frame {i : ℕ} {x : Session} (h : w.Listening i x) (cfg : ServerConfig)
    (codec : Codec) (frame : Bytes) :
    ∃ y answer, (w.step cfg codec (.read i (.text frame))).heap[i]? = some y ∧
      enqueuedIn y.log = enqueuedIn x.log ++ answer ∧ Session.Verdict codec x frame answer ∧
      y.inSeqExpected = x.inSeqExpected + (x.accepts codec frame).toList.length ∧
      (answer = [] → Session.Shut .protocolError y.line) := by
  obtain ⟨hx, hreading, hopen, hup⟩ := h
  let idle : Turn := ⟨w.srv, { x with reading := .idle }⟩
  have hlt : i < w.heap.length := (List.getElem?_eq_some_iff.mp hx).1
  have hread : Session.onRead cfg codec (.text frame) ⟨w.srv, x⟩ =
      Session.onFrame cfg codec (some frame) idle := by
    unfold Session.onRead
    dsimp only
    rw [if_neg (by simp [hup])]
  rw [World.step, if_pos (by simp [sessionIs, hx, hreading]), heap_on hx]
  obtain ⟨answer, hqueues, hverdict⟩ := Session.answers_onFrame (t := idle) cfg codec frame hopen
  have hheard := (Session.hears_onFrame cfg codec (some frame) idle).inSeqExpected
  rw [if_neg (by simp [idle, hopen])] at hheard
  refine ⟨_, answer, List.getElem?_set_self hlt, ?_, ?_, ?_, ?_⟩
  · rw [hread]
    exact hqueues
  · cases hverdict with
    | undecoded code spelled why => exact .undecoded code spelled why
    | outOfSeq size decoded gap => exact .outOfSeq size decoded gap
    | consumed size decoded next after => exact .consumed size decoded next after
  · rw [hread]
    exact hheard
  · rintro rfl
    rw [hread]
    cases hverdict with
    | outOfSeq hsize hdecoded hgap => exact Session.shut_onFrame hopen hup hsize hdecoded hgap

/-- The sequencer of a session counts the commands that were consumed, which carry the numbers from
1 on without a gap; the engine is handed those of them that carry the session's epoch, in order,
and nothing else. A frame answered with a code raised before the sequencer consumes no number, any
other answer to a command, and to a frame if the codec keeps to its codes, consumes one. A command
out of sequence draws no answer and latches 1002, and nothing the session reads from then on reaches
the engine or draws a report. -/
theorem run_inbound (cfg : ServerConfig) (codec : Codec) (clock : ℕ → ℤ) (events : List Event) :
    let w := run cfg codec clock events
    (∀ (i : ℕ) (x : Session), w.heap[i]? = some x →
      let consumed := consumedIn cfg codec clock i events
      x.inSeqExpected = 1 + consumed.length ∧
        consumed.map InMsg.seq = List.range' 1 consumed.length ∧
        (x.epoch ≠ 0 →
          ((servedIn w.srv.calls).filter fun p => p.1 = x.epoch).map Prod.snd =
              consumed.filter (fun msg => msg.epoch = x.epoch) ∧
            (((servedIn w.srv.calls).filter fun p => p.1 = x.epoch).map fun p => p.2.seq).Pairwise
              (· < ·))) ∧
      (∀ p ∈ servedIn w.srv.calls, p.2.epoch = p.1) ∧
      (∀ i x, w.Listening i x → ∀ frame, ∃ y answer,
        (w.step cfg codec (.read i (.text frame))).heap[i]? = some y ∧
          enqueuedIn y.log = enqueuedIn x.log ++ answer ∧
          ((∃ p ∈ answer, p.1.isPreSequencer = true) → y.inSeqExpected = x.inSeqExpected) ∧
          (frame.length ≤ maxInboundMsgBytes → ∀ msg, codec.decode frame = .ok msg →
            answer ≠ [] → y.inSeqExpected = x.inSeqExpected + 1) ∧
          (codec.Documented → ∀ p ∈ answer, p.1.isPreSequencer = false →
            y.inSeqExpected = x.inSeqExpected + 1)) ∧
      ∀ i x, w.Listening i x → ∀ frame msg, frame.length ≤ maxInboundMsgBytes →
        codec.decode frame = .ok msg → msg.seq ≠ x.inSeqExpected →
        (∃ y, (w.step cfg codec (.read i (.text frame))).heap[i]? = some y ∧
          enqueuedIn y.log = enqueuedIn x.log) ∧
        ∀ later, let w' := run cfg codec clock (events ++ .read i (.text frame) :: later)
          ∃ y, w'.heap[i]? = some y ∧ y.closing = true ∧ y.closeCode = .protocolError ∧
            y.inSeqExpected = x.inSeqExpected ∧
            ∀ result, (w'.step cfg codec (.read i result)).srv.engine = w'.srv.engine ∧
              ∃ z, (w'.step cfg codec (.read i result)).heap[i]? = some z ∧
                enqueuedIn z.log = enqueuedIn y.log := by
  intro w
  have hinv : w.Inv cfg := (run_steps cfg codec clock events).2
  have hseq := run_sequenced cfg codec clock events
  refine ⟨fun i x hx => ?_, fun p hp => (hseq.own p hp).1, fun i x hlisten frame => ?_,
    fun i x hlisten frame msg hsize hdecode hgap => ?_⟩
  · refine ⟨hseq.counted i x hx, hseq.seqs i, fun hstarted => ⟨hseq.served i x hx hstarted, ?_⟩⟩
    -- the numbers handed on are a subsequence of consecutive ones
    have hmap : (((servedIn w.srv.calls).filter fun p => p.1 = x.epoch).map fun p => p.2.seq) =
        ((consumedIn cfg codec clock i events).filter fun msg => msg.epoch = x.epoch).map
          InMsg.seq := by
      rw [← hseq.served i x hx hstarted, List.map_map]
      rfl
    have hsub : List.Sublist
        (((consumedIn cfg codec clock i events).filter fun msg => msg.epoch = x.epoch).map
          InMsg.seq)
        (List.range' 1 (consumedIn cfg codec clock i events).length) := by
      rw [← hseq.seqs i]
      exact List.filter_sublist.map _
    rw [hmap]
    exact (List.pairwise_lt_range' _ (by decide)).sublist hsub
  · obtain ⟨y, answer, hy, hqueued, hverdict, hcounted, -⟩ := hlisten.frame cfg codec frame
    refine ⟨y, answer, hy, hqueued, ?_⟩
    cases hverdict with
    | undecoded code spelled why =>
      have hnone : x.accepts codec frame = none := by
        rcases why with ⟨hlong, -⟩ | ⟨hshort, err, herr, -⟩
        · rw [Session.accepts, if_pos hlong]
        · rw [Session.accepts, if_neg (not_lt.mpr hshort), herr]
      rw [hnone] at hcounted
      refine ⟨fun _ => hcounted, fun hshort msg hdecode _ => ?_, fun hcodes p hp hafter => ?_⟩
      · rcases why with ⟨hlong, -⟩ | ⟨-, err, herr, -⟩
        · exact absurd hshort (not_le.mpr hlong)
        · rw [herr] at hdecode
          cases hdecode
      · -- an undecoded frame is answered with one of the four codes
        have hpre : code ∈ preSequencer := by
          rcases why with ⟨-, rfl⟩ | ⟨-, err, herr, rfl⟩
          · decide
          · exact List.mem_cons_of_mem _ (hcodes frame err herr)
        rw [List.mem_singleton.mp hp, isPreSequencer_reject code spelled] at hafter
        exact absurd hpre (of_decide_eq_false hafter)
    | outOfSeq _ _ _ =>
      refine ⟨?_, fun _ _ _ hne => absurd rfl hne, fun _ p hp => by cases hp⟩
      rintro ⟨p, hp, -⟩
      cases hp
    | @consumed msg p size decoded next after =>
      have hsome : x.accepts codec frame = some msg := by
        rw [Session.accepts, if_neg (not_lt.mpr size), decoded]
        exact if_pos next
      rw [hsome] at hcounted
      refine ⟨?_, fun _ _ _ _ => hcounted, fun _ _ _ _ => hcounted⟩
      rintro ⟨p, hp, hpre⟩
      rw [List.mem_singleton.mp hp, after] at hpre
      cases hpre
  · obtain ⟨y, answer, hy, hqueued, hverdict, hcounted, hshut⟩ := hlisten.frame cfg codec frame
    have hnothing : answer = [] ∧ x.accepts codec frame = none := by
      cases hverdict with
      | undecoded code spelled why =>
        rcases why with ⟨hlong, -⟩ | ⟨-, err, herr, -⟩
        · exact absurd hsize (not_le.mpr hlong)
        · rw [herr] at hdecode
          cases hdecode
      | outOfSeq _ _ _ =>
        refine ⟨rfl, ?_⟩
        rw [Session.accepts, if_neg (not_lt.mpr hsize), hdecode]
        exact if_neg hgap
      | consumed _ decoded next _ =>
        cases hdecode.symm.trans decoded
        exact absurd next hgap
    obtain ⟨rfl, hnone⟩ := hnothing
    rw [hnone] at hcounted
    refine ⟨⟨y, hy, hqueued.trans (List.append_nil _)⟩, fun later => ?_⟩
    intro w'
    have hcompletes : Completes cfg codec i x (.read i (.text frame))
        (Session.onRead cfg codec (.text frame)) := .read _ hlisten.2.1
    have hstarted : x.epoch ≠ 0 := hinv.started_completes hlisten.1 hcompletes
    obtain ⟨y', hy', hepoch, -⟩ :=
      hinv.getElem?_step codec (.read i (.text frame)) hlisten.1 hstarted
    cases hy.symm.trans hy'
    have hnext := (hinv.step_netSteps codec (.read i (.text frame))).2
    have hw' : w' = later.foldl (World.step cfg codec)
        (w.step cfg codec (.read i (.text frame))) := by
      simp only [w', w, run, List.foldl_append, List.foldl_cons]
    obtain ⟨z, hz, -, hzshut, hzseq⟩ :=
      hnext.shut codec hy (fun h0 => hstarted (hepoch.symm.trans h0)) (hshut rfl) later
    rw [← hw'] at hz
    refine ⟨z, hz, hzshut.1, hzshut.2, hzseq.trans hcounted, fun result => ?_⟩
    have hinv' : w'.Inv cfg := (run_steps cfg codec clock _).2
    exact hinv'.deaf codec hz (Or.inl hzshut.1) result

/-- A codec of two-byte frames: the sequence number and the epoch of an order. -/
def staleCodec : Codec where
  decode
    | [seq, epoch] =>
      .ok (.newOrder
        { seq := seq.toNat, epoch := epoch.toNat, clId := [seq], symbol := ascii "MOCKUSDT",
          side := ascii "B", px := 100, qty := 10, postOnly := false })
    | _ => .error ⟨.malformed, []⟩
  encode _ := [0]

/-- The second of three commands carries another epoch. -/
def staleEvents : List Event :=
  [.accept true, .upgradeRequest 0 (some ⟨true, true, false⟩), .handshake 0 true,
    .read 0 (.text [1, 1]), .read 0 (.text [2, 9]), .read 0 (.text [3, 1])]

/-- The numbers handed to the engine need not be consecutive: a stale epoch takes one out. -/
theorem run_inbound_stale :
    ¬∀ (cfg : ServerConfig) (codec : Codec) (clock : ℕ → ℤ) (events : List Event) (i : ℕ)
      (x : Session), (run cfg codec clock events).heap[i]? = some x → x.epoch ≠ 0 →
        ∃ first n, ((servedIn (run cfg codec clock events).srv.calls).filter
          fun p => p.1 = x.epoch).map (fun p => p.2.seq) = List.range' first n := by
  intro h
  have hrun : ∃ x, (run dropConfig staleCodec (fun n => 5 * n) staleEvents).heap[0]? = some x ∧
      x.epoch ≠ 0 ∧ ((servedIn
        (run dropConfig staleCodec (fun n => 5 * n) staleEvents).srv.calls).filter
        fun p => p.1 = x.epoch).map (fun p => p.2.seq) = [1, 3] :=
    ⟨_, rfl, by decide, by decide⟩
  obtain ⟨x, hx, hstarted, hseqs⟩ := hrun
  obtain ⟨first, n, hrange⟩ := h dropConfig staleCodec _ staleEvents 0 x hx hstarted
  rw [hseqs] at hrange
  have hlength := congrArg List.length hrange
  rw [List.length_range'] at hlength
  obtain rfl : n = 2 := hlength.symm
  simp [List.range'] at hrange
  omega

end World

end MarketMaker
