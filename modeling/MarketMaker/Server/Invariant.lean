import MarketMaker.Server.Roster

/-!
# The invariant of the net

`Line.Sound` bounds the outbox of a line and ties its flags together; `Net.Inv` adds the roster and
the numbers of the ticks. Both are checked once per step of `Server.Line`.

Between the push of a report and the end of the policy check that follows it, a breached mark may
stand without a close. `Line.Fits` is what holds there too.
-/

namespace MarketMaker

open OrderEngine (Call)

/-! ## Lines -/

/-- What holds of a line even inside a policy check. -/
structure Line.Fits (cfg : ServerConfig) (l : Line) : Prop where
  retired : l.epochRetired = (l.closing || l.tornDown)
  sent : l.closeFrameSent = true → l.closing = true
  reportHwm : l.outbox.reportHwm = cfg.reportHwm
  unbreached : l.outbox.reportHwmBreached = false → l.outbox.reports.length ≤ cfg.reportHwm
  backlog : l.outbox.reports.length ≤ cfg.backlog
  queued : ∀ msg cause q, .enqueued msg cause q ∈ l.log → q ≤ cfg.backlog
  isReport : ∀ msg ∈ l.outbox.reports, msg.isTob = false

/-- What holds of a line between steps. -/
structure Line.Sound (cfg : ServerConfig) (l : Line) : Prop extends Line.Fits cfg l where
  settled : l.outbox.reportHwmBreached = true → l.closing = true

section Lines

variable {cfg : ServerConfig} {codec : Codec} {v v' : View}

/-- A line that is not closing has room for one more report. -/
theorem Line.Sound.room {l : Line} (h : l.Sound cfg) (hc : l.closing = false) :
    l.outbox.reports.length < cfg.backlog := by
  have hbreach : l.outbox.reportHwmBreached = false := by
    by_contra hne
    have hclosing := h.settled (by simpa using hne)
    rw [hc] at hclosing
    cases hclosing
  have hle := h.unbreached hbreach
  unfold ServerConfig.backlog
  omega

theorem sound_fresh (cfg : ServerConfig) (epoch : ℕ) :
    ({ Line.fresh cfg with epoch } : Line).Sound cfg where
  retired := rfl
  sent hsent := by cases hsent
  reportHwm := rfl
  unbreached _ := Nat.zero_le _
  backlog := Nat.zero_le _
  queued msg cause q hq := by cases hq
  isReport msg hmsg := by cases hmsg
  settled hbreach := by cases hbreach

/-- The outbox of a draining line only gets shorter. -/
private theorem fits_of_keeps (hf : v.line.Fits cfg) (hk : Keeps v v')
    (hretired : v'.line.epochRetired = (v'.line.closing || v'.line.tornDown))
    (hsent : v'.line.closeFrameSent = true → v'.line.closing = true)
    (hqueued : ∀ msg cause q, .enqueued msg cause q ∈ v'.line.log →
      .enqueued msg cause q ∈ v.line.log) : v'.line.Fits cfg where
  retired := hretired
  sent := hsent
  reportHwm := hk.reportHwm.trans hf.reportHwm
  unbreached hbreach := hk.reports.length_le.trans (hf.unbreached (hk.breached ▸ hbreach))
  backlog := hk.reports.length_le.trans hf.backlog
  queued msg cause q hq := hf.queued msg cause q (hqueued msg cause q hq)
  isReport msg hmsg := hf.isReport msg (hk.reports.subset hmsg)

theorem fits_drain (h : Drain cfg codec v v') (hf : v.line.Fits cfg) : v'.line.Fits cfg := by
  have hk := keeps_drain h
  cases h with
  | latch code hc hup =>
    refine fits_of_keeps hf hk ?_ ?_ ?_
    · rw [View.line_latch]
      rfl
    · rw [View.line_latch]
      exact fun _ => rfl
    · rw [View.line_latch]
      intro msg cause q hq
      simpa using hq
  | write _ _ _ _ _ =>
    refine fits_of_keeps hf hk hf.retired hf.sent fun msg cause q hq => ?_
    simpa [View.write, View.stamp] using hq
  | lose _ _ => exact fits_of_keeps hf hk hf.retired hf.sent fun _ _ _ hq => hq
  | discard _ _ =>
    refine fits_of_keeps hf hk hf.retired hf.sent fun msg cause q hq => ?_
    simpa [View.discard] using hq
  | sendClose hc _ _ =>
    refine fits_of_keeps hf hk hf.retired (fun _ => hc) fun msg cause q hq => ?_
    simpa [View.sendClose] using hq

theorem fits_drains (h : Drains cfg codec v v') (hf : v.line.Fits cfg) : v'.line.Fits cfg := by
  induction h with
  | refl => exact hf
  | tail _ hlast ih => exact fits_drain hlast ih

theorem fits_push {msg : OutMsg} {cause : Cause} (hmay : MayPush cfg codec v msg cause)
    (hf : v.line.Fits cfg) : (v.push msg cause).line.Fits cfg := by
  have hout := Outbox.pushReport_of_not_isTob (o := v.line.outbox) hmay.isReport
  have hroom := hmay.room
  refine ⟨hf.retired, hf.sent, ?_, fun hbreach => ?_, ?_, fun msg' cause' q hq => ?_,
    fun msg' hmsg => ?_⟩
  · simp only [View.push, hout]
    exact hf.reportHwm
  · simp only [View.push, hout, Bool.or_eq_false_iff, decide_eq_false_iff_not, not_lt,
      hf.reportHwm] at hbreach
    simp only [View.push, hout, List.length_append, List.length_singleton]
    exact hbreach.2
  · simp only [View.push, hout, List.length_append, List.length_singleton]
    exact hroom
  · simp only [View.push, hout, List.mem_append, List.mem_singleton, Entry.enqueued.injEq,
      List.length_append, List.length_singleton] at hq
    rcases hq with hold | ⟨-, -, rfl⟩
    · exact hf.queued msg' cause' q hold
    · exact hroom
  · simp only [View.push, hout, List.mem_append, List.mem_singleton] at hmsg
    rcases hmsg with hold | rfl
    · exact hf.isReport msg' hold
    · exact hmay.isReport

theorem sound_act (h : Act cfg codec v v') (hs : v.line.Sound cfg) : v'.line.Sound cfg := by
  cases h with
  | drain hdrain =>
    have hk := keeps_drain hdrain
    exact ⟨fits_drain hdrain hs.toFits, fun hb => hk.closing (hs.settled (hk.breached ▸ hb))⟩
  | enqueue hmay hchecked hsettled =>
    exact ⟨fits_drains hchecked (fits_push hmay hs.toFits), hsettled⟩
  | serve _ _ _ => exact hs
  | tick _ _ _ _ =>
    refine ⟨⟨hs.retired, hs.sent, hs.reportHwm, hs.unbreached, hs.backlog, fun msg cause q hq => ?_,
      hs.isReport⟩, hs.settled⟩
    exact hs.queued msg cause q (by simpa [View.tick] using hq)
  | written =>
    exact ⟨⟨hs.retired, hs.sent, hs.reportHwm, hs.unbreached, hs.backlog, hs.queued, hs.isReport⟩,
      hs.settled⟩
  | tearDown code _ =>
    rw [View.line_tearDown]
    refine ⟨⟨?_, hs.sent, hs.reportHwm, hs.unbreached, hs.backlog, fun msg cause q hq => ?_,
      hs.isReport⟩, hs.settled⟩
    · simp
    · exact hs.queued msg cause q (by simpa using hq)

/-- A session's turn never changes its epoch. -/
theorem epoch_act (h : Act cfg codec v v') : v'.line.epoch = v.line.epoch := by
  cases h with
  | drain hdrain => exact (keeps_drain hdrain).epoch
  | enqueue _ hchecked _ => exact (keeps_drains hchecked).epoch
  | serve _ _ _ => rfl
  | tick _ _ _ _ => rfl
  | written => rfl
  | tearDown code _ => rw [View.line_tearDown]

/-- The number of the last book stands during a session's turn. -/
theorem nextMdSeq_act (h : Act cfg codec v v') : v'.hub.nextMdSeq = v.hub.nextMdSeq := by
  cases h with
  | drain hdrain => exact (keeps_drain hdrain).nextMdSeq
  | enqueue _ hchecked _ => exact (keeps_drains hchecked).nextMdSeq
  | serve _ _ _ => rfl
  | tick _ _ _ _ => rfl
  | written => rfl
  | tearDown code _ => exact (keeps_retire _).nextMdSeq

/-- A turn adds no tick but the current one. -/
theorem ticks_act (h : Act cfg codec v v') {k : ℕ} (hk : k ∈ ticksIn v'.line.log) :
    k ∈ ticksIn v.line.log ∨ k = v.hub.nextMdSeq := by
  cases h with
  | drain hdrain => exact Or.inl ((keeps_drain hdrain).ticks ▸ hk)
  | enqueue _ hchecked _ =>
    rw [(keeps_drains hchecked).ticks] at hk
    simp only [View.push, ticksIn_append, List.mem_append] at hk
    rcases hk with hk | hk
    · exact Or.inl hk
    · cases hk
  | serve _ _ _ => exact Or.inl hk
  | tick _ _ hcurrent _ =>
    simp only [View.tick, ticksIn_append, List.mem_append] at hk
    rcases hk with hk | hk
    · exact Or.inl hk
    · exact Or.inr ((List.mem_singleton.mp hk).trans hcurrent)
  | written => exact Or.inl hk
  | tearDown code _ =>
    rw [View.line_tearDown, ticksIn_append, List.mem_append] at hk
    rcases hk with hk | hk
    · exact Or.inl hk
    · cases hk

end Lines

/-! ## The net -/

/-- What holds of the hub and its lines after every step. -/
structure Net.Inv (cfg : ServerConfig) (n : Net) : Prop where
  roster : Roster cfg n.hub (n.lines.map Line.row)
  sound : ∀ l ∈ n.lines, l.Sound cfg
  ticks : ∀ l ∈ n.lines, ∀ k ∈ ticksIn l.log, k ≤ n.hub.nextMdSeq

section Net

variable {cfg : ServerConfig} {codec : Codec} {v v' : View} {rows : List Row} {i : ℕ}

theorem Net.inv_init (cfg : ServerConfig) : Net.Inv cfg {} where
  roster := Roster.init cfg
  sound l hl := by cases hl
  ticks l hl := by cases hl

/-- The roster in the middle of the turn of line `i`. -/
private def rosterAt (cfg : ServerConfig) (rows : List Row) (i : ℕ) (v : View) : Prop :=
  Roster cfg v.hub (rows.set i v.line.row)

private theorem rosterAt_retire (hi : i < rows.length) (hstarted : v.line.epoch ≠ 0)
    (h : rosterAt cfg rows i v) : rosterAt cfg rows i (v.retire cfg) := by
  cases hret : v.line.epochRetired with
  | true =>
    rw [View.retire, if_pos hret]
    exact h
  | false =>
    have hrow : (rows.set i v.line.row)[i]? = some v.line.row := by simp [hi]
    have hnext := Roster.retire h hrow hstarted hret
    rw [List.set_set] at hnext
    rw [View.retire, if_neg (by simp [hret])]
    exact hnext

private theorem rosterAt_drain (h : Drain cfg codec v v') (hi : i < rows.length)
    (hstarted : v.line.epoch ≠ 0) (hr : rosterAt cfg rows i v) : rosterAt cfg rows i v' := by
  cases h with
  | latch code _ _ => exact rosterAt_retire hi hstarted hr
  | write _ _ _ _ _ => exact hr
  | lose _ _ => exact hr
  | discard _ _ => exact hr
  | sendClose _ _ _ => exact hr

private theorem rosterAt_drains (h : Drains cfg codec v v') (hi : i < rows.length)
    (hstarted : v.line.epoch ≠ 0) (hr : rosterAt cfg rows i v) : rosterAt cfg rows i v' := by
  induction h with
  | refl => exact hr
  | tail hpath hlast ih =>
    exact rosterAt_drain hlast hi ((keeps_drains hpath).epoch ▸ hstarted) ih

private theorem rosterAt_tearDown (hi : i < rows.length) (hstarted : v.line.epoch ≠ 0)
    (h : rosterAt cfg rows i v) (code : ℕ) : rosterAt cfg rows i (v.tearDown cfg code) := by
  -- the epoch is retired before the line is out of the map, whichever flag is set first
  have hretired := rosterAt_retire hi hstarted h
  have hrow : (rows.set i (v.retire cfg).line.row)[i]? = some (v.retire cfg).line.row := by
    simp [hi]
  have hleft := Roster.leave hretired hrow
  rw [List.set_set] at hleft
  have hhub : (v.tearDown cfg code).hub =
      { (v.retire cfg).hub with
        sessions := (v.retire cfg).hub.sessions.erase (v.retire cfg).line.row.epoch } := by
    unfold View.tearDown View.retire
    dsimp only
    split_ifs <;> rfl
  have hline : (v.tearDown cfg code).line.row = { (v.retire cfg).line.row with down := true } := by
    rw [View.line_tearDown, View.line_retire]
    rfl
  unfold rosterAt
  rw [hhub, hline]
  exact hleft

private theorem rosterAt_act (h : Act cfg codec v v') (hs : v.line.Sound cfg) (hi : i < rows.length)
    (hstarted : v.line.epoch ≠ 0) (hr : rosterAt cfg rows i v) : rosterAt cfg rows i v' := by
  cases h with
  | drain hdrain => exact rosterAt_drain hdrain hi hstarted hr
  | enqueue _ hchecked _ => exact rosterAt_drains hchecked hi hstarted hr
  | serve hc hup hown =>
    have hlive : v.line.epochRetired = false := by
      rw [hs.retired, hc, hup]
      rfl
    have hrow : (rows.set i v.line.row)[i]? = some v.line.row := by simp [hi]
    exact Roster.serve hr hrow hstarted hlive hown
  | tick _ _ _ _ => exact hr
  | written => exact hr
  | tearDown code _ => exact rosterAt_tearDown hi hstarted hr code

/-- Every move keeps the invariant. -/
theorem Net.Inv.move {n n' : Net} (h : n.Inv cfg) (hm : Move cfg codec n n') : n'.Inv cfg := by
  cases hm with
  | @act i l v hfound hstarted hact =>
    have hl : l ∈ n.lines := List.mem_of_getElem? hfound
    have hi : i < (n.lines.map Line.row).length := by
      rw [List.length_map]
      exact (List.getElem?_eq_some_iff.mp hfound).1
    -- put the line that acts back in its own place: the roster of the view is that of the net
    have hrow : (n.lines.map Line.row).set i l.row = n.lines.map Line.row := by
      obtain ⟨hlt, rfl⟩ := List.getElem?_eq_some_iff.mp hfound
      rw [← List.map_set, List.set_getElem_self]
    refine ⟨?_, fun l' hl' => ?_, fun l' hl' k hk => ?_⟩
    · have hat : rosterAt cfg (n.lines.map Line.row) i ⟨n.hub, l⟩ := by
        unfold rosterAt
        rw [hrow]
        exact h.roster
      have hnext := rosterAt_act hact (h.sound l hl) hi hstarted hat
      unfold rosterAt at hnext
      rw [← List.map_set] at hnext
      exact hnext
    · rcases List.mem_or_eq_of_mem_set hl' with hold | rfl
      · exact h.sound l' hold
      · exact sound_act hact (h.sound l hl)
    · rw [nextMdSeq_act hact]
      rcases List.mem_or_eq_of_mem_set hl' with hold | rfl
      · exact h.ticks l' hold k hk
      -- a tick that is new has the number of the newest book
      · rcases ticks_act hact hk with hk | rfl
        · exact h.ticks l hl k hk
        · exact Nat.le_refl _
  | create =>
    refine ⟨?_, fun l hl => ?_, fun l hl k hk => ?_⟩
    · rw [List.map_append]
      exact h.roster.create
    · rcases List.mem_append.mp hl with hold | hnew
      · exact h.sound l hold
      · rw [List.mem_singleton.mp hnew]
        exact sound_fresh cfg 0
    · rcases List.mem_append.mp hl with hold | hnew
      · exact h.ticks l hold k hk
      · rw [List.mem_singleton.mp hnew] at hk
        cases hk
  | @start j hfound =>
    refine ⟨?_, fun l hl => ?_, fun l hl k hk => ?_⟩
    · have hrow : (n.lines.map Line.row)[j]? = some ⟨0, false, false⟩ := by
        rw [List.getElem?_map, hfound]
        rfl
      have hnext := h.roster.start hrow
      rw [List.map_set]
      exact hnext
    · rcases List.mem_or_eq_of_mem_set hl with hold | rfl
      · exact h.sound l hold
      · exact sound_fresh cfg _
    · rcases List.mem_or_eq_of_mem_set hl with hold | rfl
      · exact h.ticks l hold k hk
      · cases hk

theorem Net.Inv.moves {n n' : Net} (h : n.Inv cfg) (hm : Moves cfg codec n n') : n'.Inv cfg := by
  induction hm with
  | refl => exact h
  | tail _ hlast ih => exact ih.move hlast

theorem Net.Inv.publish {n : Net} (h : n.Inv cfg) (book : Book) : (n.publish cfg book).Inv cfg where
  roster := h.roster.publish book
  sound := h.sound
  ticks l hl k hk := Nat.le_succ_of_le (h.ticks l hl k hk)

/-- What every act keeps holds of every line of the net. -/
theorem NetSteps.forall_line {P : Line → Prop} {n n' : Net} (hm : NetSteps cfg codec n n')
    (fresh : ∀ epoch, P { Line.fresh cfg with epoch })
    (keep : ∀ v v', Act cfg codec v v' → P v.line → P v'.line) (hn : ∀ l ∈ n.lines, P l) :
    ∀ l ∈ n'.lines, P l := by
  induction hm with
  | refl => exact hn
  | tail _ hlast ih =>
    rcases hlast with @⟨_, hmove⟩ | _
    case publish => exact ih
    cases hmove with
    | act hfound _ hact =>
      intro l' hl'
      rcases List.mem_or_eq_of_mem_set hl' with hold | rfl
      · exact ih l' hold
      · exact keep _ _ hact (ih _ (List.mem_of_getElem? hfound))
    | create =>
      intro l' hl'
      rcases List.mem_append.mp hl' with hold | hnew
      · exact ih l' hold
      · rw [List.mem_singleton.mp hnew]
        exact fresh 0
    | start _ =>
      intro l' hl'
      rcases List.mem_or_eq_of_mem_set hl' with hold | rfl
      · exact ih l' hold
      · exact fresh _

end Net

end MarketMaker
