import MarketMaker.Server.Guarantees

/-!
# Where the ticks of a session are

A tick that entered an outbox was handed to `async_write`, was superseded by a newer one, is still
pending or was discarded for a close. `Line.Ticked` says so of a line and is kept by every act;
`conflated` only grows, and only by a tick that enters.
-/

namespace MarketMaker

/-- The ticks that were discarded in favour of a close. -/
def discardedIn (log : List Entry) : List ℕ :=
  log.filterMap fun
    | .discarded mdSeq => some mdSeq
    | _ => none

theorem discardedIn_append (l l' : List Entry) :
    discardedIn (l ++ l') = discardedIn l ++ discardedIn l' :=
  List.filterMap_append

/-- How many ticks the slot holds. -/
def Outbox.pending (o : Outbox) : ℕ := if o.tob.isSome then 1 else 0

/-- Every tick that entered the outbox is accounted for, once. -/
structure Line.Ticked (l : Line) : Prop where
  balance : (ticksIn l.log).length = (tobsIn l.log).length + l.outbox.conflated + l.outbox.pending +
    (discardedIn l.log).length
  /-- A discard leaves the slot empty, and a closing session takes no tick to fill it again. -/
  discarded : (discardedIn l.log).length + l.outbox.pending ≤ 1
  kept : l.closing = false → discardedIn l.log = []

section Ticked

variable {cfg : ServerConfig} {codec : Codec} {v v' : View}

theorem ticked_fresh (cfg : ServerConfig) (epoch : ℕ) :
    ({ Line.fresh cfg with epoch } : Line).Ticked :=
  ⟨rfl, Nat.zero_le _, fun _ => rfl⟩

/-- An entry of the log that is no tick's changes nothing, as long as the close stands. -/
theorem Line.Ticked.log {l l' : Line} {entry : Entry} (h : l.Ticked)
    (hlog : l'.log = l.log ++ [entry]) (houtbox : l'.outbox.conflated = l.outbox.conflated)
    (hpending : l'.outbox.pending = l.outbox.pending)
    (hclosing : l.closing = true → l'.closing = true)
    (hticks : ticksIn [entry] = []) (htobs : tobsIn [entry] = [])
    (hdiscarded : discardedIn [entry] = []) : l'.Ticked where
  balance := by
    rw [hlog, ticksIn_append, tobsIn_append, discardedIn_append, hticks, htobs, hdiscarded, houtbox,
      hpending]
    simpa using h.balance
  discarded := by
    rw [hlog, discardedIn_append, hdiscarded, hpending, List.append_nil]
    exact h.discarded
  kept hopen := by
    rw [hlog, discardedIn_append, hdiscarded, List.append_nil]
    refine h.kept ?_
    by_contra hc
    rw [hclosing (Bool.eq_true_of_not_eq_false hc)] at hopen
    cases hopen

/-- A report leaves the slot alone. -/
private theorem pop_report {o o' : Outbox} {msg : OutMsg} (hpop : o.pop = some (msg, o'))
    (hmsg : msg.isTob = false) : o'.conflated = o.conflated ∧ o'.pending = o.pending := by
  rcases Outbox.pop_cases hpop with ⟨rest, -, rfl⟩ | ⟨tob, -, -, rfl, rfl⟩
  · exact ⟨rfl, rfl⟩
  · cases hmsg

/-- A popped tick was the pending one: reports are no ticks. -/
private theorem pop_tob {o o' : Outbox} {tob : Tob} (hpop : o.pop = some (.tob tob, o'))
    (hreports : ∀ msg ∈ o.reports, msg.isTob = false) :
    o'.conflated = o.conflated ∧ o.pending = 1 ∧ o'.pending = 0 := by
  rcases Outbox.pop_cases hpop with ⟨rest, hrest, rfl⟩ | ⟨tob', -, htob, -, rfl⟩
  · have hno := hreports (.tob tob) (hrest ▸ List.mem_cons_self)
    cases hno
  · exact ⟨rfl, by rw [Outbox.pending, htob]; rfl, rfl⟩

theorem isTob_stampMsg (seq epoch : ℕ) (pending : List ℤ) (msg : OutMsg) :
    (Session.stampMsg seq epoch pending msg).1.isTob = msg.isTob := by
  cases msg with
  | orderAck ack => cases pending <;> rfl
  | _ => rfl

/-- The ticks among the frames, one frame at a time. -/
theorem length_tobsIn_wrote (frame : OutMsg) :
    (tobsIn [.wrote frame]).length = if frame.isTob then 1 else 0 := by
  cases frame <;> rfl

theorem ticked_drain (h : Drain cfg codec v v') (htotal : codec.Total)
    (hreports : ∀ msg ∈ v.line.outbox.reports, msg.isTob = false) (ht : v.line.Ticked) :
    v'.line.Ticked := by
  cases h with
  | latch code _ _ =>
    rw [View.line_latch]
    exact ht.log rfl rfl rfl (fun _ => rfl) rfl rfl rfl
  | @write msg outbox hpop _ _ _ _ =>
    -- the frame is a tick exactly when the popped message is one
    have hframe := isTob_stampMsg v.line.outSeq v.line.epoch v.line.pendingSvc msg
    have hcount := length_tobsIn_wrote
      (Session.stampMsg v.line.outSeq v.line.epoch v.line.pendingSvc msg).1
    rw [hframe] at hcount
    have hbalance := ht.balance
    have hdiscarded := ht.discarded
    have hlog : discardedIn (v.line.log ++ [.wrote
        (Session.stampMsg v.line.outSeq v.line.epoch v.line.pendingSvc msg).1]) =
          discardedIn v.line.log := by
      rw [discardedIn_append]
      exact List.append_nil _
    have hslot : outbox.conflated = v.line.outbox.conflated ∧
        v.line.outbox.pending = outbox.pending + if msg.isTob then 1 else 0 := by
      cases hmsg : msg.isTob with
      | false => exact ⟨(pop_report hpop hmsg).1, (pop_report hpop hmsg).2.symm⟩
      | true =>
        obtain ⟨tob, rfl⟩ : ∃ tob, msg = .tob tob := by
          cases msg with
          | tob tob => exact ⟨tob, rfl⟩
          | _ => cases hmsg
        obtain ⟨hconflated, hfull, hempty⟩ := pop_tob hpop hreports
        exact ⟨hconflated, by rw [hfull, hempty]; rfl⟩
    refine ⟨?_, ?_, fun hopen => hlog.trans (ht.kept hopen)⟩
    · simp only [View.write, View.stamp, hlog, ticksIn_append, tobsIn_append, List.length_append,
        hcount]
      have hnone : (ticksIn [.wrote
          (Session.stampMsg v.line.outSeq v.line.epoch v.line.pendingSvc msg).1]).length = 0 := rfl
      omega
    · simp only [View.write, View.stamp, hlog]
      omega
  | lose _ hfailed => exact absurd hfailed (htotal _)
  | @discard tob outbox hpop hclosing =>
    obtain ⟨hconflated, hfull, hempty⟩ := pop_tob hpop hreports
    have hbalance := ht.balance
    have hdiscarded := ht.discarded
    have hone : (discardedIn [.discarded tob.mdSeq]).length = 1 := rfl
    have hticks : (ticksIn [.discarded tob.mdSeq]).length = 0 := rfl
    have htobs : (tobsIn [.discarded tob.mdSeq]).length = 0 := rfl
    refine ⟨?_, ?_, fun hopen => ?_⟩
    · simp only [View.discard, ticksIn_append, tobsIn_append, discardedIn_append,
        List.length_append]
      omega
    · simp only [View.discard, discardedIn_append, List.length_append]
      omega
    · rw [show v.line.closing = false from hopen] at hclosing
      cases hclosing
  | sendClose _ _ _ => exact ht.log rfl rfl rfl id rfl rfl rfl

theorem ticked_drains (h : Drains cfg codec v v') (htotal : codec.Total)
    (hreports : ∀ msg ∈ v.line.outbox.reports, msg.isTob = false) (ht : v.line.Ticked) :
    v'.line.Ticked := by
  induction h with
  | refl => exact ht
  | tail hpath hlast ih =>
    exact ticked_drain hlast htotal
      (fun msg hmsg => hreports msg ((keeps_drains hpath).reports.subset hmsg)) ih

theorem ticked_act (h : Act cfg codec v v') (htotal : codec.Total) (hs : v.line.Sound cfg)
    (ht : v.line.Ticked) : v'.line.Ticked := by
  cases h with
  | drain hdrain => exact ticked_drain hdrain htotal hs.isReport ht
  | @enqueue _ msg cause hmay hchecked _ =>
    have hout := Outbox.pushReport_of_not_isTob (o := v.line.outbox) hmay.isReport
    refine ticked_drains hchecked htotal (fits_push hmay hs.toFits).isReport ?_
    exact ht.log rfl (by simp only [View.push, hout]) (by simp only [View.push, hout]; rfl) id rfl
      rfl rfl
  | serve _ _ _ => exact ht
  | @tick tob hopen _ _ _ =>
    -- the tick enters: it takes the slot, and a tick that was there is superseded
    have hnone : discardedIn (v.tick tob).line.log = [] := by
      rw [show (v.tick tob).line.log = v.line.log ++ [.ticked tob.mdSeq] from rfl,
        discardedIn_append, ht.kept hopen]
      rfl
    have hbalance := ht.balance
    rw [ht.kept hopen] at hbalance
    have hslot : (v.tick tob).line.outbox.conflated + (v.tick tob).line.outbox.pending =
        v.line.outbox.conflated + v.line.outbox.pending + 1 := by
      simp only [View.tick, Outbox.pushTob, Outbox.pending]
      cases v.line.outbox.tob <;> rfl
    have hticks : (ticksIn (v.tick tob).line.log).length = (ticksIn v.line.log).length + 1 := by
      rw [show (v.tick tob).line.log = v.line.log ++ [.ticked tob.mdSeq] from rfl, ticksIn_append,
        List.length_append]
      rfl
    have htobs : (tobsIn (v.tick tob).line.log).length = (tobsIn v.line.log).length := by
      rw [show (v.tick tob).line.log = v.line.log ++ [.ticked tob.mdSeq] from rfl, tobsIn_append,
        List.length_append]
      rfl
    refine ⟨?_, ?_, fun _ => hnone⟩
    · simp only [List.length_nil] at hbalance
      rw [hnone, hticks, htobs, List.length_nil]
      omega
    · rw [hnone, Outbox.pending]
      split_ifs <;> simp
  | written => exact ⟨ht.balance, ht.discarded, ht.kept⟩
  | tearDown code _ =>
    rw [View.line_tearDown]
    exact ht.log rfl rfl rfl id rfl rfl rfl

end Ticked

/-! ## Conflation -/

section Conflated

variable {cfg : ServerConfig} {codec : Codec} {v v' : View} {n n' : Net}

/-- Draining supersedes no tick. -/
theorem conflated_drain (h : Drain cfg codec v v') :
    v'.line.outbox.conflated = v.line.outbox.conflated := by
  have hpopped : ∀ {msg : OutMsg} {o o' : Outbox}, o.pop = some (msg, o') →
      o'.conflated = o.conflated := by
    intro msg o o' hpop
    rcases Outbox.pop_cases hpop with ⟨rest, -, rfl⟩ | ⟨tob, -, -, -, rfl⟩ <;> rfl
  cases h with
  | latch code _ _ => rw [View.line_latch]
  | write hpop _ _ _ _ => exact hpopped hpop
  | lose hpop _ => exact hpopped hpop
  | discard hpop _ => exact hpopped hpop
  | sendClose _ _ _ => rfl

theorem conflated_drains (h : Drains cfg codec v v') :
    v'.line.outbox.conflated = v.line.outbox.conflated := by
  induction h with
  | refl => rfl
  | tail _ hlast ih => exact (conflated_drain hlast).trans ih

theorem conflated_pushReport (o : Outbox) (msg : OutMsg) :
    (o.pushReport msg).conflated = o.conflated := by
  unfold Outbox.pushReport
  split_ifs <;> rfl

theorem conflated_act (h : Act cfg codec v v') :
    v.line.outbox.conflated ≤ v'.line.outbox.conflated := by
  cases h with
  | drain hdrain => exact (conflated_drain hdrain).ge
  | @enqueue _ msg cause _ hchecked _ =>
    rw [conflated_drains hchecked]
    exact (conflated_pushReport v.line.outbox msg).ge
  | serve _ _ _ => exact Nat.le_refl _
  | tick _ _ _ _ =>
    simp only [View.tick, Outbox.pushTob]
    split_ifs <;> omega
  | written => exact Nat.le_refl _
  | tearDown code _ => rw [View.line_tearDown]

/-- The ticks superseded in every session that ever existed. -/
def Net.conflated (n : Net) : ℕ := (n.lines.map fun l => l.outbox.conflated).sum

/-- Replacing one element of a list changes a sum by the difference of the two. -/
theorem sum_map_set {α : Type} {xs : List α} {i : ℕ} {x : α} (f : α → ℕ) (x' : α)
    (hx : xs[i]? = some x) : ((xs.set i x').map f).sum + f x = (xs.map f).sum + f x' := by
  induction xs generalizing i with
  | nil => cases hx
  | cons y ys ih =>
    cases i with
    | zero =>
      cases hx
      simp only [List.set_cons_zero, List.map_cons, List.sum_cons]
      omega
    | succ i =>
      have hrest := ih (by simpa using hx)
      simp only [List.set_cons_succ, List.map_cons, List.sum_cons]
      omega

theorem conflated_netSteps (h : NetSteps cfg codec n n') : n.conflated ≤ n'.conflated := by
  induction h with
  | refl => exact Nat.le_refl _
  | @tail mid last _ hlast ih =>
    refine ih.trans ?_
    rcases hlast with @⟨_, hmove⟩ | _
    case publish => exact Nat.le_refl _
    cases hmove with
    | @act i l v hfound _ hact =>
      have hset := sum_map_set (fun l => l.outbox.conflated) v.line hfound
      have hle := conflated_act hact
      simp only [Net.conflated]
      dsimp only at hset hle
      omega
    | create => simp [Net.conflated]
    | @start j hfound =>
      -- a session starts with the outbox it was created with
      have hset := sum_map_set (fun l => l.outbox.conflated)
        { Line.fresh cfg with epoch := mid.hub.nextEpoch + 1 } hfound
      simp only [Net.conflated]
      exact (Nat.add_right_cancel hset).ge

end Conflated

namespace World

variable {cfg : ServerConfig} {codec : Codec}

theorem run_ticked (cfg : ServerConfig) (htotal : codec.Total) (clock : ℕ → ℤ)
    (events : List Event) {x : Session} (hx : x ∈ (run cfg codec clock events).heap) :
    x.line.Ticked := by
  have hlines : ∀ l ∈ (run cfg codec clock events).net.lines, l.Sound cfg ∧ l.Ticked := by
    refine (run_steps cfg codec clock events).1.forall_line ?_ ?_ ?_
    · exact fun epoch => ⟨sound_fresh cfg epoch, ticked_fresh cfg epoch⟩
    · exact fun v v' hact h => ⟨sound_act hact h.1, ticked_act hact htotal h.1 h.2⟩
    · exact fun l hl => by cases hl
  exact (hlines x.line (List.mem_map_of_mem hx)).2

end World

end MarketMaker
