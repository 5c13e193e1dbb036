import MarketMaker.Bench.Standing

/-!
# How the probe pairs its commands

Between cycles a probe is `Ready`: its phase and its live id agree with what the engine will hold
once everything in flight is processed. Whatever then makes it issue, it `Launches` commands that
the engine accepts one after the other, the last of which is timed and ends the cycle when it is
acked (`Closes`).
-/

namespace MarketMaker

namespace Harness

variable {p : Probe} {live live' : Option ℕ} {msg : InMsg} {nowNs : ℤ}

/-- The probe can issue, when the engine holds `live`. -/
structure Ready (p : Probe) (live : Option ℕ) : Prop where
  newest : ∀ n, live = some n → n = p.nextId ∧ n ≠ 0
  phase : p.mode ≠ .react → p.cancelPhase = live.isSome
  liveId : p.mode = .react → p.cancelPhase = false ∧ p.liveId = live.map orderId

/-- The ack of `msg` ends the cycle, and the engine then holds `live`. -/
inductive Closes (p : Probe) : InMsg → Option ℕ → Prop
  | new {order : NewOrder} (hid : order.clId = orderId p.nextId) (hpos : p.nextId ≠ 0)
      (hphase : p.cancelPhase = false) : Closes p (.newOrder order) (some p.nextId)
  | cancel {cancel : CancelOrder} (hid : cancel.clId = orderId p.nextId) (hmode : p.mode ≠ .react)
      (hphase : p.cancelPhase = true) : Closes p (.cancelOrder cancel) none

/-- A command that is not timed: react cancels an older order. -/
def Untimed (p : Probe) (msg : InMsg) : Prop :=
  p.mode = .react ∧ ∃ cancel, msg = .cancelOrder cancel ∧ cancel.clId ≠ orderId p.nextId

theorem Untimed.not_isTimed (h : Untimed p msg) : ¬isTimed p.mode msg = true := by
  obtain ⟨hmode, cancel, rfl, -⟩ := h
  simp [isTimed, hmode]

theorem Untimed.clId_ne (h : Untimed p msg) : msg.clId ≠ orderId p.nextId := by
  obtain ⟨-, cancel, rfl, hne⟩ := h
  exact hne

theorem Closes.clId_eq (h : Closes p msg live) : msg.clId = orderId p.nextId := by
  cases h with
  | new hid _ _ => exact hid
  | cancel hid _ _ => exact hid

theorem Closes.isTimed (h : Closes p msg live) : isTimed p.mode msg = true := by
  cases h with
  | new _ _ _ => rfl
  | cancel _ hmode _ => simpa [Harness.isTimed] using hmode

/-- The probe starts a cycle: it issues commands that the engine accepts and that leave it with
`live'`. -/
inductive Launches (p : Probe) (live : Option ℕ) (nowNs : ℤ) :
    Probe × List InMsg → Option ℕ → Prop
  | intro {p' : Probe} {earlier : List InMsg} {msg : InMsg} {live' : Option ℕ} {n : ℕ}
      {liveId : Option Bytes}
      (hp' : p' =
        { p with
          pendingIntendedNs := p.dueNs p.issued nowNs, pendingSentNs := nowNs
          issued := p.issued + 1, nextId := n, pendingId := some (orderId n), liveId })
      (hadmits : Admits p.nextId live (earlier ++ [msg]) n live')
      (hearlier : ∀ m ∈ earlier, Untimed p' m) (hcloses : Closes p' msg live') :
      Launches p live nowNs (p', earlier ++ [msg]) live'

theorem Launches.single {p' : Probe} {n : ℕ} {liveId : Option Bytes}
    (hp' : p' =
      { p with
        pendingIntendedNs := p.dueNs p.issued nowNs, pendingSentNs := nowNs
        issued := p.issued + 1, nextId := n, pendingId := some (orderId n), liveId })
    (hadmits : Admits p.nextId live [msg] n live') (hcloses : Closes p' msg live') :
    Launches p live nowNs (p', [msg]) live' := by
  have hnone : ∀ m ∈ ([] : List InMsg), Untimed p' m := fun m hm => by contradiction
  exact .intro hp' hadmits hnone hcloses

/-- Only a paced run has a schedule. -/
theorem Probe.dueNs_of_ne (h : p.mode ≠ .paced) {i : ℕ} : p.dueNs i nowNs = nowNs := by
  cases hmode : p.mode with
  | idle => simp [Probe.dueNs, hmode]
  | paced => exact absurd hmode h
  | react => simp [Probe.dueNs, hmode]

namespace Ready

/-- The new order of a probe that holds none. -/
private theorem issue_new (hphase : p.cancelPhase = false) (nowNs intendedNs : ℤ) :
    ∃ order : NewOrder, order.clId = orderId (p.nextId + 1) ∧ IsProbeOrder order ∧
      p.issue nowNs intendedNs =
        ({ p with
            pendingIntendedNs := intendedNs, pendingSentNs := nowNs, issued := p.issued + 1
            nextId := p.nextId + 1, pendingId := some (orderId (p.nextId + 1)) },
          [.newOrder order]) := by
  let order : NewOrder :=
    { epoch := p.epoch, mdSeq := p.mdSeq, clId := orderId (p.nextId + 1), symbol := SYMBOL
      side := ascii "B", px := BID_PX, qty := QTY, postOnly := true }
  refine ⟨order, rfl, ⟨rfl, rfl, rfl, rfl⟩, ?_⟩
  simp only [Probe.issue, hphase]
  rw [if_neg fun h => Bool.false_ne_true h.1]

/-- Idle and paced alternate: the order that rests is cancelled, and then there is a new one. -/
theorem issue (h : Ready p live) (hmode : p.mode ≠ .react) (nowNs : ℤ) :
    ∃ live', Launches p live nowNs (p.issue nowNs (p.dueNs p.issued nowNs)) live' := by
  have hphase := h.phase hmode
  cases hlive : live with
  | none =>
    rw [hlive, Option.isSome_none] at hphase
    obtain ⟨order, hid, horder, hissue⟩ := issue_new hphase nowNs (p.dueNs p.issued nowNs)
    rw [hissue]
    exact ⟨_, .single rfl (.new hid horder .nil) (.new hid (Nat.succ_ne_zero _) hphase)⟩
  | some n =>
    obtain ⟨rfl, hpos⟩ := h.newest n hlive
    rw [hlive, Option.isSome_some] at hphase
    have hissue : p.issue nowNs (p.dueNs p.issued nowNs) =
        ({ p with
            pendingIntendedNs := p.dueNs p.issued nowNs, pendingSentNs := nowNs
            issued := p.issued + 1, pendingId := some (orderId p.nextId) },
          [.cancelOrder { epoch := p.epoch, clId := orderId p.nextId }]) := by
      rw [Probe.issue]
      exact if_pos ⟨hphase, hpos⟩
    rw [hissue]
    exact ⟨_, .single rfl (.cancel rfl .nil) (.cancel rfl hmode hphase)⟩

/-- React cancels the order that rests, and sends a new one after it. -/
theorem react (h : Ready p live) (hmode : p.mode = .react) (hpend : p.pendingId = none)
    (hopen : ¬p.finished = true) (hepoch : p.epoch ≠ 0) (nowNs : ℤ) :
    ∃ live', Launches p live nowNs (p.react nowNs) live' := by
  obtain ⟨hphase, hheld⟩ := h.liveId hmode
  have hdue : p.dueNs p.issued nowNs = nowNs := Probe.dueNs_of_ne (by simp [hmode])
  rw [Probe.react, if_neg (by simp [hpend, hopen, hepoch])]
  cases hlive : live with
  | none =>
    rw [hlive, Option.map_none] at hheld
    obtain ⟨order, hid, horder, hissue⟩ := issue_new hphase nowNs nowNs
    rw [hheld]
    simp only [hissue]
    refine ⟨_, @Launches.single p _ _ _ nowNs _ _ p.liveId ?_ (.new hid horder .nil)
      (.new hid (Nat.succ_ne_zero _) hphase)⟩
    rw [hdue]
  | some n =>
    obtain ⟨rfl, hpos⟩ := h.newest n hlive
    rw [hlive, Option.map_some] at hheld
    have hphase' : ({ p with liveId := none } : Probe).cancelPhase = false := hphase
    obtain ⟨order, hid, horder, hissue⟩ := issue_new hphase' nowNs nowNs
    rw [hheld]
    simp only [hissue]
    let cancel : CancelOrder := { epoch := p.epoch, clId := orderId p.nextId }
    have hadmits : Admits p.nextId (some p.nextId) ([.cancelOrder cancel] ++ [.newOrder order])
        (p.nextId + 1) (some (p.nextId + 1)) := .cancel rfl (.new hid horder .nil)
    refine ⟨_, @Launches.intro p _ nowNs _ _ _ _ _ none ?_ hadmits (fun m hm => ?_)
      (.new hid (Nat.succ_ne_zero _) hphase)⟩
    · rw [hdue]
    · rw [List.mem_singleton.mp hm]
      exact ⟨hmode, cancel, rfl, by simp [cancel]⟩

end Ready

end Harness

end MarketMaker
