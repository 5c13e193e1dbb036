import MarketMaker.Native.Ledger
import Mathlib.Data.List.Nodup

/-!
# The orders that the native market maker looks after

An order that was emitted is looked after as long as it is active on its side. It may be let go of
when a cancel was emitted for it, when it was rejected, or when it is completely filled (`Settled`).
A fill lets go of its order whatever its quantity, so an order that is filled in part is left
behind; no other call leaves one behind.

A call that overflows an `int64` has no state after it (`step_ne_none_iff` says which do), so what
is said here of a run is said of its calls before the first of these. -/

namespace MarketMaker

namespace Native

open NativeMarketMaker

/-- Nothing can trade against the order any more, or it has been cancelled. -/
def Settled (t : Trace) (o : Placed) : Prop :=
  o.clId ∈ t.cancelled ∨ o.clId ∈ t.rejected ∨ t.filledQty o.clId = o.qty

instance (t : Trace) (o : Placed) : Decidable (Settled t o) := inferInstanceAs (Decidable (_ ∨ _))

/-- Every order is settled or active on its side. -/
def Owned (w : World) : Prop :=
  ∀ o ∈ w.trace.orders, Settled w.trace o ∨ (w.self.active o.side).clId = o.clId

/-- No order is left behind: `cancel_all` pulls whatever can still trade, and that is at most one
order of each side. -/
structure NoOrphan (cfg : StrategyConfig) (w : World) : Prop where
  owned : Owned w
  pulls : ∀ w', w.step cfg .cancelAll = some w' → ∀ o ∈ w'.trace.orders, Settled w'.trace o
  single : ∀ o ∈ w.trace.orders, ∀ o' ∈ w.trace.orders, o.side = o'.side →
    ¬Settled w.trace o → ¬Settled w.trace o' → o = o'

/-- A fill of an order that was neither cancelled nor rejected fills it completely. -/
def Completes (t : Trace) (fill : ShmOrderFill) : Prop :=
  ∀ o ∈ t.orders, o.clId = fill.clId →
    o.clId ∈ t.cancelled ∨ o.clId ∈ t.rejected ∨
      t.filledQty o.clId + fill.fillQty.toInt = o.qty

instance (t : Trace) (fill : ShmOrderFill) : Decidable (Completes t fill) :=
  inferInstanceAs (Decidable (∀ o ∈ t.orders, _ → _ ∨ _))

variable {cfg : StrategyConfig} {calls : List Call} {w w' : World}

/-! ## Ids -/

/-- The ids are the numbers from 1 on, and a slot holds the id of an order of its side. -/
structure Numbered (w : World) : Prop where
  next : w.self.nextClId = UInt64.ofNat (w.trace.orders.length + 1)
  pos : ∀ o ∈ w.trace.orders, 1 ≤ o.clId.toNat
  le : ∀ o ∈ w.trace.orders, o.clId.toNat ≤ w.trace.orders.length
  distinct : (w.trace.orders.map Placed.clId).Nodup
  slots : ∀ side, (w.self.active side).clId ≠ 0 →
    ∃ o ∈ w.trace.orders, o.side = side ∧ o.clId = (w.self.active side).clId

/-- They are as long as the counter has not wrapped. -/
def Counted (w : World) : Prop := w.trace.orders.length < 2 ^ 64 → Numbered w

/-- No order has the id of an empty side. -/
theorem Numbered.ne_zero (h : Numbered w) {o : Placed} (ho : o ∈ w.trace.orders) : o.clId ≠ 0 := by
  intro hzero
  have hpos := h.pos o ho
  rw [hzero] at hpos
  exact absurd hpos (by decide)

/-- An order is known by its id. -/
theorem Numbered.eq_of_clId (h : Numbered w) {o o' : Placed} (ho : o ∈ w.trace.orders)
    (ho' : o' ∈ w.trace.orders) (hid : o.clId = o'.clId) : o = o' :=
  List.inj_on_of_nodup_map h.distinct ho ho' hid

/-- An order that is in a slot is in the slot of its side. -/
theorem Numbered.side_of_active (h : Numbered w) {o : Placed} (ho : o ∈ w.trace.orders)
    {side : Side}
    (hactive : (w.self.active side).clId = o.clId) : side = o.side := by
  obtain ⟨o', ho', hside, hid⟩ := h.slots side (hactive ▸ h.ne_zero ho)
  rw [← hside, h.eq_of_clId ho' ho (hid.trans hactive)]

/-- It is kept as long as slots are only emptied. -/
theorem Counted.of_orders (h : Counted w) (horders : w'.trace.orders = w.trace.orders)
    (hnext : w'.self.nextClId = w.self.nextClId)
    (hactive : ∀ side, (w'.self.active side).clId ≠ 0 →
      (w'.self.active side).clId = (w.self.active side).clId) : Counted w' := by
  intro hlt
  rw [horders] at hlt
  obtain ⟨hnext', hpos, hle, hdistinct, hslots⟩ := h hlt
  refine ⟨?_, ?_, ?_, ?_, ?_⟩
  · rw [hnext, horders, hnext']
  · rwa [horders]
  · rwa [horders]
  · rwa [horders]
  · intro side hside
    rw [horders, hactive side hside]
    exact hslots side (hactive side hside ▸ hside)

/-- A cancel places no order. -/
theorem Counted.pulled (h : Counted w) (side : Side) : Counted (w.pulled side) := by
  refine h.of_orders rfl ?_ fun side' hside => ?_
  · rw [World.pulled, pull]
    split_ifs <;> rfl
  · rw [clId_pulled] at hside ⊢
    split_ifs at hside ⊢
    · exact absurd rfl hside
    · rfl

/-- A new order is counted with its id. -/
theorem Counted.posted (h : Counted w) (side : Side) (target : ℤ) (mdSeq : UInt64) :
    Counted (w.posted cfg side target mdSeq) := by
  have horders : (w.posted cfg side target mdSeq).trace.orders =
      ⟨w.self.nextClId, side, cfg.orderSize.toInt⟩ :: w.trace.orders := rfl
  intro hlt
  rw [horders, List.length_cons] at hlt
  have hw := h (Nat.lt_of_succ_lt hlt)
  have hid : w.self.nextClId.toNat = w.trace.orders.length + 1 := by
    rw [hw.next, UInt64.toNat_ofNat', Nat.mod_eq_of_lt hlt]
  refine ⟨?_, ?_, ?_, ?_, ?_⟩
  · rw [horders, List.length_cons]
    change w.self.nextClId + 1 = _
    rw [hw.next, ← UInt64.ofNat_one, ← UInt64.ofNat_add]
  · rw [horders, List.forall_mem_cons]
    refine ⟨?_, hw.pos⟩
    dsimp only
    omega
  · rw [horders, List.forall_mem_cons, List.length_cons]
    refine ⟨hid.le, fun o ho => Nat.le_succ_of_le (hw.le o ho)⟩
  · rw [horders, List.map_cons, List.nodup_cons]
    refine ⟨fun hmem => ?_, hw.distinct⟩
    obtain ⟨o, ho, heq⟩ := List.mem_map.mp hmem
    have hle := hw.le o ho
    rw [heq] at hle
    dsimp only at hle
    omega
  · intro side' hside
    rw [horders, active_posted] at *
    split_ifs at hside ⊢ with heq
    · exact ⟨_, List.mem_cons_self, heq.symm, rfl⟩
    · obtain ⟨o, ho, hslot⟩ := hw.slots side' hside
      exact ⟨o, List.mem_cons_of_mem _ ho, hslot⟩

/-- The ids of a run are its order numbers. -/
theorem visits_counted : ∀ w, Visits cfg calls w → Counted w := by
  refine visits_induct (fun _ =>
    ⟨rfl, fun o ho => (by contradiction), fun o ho => (by contradiction), .nil,
    fun side hside => absurd rfl hside⟩)
    fun w call w' htakes hw => ?_
  obtain ⟨pre, hpre, hrun, hstep⟩ := htakes
  cases call with
  | tob tob nowNs =>
    exact World.tob_induct (fun h => h.of_orders rfl rfl fun side _ => rfl)
      (fun v side hv => hv.pulled side)
      (fun v side target _ _ _ hv => hv.posted side target tob.mdSeq) hw hstep
  | ack ack =>
    cases hstep
    exact hw.of_orders rfl rfl fun side _ => rfl
  | fill fill =>
    rw [World.step_fill hstep]
    exact hw.of_orders (Trace.orders_filled _ _) (by cases matched w.self fill.clId <;> rfl)
      fun side hside => clId_emptied_of_ne_zero hside
  | reject reject =>
    rw [World.step_reject] at hstep
    cases hstep
    exact hw.of_orders (Trace.orders_refused _ _) (by cases matched w.self reject.clId <;> rfl)
      fun side hside => clId_emptied_of_ne_zero hside
  | cancelAll =>
    cases hstep
    exact (hw.pulled .bid).pulled .ask

/-! ## One call -/

/-- What is settled stays so, unless there is another execution. -/
theorem Settled.mono {t t' : Trace} {o : Placed} (h : Settled t o)
    (hcancelled : ∀ id ∈ t.cancelled, id ∈ t'.cancelled)
    (hrejected : ∀ id ∈ t.rejected, id ∈ t'.rejected)
    (hexecutions : t'.executions = t.executions) : Settled t' o := by
  rcases h with h | h | h
  · exact Or.inl (hcancelled _ h)
  · exact Or.inr (Or.inl (hrejected _ h))
  · rw [Trace.filledQty] at h
    exact Or.inr (Or.inr (by rw [Trace.filledQty, hexecutions, h]))

/-- A cancel lets go of the active order. -/
theorem Owned.pulled (h : Owned w) (side : Side) : Owned (w.pulled side) := by
  by_cases hempty : (w.self.active side).clId = 0
  · have heq : w.pulled side = w := by
      rw [World.pulled, pull, if_neg (not_not.mpr hempty)]
      rfl
    rwa [heq]
  · have hcancelled : (w.pulled side).trace.cancelled =
        (w.self.active side).clId :: w.trace.cancelled := by
      rw [World.pulled, pull, if_pos hempty]
      rfl
    intro o ho
    have hkeep : Settled w.trace o → Settled (w.pulled side).trace o := fun hsettled =>
      hsettled.mono (fun id hid => hcancelled ▸ List.mem_cons_of_mem _ hid) (fun id hid => hid)
        (sameAccount_pulled w side).executions
    rcases h o ho with hsettled | hactive
    · exact Or.inl (hkeep hsettled)
    · by_cases hside : o.side = side
      · rw [hside] at hactive
        exact Or.inl (Or.inl (by rw [hcancelled, hactive]; exact List.mem_cons_self))
      · exact Or.inr (by rw [clId_pulled, if_neg hside, hactive])

/-- A new order is active, and its slot was empty. -/
theorem Owned.posted (h : Owned w) (hw : Numbered w) {side : Side}
    (hempty : (w.self.active side).clId = 0) (target : ℤ) (mdSeq : UInt64) :
    Owned (w.posted cfg side target mdSeq) := by
  have horders : (w.posted cfg side target mdSeq).trace.orders =
      ⟨w.self.nextClId, side, cfg.orderSize.toInt⟩ :: w.trace.orders := rfl
  intro o ho
  rw [horders, List.mem_cons] at ho
  rcases ho with rfl | ho
  · exact Or.inr (by rw [active_posted, if_pos rfl])
  · rcases h o ho with hsettled | hactive
    · exact Or.inl (hsettled.mono (fun id hid => hid) (fun id hid => hid) rfl)
    · refine Or.inr ?_
      have hside : o.side ≠ side := by
        intro hside
        rw [hside, hempty] at hactive
        exact hw.ne_zero ho hactive.symm
      rw [active_posted, if_neg hside, hactive]

/-- A book posts an order only in an empty slot. -/
theorem Owned.tob (h : Owned w) (hw : Counted w) {tob : ShmTopOfBook} {nowNs : Int64}
    (hstep : w.step cfg (.tob tob nowNs) = some w') (hlt : w'.trace.orders.length < 2 ^ 64) :
    Owned w' := by
  refine (World.tob_induct
    (P := fun v => Counted v ∧ (v.trace.orders.length < 2 ^ 64 → Owned v))
    (fun hv => ?_) (fun v side hv => ?_) (fun v side target _ _ hempty hv => ?_)
    ⟨hw, fun _ => h⟩ hstep).2 hlt
  · exact ⟨hv.1.of_orders rfl rfl fun side _ => rfl, hv.2⟩
  · exact ⟨hv.1.pulled side, fun hlt => (hv.2 hlt).pulled side⟩
  · refine ⟨hv.1.posted side target tob.mdSeq, fun hlt => ?_⟩
    have hlt' : v.trace.orders.length < 2 ^ 64 := Nat.lt_of_succ_lt hlt
    exact (hv.2 hlt').posted (hv.1 hlt') hempty target tob.mdSeq

/-- A reject lets go of the order it names. -/
theorem Owned.rejected (h : Owned w) {reject : ShmOrderReject}
    (hstep : w.step cfg (.reject reject) = some w') : Owned w' := by
  rw [World.step_reject] at hstep
  cases hstep
  intro o ho
  dsimp only at ho ⊢
  rw [Trace.orders_refused] at ho
  have hkeep : Settled w.trace o → Settled (w.trace.refused reject.clId) o := fun hsettled =>
    hsettled.mono (fun id hid => (Trace.cancelled_refused _ _).symm ▸ hid)
      (Trace.rejected_subset_refused _ _) (Trace.executions_refused _ _)
  rcases h o ho with hsettled | hactive
  · exact Or.inl (hkeep hsettled)
  · by_cases hmatched : matched w.self reject.clId = some o.side
    · have hid := clId_of_matched hmatched
      have hmem := Trace.mem_rejected_refused ho (hactive.symm.trans hid)
      rw [← hid, hactive] at hmem
      exact Or.inl (Or.inr (Or.inl (by rwa [← hid, hactive])))
    · exact Or.inr (by rw [clId_emptied, if_neg hmatched, hactive])

/-- A fill lets go of the order it names, whatever its quantity. -/
theorem owned_filled_iff (h : Owned w) (hw : Numbered w) {fill : ShmOrderFill}
    (hstep : w.step cfg (.fill fill) = some w') : Owned w' ↔ Completes w.trace fill := by
  rw [World.step_fill hstep]
  constructor
  · intro howned o ho hid
    -- its slot is empty now
    have hinactive : ((emptied w.self (matched w.self fill.clId)).active o.side).clId ≠ o.clId := by
      rw [clId_emptied]
      split_ifs with hmatched
      · exact (hw.ne_zero ho).symm
      · intro hactive
        obtain ⟨side, hside⟩ := Option.ne_none_iff_exists'.mp
          (matched_ne_none (hactive.trans hid))
        have heq := hw.side_of_active ho ((clId_of_matched hside).trans hid.symm)
        exact hmatched (heq ▸ hside)
    rcases howned o ((Trace.orders_filled _ _).symm ▸ ho) with hsettled | hactive
    · rw [Settled, Trace.cancelled_filled, Trace.rejected_filled, Trace.filledQty_filled ho,
        if_pos hid, add_comm] at hsettled
      exact hsettled
    · exact absurd hactive hinactive
  · intro hcompletes o ho
    dsimp only at ho ⊢
    rw [Trace.orders_filled] at ho
    rw [Settled, Trace.cancelled_filled, Trace.rejected_filled, Trace.filledQty_filled ho]
    by_cases hid : o.clId = fill.clId
    · rw [if_pos hid, add_comm]
      exact Or.inl (hcompletes o ho hid)
    · rw [if_neg hid, zero_add]
      refine (h o ho).imp_right fun hactive => ?_
      rw [clId_emptied, if_neg, hactive]
      intro hmatched
      exact hid (hactive.symm.trans (clId_of_matched hmatched))

/-! ## Runs -/

/-- Whatever is looked after is pulled by `cancel_all`, and is the only such order of its side. -/
theorem Owned.noOrphan (h : Owned w) (hw : Numbered w) : NoOrphan cfg w := by
  refine ⟨h, fun w' hstep => ?_, fun o ho o' ho' hside hopen hopen' => ?_⟩
  · cases hstep
    have howned := (h.pulled .bid).pulled .ask
    have hempty : ∀ side, (((w.pulled .bid).pulled .ask).self.active side).clId = 0 := by
      intro side
      rw [clId_pulled, clId_pulled]
      cases side <;> rfl
    intro o ho
    refine (howned o ho).resolve_right fun hactive => ?_
    rw [hempty] at hactive
    exact hw.ne_zero (ho : o ∈ w.trace.orders) hactive.symm
  · have hid := ((h o ho).resolve_left hopen).symm.trans (hside ▸ (h o' ho').resolve_left hopen')
    exact hw.eq_of_clId ho ho' hid

/-- No order is left behind along a run exactly when every fill of it completes its order. Both
sides are about the states the run has: they end at the first call that overflows. -/
theorem run_noOrphan_iff (cfg : StrategyConfig) (calls : List Call)
    (hfew : ∀ w, Visits cfg calls w → w.trace.orders.length < 2 ^ 64) :
    (∀ w, Visits cfg calls w → NoOrphan cfg w) ↔
      ∀ w fill w', Takes cfg calls w (.fill fill) w' → Completes w.trace fill := by
  have hnumbered : ∀ w, Visits cfg calls w → Numbered w := fun w hw =>
    visits_counted w hw (hfew w hw)
  constructor
  · intro h w fill w' htakes
    obtain ⟨pre, hpre, hrun, hstep⟩ := id htakes
    exact (owned_filled_iff (h w htakes.visits).owned (hnumbered w htakes.visits) hstep).mp
      (h w' htakes.visits_next).owned
  · intro h
    have howned : ∀ w, Visits cfg calls w → Owned w := by
      refine visits_induct (fun o ho => (by contradiction)) fun w call w' htakes hw => ?_
      have hbefore := hnumbered w htakes.visits
      have hafter := hnumbered w' htakes.visits_next
      obtain ⟨pre, hpre, hrun, hstep⟩ := id htakes
      cases call with
      | tob tob nowNs =>
        exact hw.tob (visits_counted w htakes.visits) hstep (hfew w' htakes.visits_next)
      | ack ack =>
        cases hstep
        exact hw
      | fill fill => exact (owned_filled_iff hw hbefore hstep).mpr (h w fill w' htakes)
      | reject reject => exact hw.rejected hstep
      | cancelAll =>
        cases hstep
        exact (hw.pulled .bid).pulled .ask
    exact fun w hw => (howned w hw).noOrphan (hnumbered w hw)

/-- A book, and a fill of the bid of 10 that it posts. -/
def bidFill (qty : Int64) : List Call :=
  [.tob { mdSeq := 1, bidPx := 500000, bidQty := 10, askPx := 500020, askQty := 10 } 1,
    .fill { clId := 1, fillPx := 500000, fillQty := qty }]

/-- The states that it comes through. -/
theorem visits_bidFill {qty : Int64} {P : World → Prop} (h₀ : P {})
    (h₁ : ∀ w, run {} ((bidFill qty).take 1) = some w → P w)
    (h₂ : ∀ w, run {} (bidFill qty) = some w → P w) : ∀ w, Visits {} (bidFill qty) w → P w := by
  intro w hvisits
  obtain ⟨n, hn, hrun⟩ := hvisits.exists_take
  have hn : n = 0 ∨ n = 1 ∨ n = 2 := by
    change n ≤ 2 at hn
    omega
  rcases hn with rfl | rfl | rfl
  · cases hrun
    exact h₀
  · exact h₁ w hrun
  · exact h₂ w hrun

/-- A fill of all 10 completes the bid. -/
theorem run_noOrphan_whole : ∃ w, run {} (bidFill 10) = some w ∧ NoOrphan {} w := by
  refine ⟨_, rfl, (run_noOrphan_iff {} (bidFill 10) (visits_bidFill (by decide) ?_ ?_)).mpr ?_ _
    ⟨_, List.prefix_rfl, rfl⟩⟩
  · intro w hrun
    cases hrun
    decide
  · intro w hrun
    cases hrun
    decide
  · intro w fill w' htakes
    obtain ⟨n, hn, hrun, hcall, -⟩ := htakes.exists_take
    have hn : n = 0 ∨ n = 1 := by
      change n < 2 at hn
      omega
    rcases hn with rfl | rfl
    · cases hcall
    · cases hcall
      cases hrun
      decide

/-- After a fill of 4 the other 6 of the bid can still trade, but nothing pulls them any more. -/
theorem run_noOrphan_part :
    ¬∀ (cfg : StrategyConfig) (calls : List Call),
      (∀ w, Visits cfg calls w → ∀ o ∈ w.trace.orders, w.trace.filledQty o.clId ≤ o.qty) →
      ∀ w, Visits cfg calls w → NoOrphan cfg w := by
  intro h
  have hlegal : ∀ w, Visits {} (bidFill 4) w →
      ∀ o ∈ w.trace.orders, w.trace.filledQty o.clId ≤ o.qty := by
    refine visits_bidFill (fun o ho => (by contradiction)) ?_ ?_
    · intro w hrun
      cases hrun
      decide
    · intro w hrun
      cases hrun
      decide
  have howned := (h {} (bidFill 4) hlegal _ ⟨_, List.prefix_rfl, rfl⟩).owned ⟨1, .bid, 10⟩
    (by decide)
  exact absurd howned (by decide)

end Native

end MarketMaker
