import MarketMaker.Strategy.Orderly

/-!
# The edits of the strategy

A callback of the strategy is a sequence of edits: `_new`, `_cancel`, `_stop`, an order marked
live, an order retired. `Tidy` is what holds between any two of them, of the strategy beside the
commands of its connection, and there is one lemma for each edit. A cancel followed by a new order
passes through a state whose current order is being cancelled, so that this never shows between
callbacks is not part of `Tidy`: `Settled` adds it.
-/

namespace MarketMaker

namespace Strategy

variable {cfg : StrategyConfig} {st : Strategy} {cmds : List Cmd}

/-! ## The invariant of the edits -/

/-- What holds of the strategy, beside the commands of the connection, between any two edits. -/
structure Tidy (st : Strategy) (cmds : List Cmd) : Prop where
  nodup : (st.orders.map ClientOrder.clId).Nodup
  orderly : Orderly cmds
  /-- An id that was sent has been counted. -/
  issued : ∀ clId ∈ newIds cmds, ∃ side n, n ≤ st.nextCl side ∧ clId = clIdOf side n
  sent : ∀ o ∈ st.orders, o.clId ∈ newIds cmds
  uncancelled : ∀ o ∈ st.orders, o.state ≠ .pendingCancel → o.clId ∉ cancelIds cmds
  /-- An order that is not being cancelled holds its side. -/
  named : ∀ o ∈ st.orders, o.state ≠ .pendingCancel → st.current (sideOf o.clId) = some o.clId
  current : st.CurrentOk
  barred : ∀ side px, st.rejectedPx side = some px → st.current side = none
  halted : st.stopped = true ↔ Stops cmds

/-- An order that its side quotes with is not being cancelled. -/
def Resting (st : Strategy) : Prop :=
  ∀ o ∈ st.orders, st.current (sideOf o.clId) = some o.clId → o.state ≠ .pendingCancel

theorem mem_of_getOrder {clId : Bytes} {order : ClientOrder} (h : st.getOrder clId = some order) :
    order ∈ st.orders ∧ order.clId = clId :=
  ⟨List.mem_of_find?_eq_some h, by simpa using List.find?_some h⟩

theorem mem_of_currentOrder {side : Side} {order : ClientOrder}
    (h : st.currentOrder side = some order) :
    order ∈ st.orders ∧ st.current side = some order.clId := by
  rw [currentOrder, Option.bind_eq_some_iff] at h
  obtain ⟨clId, hcurrent, hget⟩ := h
  obtain ⟨hmem, rfl⟩ := mem_of_getOrder hget
  exact ⟨hmem, hcurrent⟩

theorem getOrder_isSome {o : ClientOrder} (h : o ∈ st.orders) : (st.getOrder o.clId).isSome := by
  rw [getOrder, List.find?_isSome]
  exact ⟨o, h, by simp⟩

theorem mem_setState {clId : Bytes} {state : OState} {o : ClientOrder} :
    o ∈ (st.setState clId state).orders ↔
      ∃ o' ∈ st.orders, o = if o'.clId = clId then { o' with state } else o' := by
  simp only [setState, List.mem_map, eq_comm]

theorem map_clId_setState (clId : Bytes) (state : OState) :
    (st.setState clId state).orders.map ClientOrder.clId = st.orders.map ClientOrder.clId := by
  rw [setState, List.map_map]
  refine List.map_congr_left fun o _ => ?_
  dsimp only [Function.comp]
  split_ifs <;> rfl

/-- An edit that touches none of the order books keeping. -/
theorem Tidy.congr (h : Tidy st cmds) {st' : Strategy} (horders : st'.orders = st.orders)
    (hcurrent : st'.current = st.current) (hnext : st'.nextCl = st.nextCl)
    (hrejected : st'.rejectedPx = st.rejectedPx) (hstopped : st'.stopped = st.stopped) :
    Tidy st' cmds := by
  constructor
  case nodup => rw [horders]; exact h.nodup
  case orderly => exact h.orderly
  case issued => rw [hnext]; exact h.issued
  case sent => rw [horders]; exact h.sent
  case uncancelled => rw [horders]; exact h.uncancelled
  case named => rw [horders, hcurrent]; exact h.named
  case current =>
    intro side clId hcur
    rw [hcurrent] at hcur
    exact h.current side clId hcur
  case barred => rw [hrejected, hcurrent]; exact h.barred
  case halted => rw [hstopped]; exact h.halted

/-- `_stop`. -/
theorem Tidy.stop (h : Tidy st cmds) (reason : Bytes) :
    Tidy (st.stop reason).1 (cmds ++ (st.stop reason).2) := by
  constructor
  case nodup => exact h.nodup
  case orderly => exact .stop h.orderly
  case issued => simpa [Strategy.stop, newIds] using h.issued
  case sent => simpa [Strategy.stop, newIds] using h.sent
  case uncancelled => simpa [Strategy.stop, cancelIds] using h.uncancelled
  case named => exact h.named
  case current => exact h.current
  case barred => exact h.barred
  case halted => exact ⟨fun _ => ⟨reason, by simp [Strategy.stop]⟩, fun _ => rfl⟩

/-- `_cancel` of an order that is not being cancelled. -/
theorem Tidy.cancel (h : Tidy st cmds) {order : ClientOrder} (hmem : order ∈ st.orders)
    (hstate : order.state ≠ .pendingCancel) :
    Tidy (st.cancel order).1 (cmds ++ [(st.cancel order).2]) := by
  have hback : ∀ o ∈ (st.setState order.clId .pendingCancel).orders, o.state ≠ .pendingCancel →
      o ∈ st.orders ∧ o.clId ≠ order.clId := by
    intro o ho hne
    obtain ⟨o', ho', rfl⟩ := mem_setState.mp ho
    split_ifs at hne ⊢ with heq
    · exact absurd rfl hne
    · exact ⟨ho', heq⟩
  constructor
  case nodup =>
    change ((st.setState order.clId .pendingCancel).orders.map ClientOrder.clId).Nodup
    rw [map_clId_setState]
    exact h.nodup
  case orderly => exact .cancel h.orderly (h.sent order hmem) (h.uncancelled order hmem hstate)
  case issued =>
    change ∀ clId ∈ newIds _, ∃ side n, n ≤ st.nextCl side ∧ clId = clIdOf side n
    simpa [Strategy.cancel, newIds] using h.issued
  case sent =>
    intro o ho
    obtain ⟨o', ho', rfl⟩ := mem_setState.mp ho
    rw [newIds_append]
    refine List.mem_append_left _ ?_
    split_ifs <;> exact h.sent o' ho'
  case uncancelled =>
    intro o ho hne
    obtain ⟨hold, hother⟩ := hback o ho hne
    rw [cancelIds_append, List.mem_append]
    rintro (hbefore | hnow)
    · exact h.uncancelled o hold hne hbefore
    · exact hother (List.mem_singleton.mp hnow)
  case named => exact fun o ho hne => h.named o (hback o ho hne).1 hne
  case current => exact h.current
  case barred => exact h.barred
  case halted => exact h.halted.trans stops_concat_send.symm

/-- `_new` on a side whose orders are all being cancelled and that has no bar. -/
theorem Tidy.new (h : Tidy st cmds) (cfg : StrategyConfig) (hrun : st.stopped = false) {side : Side}
    (hside : ∀ o ∈ st.orders, sideOf o.clId = side → o.state = .pendingCancel)
    (hbar : st.rejectedPx side = none) (px : ℤ) (mdSeq : ℕ) :
    Tidy (st.new cfg side px mdSeq).1 (cmds ++ [(st.new cfg side px mdSeq).2]) := by
  have hnew : newIds [(st.new cfg side px mdSeq).2] = [clIdOf side (st.nextCl side + 1)] := rfl
  have hfresh : clIdOf side (st.nextCl side + 1) ∉ newIds cmds := by
    intro hmem
    obtain ⟨side', n, hn, heq⟩ := h.issued _ hmem
    obtain ⟨rfl, rfl⟩ := clIdOf_inj heq
    omega
  have hcount : ∀ side', st.nextCl side' ≤ (st.new cfg side px mdSeq).1.nextCl side' := by
    intro side'
    by_cases hside' : side' = side
    · subst hside'
      simp [Strategy.new]
    · simp [Strategy.new, Function.update_of_ne hside']
  constructor
  case nodup =>
    change ((st.orders ++ [_]).map ClientOrder.clId).Nodup
    rw [List.map_append, List.nodup_append]
    refine ⟨h.nodup, List.nodup_singleton _, fun a ha b hb heq => ?_⟩
    obtain ⟨o, ho, rfl⟩ := List.mem_map.mp ha
    have hid : o.clId = clIdOf side (st.nextCl side + 1) := heq.trans (List.mem_singleton.mp hb)
    exact hfresh (hid ▸ h.sent o ho)
  case orderly =>
    refine .new h.orderly hfresh fun hstops => ?_
    rw [h.halted.mpr hstops] at hrun
    cases hrun
  case issued =>
    intro clId hmem
    rw [newIds_append, hnew, List.mem_append] at hmem
    obtain hold | hnow := hmem
    · obtain ⟨side', n, hn, rfl⟩ := h.issued clId hold
      exact ⟨side', n, Nat.le_trans hn (hcount side'), rfl⟩
    · refine ⟨side, st.nextCl side + 1, ?_, List.mem_singleton.mp hnow⟩
      simp [Strategy.new]
  case sent =>
    intro o ho
    rw [newIds_append, hnew]
    obtain hold | hnow := List.mem_append.mp ho
    · exact List.mem_append_left _ (h.sent o hold)
    · obtain rfl := List.mem_singleton.mp hnow
      exact List.mem_append_right _ List.mem_cons_self
  case uncancelled =>
    intro o ho hne
    have hcancel : cancelIds [(st.new cfg side px mdSeq).2] = [] := rfl
    rw [cancelIds_append, hcancel, List.append_nil]
    obtain hold | hnow := List.mem_append.mp ho
    · exact h.uncancelled o hold hne
    · obtain rfl := List.mem_singleton.mp hnow
      -- a cancel names an id that was sent, and this one was not
      intro hmem
      obtain ⟨c, hc, hid⟩ := List.mem_filterMap.mp hmem
      obtain ⟨before, after, rfl⟩ := List.append_of_mem hc
      cases c with
      | stopQuoting reason => cases hid
      | send msg =>
        cases msg with
        | newOrder m => cases hid
        | cancelOrder m =>
          have hid' : m.clId = clIdOf side (st.nextCl side + 1) := Option.some.inj hid
          have hsent := h.orderly.sent_before rfl
          rw [hid'] at hsent
          exact hfresh (by rw [newIds_append]; exact List.mem_append_left _ hsent)
  case named =>
    intro o ho hne
    obtain hold | hnow := List.mem_append.mp ho
    · have hother : sideOf o.clId ≠ side := fun heq => hne (hside o hold heq)
      change Function.update st.current side _ _ = _
      rw [Function.update_of_ne hother]
      exact h.named o hold hne
    · obtain rfl := List.mem_singleton.mp hnow
      simp [Strategy.new]
  case current =>
    intro side' clId hcur
    change Function.update st.current side _ side' = _ at hcur
    by_cases hside' : side' = side
    · subst hside'
      rw [Function.update_self] at hcur
      obtain rfl := Option.some.inj hcur
      exact sideOf_clIdOf _ _
    · rw [Function.update_of_ne hside'] at hcur
      exact h.current side' clId hcur
  case barred =>
    intro side' px' hpx
    have hother : side' ≠ side := by
      rintro rfl
      have hpx' : st.rejectedPx side' = some px' := hpx
      rw [hbar] at hpx'
      cases hpx'
    change Function.update st.current side _ side' = _
    rw [Function.update_of_ne hother]
    exact h.barred side' px' hpx
  case halted => exact h.halted.trans stops_concat_send.symm

/-- `_stopped` is set, announced unless it was set before. -/
theorem Tidy.halt (h : Tidy st cmds) {announced : List Cmd}
    (hannounced : st.stopped = true ∧ announced = [] ∨ ∃ reason, announced = [.stopQuoting reason])
    (swept : Bool) : Tidy { st with stopped := true, swept } (cmds ++ announced) := by
  obtain ⟨hst, rfl⟩ | ⟨reason, rfl⟩ := hannounced
  · rw [List.append_nil]
    exact h.congr rfl rfl rfl rfl hst.symm
  · exact (h.stop reason).congr rfl rfl rfl rfl rfl

/-- A side is freed of the retired order, and keeps any other. -/
theorem current_retire (st : Strategy) (order : ClientOrder) (side : Side) :
    (st.retire order).current side =
      if side = sideOf order.clId ∧ st.current side = some order.clId then none
      else st.current side := by
  simp only [Strategy.retire]
  by_cases hside : side = sideOf order.clId
  · subst hside
    split_ifs with hheld <;> simp_all
  · split_ifs with hheld <;> simp_all

theorem mem_retire {st : Strategy} {order o : ClientOrder} :
    o ∈ (st.retire order).orders ↔ o ∈ st.orders ∧ o.clId ≠ order.clId := by
  simp [Strategy.retire]

/-- The order leaves the map. A price may be barred with it, if it held its side. -/
theorem Tidy.retire (h : Tidy st cmds) (order : ClientOrder) {rejectedPx : Side → Option ℤ}
    (hbar : ∀ side px, rejectedPx side = some px → st.rejectedPx side = some px ∨
      side = sideOf order.clId ∧ st.current side = some order.clId) :
    Tidy (({ st with rejectedPx } : Strategy).retire order) cmds := by
  constructor
  case nodup => exact h.nodup.sublist (List.filter_sublist.map _)
  case orderly => exact h.orderly
  case issued => exact h.issued
  case sent => exact fun o ho => h.sent o (mem_retire.mp ho).1
  case uncancelled => exact fun o ho => h.uncancelled o (mem_retire.mp ho).1
  case named =>
    intro o ho hne
    obtain ⟨hold, hother⟩ := mem_retire.mp ho
    have hnamed : st.current (sideOf o.clId) = some o.clId := h.named o hold hne
    rw [current_retire, if_neg]
    · exact hnamed
    · rintro ⟨-, heq⟩
      exact hother (Option.some.inj (hnamed.symm.trans heq))
  case current =>
    intro side clId hcur
    rw [current_retire] at hcur
    split_ifs at hcur
    exact h.current side clId hcur
  case barred =>
    intro side px hpx
    rw [current_retire]
    split_ifs with hfreed
    · rfl
    · exact h.barred side px ((hbar side px hpx).resolve_right hfreed)
  case halted => exact h.halted

/-- An acknowledgement of an order that was not being cancelled. -/
theorem Tidy.setLive (h : Tidy st cmds) {order : ClientOrder} (hmem : order ∈ st.orders)
    (hstate : order.state ≠ .pendingCancel) : Tidy (st.setState order.clId .live) cmds := by
  have hback : ∀ o ∈ (st.setState order.clId .live).orders, ∃ o' ∈ st.orders,
      o'.clId = o.clId ∧ (o.state ≠ .pendingCancel → o'.state ≠ .pendingCancel) := by
    intro o ho
    obtain ⟨o', ho', rfl⟩ := mem_setState.mp ho
    split_ifs with heq
    · exact ⟨order, hmem, heq.symm, fun _ => hstate⟩
    · exact ⟨o', ho', rfl, id⟩
  constructor
  case nodup => rw [map_clId_setState]; exact h.nodup
  case orderly => exact h.orderly
  case issued => exact h.issued
  case sent =>
    intro o ho
    obtain ⟨o', ho', hid, -⟩ := hback o ho
    exact hid ▸ h.sent o' ho'
  case uncancelled =>
    intro o ho hne
    obtain ⟨o', ho', hid, hne'⟩ := hback o ho
    exact hid ▸ h.uncancelled o' ho' (hne' hne)
  case named =>
    intro o ho hne
    obtain ⟨o', ho', hid, hne'⟩ := hback o ho
    exact hid ▸ h.named o' ho' (hne' hne)
  case current => exact h.current
  case barred => exact h.barred
  case halted => exact h.halted

end Strategy

end MarketMaker
