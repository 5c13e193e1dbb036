import MarketMaker.Strategy.Sweep

/-!
# What the strategy puts in its messages

The fields of a message that the strategy sends come from the books it accepted, from its
configuration and from its counters. `Issued` says so, message by message, and `Emits` is kept by
every entry point: the strategy counts each message in `_out_seq`, and an order id is no greater
than that count. -/

namespace MarketMaker

/-- An id of the strategy, made when it had sent no more than this many messages. -/
def IsIssuedId (bound : ℕ) (clId : Bytes) : Prop := ∃ side n, n ≤ bound ∧ clId = clIdOf side n

/-- An id that was issued stays so. -/
theorem IsIssuedId.mono {bound bound' : ℕ} {clId : Bytes} (h : IsIssuedId bound clId)
    (hle : bound ≤ bound') : IsIssuedId bound' clId := by
  obtain ⟨side, n, hn, rfl⟩ := h
  exact ⟨side, n, hn.trans hle, rfl⟩

section Symbols

variable (P : Bytes → Prop) (cfg : StrategyConfig)

/-- A message of the strategy. `P` is what is known of the symbols that the engine sends. -/
inductive Issued (bound : ℕ) : InMsg → Prop
  | newOrder {m : NewOrder} (v : m.v = 1) (mdSeq : m.mdSeq < 2 ^ 64)
      (clId : IsIssuedId bound m.clId) (symbol : m.symbol = cfg.symbol) (heard : P cfg.symbol)
      (side : ∃ side : Side, m.side = side.wire) (px : InInt64 m.px)
      (qty : m.qty = min cfg.qty cfg.maxQty) : Issued bound (.newOrder m)
  | cancelOrder {m : CancelOrder} (v : m.v = 1) (clId : IsIssuedId bound m.clId) :
      Issued bound (.cancelOrder m)

/-- A message of the engine, as far as the strategy makes use of it. -/
structure Received (msg : OutMsg) : Prop where
  mdSeq : ∀ tob, msg = .tob tob → tob.mdSeq < 2 ^ 64
  symbol : ∀ tob, msg = .tob tob → P tob.symbol
  px : ∀ tob, msg = .tob tob → InInt64 tob.bidPx ∧ InInt64 tob.askPx

end Symbols

variable {P : Bytes → Prop} {cfg : StrategyConfig}

/-- So does a command. -/
theorem Issued.mono {bound bound' : ℕ} {msg : InMsg} (h : Issued P cfg bound msg)
    (hle : bound ≤ bound') : Issued P cfg bound' msg := by
  cases h with
  | newOrder v mdSeq clId symbol heard side px qty =>
    exact .newOrder v mdSeq (clId.mono hle) symbol heard side px qty
  | cancelOrder v clId => exact .cancelOrder v (clId.mono hle)

namespace Strategy

variable {st : Strategy}

/-- What a strategy holds fits the wire. -/
structure Held (P : Bytes → Prop) (cfg : StrategyConfig) (st : Strategy) : Prop where
  mdSeq : st.mdSeq < 2 ^ 64
  bid : ∀ px, st.bidPx = some px → InInt64 px ∧ P cfg.symbol
  ask : ∀ px, st.askPx = some px → InInt64 px
  orders : ∀ o ∈ st.orders, IsIssuedId st.outSeq o.clId
  nextCl : ∀ side, st.nextCl side ≤ st.outSeq

/-- An entry point that counts what it sends, and sends what fits. -/
structure Emits (P : Bytes → Prop) (cfg : StrategyConfig) (st : Strategy)
    (r : Strategy × List Cmd) : Prop where
  held : Held P cfg r.1
  count : r.1.outSeq = st.outSeq + (sends r.2).length
  issued : ∀ msg ∈ sends r.2, Issued P cfg r.1.outSeq msg

/-- A new session holds nothing. -/
theorem held_onConnect (P : Bytes → Prop) (cfg : StrategyConfig) (epoch : ℕ) :
    Held P cfg (st.onConnect epoch).1 where
  mdSeq := Nat.two_pow_pos 64
  bid _ h := by contradiction
  ask _ h := by contradiction
  orders _ h := by contradiction
  nextCl _ := le_refl 0

namespace Emits

/-- Nothing sent. -/
theorem of_held {st' : Strategy} {cmds : List Cmd} (h : Held P cfg st')
    (hcount : st'.outSeq = st.outSeq)
    (hsends : sends cmds = []) : Emits P cfg st (st', cmds) where
  held := h
  count := by rw [hsends]; exact hcount
  issued := by
    rw [hsends]
    exact fun _ hmsg => by contradiction

/-- What is issued is counted by `outSeq`. -/
theorem congr {st' : Strategy} {r : Strategy × List Cmd} (h : Emits P cfg st' r)
    (hcount : st'.outSeq = st.outSeq) : Emits P cfg st r :=
  ⟨h.held, hcount ▸ h.count, h.issued⟩

/-- Two entry points, one after the other. -/
theorem append {r r' : Strategy × List Cmd} (h : Emits P cfg st r) (h' : Emits P cfg r.1 r') :
    Emits P cfg st (r'.1, r.2 ++ r'.2) where
  held := h'.held
  count := by
    rw [sends_append, List.length_append, ← Nat.add_assoc, ← h.count]
    exact h'.count
  issued msg hmsg := by
    rw [sends_append, List.mem_append] at hmsg
    refine hmsg.elim (fun hfirst => ?_) (h'.issued msg)
    have hle : r.1.outSeq ≤ r'.1.outSeq := h'.count ▸ Nat.le_add_right _ _
    exact (h.issued msg hfirst).mono hle

/-- What else is announced counts for nothing. -/
theorem announce {r : Strategy × List Cmd} (h : Emits P cfg st r) {announced : List Cmd}
    (hsends : sends announced = []) : Emits P cfg st (r.1, announced ++ r.2) := by
  have hsame : sends (announced ++ r.2) = sends r.2 := by
    rw [sends_append, hsends, List.nil_append]
  exact ⟨h.held, hsame ▸ h.count, hsame ▸ h.issued⟩

end Emits

/-! ## One command -/

/-- Assigning a state keeps the ids. -/
theorem exists_of_mem_setState {clId : Bytes} {state : OState} {o : ClientOrder}
    (h : o ∈ (st.setState clId state).orders) : ∃ o' ∈ st.orders, o.clId = o'.clId := by
  have hmem : o.clId ∈ (st.setState clId state).orders.map ClientOrder.clId := List.mem_map_of_mem h
  rw [map_clId_setState] at hmem
  obtain ⟨o', ho', heq⟩ := List.mem_map.mp hmem
  exact ⟨o', ho', heq.symm⟩

/-- A cancel names an issued id. -/
theorem Held.emits_cancel (h : Held P cfg st) {order : ClientOrder}
    (hid : IsIssuedId st.outSeq order.clId) :
    Emits P cfg st ((st.cancel order).1, [(st.cancel order).2]) where
  held :=
    { mdSeq := h.mdSeq
      bid := h.bid
      ask := h.ask
      orders := fun o ho => by
        obtain ⟨o', ho', heq⟩ := exists_of_mem_setState ho
        rw [heq]
        exact (h.orders o' ho').mono (Nat.le_succ _)
      nextCl := fun side => (h.nextCl side).trans (Nat.le_succ _) }
  count := rfl
  issued msg hmsg := by
    obtain rfl := List.mem_singleton.mp hmsg
    exact .cancelOrder rfl (hid.mono (Nat.le_succ _))

/-- A new order issues the next one. -/
theorem Held.emits_new (h : Held P cfg st) (side : Side) {px : ℤ} {mdSeq : ℕ} (hpx : InInt64 px)
    (hmdSeq : mdSeq < 2 ^ 64) (hsymbol : P cfg.symbol) :
    Emits P cfg st ((st.new cfg side px mdSeq).1, [(st.new cfg side px mdSeq).2]) := by
  have hid : IsIssuedId (st.outSeq + 1) (clIdOf side (st.nextCl side + 1)) :=
    ⟨side, _, Nat.succ_le_succ (h.nextCl side), rfl⟩
  refine ⟨⟨h.mdSeq, h.bid, h.ask, fun o ho => ?_, fun side' => ?_⟩, rfl, fun msg hmsg => ?_⟩
  · rcases List.mem_append.mp ho with hold | hnew
    · exact (h.orders o hold).mono (Nat.le_succ _)
    · obtain rfl := List.mem_singleton.mp hnew
      exact hid
  · change Function.update st.nextCl side _ side' ≤ st.outSeq + 1
    rw [Function.update_apply]
    split_ifs
    · exact Nat.succ_le_succ (h.nextCl side)
    · exact (h.nextCl side').trans (Nat.le_succ _)
  · obtain rfl := List.mem_singleton.mp hmsg
    exact .newOrder rfl hmdSeq hid rfl hsymbol ⟨side, rfl⟩ hpx rfl

/-! ## `_quote` -/

/-- A quote issues at most one order. -/
theorem Held.emits_quoteUnbarred (h : Held P cfg st) (side : Side) {desiredPx : ℤ} {mdSeq : ℕ}
    (hpx : InInt64 desiredPx) (hmdSeq : mdSeq < 2 ^ 64) (hsymbol : P cfg.symbol)
    (askPx bidPx : ℤ) : Emits P cfg st (st.quoteUnbarred cfg side desiredPx askPx bidPx mdSeq) := by
  have hsilent : Emits P cfg st (st, []) := .of_held h rfl rfl
  rw [quoteUnbarred]
  split_ifs
  · exact hsilent
  · exact hsilent
  · cases horder : st.currentOrder side with
    | none => exact h.emits_new side hpx hmdSeq hsymbol
    | some order =>
      dsimp only
      split_ifs
      · exact hsilent
      · exact hsilent
      · have hcancel := h.emits_cancel (h.orders order (mem_of_currentOrder horder).1)
        exact hcancel.append (hcancel.held.emits_new side hpx hmdSeq hsymbol)

/-- So with the bar. -/
theorem Held.emits_quote (h : Held P cfg st) (side : Side) {desiredPx : ℤ} {mdSeq : ℕ}
    (hpx : InInt64 desiredPx) (hmdSeq : mdSeq < 2 ^ 64) (hsymbol : P cfg.symbol)
    (askPx bidPx : ℤ) : Emits P cfg st (st.quote cfg side desiredPx askPx bidPx mdSeq) := by
  rw [quote]
  cases st.rejectedPx side with
  | none => exact h.emits_quoteUnbarred side hpx hmdSeq hsymbol askPx bidPx
  | some px =>
    dsimp only
    split_ifs
    · exact .of_held h rfl rfl
    · have hunbarred : Held P cfg
          { st with rejectedPx := Function.update st.rejectedPx side none } :=
        ⟨h.mdSeq, h.bid, h.ask, h.orders, h.nextCl⟩
      exact (hunbarred.emits_quoteUnbarred side hpx hmdSeq hsymbol askPx bidPx).congr rfl

/-! ## The entry points -/

/-- A tick quotes both sides. -/
theorem Held.emits_onTob (h : Held P cfg st) {tob : Tob} (hreceived : Received P (.tob tob))
    (nowNs : ℤ) : Emits P cfg st (st.onTob cfg tob nowNs) := by
  obtain ⟨-, inSeq, lastTobNs, -, heq⟩ | ⟨-, inSeq, reason, heq⟩ | ⟨haccepts, conflatedSeen, heq⟩ :=
    onTob_cases cfg st tob nowNs
  · rw [heq]
    exact .of_held ⟨h.mdSeq, h.bid, h.ask, h.orders, h.nextCl⟩ rfl rfl
  · rw [heq]
    exact .of_held ⟨h.mdSeq, h.bid, h.ask, h.orders, h.nextCl⟩ rfl rfl
  · have hmdSeq := hreceived.mdSeq tob rfl
    have hpx := hreceived.px tob rfl
    have hsymbol : P cfg.symbol := haccepts.2.2.2.1 ▸ hreceived.symbol tob rfl
    dsimp only at heq
    have hmoved : Held P cfg
        { st with
          inSeq := tob.seq, lastTobNs := some nowNs, conflatedSeen, mdSeq := tob.mdSeq
          bidPx := some tob.bidPx, askPx := some tob.askPx } :=
      { mdSeq := hmdSeq
        bid := fun px hbid => Option.some.inj hbid ▸ ⟨hpx.1, hsymbol⟩
        ask := fun px hask => Option.some.inj hask ▸ hpx.2
        orders := h.orders
        nextCl := h.nextCl }
    have hbid := hmoved.emits_quote .bid hpx.1 hmdSeq hsymbol tob.askPx tob.bidPx
    have hask := hbid.held.emits_quote .ask hpx.2 hmdSeq hsymbol tob.askPx tob.bidPx
    rw [heq]
    exact (hbid.append hask).congr rfl

/-- Reconsidering quotes one side. -/
theorem Held.emits_reconsider (h : Held P cfg st) (side : Side) :
    Emits P cfg st (st.reconsider cfg side) := by
  rw [reconsider]
  cases hbid : st.bidPx with
  | none => exact .of_held h rfl rfl
  | some bidPx =>
    cases hask : st.askPx with
    | none => exact .of_held h rfl rfl
    | some askPx =>
      obtain ⟨hpx, hsymbol⟩ := h.bid bidPx hbid
      cases side with
      | bid => exact h.emits_quote .bid hpx h.mdSeq hsymbol askPx bidPx
      | ask => exact h.emits_quote .ask (h.ask askPx hask) h.mdSeq hsymbol askPx bidPx

/-- A retired order is not held any more. -/
theorem Held.retire (h : Held P cfg st) (order : ClientOrder) (rejectedPx : Side → Option ℤ) :
    Held P cfg (({ st with rejectedPx } : Strategy).retire order) where
  mdSeq := h.mdSeq
  bid := h.bid
  ask := h.ask
  orders o ho := h.orders o (List.mem_of_mem_filter ho)
  nextCl := h.nextCl

/-- An ack changes the state of its order. -/
theorem Held.setLive (h : Held P cfg st) (clId : Bytes) : Held P cfg (st.setState clId .live) where
  mdSeq := h.mdSeq
  bid := h.bid
  ask := h.ask
  orders o ho := by
    obtain ⟨o', ho', heq⟩ := exists_of_mem_setState ho
    exact heq ▸ h.orders o' ho'
  nextCl := h.nextCl

/-- A report retires, acks or reconsiders. -/
theorem Held.emits_applyReport (h : Held P cfg st) (order : ClientOrder) (msg : OutMsg) :
    Emits P cfg st (st.applyReport cfg order msg) := by
  have hidle : Emits P cfg st (st, []) := .of_held h rfl rfl
  have hretire : ∀ rejectedPx,
    Emits P cfg st (({ st with rejectedPx } : Strategy).retire order, []) :=
    fun rejectedPx => .of_held (h.retire order rejectedPx) rfl rfl
  cases msg with
  | tob m => exact hidle
  | orderAck m =>
    rw [applyReport]
    split_ifs
    · exact ((h.setLive order.clId).emits_reconsider (sideOf order.clId)).congr rfl
    · exact hidle
  | cancelAck m => exact hretire st.rejectedPx
  | fill m =>
    rw [applyReport]
    split_ifs
    · exact hretire st.rejectedPx
    · exact hidle
  | reject m =>
    rw [applyReport]
    split_ifs
    · exact hretire _
    · exact hretire st.rejectedPx

/-- So for a report of any order. -/
theorem Held.emits_onOrderReport (h : Held P cfg st) (msg : OutMsg) :
    Emits P cfg st (st.onOrderReport cfg msg) := by
  rw [onOrderReport]
  split_ifs with hskip
  · exact .of_held h rfl rfl
  have hcounted : ∀ inSeq, Held P cfg { st with inSeq } := fun _ =>
    ⟨h.mdSeq, h.bid, h.ask, h.orders, h.nextCl⟩
  rw [advanceSeq]
  dsimp only
  split_ifs with hgap
  · exact .of_held ⟨h.mdSeq, h.bid, h.ask, h.orders, h.nextCl⟩ rfl rfl
  · dsimp only
    cases msg.clId.bind ({ st with inSeq := msg.seq } : Strategy).getOrder with
    | none => exact .of_held (hcounted msg.seq) rfl rfl
    | some order => exact ((hcounted msg.seq).emits_applyReport order msg).congr rfl

/-- So for every message that was received. -/
theorem Held.emits_onReport (h : Held P cfg st) {msg : OutMsg} (hreceived : Received P msg)
    (nowNs : ℤ) :
    Emits P cfg st (st.onReport cfg msg nowNs) := by
  cases msg with
  | tob tob => exact h.emits_onTob hreceived nowNs
  | _ => exact h.emits_onOrderReport _

/-- The sweep cancels issued orders. -/
theorem Held.emits_cancelAll (h : Held P cfg st) {l : List ClientOrder}
    (hids : ∀ o ∈ l, IsIssuedId st.outSeq o.clId) : Emits P cfg st (st.cancelAll l) := by
  induction l generalizing st with
  | nil => exact .of_held h rfl rfl
  | cons order l ih =>
    have hcancel := h.emits_cancel (hids order List.mem_cons_self)
    refine hcancel.append (ih hcancel.held fun o ho => ?_)
    exact (hids o (List.mem_cons_of_mem order ho)).mono (Nat.le_succ _)

/-- The timer sweeps, or does nothing. -/
theorem Held.emits_onTimer (h : Held P cfg st) (nowNs : ℤ) :
    Emits P cfg st (st.onTimer cfg nowNs) := by
  by_cases hsweep : st.Stale cfg nowNs ∧ st.swept = false
  · obtain ⟨hstale, hswept⟩ := hsweep
    have hstopped : Held P cfg { st with stopped := true, swept := true } :=
      ⟨h.mdSeq, h.bid, h.ask, h.orders, h.nextCl⟩
    have hall : Emits P cfg st
        (({ st with stopped := true, swept := true } : Strategy).cancelAll st.resting) :=
      (hstopped.emits_cancelAll fun o ho => h.orders o (List.mem_of_mem_filter ho)).congr rfl
    obtain ⟨last, hlast, hage⟩ := hstale
    rw [onTimer, hlast]
    dsimp only
    rw [if_neg (by rw [hswept]; exact Bool.false_ne_true), if_neg (not_le.mpr hage), ← hlast]
    refine hall.announce ?_
    split_ifs <;> rfl
  · have hidle : ¬st.Stale cfg nowNs ∨ st.swept = true := by
      rcases not_and_or.mp hsweep with hfresh | hswept
      · exact Or.inl hfresh
      · exact Or.inr (Bool.not_eq_false _ |>.mp hswept)
    rw [onTimer_idle hidle]
    exact .of_held h rfl rfl

end Strategy

end MarketMaker
