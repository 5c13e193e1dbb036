import MarketMaker.Strategy.Basic

/-!
# One side of the strategy

The strategy decides each side on its own: `sideView` is what it knows of a side and `digest` is
what a message says about an order. The lemmas give every entry point of the strategy as a relation
between side views (`Quoted`, `Heard`), so that the composition with the engine can be checked one
side at a time.
-/

namespace MarketMaker

/-- What a report says of its order. -/
inductive ReportKind
  | acked
  /-- A fill that leaves something. -/
  | traded
  /-- A fill that leaves nothing. -/
  | filled
  | cancelled
  | refused
  deriving DecidableEq, Repr

/-- What a command does with its order. -/
inductive CmdKind
  | new (px : ℤ)
  | cancel
  deriving DecidableEq, Repr

/-- The order a report is about, and what it says; a tick is about none. -/
def OutMsg.digest : OutMsg → Option (Bytes × ReportKind)
  | .tob _ => none
  | .orderAck m => some (m.clId, .acked)
  | .cancelAck m => some (m.clId, .cancelled)
  | .reject m => some (m.clId, .refused)
  | .fill m => some (m.clId, if m.leaves = 0 then .filled else .traded)

/-- The order a command is about, and what it does. -/
def InMsg.digest : InMsg → Bytes × CmdKind
  | .newOrder m => (m.clId, .new m.px)
  | .cancelOrder m => (m.clId, .cancel)

/-- The envelope is no part of the digest. -/
@[simp]
theorem OutMsg.digest_stamp (seq epoch : ℕ) (m : OutMsg) :
    (m.stamp seq epoch).digest = m.digest := by
  cases m <;> rfl

/-- The digests of commands on one side, in order. -/
def cmdsOn (side : Side) (msgs : List InMsg) : List (Bytes × CmdKind) :=
  (msgs.map InMsg.digest).filter fun p => sideOf p.1 = side

/-- The digests of reports on one side, in order. -/
def reportsOn (side : Side) (msgs : List OutMsg) : List (Bytes × ReportKind) :=
  (msgs.filterMap OutMsg.digest).filter fun p => sideOf p.1 = side

/-- The messages among commands. -/
def sends (cmds : List Cmd) : List InMsg :=
  cmds.filterMap fun
    | .send msg => some msg
    | .stopQuoting _ => none

/-- What the strategy knows of one side. -/
@[ext]
structure SideView where
  next : ℕ
  current : Option Bytes
  orders : List ClientOrder

namespace SideView

/-- The order at an id. -/
def find? (v : SideView) (clId : Bytes) : Option ClientOrder :=
  v.orders.find? fun o => o.clId = clId

/-- Assign the state of the order at an id. -/
def setState (v : SideView) (clId : Bytes) (state : OState) : SideView :=
  { v with orders := v.orders.map fun o => if o.clId = clId then { o with state } else o }

/-- The order at an id is terminal. -/
def retire (v : SideView) (clId : Bytes) : SideView :=
  { v with
    current := if v.current = some clId then none else v.current
    orders := v.orders.filter fun o => o.clId ≠ clId }

/-- A new order takes the side. -/
def new (v : SideView) (side : Side) (px : ℤ) : SideView where
  next := v.next + 1
  current := some (clIdOf side (v.next + 1))
  orders := v.orders ++ [⟨clIdOf side (v.next + 1), px, .pendingNew⟩]

end SideView

namespace Strategy

variable {cfg : StrategyConfig} {st : Strategy} {side : Side}

/-- The strategy's picture of one side. -/
def sideView (st : Strategy) (side : Side) : SideView :=
  ⟨st.nextCl side, st.current side, st.orders.filter fun o => sideOf o.clId = side⟩

/-- The view of a side has its current order. -/
@[simp]
theorem current_sideView (st : Strategy) (side : Side) :
    (st.sideView side).current = st.current side := rfl

/-- It has its counter. -/
@[simp]
theorem next_sideView (st : Strategy) (side : Side) :
    (st.sideView side).next = st.nextCl side := rfl

/-- A side's current order is an order of that side. -/
def CurrentOk (st : Strategy) : Prop :=
  ∀ side clId, st.current side = some clId → sideOf clId = side

/-! ## Updates seen from a side -/

/-- An order is looked up on the side of its id. -/
theorem getOrder_eq (st : Strategy) (clId : Bytes) :
    st.getOrder clId = (st.sideView (sideOf clId)).find? clId := by
  simp only [getOrder, SideView.find?, sideView, List.find?_filter]
  congr 1
  funext o
  by_cases ho : o.clId = clId <;> simp [ho]

/-- A change of state is one of the view. -/
@[simp]
theorem sideView_setState (clId : Bytes) (state : OState) :
    (st.setState clId state).sideView side = (st.sideView side).setState clId state := by
  simp only [sideView, setState, SideView.setState, List.filter_map, SideView.mk.injEq, true_and]
  congr 1
  refine List.filter_congr fun o _ => ?_
  by_cases ho : o.clId = clId <;> simp [ho]

/-- A retired order leaves the view of its side. -/
theorem sideView_retire (order : ClientOrder) (h : sideOf order.clId = side) :
    (st.retire order).sideView side = (st.sideView side).retire order.clId := by
  subst h
  refine SideView.ext rfl ?_ (List.filter_comm _ _ _)
  by_cases hcur : st.current (sideOf order.clId) = some order.clId
  · simp [retire, SideView.retire, hcur]
  · simp [retire, SideView.retire, hcur]

/-- It leaves the other side alone. -/
theorem sideView_retire_of_ne (order : ClientOrder) (h : sideOf order.clId ≠ side) :
    (st.retire order).sideView side = st.sideView side := by
  simp only [sideView, retire, SideView.mk.injEq, true_and]
  constructor
  · split_ifs
    · rw [Function.update_of_ne (Ne.symm h)]
    · rfl
  · rw [List.filter_filter]
    refine List.filter_congr fun o _ => ?_
    by_cases ho : sideOf o.clId = side
    · have hne : o.clId ≠ order.clId := fun heq => h (heq ▸ ho)
      simp [hne]
    · simp [ho]

/-- A cancel marks the order in the view. -/
theorem sideView_cancel (order : ClientOrder) :
    (st.cancel order).1.sideView side = (st.sideView side).setState order.clId .pendingCancel := by
  rw [← sideView_setState]
  rfl

/-- A new order enters the view of its side. -/
theorem sideView_new (px : ℤ) (mdSeq : ℕ) :
    (st.new cfg side px mdSeq).1.sideView side = (st.sideView side).new side px := by
  simp [sideView, new, SideView.new]

/-- It leaves the other side alone. -/
theorem sideView_new_of_ne {side' : Side} (px : ℤ) (mdSeq : ℕ) (h : side' ≠ side) :
    (st.new cfg side px mdSeq).1.sideView side' = st.sideView side' := by
  simp [sideView, new, h, Ne.symm h]

/-- Setting the state of an order of the other side shows nothing. -/
theorem setState_sideView_of_ne {clId : Bytes} {state : OState} (h : sideOf clId ≠ side) :
    (st.sideView side).setState clId state = st.sideView side := by
  simp only [SideView.setState, sideView, SideView.mk.injEq, true_and]
  refine (List.map_congr_left fun o ho => ?_).trans (List.map_id _)
  have hside : sideOf o.clId = side := by simpa using (List.mem_filter.mp ho).2
  have hne : o.clId ≠ clId := by
    rintro rfl
    exact h hside
  rw [if_neg hne]
  rfl

/-! ## `_quote` -/

/-- What a quote decision may do to its side. -/
inductive Quoted (side : Side) (v : SideView) : SideView → List (Bytes × CmdKind) → Prop
  | silent : Quoted side v v []
  | opened (px : ℤ) (idle : v.current.bind v.find? = none) :
      Quoted side v (v.new side px) [(clIdOf side (v.next + 1), .new px)]
  | amended (px : ℤ) {o : ClientOrder} (current : v.current = some o.clId)
      (found : v.find? o.clId = some o) (settled : o.state ≠ .pendingNew) (moved : o.px ≠ px) :
      Quoted side v ((v.setState o.clId .pendingCancel).new side px)
        [(o.clId, .cancel), (clIdOf side (v.next + 1), .new px)]

/-- A command that creates an order uses an id handed out by then, on the right side. -/
def NewOk (st : Strategy) (msg : InMsg) : Prop :=
  ∀ order, msg = .newOrder order →
    ∃ side n, n ≤ st.nextCl side ∧ order.clId = clIdOf side n ∧ order.side = side.wire

/-- The effect of an entry point that decides one side. -/
structure Decided (side : Side) (st : Strategy) (r : Strategy × List Cmd)
    (Q : SideView → List (Bytes × CmdKind) → Prop) : Prop where
  own : Q (r.1.sideView side) (cmdsOn side (sends r.2))
  other : ∀ side', side' ≠ side →
    r.1.sideView side' = st.sideView side' ∧ cmdsOn side' (sends r.2) = []
  stopped : r.1.stopped = st.stopped
  epoch : r.1.epoch = st.epoch
  newOk : ∀ msg ∈ sends r.2, NewOk r.1 msg

/-- A decision is about the views and the stop. -/
theorem Decided.congr {st' : Strategy} {r : Strategy × List Cmd}
    {Q : SideView → List (Bytes × CmdKind) → Prop} (h : Decided side st' r Q)
    (hview : ∀ side, st'.sideView side = st.sideView side) (hstopped : st'.stopped = st.stopped)
    (hepoch : st'.epoch = st.epoch) : Decided side st r Q where
  own := h.own
  other side' hne := ⟨(h.other side' hne).1.trans (hview side'), (h.other side' hne).2⟩
  stopped := h.stopped.trans hstopped
  epoch := h.epoch.trans hepoch
  newOk := h.newOk

/-- The current order is looked up in the view. -/
theorem currentOrder_eq (side : Side) (h : st.CurrentOk) :
    st.currentOrder side = (st.sideView side).current.bind (st.sideView side).find? := by
  unfold currentOrder
  change (st.current side).bind _ = (st.current side).bind _
  cases hcur : st.current side with
  | none => rfl
  | some clId => rw [Option.bind_some, Option.bind_some, getOrder_eq, h side clId hcur]

/-- A quote on a side that is not barred. -/
theorem decided_quoteUnbarred (h : st.CurrentOk) (desiredPx askPx bidPx : ℤ) (mdSeq : ℕ) :
    Decided side st (st.quoteUnbarred cfg side desiredPx askPx bidPx mdSeq)
      (Quoted side (st.sideView side)) := by
  have hsilent : Decided side st (st, []) (Quoted side (st.sideView side)) :=
    ⟨.silent, fun _ _ => ⟨rfl, rfl⟩, rfl, rfl, by simp [sends]⟩
  unfold quoteUnbarred
  split_ifs
  · exact hsilent
  · exact hsilent
  · have hcur := currentOrder_eq side h
    cases horder : st.currentOrder side with
    | none =>
      rw [horder] at hcur
      refine ⟨?_, fun side' hne => ⟨?_, ?_⟩, rfl, rfl, ?_⟩
      · rw [sideView_new]
        simpa [sends, cmdsOn, new, InMsg.digest] using Quoted.opened desiredPx hcur.symm
      · rw [sideView_new_of_ne _ _ hne]
      · simp [sends, cmdsOn, new, InMsg.digest, Ne.symm hne]
      · simp only [sends, new, List.filterMap_cons, List.filterMap_nil, List.mem_singleton]
        rintro msg rfl order horder
        cases horder
        exact ⟨side, st.nextCl side + 1, by simp, rfl, rfl⟩
    | some order =>
      dsimp only
      split_ifs with hpending hpx
      · exact hsilent
      · exact hsilent
      · rw [horder] at hcur
        obtain ⟨clId, hclId, hfind⟩ := Option.bind_eq_some_iff.mp hcur.symm
        have hid : order.clId = clId := by simpa using List.find?_some hfind
        subst hid
        have hside := h side _ hclId
        refine ⟨?_, fun side' hne => ⟨?_, ?_⟩, rfl, rfl, ?_⟩
        · rw [sideView_new, sideView_cancel]
          simpa [sends, cmdsOn, new, cancel, setState, InMsg.digest, hside] using
            Quoted.amended desiredPx hclId hfind hpending hpx
        · rw [sideView_new_of_ne _ _ hne, sideView_cancel, setState_sideView_of_ne]
          rw [hside]
          exact Ne.symm hne
        · simp [sends, cmdsOn, new, cancel, InMsg.digest, Ne.symm hne, hside]
        · simp only [sends, cancel, new, List.filterMap_cons, List.filterMap_nil, List.mem_cons,
            List.not_mem_nil, or_false]
          rintro msg (rfl | rfl) order' horder'
          · cases horder'
          · cases horder'
            exact ⟨side, st.nextCl side + 1, by simp [setState], rfl, rfl⟩

/-- A quote, with the bar. -/
theorem decided_quote (cfg : StrategyConfig) (side : Side) (h : st.CurrentOk)
    (desiredPx askPx bidPx : ℤ) (mdSeq : ℕ) :
    Decided side st (st.quote cfg side desiredPx askPx bidPx mdSeq)
      (Quoted side (st.sideView side)) := by
  unfold quote
  cases st.rejectedPx side with
  | none => exact decided_quoteUnbarred h _ _ _ _
  | some px =>
    dsimp only
    split_ifs
    · exact ⟨.silent, fun _ _ => ⟨rfl, rfl⟩, rfl, rfl, by simp [sends]⟩
    · -- lifting the bar shows on no side
      let unbarred : Strategy := { st with rejectedPx := Function.update st.rejectedPx side none }
      have hu : unbarred.CurrentOk := h
      exact (decided_quoteUnbarred hu _ _ _ _).congr (fun _ => rfl) rfl rfl

/-- A quote leaves the side with its own current order. -/
theorem Quoted.current {v v' : SideView} {cmds : List (Bytes × CmdKind)}
    (h : Quoted side v v' cmds) (hv : ∀ clId, v.current = some clId → sideOf clId = side) :
    ∀ clId, v'.current = some clId → sideOf clId = side := by
  cases h with
  | silent => exact hv
  | opened px _ =>
    rintro clId hcur
    cases hcur
    exact sideOf_clIdOf _ _
  | amended px _ _ _ _ =>
    rintro clId hcur
    cases hcur
    exact sideOf_clIdOf _ _

/-- A quote gives ids on. -/
theorem Quoted.next_le {v v' : SideView} {cmds : List (Bytes × CmdKind)}
    (h : Quoted side v v' cmds) : v.next ≤ v'.next := by
  cases h with
  | silent => exact le_rfl
  | opened _ _ => exact Nat.le_succ _
  | amended _ _ _ _ _ => exact Nat.le_succ _

/-- A quote keeps the current order in the view. -/
theorem CurrentOk.decided {r : Strategy × List Cmd} (h : st.CurrentOk)
    (hr : Decided side st r (Quoted side (st.sideView side))) : r.1.CurrentOk := by
  intro side' clId hcur
  by_cases hne : side' = side
  · subst hne
    exact hr.own.current (h side') clId hcur
  · rw [← current_sideView, (hr.other side' hne).1] at hcur
    exact h side' clId hcur

/-! ## `on_tob` -/

/-- The call changed no side and sent nothing. -/
structure Inert (st : Strategy) (r : Strategy × List Cmd) : Prop where
  view : ∀ side, r.1.sideView side = st.sideView side
  sends : sends r.2 = []
  epoch : r.1.epoch = st.epoch

/-- Each side made a quote decision. -/
structure QuotedBoth (st : Strategy) (r : Strategy × List Cmd) : Prop where
  own : ∀ side, Quoted side (st.sideView side) (r.1.sideView side) (cmdsOn side (sends r.2))
  stopped : r.1.stopped = st.stopped
  epoch : r.1.epoch = st.epoch
  newOk : ∀ msg ∈ sends r.2, NewOk r.1 msg

/-- Quoting both sides is about the views and the stop. -/
theorem QuotedBoth.congr {st' : Strategy} {r : Strategy × List Cmd} (h : QuotedBoth st' r)
    (hview : ∀ side, st'.sideView side = st.sideView side) (hstopped : st'.stopped = st.stopped)
    (hepoch : st'.epoch = st.epoch) : QuotedBoth st r where
  own side := hview side ▸ h.own side
  stopped := h.stopped.trans hstopped
  epoch := h.epoch.trans hepoch
  newOk := h.newOk

/-- Commands are read off in order. -/
theorem sends_append (cmds cmds' : List Cmd) : sends (cmds ++ cmds') = sends cmds ++ sends cmds' :=
  List.filterMap_append

/-- So are those of a side. -/
theorem cmdsOn_append (side : Side) (msgs msgs' : List InMsg) :
    cmdsOn side (msgs ++ msgs') = cmdsOn side msgs ++ cmdsOn side msgs' := by
  simp [cmdsOn]

/-- The two quotes of a tick. -/
theorem quotedBoth_of_quotes (cfg : StrategyConfig) (h : st.CurrentOk) (bidPx askPx : ℤ)
    (mdSeq : ℕ) :
    let bid := st.quote cfg .bid bidPx askPx bidPx mdSeq
    let ask := bid.1.quote cfg .ask askPx askPx bidPx mdSeq
    QuotedBoth st (ask.1, bid.2 ++ ask.2) := by
  intro bid ask
  have hbid : Decided .bid st bid (Quoted .bid (st.sideView .bid)) := decided_quote cfg _ h _ _ _ _
  have hask : Decided .ask bid.1 ask (Quoted .ask (bid.1.sideView .ask)) :=
    decided_quote cfg _ (h.decided hbid) _ _ _ _
  obtain ⟨hbidView, hbidCmds⟩ := hbid.other .ask (by decide)
  obtain ⟨haskView, haskCmds⟩ := hask.other .bid (by decide)
  refine ⟨fun side => ?_, hask.stopped.trans hbid.stopped, hask.epoch.trans hbid.epoch, ?_⟩
  · rw [sends_append, cmdsOn_append]
    cases side with
    | bid =>
      rw [haskView, haskCmds, List.append_nil]
      exact hbid.own
    | ask =>
      rw [hbidCmds, List.nil_append, ← hbidView]
      exact hask.own
  · intro msg hmsg
    rw [sends_append, List.mem_append] at hmsg
    rcases hmsg with hmsg | hmsg
    · intro order horder
      obtain ⟨side, n, hn, hid, hside⟩ := hbid.newOk msg hmsg order horder
      refine ⟨side, n, hn.trans ?_, hid, hside⟩
      cases side with
      | bid => exact (congrArg SideView.next haskView).ge
      | ask => exact hask.own.next_le
    · exact hask.newOk msg hmsg

/-- `on_tob` of a stopped strategy does nothing. -/
theorem inert_onTob_of_stopped (h : st.stopped = true) (tob : Tob) (nowNs : ℤ) :
    Inert st (st.onTob cfg tob nowNs) ∧ (st.onTob cfg tob nowNs).1.stopped = true := by
  simp only [onTob, admitTob, h, ↓reduceIte]
  exact ⟨⟨fun _ => rfl, rfl, rfl⟩, trivial⟩

/-- `on_tob` of a running strategy stops it, or lets each side decide. -/
theorem onTob_spec (h : st.CurrentOk) (hrun : st.stopped = false) (tob : Tob) (nowNs : ℤ) :
    (Inert st (st.onTob cfg tob nowNs) ∧ (st.onTob cfg tob nowNs).1.stopped = true) ∨
      QuotedBoth st (st.onTob cfg tob nowNs) := by
  have hsame : ∀ {st' : Strategy}, (∀ side, st'.sideView side = st.sideView side) →
      st'.stopped = st.stopped → st'.epoch = st.epoch → QuotedBoth st (st', []) := by
    intro st' hview hstopped hepoch
    refine ⟨fun side => ?_, hstopped, hepoch, by simp [sends]⟩
    rw [hview side]
    exact .silent
  have hnot : ¬st.stopped = true := by simp [hrun]
  unfold onTob admitTob
  rw [if_neg hnot]
  by_cases hepoch : tob.epoch ≠ st.epoch
  · rw [if_pos hepoch]
    exact Or.inr (hsame (fun _ => rfl) rfl rfl)
  · rw [if_neg hepoch, advanceSeq]
    by_cases hseq : tob.seq ≠ st.inSeq + 1
    · simp only [if_pos hseq]
      exact Or.inl ⟨⟨fun _ => rfl, rfl, rfl⟩, rfl⟩
    · simp only [if_neg hseq]
      by_cases hsym : tob.symbol ≠ cfg.symbol
      · simp only [if_pos hsym]
        exact Or.inl ⟨⟨fun _ => rfl, rfl, rfl⟩, rfl⟩
      · simp only [if_neg hsym]
        by_cases hmd : tob.mdSeq < st.mdSeq
        · simp only [if_pos hmd]
          exact Or.inl ⟨⟨fun _ => rfl, rfl, rfl⟩, rfl⟩
        · simp only [if_neg hmd]
          by_cases hdup : tob.mdSeq = st.mdSeq
          · simp only [if_pos hdup]
            exact Or.inr (hsame (fun _ => rfl) rfl rfl)
          · simp only [if_neg hdup]
            -- what the tick wrote besides shows on no side
            refine Or.inr (QuotedBoth.congr (quotedBoth_of_quotes cfg ?_ _ _ _) ?_ rfl rfl)
            · exact h
            · exact fun _ => rfl

/-! ## `on_report` -/

/-- What a report may do to its side. -/
inductive Heard (side : Side) (v : SideView) :
    Bytes × ReportKind → SideView → List (Bytes × CmdKind) → Prop
  | unknown {p : Bytes × ReportKind} (unknown : v.find? p.1 = none) : Heard side v p v []
  | settled {clId : Bytes} {o : ClientOrder} {v' : SideView} {cmds : List (Bytes × CmdKind)}
      (found : v.find? clId = some o) (pending : o.state = .pendingNew)
      (quoted : Quoted side (v.setState clId .live) v' cmds) : Heard side v (clId, .acked) v' cmds
  | stale {clId : Bytes} {o : ClientOrder} (found : v.find? clId = some o)
      (settled : o.state ≠ .pendingNew) : Heard side v (clId, .acked) v []
  | traded {clId : Bytes} : Heard side v (clId, .traded) v []
  | retired {clId : Bytes} {kind : ReportKind} {o : ClientOrder} (found : v.find? clId = some o)
      (terminal : kind = .filled ∨ kind = .cancelled ∨ kind = .refused) :
      Heard side v (clId, kind) (v.retire clId) []

/-- A report gives ids on. -/
theorem Heard.next_le {v v' : SideView} {p : Bytes × ReportKind} {cmds : List (Bytes × CmdKind)}
    (h : Heard side v p v' cmds) : v.next ≤ v'.next := by
  cases h with
  | unknown _ => exact le_rfl
  | settled _ _ quoted => exact quoted.next_le
  | stale _ _ => exact le_rfl
  | traded => exact le_rfl
  | retired _ _ => exact le_rfl

/-- A report leaves the side with its own current order, or none. -/
theorem Heard.current {v v' : SideView} {p : Bytes × ReportKind} {cmds : List (Bytes × CmdKind)}
    (h : Heard side v p v' cmds) (hv : ∀ clId, v.current = some clId → sideOf clId = side) :
    ∀ clId, v'.current = some clId → sideOf clId = side := by
  cases h with
  | unknown _ => exact hv
  | settled _ _ quoted => exact quoted.current hv
  | stale _ _ => exact hv
  | traded => exact hv
  | retired _ _ =>
    intro clId hcur
    simp only [SideView.retire] at hcur
    split_ifs at hcur
    exact hv clId hcur

/-- A final report retires its order and decides nothing. -/
private theorem decided_retire {order : ClientOrder} {st' : Strategy}
    {kind : ReportKind} (hview : ∀ side, st'.sideView side = st.sideView side)
    (hstopped : st'.stopped = st.stopped) (hepoch : st'.epoch = st.epoch)
    (hfind : (st.sideView (sideOf order.clId)).find? order.clId = some order)
    (hkind : kind = .filled ∨ kind = .cancelled ∨ kind = .refused) :
    Decided (sideOf order.clId) st (st'.retire order, [])
      (Heard (sideOf order.clId) (st.sideView (sideOf order.clId)) (order.clId, kind)) := by
  refine ⟨?_, fun side' hne => ⟨?_, rfl⟩, hstopped, hepoch, by simp [sends]⟩
  · rw [sideView_retire _ rfl, hview]
    exact .retired hfind hkind
  · rw [sideView_retire_of_ne _ (Ne.symm hne), hview]

/-- A change of state keeps the current order. -/
theorem CurrentOk.setState (h : st.CurrentOk) (clId : Bytes) (state : OState) :
    (st.setState clId state).CurrentOk := h

/-- An ack of a pending order reconsiders its side. -/
private theorem decided_reconsider (h : st.CurrentOk) {order : ClientOrder}
    (hfind : (st.sideView (sideOf order.clId)).find? order.clId = some order)
    (hst : order.state = .pendingNew) :
    Decided (sideOf order.clId) st
      ((st.setState order.clId .live).reconsider cfg (sideOf order.clId))
      (Heard (sideOf order.clId) (st.sideView (sideOf order.clId)) (order.clId, .acked)) := by
  have hquiet : ∀ side', side' ≠ sideOf order.clId →
      (st.setState order.clId .live).sideView side' = st.sideView side' := by
    intro side' hne
    rw [sideView_setState, setState_sideView_of_ne (Ne.symm hne)]
  unfold reconsider
  cases hbid : (st.setState order.clId .live).bidPx with
  | none =>
    refine ⟨?_, fun side' hne => ⟨hquiet side' hne, rfl⟩, rfl, rfl, by simp [sends]⟩
    rw [sideView_setState]
    exact .settled hfind hst .silent
  | some bidPx =>
    cases hask : (st.setState order.clId .live).askPx with
    | none =>
      refine ⟨?_, fun side' hne => ⟨hquiet side' hne, rfl⟩, rfl, rfl, by simp [sends]⟩
      rw [sideView_setState]
      exact .settled hfind hst .silent
    | some askPx =>
      have hquote := fun desired => decided_quote cfg (sideOf order.clId)
        (h.setState order.clId .live) desired askPx bidPx (st.setState order.clId .live).mdSeq
      refine ⟨?_, fun side' hne => ⟨?_, ((hquote _).other side' hne).2⟩, (hquote _).stopped,
        (hquote _).epoch, (hquote _).newOk⟩
      · have hown := fun desired => (hquote desired).own
        simp only [sideView_setState] at hown
        exact .settled hfind hst (hown _)
      · exact ((hquote _).other side' hne).1.trans (hquiet side' hne)

/-- A report for an order of the view. -/
theorem decided_applyReport (cfg : StrategyConfig) (h : st.CurrentOk) {order : ClientOrder}
    {msg : OutMsg}
    {kind : ReportKind} (hfind : st.getOrder order.clId = some order)
    (hmsg : msg.digest = some (order.clId, kind)) :
    Decided (sideOf order.clId) st (st.applyReport cfg order msg)
      (Heard (sideOf order.clId) (st.sideView (sideOf order.clId)) (order.clId, kind)) := by
  rw [getOrder_eq] at hfind
  have hretire := fun (st' : Strategy) (kind : ReportKind) =>
    @decided_retire st order st' kind
  have hsame : ∀ {Q : SideView → List (Bytes × CmdKind) → Prop} {side : Side},
      Q (st.sideView side) [] → Decided side st (st, []) Q := fun hQ =>
    ⟨hQ, fun _ _ => ⟨rfl, rfl⟩, rfl, rfl, by simp [sends]⟩
  cases msg with
  | tob m => cases hmsg
  | orderAck m =>
    obtain ⟨-, rfl⟩ : m.clId = order.clId ∧ .acked = kind := by simpa [OutMsg.digest] using hmsg
    simp only [applyReport]
    split_ifs with hst
    · exact decided_reconsider h hfind hst
    · exact hsame (.stale hfind hst)
  | cancelAck m =>
    obtain ⟨-, rfl⟩ : m.clId = order.clId ∧ .cancelled = kind := by
      simpa [OutMsg.digest] using hmsg
    exact hretire st _ (fun _ => rfl) rfl rfl hfind (by simp)
  | fill m =>
    obtain ⟨-, hkind⟩ : m.clId = order.clId ∧
        (if m.leaves = 0 then .filled else .traded) = kind := by
      simpa [OutMsg.digest] using hmsg
    simp only [applyReport]
    split_ifs at hkind ⊢ with h0
    · exact hretire st _ (fun _ => rfl) rfl rfl hfind (by simp [← hkind])
    · subst hkind
      exact hsame .traded
  | reject m =>
    obtain ⟨-, rfl⟩ : m.clId = order.clId ∧ .refused = kind := by simpa [OutMsg.digest] using hmsg
    -- the bar of the refused price shows on no side
    simp only [applyReport]
    split_ifs
    · exact hretire _ _ (fun _ => rfl) rfl rfl hfind (by simp)
    · exact hretire st _ (fun _ => rfl) rfl rfl hfind (by simp)

/-- A message with a digest is an order report. -/
theorem onReport_of_digest {msg : OutMsg} {p : Bytes × ReportKind} (h : msg.digest = some p)
    (nowNs : ℤ) : st.onReport cfg msg nowNs = st.onOrderReport cfg msg := by
  cases msg <;> first | rfl | cases h

/-- `on_report` of a stopped strategy does nothing. -/
theorem inert_onReport_of_stopped (h : st.stopped = true) {msg : OutMsg} {p : Bytes × ReportKind}
    (hmsg : msg.digest = some p) (nowNs : ℤ) :
    Inert st (st.onReport cfg msg nowNs) ∧ (st.onReport cfg msg nowNs).1.stopped = true := by
  rw [onReport_of_digest hmsg, onOrderReport, if_pos (Or.inl h)]
  exact ⟨⟨fun _ => rfl, rfl, rfl⟩, h⟩

/-- `on_report` of a running strategy, for a report of its epoch: a gap stops it, and otherwise
the report's side hears it. -/
theorem onReport_spec (h : st.CurrentOk) (hrun : st.stopped = false) {msg : OutMsg}
    {clId : Bytes} {kind : ReportKind} (hmsg : msg.digest = some (clId, kind))
    (hepoch : msg.epoch = st.epoch) (nowNs : ℤ) :
    (Inert st (st.onReport cfg msg nowNs) ∧ (st.onReport cfg msg nowNs).1.stopped = true) ∨
      Decided (sideOf clId) st (st.onReport cfg msg nowNs)
        (Heard (sideOf clId) (st.sideView (sideOf clId)) (clId, kind)) := by
  have hguard : ¬(st.stopped = true ∨ msg.epoch ≠ st.epoch) := by simp [hrun, hepoch]
  have hclId : msg.clId = some clId := by
    cases msg <;> simp only [OutMsg.digest, OutMsg.clId, Option.some.injEq, Prod.mk.injEq,
      reduceCtorEq] at hmsg ⊢ <;> exact hmsg.1
  rw [onReport_of_digest hmsg, onOrderReport, if_neg hguard, advanceSeq]
  by_cases hseq : msg.seq ≠ st.inSeq + 1
  · simp only [if_pos hseq]
    exact Or.inl ⟨⟨fun _ => rfl, rfl, rfl⟩, rfl⟩
  · right
    simp only [if_neg hseq, hclId, Option.bind_some]
    -- the counter shows on no side
    have hcounted : ({ st with inSeq := msg.seq } : Strategy).CurrentOk := h
    cases hfind : ({ st with inSeq := msg.seq } : Strategy).getOrder clId with
    | none =>
      refine ⟨.unknown ?_, fun _ _ => ⟨rfl, rfl⟩, rfl, rfl, by simp [sends]⟩
      rw [← hfind, getOrder_eq]
      rfl
    | some order =>
      have hid : order.clId = clId := by simpa using List.find?_some hfind
      subst hid
      exact (decided_applyReport cfg hcounted hfind hmsg).congr (fun _ => rfl) rfl rfl

/-! ## `on_timer` -/

/-- The sweep: the strategy is stopped, and every resting order of a side is cancelled. -/
structure Swept (st : Strategy) (r : Strategy × List Cmd) : Prop where
  stopped : r.1.stopped = true
  epoch : r.1.epoch = st.epoch
  nextCl : r.1.nextCl = st.nextCl
  orders : ∀ side, (r.1.sideView side).orders =
    (st.sideView side).orders.map fun o => { o with state := .pendingCancel }
  cmds : ∀ side, cmdsOn side (sends r.2) =
    ((st.sideView side).orders.filter fun o => o.state ≠ .pendingCancel).map
      fun o => (o.clId, .cancel)
  newOk : ∀ msg ∈ sends r.2, NewOk r.1 msg

/-- Cancelling a list of orders marks them, in any order, and sends their cancels in order. -/
theorem cancelAll_spec (st : Strategy) (l : List ClientOrder) :
    (st.cancelAll l).1.stopped = st.stopped ∧ (st.cancelAll l).1.epoch = st.epoch ∧
      (st.cancelAll l).1.nextCl = st.nextCl ∧
      (st.cancelAll l).1.orders = (st.orders.map fun o =>
        if o.clId ∈ l.map (·.clId) then { o with state := .pendingCancel } else o) ∧
      (sends (st.cancelAll l).2).map InMsg.digest = l.map (fun o => (o.clId, .cancel)) ∧
      ∀ msg ∈ sends (st.cancelAll l).2, ∀ order, msg ≠ .newOrder order := by
  induction l generalizing st with
  | nil => simp [cancelAll, sends]
  | cons order l ih =>
    obtain ⟨h1, h2, h3, h4, h5, h6⟩ := ih (st.cancel order).1
    have hsends : sends (st.cancelAll (order :: l)).2 =
        .cancelOrder { seq := st.outSeq + 1, epoch := st.epoch, clId := order.clId } ::
          sends ((st.cancel order).1.cancelAll l).2 := rfl
    refine ⟨h1, h2, h3, ?_, ?_, ?_⟩
    · change ((st.cancel order).1.cancelAll l).1.orders = _
      rw [h4, cancel, setState, List.map_map]
      refine List.map_congr_left fun o _ => ?_
      by_cases ho : o.clId = order.clId <;> simp [ho]
    · rw [hsends, List.map_cons, h5]
      rfl
    · rw [hsends]
      intro msg hmsg order'
      rcases List.mem_cons.mp hmsg with rfl | hmsg
      · simp
      · exact h6 msg hmsg order'

/-- The sweep leaves every order being cancelled. -/
theorem orders_sweep (st : Strategy) :
    (({ st with stopped := true, swept := true } : Strategy).cancelAll st.resting).1.orders =
      st.orders.map fun o => { o with state := .pendingCancel } := by
  obtain ⟨-, -, -, horders, -⟩ :=
    cancelAll_spec { st with stopped := true, swept := true } st.resting
  refine horders.trans (List.map_congr_left fun o ho => ?_)
  -- an order that is not swept is already being cancelled
  by_cases hmem : o.clId ∈ st.resting.map (·.clId)
  · rw [if_pos hmem]
  · have hst : o.state = .pendingCancel := by
      have hnot : o ∉ st.resting := fun hrest => hmem (List.mem_map.mpr ⟨o, hrest, rfl⟩)
      cases hstate : o.state <;> simp [resting, ho, hstate] at hnot ⊢
    rw [if_neg hmem, ← hst]

/-- `cancel_all` sweeps both sides. -/
private theorem swept_cancelAll (st : Strategy) {announced : List Cmd} (h : sends announced = []) :
    let swept := ({ st with stopped := true, swept := true } : Strategy).cancelAll st.resting
    Swept st (swept.1, announced ++ swept.2) := by
  intro swept
  obtain ⟨h1, h2, h3, -, h5, h6⟩ :=
    cancelAll_spec { st with stopped := true, swept := true } st.resting
  have horders : swept.1.orders = st.orders.map fun o => { o with state := .pendingCancel } :=
    orders_sweep st
  have hsends : sends (announced ++ swept.2) = sends swept.2 := by
    rw [sends_append, h, List.nil_append]
  refine ⟨h1, h2, h3, fun side => ?_, fun side => ?_, ?_⟩
  · simp only [sideView, horders, List.filter_map]
    rfl
  · rw [hsends, cmdsOn, h5, List.filter_map, resting, sideView, List.filter_filter,
      List.filter_filter]
    congr 1
    refine List.filter_congr fun o _ => ?_
    cases o.state <;> simp
  · rw [hsends]
    intro msg hmsg order horder
    exact absurd horder (h6 msg hmsg order)

/-- `on_timer` does nothing, or sweeps. -/
theorem onTimer_spec (st : Strategy) (nowNs : ℤ) :
    (Inert st (st.onTimer cfg nowNs) ∧ (st.onTimer cfg nowNs).1.stopped = st.stopped) ∨
      Swept st (st.onTimer cfg nowNs) := by
  unfold onTimer
  split
  · exact Or.inl ⟨⟨fun _ => rfl, rfl, rfl⟩, rfl⟩
  · next last _ =>
    by_cases hswept : st.swept = true
    · simp only [hswept, ↓reduceIte]
      exact Or.inl ⟨⟨fun _ => rfl, rfl, rfl⟩, trivial⟩
    · by_cases hage : nowNs - last ≤ cfg.staleNs
      · simp only [hswept, hage, Bool.false_eq_true, ↓reduceIte]
        exact Or.inl ⟨⟨fun _ => rfl, rfl, rfl⟩, trivial⟩
      · simp only [hswept, hage, Bool.false_eq_true, ↓reduceIte]
        refine Or.inr (swept_cancelAll st ?_)
        split_ifs <;> rfl

end Strategy

end MarketMaker
