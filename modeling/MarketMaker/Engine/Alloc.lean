import MarketMaker.Engine.Invariant
import MarketMaker.Lib.Fallible

/-!
# The engine under failing allocations

The four entry points again, with each string copy, each push into a result vector and each node of
an associative container as a step that may throw. Reads, assignments, moves and `erase` do not
allocate. The mutations happen where the source makes them, between the allocations, and are undone
where the source undoes them; nothing else restores the state.

The result is the strong guarantee: a call that throws has changed nothing, and one that returns
has done what `OrderEngine.step` does.
-/

namespace MarketMaker

namespace OrderEngine

namespace Alloc

open Fallible

/-- The engine, and the local of `on_new` that its handler reads. -/
structure Frame where
  engine : OrderEngine
  /-- `it`, the iterator of the map insert; `orders_.end()` before it has happened. -/
  it : Option OrderKey := none

/-- A call of the engine whose allocations may fail. -/
abbrev AllocM := Fallible Frame

/-! ## Allocating steps -/

/-- A `std::string` copy. -/
def copyString (s : Bytes) : AllocM Bytes := do
  alloc
  return s

/-- `emplace_back` or `push_back`: the vector grows. -/
def emplaceBack {α : Type} (out : List α) (x : α) : AllocM (List α) := do
  alloc
  return out ++ [x]

/-- `make_reject`, with the two strings of its arguments. -/
def makeReject (clId : Bytes) (code : RejectCode) (reason : Bytes) : AllocM Reject := do
  let clId ← copyString clId
  let reason ← copyString reason
  let code ← copyString code.toString
  return { clId, code, reason }

/-- `entries_by_session_.try_emplace(session, 0)`; returns whether the node is new. -/
def tryEmplaceCounter (session : ℕ) : AllocM Bool := do
  let known ← read fun f => (f.engine.entriesBySession.find? session).isSome
  if known then return false
  alloc
  write fun f =>
    { f with
      engine :=
        { f.engine with entriesBySession := f.engine.entriesBySession.insert session 0 } }
  return true

/-- `orders_.emplace_hint(lb, OrderKey{session, cl_id}, ord)`: the key's string, then the node. -/
def emplaceOrder (key : OrderKey) (ord : Order) : AllocM Unit := do
  let clId ← copyString key.clId
  alloc
  write fun f =>
    { f with engine := { f.engine with orders := f.engine.orders.insert ⟨key.session, clId⟩ ord } }

/-- `live_index(side).insert(it)`. -/
def insertLive (side : Side) (key : OrderKey) : AllocM Unit := do
  alloc
  write fun f =>
    { f with
      engine := f.engine.setLiveIndex side ((f.engine.liveIndex side).insert key ()) }

/-! ## Steps that cannot throw -/

/-- `undo_counter`. -/
def undoCounter (session : ℕ) (counterIsNew : Bool) (f : Frame) : Frame :=
  if counterIsNew then
    { f with
      engine := { f.engine with entriesBySession := f.engine.entriesBySession.erase session } }
  else f

/-- The rollback of the accept path: the map node, if it was inserted, then the counter. -/
def undoAccept (session : ℕ) (counterIsNew : Bool) (f : Frame) : Frame :=
  match f.it with
  | some key =>
    undoCounter session counterIsNew
      { f with engine := { f.engine with orders := f.engine.orders.erase key } }
  | none => undoCounter session counterIsNew f

/-- `++counter->second`. -/
def bumpCounter (session : ℕ) (f : Frame) : Frame :=
  { f with
    engine :=
      { f.engine with entriesBySession := f.engine.entriesBySession.modify session (· + 1) } }

/-! ## Entry points -/

/-- The `reject` lambda of `on_new`. -/
def rejectNew (session : ℕ) (order : NewOrder) (counterIsNew : Bool) (code : RejectCode)
    (reason : Bytes) : AllocM (List OutMsg) := do
  let out ← onThrow (do
    let rej ← makeReject order.clId code reason
    let out ← emplaceBack [] (.reject rej)
    emplaceOrder ⟨session, order.clId⟩ { st := .rejected }
    return out) (undoCounter session counterIsNew)
  write (bumpCounter session)
  return out

/-- The commit of an accept. -/
def acceptNew (cfg : EngineConfig) (session : ℕ) (order : NewOrder) (counterIsNew : Bool)
    (side : Side) : AllocM (List OutMsg) := do
  let engId ← read fun f => f.engine.nextEngId
  let ord : Order :=
    { engId, side, px := toTicks cfg.inst order.px, leaves := order.qty, st := .live }
  write fun f => { f with it := none }
  let out ← onThrow (do
    let clId ← copyString order.clId
    let status ← copyString (ascii "live")
    let out ← emplaceBack [] (.orderAck { clId, engId := ord.engId, status })
    emplaceOrder ⟨session, order.clId⟩ ord
    write fun f => { f with it := some ⟨session, order.clId⟩ }
    insertLive side ⟨session, order.clId⟩
    return out) (undoAccept session counterIsNew)
  write (bumpCounter session)
  write fun f => { f with engine := { f.engine with nextEngId := f.engine.nextEngId + 1 } }
  return out

/-- `on_new`. -/
def onNew (cfg : EngineConfig) (session : ℕ) (order : NewOrder) : AllocM (List OutMsg) := do
  let duplicate ← read fun f => f.engine.isDuplicate session order.clId
  if duplicate then
    let rej ← makeReject order.clId .dupClOrdId (ascii "cl_id already used on this session")
    emplaceBack [] (.reject rej)
  else
    let counterIsNew ← tryEmplaceCounter session
    match validateOrder cfg.inst order.symbol order.side order.px order.qty with
    | some code => rejectNew session order counterIsNew code (validationReason code order)
    | none =>
      let live ← read fun f => f.engine.liveCount session
      if cfg.inst.maxLiveOrders.toNat ≤ live then
        rejectNew session order counterIsNew .maxLiveOrders
          (ascii "session already holds max_live_orders live orders")
      else
        match sideFromWire order.side with
        | some side =>
          let book ← read fun f => f.engine.book
          if order.postOnly && crosses book side order.px then
            rejectNew session order counterIsNew .postOnlyCross
              (ascii "post-only order would cross the book")
          else acceptNew cfg session order counterIsNew side
        | none => return []

/-- `on_cancel`. -/
def onCancel (session : ℕ) (cancel : CancelOrder) : AllocM (List OutMsg) := do
  let found ← read fun f => f.engine.orders.find? ⟨session, cancel.clId⟩
  match found with
  | none =>
    let rej ← makeReject cancel.clId .unknownClOrdId (ascii "unknown cl_id on this session")
    emplaceBack [] (.reject rej)
  | some ord =>
    if ord.st ≠ .live then
      let rej ← makeReject cancel.clId .alreadyTerminal (ascii "order is already terminal")
      emplaceBack [] (.reject rej)
    else
      let clId ← copyString cancel.clId
      let status ← copyString (ascii "cancelled")
      let out ← emplaceBack [] (.cancelAck { clId, engId := ord.engId, status })
      write fun f => { f with engine := (recordCancel f.engine session cancel.clId ord).1 }
      return out

/-- One iteration of the sweep: the fill's `cl_id`, then the two vectors. -/
def stageFill (cfg : EngineConfig) (book : Book) (side : Side) (acc : Sweep) (key : OrderKey) :
    AllocM Sweep := do
  let found ← read fun f => f.engine.orders.find? key
  match found with
  | some ord =>
    let pxRaw := toRawPx cfg.inst ord.px
    if crossed side (oppPx book side) pxRaw then
      let fillQty := min ord.leaves (oppQty book side)
      let clId ← copyString key.clId
      let fill : Fill :=
        { clId, engId := ord.engId, px := pxRaw, qty := fillQty, leaves := ord.leaves - fillQty,
          execId := acc.execId }
      let staged ← emplaceBack acc.staged ⟨key, side, fill.leaves⟩
      let out ← emplaceBack acc.out ⟨key.session, .fill fill⟩
      return { staged, out, execId := acc.execId + 1 }
    else return acc
  | none => return acc

/-- The sweep of one side. -/
def sweepSide (cfg : EngineConfig) (book : Book) (acc : Sweep) (side : Side) : AllocM Sweep := do
  if oppQty book side ≤ 0 ∨ oppPx book side ≤ 0 then return acc
  else
    let live ← read fun f => (f.engine.liveIndex side).keys
    live.foldlM (stageFill cfg book side) acc

/-- `on_book`. -/
def onBook (cfg : EngineConfig) (book : Book) : AllocM (List Routed) := do
  let e ← read Frame.engine
  if e.bookSeen && book.mdSeq ≤ e.book.mdSeq then
    write fun f =>
      { f with engine := { f.engine with staleBooksIgnored := f.engine.staleBooksIgnored + 1 } }
    return []
  else
    let batch ← [Side.bid, Side.ask].foldlM (sweepSide cfg book) ⟨[], [], e.nextExecId⟩
    write fun f =>
      { f with
        engine := batch.staged.foldl commitFill
          { f.engine with bookSeen := true, book, nextExecId := batch.execId } }
    return batch.out

/-- One iteration of the ack loop of `end_session`. -/
def stageAck (out : List OutMsg) (p : OrderKey × Order) : AllocM (List OutMsg) := do
  if p.2.st ≠ .live then return out
  else
    let clId ← copyString p.1.clId
    let status ← copyString (ascii "cancelled")
    emplaceBack out (.cancelAck { clId, engId := p.2.engId, status })

/-- `end_session`. -/
def endSession (session : ℕ) : AllocM (List OutMsg) := do
  let entries ← read fun f => sessionRange f.engine.orders session
  let out ← entries.foldlM stageAck []
  write fun f => { f with engine := (OrderEngine.endSession f.engine session).1 }
  return out

/-- One call, with its reports routed to their sessions. -/
def step (cfg : EngineConfig) : Call → AllocM (List Routed)
  | .onNew session order => do
    let out ← onNew cfg session order
    return out.map fun msg => ⟨session, msg⟩
  | .onCancel session cancel => do
    let out ← onCancel session cancel
    return out.map fun msg => ⟨session, msg⟩
  | .onBook book => onBook cfg book
  | .endSession session => do
    let out ← endSession session
    return out.map fun msg => ⟨session, msg⟩

/-! ## Rules for the allocating steps -/

section

variable {f : Frame} {E : Frame → Prop}

/-- Copying a string may throw. -/
theorem spec_copyString {s : Bytes} {Q : Bytes → Frame → Prop} (hQ : Q s f) (hE : E f) :
    Spec (copyString s) f Q E :=
  spec_bind (spec_alloc (spec_pure hQ) hE)

/-- Appending to a vector may throw. -/
theorem spec_emplaceBack {α : Type} {out : List α} {x : α} {Q : List α → Frame → Prop}
    (hQ : Q (out ++ [x]) f) (hE : E f) : Spec (emplaceBack out x) f Q E :=
  spec_bind (spec_alloc (spec_pure hQ) hE)

/-- Building a reject copies strings only. -/
theorem spec_makeReject {clId reason : Bytes} {code : RejectCode} {Q : Reject → Frame → Prop}
    (hQ : Q (OrderEngine.makeReject clId code reason) f) (hE : E f) :
    Spec (makeReject clId code reason) f Q E := by
  refine spec_bind (spec_copyString ?_ hE)
  refine spec_bind (spec_copyString ?_ hE)
  exact spec_bind (spec_copyString (spec_pure hQ) hE)

/-- A reject that records nothing. -/
theorem spec_answerReject {clId reason : Bytes} {code : RejectCode} {Q : List OutMsg → Frame → Prop}
    (hQ : Q [.reject (OrderEngine.makeReject clId code reason)] f) (hE : E f) :
    Spec (do
      let rej ← makeReject clId code reason
      emplaceBack [] (.reject rej)) f Q E :=
  spec_bind (spec_makeReject (spec_emplaceBack hQ hE) hE)

/-- Storing an order is one allocation. -/
theorem spec_emplaceOrder {key : OrderKey} {ord : Order} {Q : Unit → Frame → Prop}
    (hQ : Q () { f with engine := { f.engine with orders := f.engine.orders.insert key ord } })
    (hE : E f) : Spec (emplaceOrder key ord) f Q E :=
  spec_bind (spec_copyString (spec_bind (spec_alloc (spec_write hQ) hE)) hE)

/-- Indexing an order is one allocation. -/
theorem spec_insertLive {side : Side} {key : OrderKey} {Q : Unit → Frame → Prop}
    (hQ : Q () { f with
      engine := f.engine.setLiveIndex side ((f.engine.liveIndex side).insert key ()) })
    (hE : E f) : Spec (insertLive side key) f Q E :=
  spec_bind (spec_alloc (spec_write hQ) hE)

end

/-! ## `on_new` -/

variable {cfg : EngineConfig} {e : OrderEngine} {session : ℕ} {order : NewOrder}

/-- The engine between the reservation of the counter node and the commit. -/
def reserved (e : OrderEngine) (session : ℕ) : OrderEngine :=
  { e with
    entriesBySession :=
      if (e.entriesBySession.find? session).isSome then e.entriesBySession
      else e.entriesBySession.insert session 0 }

/-- The reservation creates the node. -/
def isNew (e : OrderEngine) (session : ℕ) : Bool := (e.entriesBySession.find? session).isNone

/-- Undoing the reservation leaves no zero-valued node behind. -/
theorem undoCounter_reserved (e : OrderEngine) (session : ℕ) (it : Option OrderKey) :
    (undoCounter session (isNew e session) ⟨reserved e session, it⟩).engine = e := by
  unfold undoCounter isNew reserved
  cases hfind : e.entriesBySession.find? session with
  | some n => simp
  | none => simp [OrderedMap.erase_insert 0 hfind]

/-- The increment turns the reservation into a counted entry. -/
theorem modify_reserved (e : OrderEngine) (session : ℕ) :
    (reserved e session).entriesBySession.modify session (· + 1) =
      countEntry e.entriesBySession session := by
  refine OrderedMap.ext_find? fun s => ?_
  rw [OrderedMap.find?_modify, countEntry, OrderedMap.find?_insert]
  unfold reserved
  by_cases hs : s = session
  · subst hs
    cases hfind : e.entriesBySession.find? s with
    | none => simp
    | some n => simp [hfind]
  · cases hfind : e.entriesBySession.find? session with
    | none => simp [hs, OrderedMap.find?_insert]
    | some n => simp [hs]

/-- Reserving a counter is one allocation. -/
theorem spec_tryEmplaceCounter {Q : Bool → Frame → Prop} {E : Frame → Prop}
    (hQ : Q (isNew e session) ⟨reserved e session, none⟩) (hE : E ⟨e, none⟩) :
    Spec (tryEmplaceCounter session) ⟨e, none⟩ Q E := by
  refine spec_bind (spec_read ?_)
  unfold isNew reserved at hQ
  cases hfind : e.entriesBySession.find? session with
  | some n =>
    rw [hfind] at hQ
    exact spec_pure hQ
  | none =>
    rw [hfind] at hQ
    exact spec_bind (spec_alloc (spec_bind (spec_write (spec_pure hQ))) hE)

/-- The outcome of a call that behaves as `r` or throws without a trace. -/
def StrongSpec {α : Type} (m : AllocM α) (e : OrderEngine) (r : OrderEngine × α) : Prop :=
  Spec m ⟨e, none⟩ (fun out f => (f.engine, out) = r) fun f => f.engine = e

/-- A refusal is stored whole, or taken back whole. -/
private theorem spec_rejectNew (code : RejectCode) (reason : Bytes) :
    Spec (rejectNew session order (isNew e session) code reason) ⟨reserved e session, none⟩
      (fun out f => (f.engine, out) = recordReject e session order code reason)
      fun f => f.engine = e := by
  refine spec_bind (spec_onThrow ?_)
  -- nothing but the reservation has happened when an allocation fails
  have hundo := undoCounter_reserved e session none
  refine spec_bind (spec_makeReject ?_ hundo)
  refine spec_bind (spec_emplaceBack ?_ hundo)
  refine spec_bind (spec_emplaceOrder (spec_pure ?_) hundo)
  refine spec_bind (spec_write (spec_pure ?_))
  simp only [bumpCounter, modify_reserved, recordReject, List.nil_append]
  rfl

/-- So is an acceptance. -/
private theorem spec_acceptNew (side : Side)
    (hnone : e.orders.find? ⟨session, order.clId⟩ = none) :
    Spec (acceptNew cfg session order (isNew e session) side) ⟨reserved e session, none⟩
      (fun out f => (f.engine, out) = recordAccept cfg e session order side)
      fun f => f.engine = e := by
  refine spec_bind (spec_read (spec_bind (spec_write (spec_bind (spec_onThrow ?_)))))
  have hundo := undoCounter_reserved e session none
  refine spec_bind (spec_copyString ?_ hundo)
  refine spec_bind (spec_copyString ?_ hundo)
  refine spec_bind (spec_emplaceBack ?_ hundo)
  refine spec_bind (spec_emplaceOrder ?_ hundo)
  refine spec_bind (spec_write (spec_bind (spec_insertLive (spec_pure ?_) ?_)))
  · refine spec_bind (spec_write (spec_bind (spec_write (spec_pure ?_))))
    have hbump := modify_reserved e session
    cases side <;>
      simp only [bumpCounter, setLiveIndex, liveIndex, recordAccept, hbump] <;> rfl
  · -- the live-index node failed: the map node goes first, then the counter
    simp only [undoAccept]
    rw [show (reserved e session).orders = e.orders from rfl, OrderedMap.erase_insert _ hnone]
    exact undoCounter_reserved e session _

/-- `on_new` has the strong guarantee. -/
theorem strongSpec_onNew (cfg : EngineConfig) (e : OrderEngine) (session : ℕ) (order : NewOrder) :
    StrongSpec (onNew cfg session order) e (OrderEngine.onNew cfg e session order) := by
  refine spec_bind (spec_read ?_)
  unfold OrderEngine.onNew
  by_cases hdup : e.isDuplicate session order.clId = true
  · simp only [hdup, ↓reduceIte]
    exact spec_answerReject rfl rfl
  · have hnone := find?_eq_none_of_not_isDuplicate hdup
    simp only [hdup, Bool.false_eq_true, ↓reduceIte]
    refine spec_bind (spec_tryEmplaceCounter ?_ rfl)
    cases hval : validateOrder cfg.inst order.symbol order.side order.px order.qty with
    | some code => exact spec_rejectNew _ _
    | none =>
      obtain ⟨side, hside⟩ := sideFromWire_of_valid (validOrder_of_validateOrder hval).side
      refine spec_bind (spec_read ?_)
      -- the cap and the cross are read after the reservation, which does not affect them
      change Spec (if cfg.inst.maxLiveOrders.toNat ≤ e.liveCount session then _ else _) _ _ _
      by_cases hcap : cfg.inst.maxLiveOrders.toNat ≤ e.liveCount session
      · simp only [hcap, ↓reduceIte]
        exact spec_rejectNew _ _
      · simp only [hcap, ↓reduceIte, hside]
        refine spec_bind (spec_read ?_)
        change Spec (if (order.postOnly && crosses e.book side order.px) = true then _ else _) _ _ _
        by_cases hcross : (order.postOnly && crosses e.book side order.px) = true
        · simp only [hcross, ↓reduceIte]
          exact spec_rejectNew _ _
        · simp only [hcross, Bool.false_eq_true, ↓reduceIte]
          exact spec_acceptNew side hnone

/-! ## The staged entry points -/

/-- `on_cancel` has it. -/
theorem strongSpec_onCancel (e : OrderEngine) (session : ℕ) (cancel : CancelOrder) :
    StrongSpec (onCancel session cancel) e (OrderEngine.onCancel e session cancel) := by
  refine spec_bind (spec_read ?_)
  unfold OrderEngine.onCancel
  cases e.orders.find? ⟨session, cancel.clId⟩ with
  | none => exact spec_answerReject rfl rfl
  | some ord =>
    by_cases hst : ord.st = .live
    · simp only [hst, ne_eq, not_true_eq_false, ↓reduceIte]
      refine spec_bind (spec_copyString ?_ rfl)
      refine spec_bind (spec_copyString ?_ rfl)
      refine spec_bind (spec_emplaceBack ?_ rfl)
      exact spec_bind (spec_write (spec_pure rfl))
    · simp only [hst, ne_eq, not_false_eq_true, ↓reduceIte]
      exact spec_answerReject rfl rfl

/-- Staging a fill leaves the engine alone. -/
private theorem spec_stageFill (book : Book) (side : Side) (acc : Sweep) (key : OrderKey) :
    Spec (stageFill cfg book side acc key) ⟨e, none⟩
      (fun acc' f => acc' = OrderEngine.stageFill cfg e book side acc key ∧ f = ⟨e, none⟩)
      fun f => f.engine = e := by
  refine spec_bind (spec_read ?_)
  unfold OrderEngine.stageFill
  cases e.orders.find? key with
  | none => exact spec_pure ⟨rfl, rfl⟩
  | some ord =>
    by_cases hc : crossed side (oppPx book side) (toRawPx cfg.inst ord.px) = true
    · simp only [hc, ↓reduceIte]
      refine spec_bind (spec_copyString ?_ rfl)
      refine spec_bind (spec_emplaceBack ?_ rfl)
      exact spec_bind (spec_emplaceBack (spec_pure ⟨rfl, rfl⟩) rfl)
    · simp only [hc, Bool.false_eq_true, ↓reduceIte]
      exact spec_pure ⟨rfl, rfl⟩

/-- So does staging a side. -/
private theorem spec_sweepSide (book : Book) (acc : Sweep) (side : Side) :
    Spec (sweepSide cfg book acc side) ⟨e, none⟩
      (fun acc' f => acc' = OrderEngine.sweepSide cfg e book acc side ∧ f = ⟨e, none⟩)
      fun f => f.engine = e := by
  unfold sweepSide OrderEngine.sweepSide
  split_ifs
  · exact spec_pure ⟨rfl, rfl⟩
  · exact spec_bind (spec_read (spec_foldlM _ _ fun acc key _ => spec_stageFill book side acc key))

/-- `on_book` has it: it stages first, and the commit allocates nothing. -/
theorem strongSpec_onBook (cfg : EngineConfig) (e : OrderEngine) (book : Book) :
    StrongSpec (onBook cfg book) e (OrderEngine.onBook cfg e book) := by
  refine spec_bind (spec_read ?_)
  unfold OrderEngine.onBook
  by_cases hstale : (e.bookSeen && decide (book.mdSeq ≤ e.book.mdSeq)) = true
  · simp only [hstale, ↓reduceIte]
    exact spec_bind (spec_write (spec_pure rfl))
  · simp only [hstale, Bool.false_eq_true, ↓reduceIte]
    -- the whole batch is staged before anything moves
    refine spec_bind (spec_mono (spec_foldlM _ _ fun acc side _ => spec_sweepSide book acc side)
      ?_ fun _ hE => hE)
    rintro batch f ⟨rfl, rfl⟩
    exact spec_bind (spec_write (spec_pure rfl))

/-- What one iteration of the ack loop adds. -/
private def ackOf (p : OrderKey × Order) : Option OutMsg :=
  if p.2.st ≠ .live then none
  else some (.cancelAck { clId := p.1.clId, engId := p.2.engId, status := ascii "cancelled" })

/-- Staging the cancels of an end leaves the engine alone. -/
private theorem spec_stageAck (out : List OutMsg) (p : OrderKey × Order) :
    Spec (stageAck out p) ⟨e, none⟩ (fun out' f => out' = out ++ (ackOf p).toList ∧ f = ⟨e, none⟩)
      fun f => f.engine = e := by
  unfold stageAck ackOf
  by_cases hst : p.2.st = .live
  · simp only [hst, ne_eq, not_true_eq_false, ↓reduceIte]
    refine spec_bind (spec_copyString ?_ rfl)
    exact spec_bind (spec_copyString (spec_emplaceBack ⟨rfl, rfl⟩ rfl) rfl)
  · simp only [hst, ne_eq, not_false_eq_true, ↓reduceIte]
    exact spec_pure ⟨by simp, rfl⟩

/-- The staged cancels, as one list. -/
private theorem foldl_ackOf (l : List (OrderKey × Order)) (out : List OutMsg) :
    l.foldl (fun out p => out ++ (ackOf p).toList) out = out ++ l.filterMap ackOf := by
  induction l generalizing out with
  | nil => simp
  | cons p l ih =>
    rw [List.foldl_cons, ih, List.filterMap_cons]
    cases ackOf p <;> simp

/-- `end_session` has it. -/
theorem strongSpec_endSession (e : OrderEngine) (session : ℕ) :
    StrongSpec (endSession session) e (OrderEngine.endSession e session) := by
  refine spec_bind (spec_read ?_)
  refine spec_bind (spec_mono (spec_foldlM (g := fun out p => out ++ (ackOf p).toList) _ _
    fun out p _ => spec_stageAck out p) ?_ fun _ hE => hE)
  rintro out f ⟨rfl, rfl⟩
  refine spec_bind (spec_write (spec_pure ?_))
  rw [foldl_ackOf]
  rfl

/-- Every entry point behaves as `OrderEngine.step` or throws without a trace. -/
theorem strongSpec_step (cfg : EngineConfig) (e : OrderEngine) (call : Call) :
    StrongSpec (step cfg call) e (OrderEngine.step cfg e call) := by
  have hroute : ∀ (session : ℕ) (m : AllocM (List OutMsg)) (r : OrderEngine × List OutMsg),
      StrongSpec m e r → StrongSpec (do
        let out ← m
        return out.map fun msg => (⟨session, msg⟩ : Routed)) e (routeTo session r) := by
    rintro session m r h
    refine spec_bind (spec_mono h ?_ fun _ hE => hE)
    rintro out f rfl
    exact spec_pure rfl
  cases call with
  | onNew session order => exact hroute _ _ _ (strongSpec_onNew cfg e session order)
  | onCancel session cancel => exact hroute _ _ _ (strongSpec_onCancel e session cancel)
  | onBook book => exact strongSpec_onBook cfg e book
  | endSession session => exact hroute _ _ _ (strongSpec_endSession e session)

/-- The strong exception guarantee. Whatever allocations fail in a call of any entry point on any
engine state: a throw leaves the complete state as it was, so that any repetition of the call that
returns gives the reports and the state that the first attempt would have given; a return is the
one of `OrderEngine.step`; and a call throws only when an allocation of it failed. -/
theorem call_strongGuarantee (cfg : EngineConfig) (e : OrderEngine) (call : Call)
    (fate : List Bool) :
    (∀ err t, step cfg call ⟨fate, ⟨e, none⟩⟩ = .error err t →
      true ∈ fate ∧ t.val.engine = e ∧
      ∀ fate' out t', step cfg call ⟨fate', ⟨t.val.engine, none⟩⟩ = .ok out t' →
        (t'.val.engine, out) = OrderEngine.step cfg e call) ∧
    (∀ out t, step cfg call ⟨fate, ⟨e, none⟩⟩ = .ok out t →
      (t.val.engine, out) = OrderEngine.step cfg e call) ∧
    (true ∉ fate → ∃ t, step cfg call ⟨fate, ⟨e, none⟩⟩ = .ok (OrderEngine.step cfg e call).2 t ∧
      t.val.engine = (OrderEngine.step cfg e call).1) := by
  have hspec := strongSpec_step cfg e call
  have hok : ∀ fate out t, step cfg call ⟨fate, ⟨e, none⟩⟩ = .ok out t →
      (t.val.engine, out) = OrderEngine.step cfg e call := by
    intro fate out t hrun
    have := hspec fate
    rw [hrun] at this
    exact this.1
  refine ⟨fun err t hrun => ?_, hok fate, fun hfate => ?_⟩
  · have := hspec fate
    rw [hrun] at this
    refine ⟨this.2, this.1, ?_⟩
    rw [this.1]
    exact hok
  · cases hrun : step cfg call ⟨fate, ⟨e, none⟩⟩ with
    | error err t =>
      have := hspec fate
      rw [hrun] at this
      exact absurd this.2 hfate
    | ok out t =>
      have := hok fate out t hrun
      exact ⟨t, by rw [← this], by rw [← this]⟩

-- the live-index node, the last allocation of a first accept, fails: three mutations are undone
example :
    (match step specConfig (.onNew 1
        { clId := ascii "c1", symbol := ascii "MOCKUSDT", side := ascii "B", px := 500000
          qty := 100 }) ⟨[false, false, false, false, false, false, true], ⟨{}, none⟩⟩ with
      | .error _ t => decide (t.val.engine = {} ∧ t.val.it = some ⟨1, ascii "c1"⟩)
      | .ok _ _ => false) = true := by
  decide +kernel

end Alloc

end OrderEngine

end MarketMaker
