import MarketMaker.Engine.Invariant

/-!
# One order at a time

The engine seen from one key `(session, cl_id)`. `OrderStep` is the state machine of a single
order: what a call may do to what is stored at the key, and which reports it draws for the key.
`orderStep_step` says that every engine call is such a step for every key at once, so that
statements about one order's life are proved about `OrderStep` alone.
-/

namespace MarketMaker

namespace OrderEngine

variable {cfg : EngineConfig} {e : OrderEngine} {key : OrderKey}

/-- The report names the key. -/
def isFor (key : OrderKey) (r : Routed) : Prop :=
  r.session = key.session ∧ r.msg.clId = some key.clId

instance (r : Routed) : Decidable (isFor key r) := by
  unfold isFor
  infer_instance

/-- The reports of a batch that name the key. -/
def reportsFor (key : OrderKey) (out : List Routed) : List OutMsg :=
  (out.filter fun r => isFor key r).map (·.msg)

/-- The reports of a batch for a session. -/
def reportsTo (s : ℕ) (out : List Routed) : List OutMsg :=
  (out.filter fun r => r.session = s).map (·.msg)

/-- The ack of a cancelled order. -/
def cancelAckOf (key : OrderKey) (ord : Order) : OutMsg :=
  .cancelAck { clId := key.clId, engId := ord.engId, status := ascii "cancelled" }

/-- What `end_session` reports for what is stored at a key. -/
def reapAcks (key : OrderKey) : Option Order → List OutMsg
  | some ord => if ord.st = .live then [cancelAckOf key ord] else []
  | none => []

/-- The state machine of a single order. `OrderStep cfg key call stored stored' out`: the call takes
what is stored at `key` from `stored` to `stored'` and reports `out` for `key`. -/
inductive OrderStep (cfg : EngineConfig) (key : OrderKey) :
    Call → Option Order → Option Order → List OutMsg → Prop
  | quiet {call : Call} {stored : Option Order}
      (hnew : ∀ order, order.clId = key.clId → call ≠ .onNew key.session order)
      (hcancel : ∀ cancel, cancel.clId = key.clId → call ≠ .onCancel key.session cancel)
      (hend : call ≠ .endSession key.session) :
      OrderStep cfg key call stored stored []
  | duplicate {order : NewOrder} {ord : Order} (hid : order.clId = key.clId) :
      OrderStep cfg key (.onNew key.session order) (some ord) (some ord)
        [.reject (makeReject key.clId .dupClOrdId (ascii "cl_id already used on this session"))]
  | rejected {order : NewOrder} (hid : order.clId = key.clId) (code : RejectCode)
      (reason : Bytes) :
      OrderStep cfg key (.onNew key.session order) none (some { st := .rejected })
        [.reject (makeReject key.clId code reason)]
  | accepted {order : NewOrder} (hid : order.clId = key.clId) (engId : ℕ) (side : Side)
      (valid : ValidOrder cfg.inst order.symbol order.side order.px order.qty)
      (hside : sideFromWire order.side = some side) :
      OrderStep cfg key (.onNew key.session order) none
        (some { engId, side, px := toTicks cfg.inst order.px, leaves := order.qty, st := .live })
        [.orderAck { clId := key.clId, engId, status := ascii "live" }]
  | unknown {cancel : CancelOrder} (hid : cancel.clId = key.clId) :
      OrderStep cfg key (.onCancel key.session cancel) none none
        [.reject (makeReject key.clId .unknownClOrdId (ascii "unknown cl_id on this session"))]
  | terminal {cancel : CancelOrder} {ord : Order} (hid : cancel.clId = key.clId)
      (dead : ord.st ≠ .live) :
      OrderStep cfg key (.onCancel key.session cancel) (some ord) (some ord)
        [.reject (makeReject key.clId .alreadyTerminal (ascii "order is already terminal"))]
  | cancelled {cancel : CancelOrder} {ord : Order} (hid : cancel.clId = key.clId)
      (live : ord.st = .live) :
      OrderStep cfg key (.onCancel key.session cancel) (some ord)
        (some { ord with st := .cancelled }) [cancelAckOf key ord]
  | filled {book : Book} {ord : Order} (hit : isFilled cfg book ord = true)
      (hpos : 0 < ord.leaves) (execId : ℕ) :
      OrderStep cfg key (.onBook book) (some ord) (some (swept cfg book ord))
        [.fill (fillOf cfg book key ord execId)]
  | reaped (stored : Option Order) :
      OrderStep cfg key (.endSession key.session) stored none (reapAcks key stored)

/-! ## Reports of one call -/

theorem reportsTo_own (s : ℕ) (msgs : List OutMsg) :
    reportsTo s (msgs.map fun m => ⟨s, m⟩) = msgs := by
  simp [reportsTo, List.filter_map, Function.comp_def]

theorem reportsTo_other {s session : ℕ} (hne : session ≠ s) (msgs : List OutMsg) :
    reportsTo s (msgs.map fun m => ⟨session, m⟩) = [] := by
  simp [reportsTo, List.filter_map, Function.comp_def, hne]

theorem reportsFor_routeTo (session : ℕ) (clId : Bytes) {msg : OutMsg} (h : msg.clId = some clId) :
    reportsFor key ([msg].map fun m => (⟨session, m⟩ : Routed)) =
      if key = ⟨session, clId⟩ then [msg] else [] := by
  obtain ⟨s, c⟩ := key
  simp only [reportsFor, List.map_cons, List.map_nil, List.filter_cons, isFor, h, Option.some.injEq,
    List.filter_nil, OrderKey.mk.injEq, decide_eq_true_eq]
  by_cases hk : session = s ∧ clId = c
  · rw [if_pos hk, if_pos ⟨hk.1.symm, hk.2.symm⟩]
    rfl
  · rw [if_neg hk, if_neg fun h => hk ⟨h.1.symm, h.2.symm⟩]
    rfl

/-- A batch of fills of distinct orders has the fill of the order at the key, if it is there. -/
theorem reportsFor_fillsFrom (cfg : EngineConfig) (key : OrderKey) (book : Book) (n : ℕ)
    (l : List (OrderKey × Order))
    (hl : (l.map Prod.fst).Nodup) :
    ((∀ ord, (key, ord) ∉ l) ∧ reportsFor key (fillsFrom cfg book n l) = []) ∨
      ∃ ord m, (key, ord) ∈ l ∧ n ≤ m ∧ m < n + l.length ∧
        reportsFor key (fillsFrom cfg book n l) = [.fill (fillOf cfg book key ord m)] := by
  induction l generalizing n with
  | nil => exact Or.inl ⟨by simp, rfl⟩
  | cons p l ih =>
    obtain ⟨k, o⟩ := p
    rw [List.map_cons, List.nodup_cons] at hl
    have hhead : reportsFor key (fillsFrom cfg book n ((k, o) :: l)) =
        (if key = k then [.fill (fillOf cfg book k o n)] else []) ++
          reportsFor key (fillsFrom cfg book (n + 1) l) := by
      have := @reportsFor_routeTo key k.session k.clId (.fill (fillOf cfg book k o n)) rfl
      rw [← this]
      simp [fillsFrom, reportsFor, List.filter_cons]
      split_ifs <;> rfl
    rw [hhead]
    by_cases hk : key = k
    · subst hk
      -- the key does not occur again
      rcases ih (n + 1) hl.2 with ⟨-, hnil⟩ | ⟨ord, m, hmem, -⟩
      · refine Or.inr ⟨o, n, List.mem_cons_self, le_rfl, by simp, ?_⟩
        rw [hnil, if_pos rfl, List.append_nil]
      · exact absurd (List.mem_map.mpr ⟨_, hmem, rfl⟩) hl.1
    · rw [if_neg hk, List.nil_append]
      rcases ih (n + 1) hl.2 with ⟨hnone, hnil⟩ | ⟨ord, m, hmem, hlo, hhi, hout⟩
      · refine Or.inl ⟨fun ord hmem => ?_, hnil⟩
        rcases List.mem_cons.mp hmem with heq | hmem
        · exact hk (Prod.mk.inj heq).1
        · exact hnone ord hmem
      · exact Or.inr ⟨ord, m, List.mem_cons_of_mem _ hmem, by omega, by simp; omega, hout⟩

/-- The acks of `end_session` for one key. -/
theorem reportsFor_sessionAcks (session : ℕ) :
    reportsFor key ((e.sessionAcks session).map fun m => (⟨session, m⟩ : Routed)) =
      if key.session = session then reapAcks key (e.orders.find? key) else [] := by
  -- both sides are decided by the live order at the key, which occurs once in `orders_`
  have hlist : ∀ l : List (OrderKey × Order), (l.Pairwise fun a b => a.1 < b.1) →
      reportsFor key (((l.filter fun p => p.1.session = session).filterMap fun p =>
        if p.2.st ≠ .live then none else some (cancelAckOf p.1 p.2)).map
          fun m => (⟨session, m⟩ : Routed)) =
        if key.session = session then reapAcks key ((l.find? fun p => p.1 = key).map Prod.snd)
        else [] := by
    intro l hl
    induction l with
    | nil => simp [reportsFor, reapAcks]
    | cons p l ih =>
      obtain ⟨k, o⟩ := p
      rw [List.pairwise_cons] at hl
      have ih := ih hl.2
      by_cases hks : k.session = session
      · rw [List.filter_cons_of_pos (by simpa using hks), List.filterMap_cons]
        by_cases hk : k = key
        · subst hk
          have hrest : (l.find? fun p => p.1 = k) = none := by
            rw [List.find?_eq_none]
            intro q hq hqk
            have := hl.1 q hq
            simp only [decide_eq_true_eq] at hqk
            exact absurd this (by rw [hqk]; exact lt_irrefl _)
          rw [hrest, if_pos hks] at ih
          rw [List.find?_cons_of_pos (by simp), if_pos hks]
          by_cases hst : o.st = .live
          · simp only [hst, ne_eq, not_true_eq_false, ↓reduceIte, Option.map_some, reapAcks]
            rw [List.map_cons, reportsFor, List.filter_cons_of_pos]
            · simpa [reportsFor, reapAcks] using ih
            · simp [isFor, cancelAckOf, OutMsg.clId, hks]
          · simpa [hst, reapAcks] using ih
        · rw [List.find?_cons_of_neg (by simpa using hk), ← ih]
          by_cases hst : o.st = .live
          · simp only [hst, ne_eq, not_true_eq_false, ↓reduceIte, List.map_cons]
            rw [reportsFor, List.filter_cons_of_neg]
            · rfl
            · simp only [isFor, cancelAckOf, OutMsg.clId, Option.some.injEq, decide_eq_true_eq]
              rintro ⟨hs, hc⟩
              exact hk (by cases k; cases key; simp_all)
          · simp [hst]
      · rw [List.filter_cons_of_neg (by simpa using hks), ih]
        by_cases hk : k = key
        · subst hk
          rw [if_neg hks, if_neg hks]
        · rw [List.find?_cons_of_neg (by simpa using hk)]
  rw [sessionAcks, sessionRange_eq_filter, OrderedMap.find?]
  convert hlist e.orders.toList e.orders.sorted using 8
  rfl

/-! ## Every call is a step of every order -/

private theorem orderStep_onNew (cfg : EngineConfig) (e : OrderEngine) (session : ℕ)
    (order : NewOrder) (key : OrderKey) :
    OrderStep cfg key (.onNew session order) (e.orders.find? key)
      ((step cfg e (.onNew session order)).1.orders.find? key)
      (reportsFor key (step cfg e (.onNew session order)).2) := by
  have hspec := onNew_spec cfg e session order
  simp only [step, routeTo]
  generalize onNew cfg e session order = r at hspec
  by_cases hk : key = ⟨session, order.clId⟩
  · subst hk
    cases hspec with
    | duplicate used =>
      rw [reportsFor_routeTo session order.clId rfl, if_pos rfl, used]
      exact .duplicate rfl
    | rejected reason unused _ =>
      simp only [recordReject]
      rw [reportsFor_routeTo session order.clId rfl, if_pos rfl, unused,
        OrderedMap.find?_insert_self]
      exact .rejected rfl _ reason
    | accepted side unused valid _ hside =>
      rw [orders_recordAccept, unused, OrderedMap.find?_insert_self]
      simp only [recordAccept]
      rw [reportsFor_routeTo session order.clId rfl, if_pos rfl]
      exact .accepted rfl _ side valid hside
  · have hquiet : OrderStep cfg key (.onNew session order) (e.orders.find? key)
        (e.orders.find? key) [] := by
      refine .quiet (fun order' hid heq => ?_) (fun _ _ heq => ?_) fun heq => ?_
      · cases heq
        exact hk (by cases key; simp_all)
      · cases heq
      · cases heq
    cases hspec with
    | duplicate _ =>
      rw [reportsFor_routeTo session order.clId rfl, if_neg hk]
      exact hquiet
    | rejected _ _ _ =>
      simp only [recordReject]
      rw [reportsFor_routeTo session order.clId rfl, if_neg hk,
        OrderedMap.find?_insert_of_ne _ _ hk]
      exact hquiet
    | accepted side _ _ _ _ =>
      rw [orders_recordAccept, OrderedMap.find?_insert_of_ne _ _ hk]
      simp only [recordAccept]
      rw [reportsFor_routeTo session order.clId rfl, if_neg hk]
      exact hquiet

private theorem orderStep_onCancel (cfg : EngineConfig) (e : OrderEngine) (session : ℕ)
    (cancel : CancelOrder) (key : OrderKey) :
    OrderStep cfg key (.onCancel session cancel) (e.orders.find? key)
      ((step cfg e (.onCancel session cancel)).1.orders.find? key)
      (reportsFor key (step cfg e (.onCancel session cancel)).2) := by
  have hspec := onCancel_spec e session cancel
  simp only [step, routeTo]
  generalize onCancel e session cancel = r at hspec
  by_cases hk : key = ⟨session, cancel.clId⟩
  · subst hk
    cases hspec with
    | unknown unused =>
      rw [reportsFor_routeTo session cancel.clId rfl, if_pos rfl, unused]
      exact .unknown rfl
    | terminal used dead =>
      rw [reportsFor_routeTo session cancel.clId rfl, if_pos rfl, used]
      exact .terminal rfl dead
    | cancelled used live =>
      rw [orders_recordCancel, OrderedMap.find?_modify, if_pos rfl, used]
      simp only [recordCancel]
      rw [reportsFor_routeTo session cancel.clId rfl, if_pos rfl]
      exact .cancelled rfl live
  · have hquiet : OrderStep cfg key (.onCancel session cancel) (e.orders.find? key)
        (e.orders.find? key) [] := by
      refine .quiet (fun _ _ heq => ?_) (fun cancel' hid heq => ?_) fun heq => ?_
      · cases heq
      · cases heq
        exact hk (by cases key; simp_all)
      · cases heq
    cases hspec with
    | unknown _ =>
      rw [reportsFor_routeTo session cancel.clId rfl, if_neg hk]
      exact hquiet
    | terminal _ _ =>
      rw [reportsFor_routeTo session cancel.clId rfl, if_neg hk]
      exact hquiet
    | cancelled _ _ =>
      rw [orders_recordCancel, OrderedMap.find?_modify, if_neg hk]
      simp only [recordCancel]
      rw [reportsFor_routeTo session cancel.clId rfl, if_neg hk]
      exact hquiet

private theorem orderStep_onBook (h : Inv cfg e) (book : Book) (key : OrderKey) :
    OrderStep cfg key (.onBook book) (e.orders.find? key)
      ((step cfg e (.onBook book)).1.orders.find? key)
      (reportsFor key (step cfg e (.onBook book)).2) := by
  have hquiet : ∀ stored, OrderStep cfg key (.onBook book) stored stored [] := by
    intro stored
    exact .quiet (fun _ _ heq => by cases heq) (fun _ _ heq => by cases heq) fun heq => by cases heq
  simp only [step]
  by_cases hfresh : e.isFresh book
  · obtain ⟨hi, hout⟩ := onBook_of_fresh cfg h.indexed hfresh
    rw [hi.find?, hout]
    rcases reportsFor_fillsFrom cfg key book e.nextExecId
      (filledBy cfg book e.orders) nodup_filledBy with ⟨hnone, hnil⟩ | ⟨ord, m, hmem, -, -, hout⟩
    · rw [hnil]
      have hsame : (e.orders.find? key).map (swept cfg book) = e.orders.find? key := by
        cases ho : e.orders.find? key with
        | none => rfl
        | some o =>
          have hmiss : ¬isFilled cfg book o = true := fun hfill =>
            hnone o (mem_filledBy.mpr ⟨ho, hfill⟩)
          rw [Option.map_some, swept_of_not_isFilled hmiss]
      rw [hsame]
      exact hquiet _
    · obtain ⟨ho, hfill⟩ := mem_filledBy.mp hmem
      simp only at ho hfill
      rw [hout, ho]
      exact .filled hfill (h.live key ord ho (st_of_isFilled hfill)).leaves_pos m
  · rw [onBook_of_not_fresh hfresh]
    exact hquiet _

private theorem orderStep_endSession (cfg : EngineConfig) (e : OrderEngine) (session : ℕ)
    (key : OrderKey) :
    OrderStep cfg key (.endSession session) (e.orders.find? key)
      ((step cfg e (.endSession session)).1.orders.find? key)
      (reportsFor key (step cfg e (.endSession session)).2) := by
  simp only [step, routeTo]
  rw [orders_endSession, find?_eraseSession]
  change OrderStep cfg key _ _ _ (reportsFor key ((e.sessionAcks session).map _))
  rw [reportsFor_sessionAcks]
  by_cases hs : key.session = session
  · subst hs
    rw [if_pos rfl, if_pos rfl]
    exact .reaped _
  · rw [if_neg hs, if_neg hs]
    refine .quiet (fun _ _ heq => ?_) (fun _ _ heq => ?_) fun heq => ?_
    · cases heq
    · cases heq
    · cases heq
      exact hs rfl

/-- Every engine call is a step of every order. -/
theorem orderStep_step (h : Inv cfg e) (call : Call) (key : OrderKey) :
    OrderStep cfg key call (e.orders.find? key) ((step cfg e call).1.orders.find? key)
      (reportsFor key (step cfg e call).2) := by
  cases call with
  | onNew session order => exact orderStep_onNew cfg e session order key
  | onCancel session cancel => exact orderStep_onCancel cfg e session cancel key
  | onBook book => exact orderStep_onBook h book key
  | endSession session => exact orderStep_endSession cfg e session key

/-! ## What a call stores and whom it reports to -/

/-- A stored order was stored before, or is the one that `on_new` has just stored. -/
theorem stored_step (h : Inv cfg e) {call : Call} {ord : Order}
    (hord : (step cfg e call).1.orders.find? key = some ord) :
    (call ≠ .endSession key.session ∧ ∃ ord', e.orders.find? key = some ord') ∨
      ∃ order, call = .onNew key.session order := by
  have hstep := orderStep_step h call key
  rw [hord] at hstep
  generalize hbefore : e.orders.find? key = stored at hstep
  generalize reportsFor key (step cfg e call).2 = out at hstep
  cases hstep with
  | quiet _ _ hend => exact Or.inl ⟨hend, ord, rfl⟩
  | duplicate _ => exact Or.inr ⟨_, rfl⟩
  | rejected _ _ _ => exact Or.inr ⟨_, rfl⟩
  | accepted _ _ _ _ _ => exact Or.inr ⟨_, rfl⟩
  | terminal _ _ => exact Or.inl ⟨by simp, _, rfl⟩
  | cancelled _ _ => exact Or.inl ⟨by simp, _, rfl⟩
  | filled _ _ _ => exact Or.inl ⟨by simp, _, rfl⟩

/-- A book reports fills only, each to the session of a stored order. -/
theorem mem_onBook (h : e.Indexed) {book : Book} {r : Routed} (hr : r ∈ (onBook cfg e book).2) :
    (∃ fill, r.msg = .fill fill) ∧ ∃ k ord, k.session = r.session ∧
    e.orders.find? k = some ord := by
  by_cases hfresh : e.isFresh book
  · rw [(onBook_of_fresh cfg h hfresh).2] at hr
    obtain ⟨k, ord, execId, hmem, rfl⟩ := mem_fillsFrom hr
    exact ⟨⟨_, rfl⟩, k, ord, rfl, (mem_filledBy.mp hmem).1⟩
  · rw [onBook_of_not_fresh hfresh] at hr
    cases hr

private theorem countP_fillsFrom (book : Book) (s n : ℕ) (l : List (OrderKey × Order)) :
    (fillsFrom cfg book n l).countP (fun r => r.session = s) =
      l.countP fun p => p.1.session = s := by
  induction l generalizing n with
  | nil => rfl
  | cons p l ih => simp only [fillsFrom, List.countP_cons, ih]

private theorem countP_add_le {α : Type} {p q r : α → Bool} {l : List α}
    (hp : ∀ a, p a = true → r a = true) (hq : ∀ a, q a = true → r a = true)
    (hpq : ∀ a, p a = true → ¬q a = true) : l.countP p + l.countP q ≤ l.countP r := by
  induction l with
  | nil => simp
  | cons a l ih =>
    have hpa := hp a
    have hqa := hq a
    have hpqa := hpq a
    simp only [List.countP_cons]
    split_ifs <;> simp_all <;> omega

/-- A book reports at most one fill per live order. -/
theorem countP_onBook_le (h : e.Indexed) (book : Book) (s : ℕ) :
    (onBook cfg e book).2.countP (fun r => r.session = s) ≤ e.liveTotal s := by
  by_cases hfresh : e.isFresh book
  · rw [(onBook_of_fresh cfg h hfresh).2, countP_fillsFrom, filledBy, List.countP_append, filledOn,
      filledOn, List.countP_filter, List.countP_filter, liveTotal, OrderedMap.count]
    -- the fills of the two sides are fills of different live orders
    refine countP_add_le ?_ ?_ ?_
    · intro p hp
      simp only [Bool.and_eq_true, decide_eq_true_eq] at hp ⊢
      exact ⟨hp.1, st_of_isFilled hp.2.2⟩
    · intro p hp
      simp only [Bool.and_eq_true, decide_eq_true_eq] at hp ⊢
      exact ⟨hp.1, st_of_isFilled hp.2.2⟩
    · intro p hbid hask
      simp only [Bool.and_eq_true, decide_eq_true_eq] at hbid hask
      have hsides : Side.bid = Side.ask := hbid.2.1.symm.trans hask.2.1
      cases hsides
  · rw [onBook_of_not_fresh hfresh]
    exact Nat.zero_le _

end OrderEngine

end MarketMaker
