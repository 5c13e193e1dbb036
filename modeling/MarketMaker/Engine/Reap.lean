import MarketMaker.Engine.Restrict

/-!
# The end of a session

`end_session` of any session in any reachable state: what it answers, what it removes and what it
leaves (`Reaps`), and that it leaves the engine as if the session had never been used. The latter
compares a run with the run without the calls of the session: before the reap the two are related
by the restriction to the other sessions, after it by the restriction to all of them.
-/

namespace MarketMaker

namespace OrderEngine

variable {cfg : EngineConfig} {s : ℕ} {ρ σ : ℕ → ℕ} {e e₁ e₂ : OrderEngine}

/-! ## One reap -/

/-- The answer and the effect of `end_session`, container by container. -/
structure Reaps (s : ℕ) (e : OrderEngine) (r : OrderEngine × List OutMsg) : Prop where
  /-- One ack for each live order of the session, in the order of their ids. -/
  acks : ∃ live : List (OrderKey × Order), (live.Pairwise fun p q => p.1.clId < q.1.clId) ∧
    (∀ k ord, (k, ord) ∈ live ↔
      k.session = s ∧ e.orders.find? k = some ord ∧ ord.st = .live) ∧
    r.2 = live.map fun p => cancelAckOf p.1 p.2
  orders : ∀ k, r.1.orders.find? k = if k.session = s then none else e.orders.find? k
  liveIndex : ∀ side k, k ∈ (r.1.liveIndex side).keys ↔
    k.session ≠ s ∧ k ∈ (e.liveIndex side).keys
  entriesBySession : ∀ t, r.1.entriesBySession.find? t =
    if t = s then none else e.entriesBySession.find? t
  book : r.1.book = e.book
  bookSeen : r.1.bookSeen = e.bookSeen
  nextEngId : r.1.nextEngId = e.nextEngId
  nextExecId : r.1.nextExecId = e.nextExecId
  staleBooksIgnored : r.1.staleBooksIgnored = e.staleBooksIgnored

theorem mem_keys_eraseSession {c : OrderedSet OrderKey} {k : OrderKey} :
    k ∈ (eraseSession c s).keys ↔ k.session ≠ s ∧ k ∈ c.keys := by
  rw [OrderedMap.mem_keys_iff, OrderedMap.mem_keys_iff, find?_eraseSession]
  by_cases hk : k.session = s <;> simp [hk]

/-- The batch is the live orders of the session, walked in the order of the map. -/
theorem sessionAcks_eq (e : OrderEngine) (s : ℕ) :
    e.sessionAcks s =
      (e.orders.toList.filter fun p => decide (p.1.session = s ∧ p.2.st = .live)).map
        fun p => cancelAckOf p.1 p.2 := by
  rw [sessionAcks, sessionRange_eq_filter]
  induction e.orders.toList with
  | nil => rfl
  | cons p l ih =>
    by_cases hs : p.1.session = s
    · by_cases hst : p.2.st = .live
      · simpa [hs, hst, cancelAckOf] using ih
      · simpa [hs, hst] using ih
    · simpa [hs] using ih

/-- In one session the order of the keys is the order of the ids. -/
theorem clId_lt_of_lt {a b : OrderKey} (ha : a.session = s) (hb : b.session = s) (h : a < b) :
    a.clId < b.clId := by
  obtain hlt | ⟨-, hlt⟩ := (OrderKey.lt_iff a b).mp h
  · omega
  · exact hlt

theorem reaps_endSession (e : OrderEngine) (s : ℕ) : Reaps s e (endSession e s) where
  acks := by
    refine ⟨_, ?_, fun k ord => ?_, sessionAcks_eq e s⟩
    · have hsorted := e.orders.sorted.sublist (List.filter_sublist
        (p := fun p : OrderKey × Order => decide (p.1.session = s ∧ p.2.st = .live)))
      refine hsorted.imp_of_mem fun {p q} hp hq hlt => ?_
      have hp := of_decide_eq_true (List.mem_filter.mp hp).2
      have hq := of_decide_eq_true (List.mem_filter.mp hq).2
      exact clId_lt_of_lt hp.1 hq.1 hlt
    · rw [List.mem_filter, ← OrderedMap.find?_eq_some_iff]
      simp only [decide_eq_true_eq]
      tauto
  orders k := find?_eraseSession e.orders s k
  liveIndex side k := by
    cases side
    · exact mem_keys_eraseSession
    · exact mem_keys_eraseSession
  entriesBySession t := OrderedMap.find?_erase _ _ _
  book := rfl
  bookSeen := rfl
  nextEngId := rfl
  nextExecId := rfl
  staleBooksIgnored := rfl

theorem eraseSession_eraseSession {V : Type} (c : OrderedMap OrderKey V) (s : ℕ) :
    eraseSession (eraseSession c s) s = eraseSession c s := by
  refine OrderedMap.ext_find? fun k => ?_
  rw [find?_eraseSession]
  split_ifs with hk
  · rw [find?_eraseSession, if_pos hk]
  · rfl

/-- A session that has ended has nothing left to end. -/
theorem endSession_endSession (e : OrderEngine) (s : ℕ) :
    endSession (endSession e s).1 s = ((endSession e s).1, []) := by
  have hnone : (endSession e s).1.sessionAcks s = [] := by
    rw [sessionAcks_eq, List.map_eq_nil_iff, List.filter_eq_nil_iff]
    rintro ⟨k, ord⟩ hmem hlive
    have hfind := OrderedMap.find?_eq_some_iff.mpr hmem
    rw [(reaps_endSession e s).orders, if_pos (of_decide_eq_true hlive).1] at hfind
    cases hfind
  have hentries : (e.entriesBySession.erase s).erase s = e.entriesBySession.erase s := by
    refine OrderedMap.ext_find? fun t => ?_
    rw [OrderedMap.find?_erase]
    split_ifs with ht
    · rw [OrderedMap.find?_erase, if_pos ht]
    · rfl
  refine Prod.ext ?_ hnone
  change { e with
    liveBids := eraseSession (eraseSession e.liveBids s) s
    liveAsks := eraseSession (eraseSession e.liveAsks s) s
    orders := eraseSession (eraseSession e.orders s) s
    entriesBySession := (e.entriesBySession.erase s).erase s } = _
  rw [eraseSession_eraseSession, eraseSession_eraseSession, eraseSession_eraseSession, hentries]
  rfl

/-! ## Stale books -/

/-- Only a book counts as stale. -/
theorem staleBooksIgnored_step {call : Call} (hbook : ∀ book, call ≠ .onBook book) :
    (step cfg e call).1.staleBooksIgnored = e.staleBooksIgnored := by
  cases call with
  | onNew session order =>
    have hspec := onNew_spec cfg e session order
    simp only [step, routeTo]
    generalize onNew cfg e session order = r at hspec
    cases hspec with
    | duplicate _ => rfl
    | rejected _ _ _ => rfl
    | accepted _ _ _ _ _ => simp [recordAccept]
  | onCancel session cancel =>
    have hspec := onCancel_spec e session cancel
    simp only [step, routeTo]
    generalize onCancel e session cancel = r at hspec
    cases hspec with
    | unknown _ => rfl
    | terminal _ _ => rfl
    | cancelled _ _ => simp [recordCancel]
  | onBook book => exact absurd rfl (hbook book)
  | endSession session => rfl

/-- Engines with the same book count the same books as stale. -/
theorem Restricts.staleBooksIgnored_onBook {keep : ℕ → Bool} (h : Restricts cfg keep ρ σ e₁ e₂)
    (hstale : e₁.staleBooksIgnored = e₂.staleBooksIgnored) (book : Book) :
    (onBook cfg e₁ book).1.staleBooksIgnored = (onBook cfg e₂ book).1.staleBooksIgnored := by
  have hsame : e₁.isFresh book ↔ e₂.isFresh book := by
    rw [isFresh, isFresh, h.book, h.bookSeen]
  by_cases hfresh : e₂.isFresh book
  · rw [(onBook_of_fresh cfg h.inv₁.indexed (hsame.mpr hfresh)).1.staleBooksIgnored,
      (onBook_of_fresh cfg h.inv₂.indexed hfresh).1.staleBooksIgnored, hstale]
  · rw [onBook_of_not_fresh hfresh, onBook_of_not_fresh (mt hsame.mp hfresh)]
    exact congrArg (· + 1) hstale

theorem Restricts.staleBooksIgnored_run {keep : ℕ → Bool} (h : Restricts cfg keep ρ σ e₁ e₂)
    (hstale : e₁.staleBooksIgnored = e₂.staleBooksIgnored) (calls : List Call) :
    (Mealy.run (step cfg) e₁ calls).1.staleBooksIgnored =
      (Mealy.run (step cfg) e₂ (calls.filter (involves keep))).1.staleBooksIgnored := by
  induction calls generalizing ρ σ e₁ e₂ with
  | nil => exact hstale
  | cons call calls ih =>
    cases hc : involves keep call with
    | true =>
      obtain ⟨σ', -, -, hnext, -⟩ := h.step_kept hc
      rw [List.filter_cons_of_pos hc]
      refine ih hnext ?_
      by_cases hbook : ∃ book, call = .onBook book
      · obtain ⟨book, rfl⟩ := hbook
        exact h.staleBooksIgnored_onBook hstale book
      · have hother : ∀ book, call ≠ .onBook book := fun book heq => hbook ⟨book, heq⟩
        rw [staleBooksIgnored_step hother, staleBooksIgnored_step hother, hstale]
    | false =>
      obtain ⟨ρ', -, hnext⟩ := h.step_dropped hc
      rw [List.filter_cons_of_neg (by simp [hc])]
      refine ih hnext ?_
      rw [staleBooksIgnored_step, hstale]
      rintro book rfl
      cases hc

/-! ## Never used -/

/-- The same engine, up to the two id counters and a renaming of the engine ids of its orders. -/
structure SameUpTo (ρ : ℕ → ℕ) (e₁ e₂ : OrderEngine) : Prop where
  book : e₁.book = e₂.book
  bookSeen : e₁.bookSeen = e₂.bookSeen
  orders : e₁.orders = e₂.orders.mapVal fun _ ord => ord.rename ρ
  liveIndex : ∀ side, e₁.liveIndex side = e₂.liveIndex side
  entriesBySession : e₁.entriesBySession = e₂.entriesBySession
  staleBooksIgnored : e₁.staleBooksIgnored = e₂.staleBooksIgnored

/-- The restriction to all sessions. The indexes and the counters follow from the orders. -/
theorem Restricts.sameUpTo (h : Restricts cfg (fun _ => true) ρ σ e₁ e₂)
    (hstale : e₁.staleBooksIgnored = e₂.staleBooksIgnored) : SameUpTo ρ e₁ e₂ := by
  have horders : e₁.orders = e₂.orders.mapVal fun _ ord => ord.rename ρ := by
    refine OrderedMap.ext_find? fun k => ?_
    rw [OrderedMap.find?_mapVal]
    exact h.own k rfl
  refine ⟨h.book, h.bookSeen, horders, fun side => ?_, ?_, hstale⟩
  · refine OrderedMap.ext_keys fun k => ?_
    rw [h.inv₁.indexed, h.inv₂.indexed, horders, OrderedMap.find?_mapVal]
    cases e₂.orders.find? k <;> simp
  · refine OrderedMap.ext_find? fun t => ?_
    rw [h.inv₁.entries, h.inv₂.entries, entryTotal, entryTotal, horders, OrderedMap.count_mapVal]

/-- After the reap nothing of the session is left on either side. -/
theorem Restricts.endSession (h : Restricts cfg (fun t => t ≠ s) ρ σ e₁ e₂) :
    Restricts cfg (fun _ => true) ρ σ (endSession e₁ s).1 e₂ where
  inv₁ := inv_endSession h.inv₁ s
  inv₂ := h.inv₂
  book := h.book
  bookSeen := h.bookSeen
  eng := h.eng
  exec := h.exec
  own k _ := by
    rw [(reaps_endSession e₁ s).orders]
    split_ifs with hk
    · rw [h.alone k (by simpa using hk)]
      rfl
    · exact h.own k (by simpa using hk)
  alone k hk := by contradiction

theorem involves_all : involves (fun _ => true) = fun _ => true := by
  funext call
  cases call <;> rfl

theorem keptView_all (history : List (Call × List Routed)) :
    keptView (fun _ => true) history = history := by
  simp [keptView, involves_all, reportsIn]

/-- No order of the session has traded. -/
def Unfilled (s : ℕ) (history : List (Call × List Routed)) : Prop :=
  ∀ p ∈ history, ∀ r ∈ p.2, ∀ m, r.msg = .fill m → r.session ≠ s

/-- After any calls, `end_session` answers and removes what it should, and no more, a second one
does nothing, and whatever is called next is answered as if the session had never been used, up to
order-preserving renumberings of `eng_id`s and, if an order of the session had traded, of
`exec_id`s. -/
theorem run_reaped (cfg : EngineConfig) (calls : List Call) (s : ℕ) :
    let e := (run cfg calls).1
    let unused := (run cfg (calls.filter (involves fun t => t ≠ s))).1
    Reaps s e (endSession e s) ∧ endSession (endSession e s).1 s = ((endSession e s).1, []) ∧
      ∀ more, ∃ ρ σ, StrictMono ρ ∧ StrictMono σ ∧ (Unfilled s (run cfg calls).2 → σ = id) ∧
        (Mealy.run (step cfg) (endSession e s).1 more).2 =
          (Mealy.run (step cfg) unused more).2.map
            (fun p => (p.1, p.2.map (Routed.rename ρ σ))) ∧
        SameUpTo ρ (Mealy.run (step cfg) (endSession e s).1 more).1
          (Mealy.run (step cfg) unused more).1 := by
  refine ⟨reaps_endSession _ s, endSession_endSession _ s, fun more => ?_⟩
  obtain ⟨ρ, σ, hbefore, -, -, hfill, -⟩ :=
    (restricts_init cfg fun t => t ≠ s).run calls
  obtain ⟨ρ', σ', hafter, -, -, hsame, hview⟩ := hbefore.endSession.run more
  have hstale := hbefore.endSession.staleBooksIgnored_run
    ((restricts_init cfg fun t => t ≠ s).staleBooksIgnored_run rfl calls) more
  rw [involves_all, List.filter_true] at hafter hview hstale
  rw [keptView_all, keptView_all] at hview
  refine ⟨ρ', σ', hafter.eng.strictMono, hafter.exec.strictMono, fun hunfilled => ?_, hview,
    hafter.sameUpTo hstale⟩
  rw [hsame fun _ _ _ _ _ _ => rfl, hfill fun p hp r hr m hm => ?_]
  simpa using hunfilled p hp r hr m hm

/-! ## Fills leave a trace -/

/-- A session that trades and ends. -/
def tradedSession : List Call :=
  [.onNew 1
      { clId := ascii "c1", symbol := ascii "MOCKUSDT", side := ascii "B", px := 500000
        qty := 100 },
    .onBook { bidPx := 499990, bidQty := 100, askPx := 499995, askQty := 40, mdSeq := 1 }]

/-- The session again, and a fill. -/
def tradesAgain : List Call :=
  [.onNew 1
      { clId := ascii "c1", symbol := ascii "MOCKUSDT", side := ascii "B", px := 499990
        qty := 100 },
    .onBook { bidPx := 499980, bidQty := 100, askPx := 499985, askQty := 40, mdSeq := 2 }]

theorem execIds_rename (ρ : ℕ → ℕ) (history : List (Call × List Routed)) :
    execIds (history.map fun p => (p.1, p.2.map (Routed.rename ρ id))) = execIds history := by
  have hid : ∀ r : Routed, execId (r.rename ρ id) = execId r := by
    rintro ⟨session, msg⟩
    cases msg <;> rfl
  simp only [execIds, List.flatMap_map, List.filterMap_flatMap, List.filterMap_map]
  refine congrArg (history.flatMap ·) (funext fun p => ?_)
  exact List.filterMap_congr fun r _ => hid r

/-- An `exec_id` that the ended session has consumed shows later: no renumbering of `eng_id`s alone
makes the session look unused. -/
theorem tradedSession_leaves_execId :
    let e := (run specConfig tradedSession).1
    let unused := (run specConfig (tradedSession.filter (involves fun t => t ≠ 1))).1
    ¬ ∃ ρ, (Mealy.run (step specConfig) (endSession e 1).1 tradesAgain).2 =
      (Mealy.run (step specConfig) unused tradesAgain).2.map
        fun p => (p.1, p.2.map (Routed.rename ρ id)) := by
  rintro e unused ⟨ρ, heq⟩
  have hused : execIds (Mealy.run (step specConfig) (endSession e 1).1 tradesAgain).2 = [2] := by
    decide +kernel
  have hunused : execIds (Mealy.run (step specConfig) unused tradesAgain).2 = [1] := by
    decide +kernel
  rw [heq, execIds_rename, hunused] at hused
  cases hused

end OrderEngine

end MarketMaker
