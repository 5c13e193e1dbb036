import MarketMaker.Duplex.Basic
import MarketMaker.Duplex.Invariant
import MarketMaker.Engine.Isolation

/-!
# What an engine call does to each side of a session

The session's orders are split by the side their id names. A command changes the side of its own
order and no other (`CommandEffect`); a book does to each side what `BookEffect` says; a call of
another session changes neither and reports nothing.
-/

namespace MarketMaker

namespace Duplex

open OrderEngine

variable {cfg : EngineConfig} {e e' : OrderEngine} {s : ℕ} {side : Side} {c : Bytes}

/-- The orders of one side of a session, as the engine stores them. -/
def store (e : OrderEngine) (s : ℕ) (side : Side) : Store := fun c =>
  if sideOf c = side then e.orders.find? ⟨s, c⟩ else none

theorem store_sideOf (e : OrderEngine) (s : ℕ) (c : Bytes) :
    store e s (sideOf c) c = e.orders.find? ⟨s, c⟩ :=
  if_pos rfl

theorem store_eq_some_iff {ord : Order} :
    store e s side c = some ord ↔ sideOf c = side ∧ e.orders.find? ⟨s, c⟩ = some ord := by
  unfold store
  split_ifs with h
  · simp [h]
  · simp [h]

theorem store_congr (h : ∀ c, e'.orders.find? ⟨s, c⟩ = e.orders.find? ⟨s, c⟩) (side : Side) :
    store e' s side = store e s side := by
  funext c
  simp only [store, h c]

/-- Writing one entry of the session changes the side of its id, and no other. -/
theorem store_update (e e' : OrderEngine) (s : ℕ) {ord : Order}
    (h : ∀ c', e'.orders.find? ⟨s, c'⟩ = if c' = c then some ord else e.orders.find? ⟨s, c'⟩) :
    store e' s (sideOf c) = Function.update (store e s (sideOf c)) c (some ord) ∧
      ∀ side, side ≠ sideOf c → store e' s side = store e s side := by
  refine ⟨?_, fun side hne => ?_⟩
  · funext c'
    by_cases hc : c' = c
    · subst hc
      rw [Function.update_self, store_sideOf, h, if_pos rfl]
    · rw [Function.update_of_ne hc]
      simp only [store, h c', if_neg hc]
  · funext c'
    by_cases hc : c' = c
    · subst hc
      simp [store, Ne.symm hne]
    · simp only [store, h c', if_neg hc]

/-! ## Reports by side -/

theorem clId_eq_map_digest (m : OutMsg) : m.clId = m.digest.map Prod.fst := by
  cases m <;> rfl

theorem reportsOn_append (side : Side) (l l' : List OutMsg) :
    reportsOn side (l ++ l') = reportsOn side l ++ reportsOn side l' := by
  simp [reportsOn]

theorem reportsOn_cons {m : OutMsg} {p : Bytes × ReportKind} (h : m.digest = some p)
    (l : List OutMsg) (side : Side) :
    reportsOn side (m :: l) = if sideOf p.1 = side then p :: reportsOn side l
      else reportsOn side l := by
  simp only [reportsOn, List.filterMap_cons, h, List.filter_cons, decide_eq_true_eq]

/-- A side on which a batch names a single order has that order's reports. -/
theorem reportsOn_reportsTo {out : List Routed} (hc : sideOf c = side)
    (h : ∀ r ∈ out, r.session = s → ∀ p, r.msg.digest = some p → sideOf p.1 = side → p.1 = c) :
    reportsOn side (reportsTo s out) = (reportsFor ⟨s, c⟩ out).filterMap OutMsg.digest := by
  induction out with
  | nil => rfl
  | cons r out ih =>
    have ih := ih fun r' hr' => h r' (List.mem_cons_of_mem _ hr')
    have hr := h r List.mem_cons_self
    by_cases hs : r.session = s
    · have hto : reportsTo s (r :: out) = r.msg :: reportsTo s out := by simp [reportsTo, hs]
      rw [hto]
      cases hd : r.msg.digest with
      | none =>
        have hfor : reportsFor ⟨s, c⟩ (r :: out) = reportsFor ⟨s, c⟩ out := by
          simp [reportsFor, isFor, clId_eq_map_digest, hd]
        rw [hfor, ← ih]
        simp [reportsOn, hd]
      | some p =>
        rw [reportsOn_cons hd, ih]
        by_cases hp : sideOf p.1 = side
        · obtain rfl := hr hs p hd hp
          rw [if_pos hp]
          simp [reportsFor, isFor, clId_eq_map_digest, hd, hs]
        · have hne : p.1 ≠ c := fun heq => hp (heq ▸ hc)
          rw [if_neg hp]
          simp [reportsFor, isFor, clId_eq_map_digest, hd, hs, hne]
    · have hto : reportsTo s (r :: out) = reportsTo s out := by simp [reportsTo, hs]
      have hfor : reportsFor ⟨s, c⟩ (r :: out) = reportsFor ⟨s, c⟩ out := by
        simp [reportsFor, isFor, hs]
      rw [hto, hfor, ih]

/-! ## Commands -/

/-- The effect of a command about `c`: `Q` on its own side, nothing on the other. -/
structure CommandEffect (s : ℕ) (e : OrderEngine) (r : OrderEngine × List Routed) (c : Bytes)
    (Q : Store → List (Bytes × ReportKind) → Prop) : Prop where
  own : Q (store r.1 s (sideOf c)) (reportsOn (sideOf c) (reportsTo s r.2))
  other : ∀ side, side ≠ sideOf c →
    store r.1 s side = store e s side ∧ reportsOn side (reportsTo s r.2) = []
  digested : ∀ m ∈ reportsTo s r.2, ∃ p, m.digest = some p

/-- A call that answers with one report. -/
private theorem commandEffect_single {r : OrderEngine × List OutMsg} {m : OutMsg}
    {kind : ReportKind} {v : Store} {Q : Store → List (Bytes × ReportKind) → Prop}
    (hr : r.2 = [m]) (hm : m.digest = some (c, kind)) (hown : store r.1 s (sideOf c) = v)
    (hother : ∀ side, side ≠ sideOf c → store r.1 s side = store e s side)
    (hQ : Q v [(c, kind)]) : CommandEffect s e (routeTo s r) c Q := by
  have hreports : reportsTo s (routeTo s r).2 = [m] := by
    simp only [routeTo]
    rw [reportsTo_own, hr]
  refine ⟨?_, fun side hne => ⟨hother side hne, ?_⟩, ?_⟩
  · rw [hreports, reportsOn_cons hm, if_pos rfl]
    exact hown.symm ▸ hQ
  · rw [hreports, reportsOn_cons hm, if_neg (Ne.symm hne)]
    rfl
  · rw [hreports]
    intro m' hm'
    obtain rfl := List.mem_singleton.mp hm'
    exact ⟨_, hm⟩

theorem onCancel_effect (cfg : EngineConfig) (e : OrderEngine) (s : ℕ) (cancel : CancelOrder) :
    CommandEffect s e (OrderEngine.step cfg e (.onCancel s cancel)) cancel.clId
      (CancelEffect (store e s (sideOf cancel.clId)) cancel.clId) := by
  have hspec := onCancel_spec e s cancel
  simp only [OrderEngine.step]
  generalize onCancel e s cancel = r at hspec
  cases hspec with
  | unknown unused =>
    have hnone := (store_sideOf e s cancel.clId).trans unused
    exact commandEffect_single rfl rfl rfl (fun _ _ => rfl) (.unknown hnone)
  | terminal used dead =>
    have hfound := (store_sideOf e s cancel.clId).trans used
    exact commandEffect_single rfl rfl rfl (fun _ _ => rfl) (.terminal hfound dead)
  | @cancelled ord used live =>
    have hwritten : ∀ c', (recordCancel e s cancel.clId ord).1.orders.find? ⟨s, c'⟩ =
        if c' = cancel.clId then some { ord with st := .cancelled }
        else e.orders.find? ⟨s, c'⟩ := by
      intro c'
      rw [orders_recordCancel, OrderedMap.find?_modify]
      by_cases hc : c' = cancel.clId
      · subst hc
        simp [used]
      · simp [hc]
    obtain ⟨hown, hother⟩ := store_update e _ s hwritten
    have hfound := (store_sideOf e s cancel.clId).trans used
    exact commandEffect_single rfl rfl hown hother (.cancelled hfound live (by simp))

theorem sideFromWire_wire (side : Side) : sideFromWire side.wire = some side := by
  cases side <;> decide

theorem onNew_effect (cfg : EngineConfig) (e : OrderEngine) (s : ℕ) (order : NewOrder) :
    CommandEffect s e (OrderEngine.step cfg e (.onNew s order)) order.clId
      (NewEffect cfg (store e s (sideOf order.clId)) order.clId order.px) := by
  have hspec := onNew_spec cfg e s order
  simp only [OrderEngine.step]
  generalize onNew cfg e s order = r at hspec
  have hinsert : ∀ (ord : Order) (c' : Bytes),
      (e.orders.insert ⟨s, order.clId⟩ ord).find? ⟨s, c'⟩ =
        if c' = order.clId then some ord else e.orders.find? ⟨s, c'⟩ := by
    intro ord c'
    rw [OrderedMap.find?_insert]
    simp
  cases hspec with
  | duplicate used =>
    have hfound := (store_sideOf e s order.clId).trans used
    exact commandEffect_single rfl rfl rfl (fun _ _ => rfl) (.duplicate hfound)
  | rejected reason unused _ =>
    obtain ⟨hown, hother⟩ := store_update e (recordReject e s order _ reason).1 s
      (hinsert { st := .rejected })
    have hnone := (store_sideOf e s order.clId).trans unused
    exact commandEffect_single rfl rfl hown hother (.refused hnone (by simp))
  | accepted side unused valid _ _ =>
    obtain ⟨hown, hother⟩ := store_update e (recordAccept cfg e s order side).1 s
      (hinsert (acceptedOrder cfg e order side))
    have hnone := (store_sideOf e s order.clId).trans unused
    exact commandEffect_single rfl rfl hown hother (.acked hnone rfl (toRawPx_toTicks valid.tick))

/-! ## Calls of other sessions, and books -/

theorem concerns_of_isOther {call : Call} (h : isOther s call = true) :
    concerns s call = false := by
  cases call with
  | onNew _ _ => simpa [isOther, concerns] using h
  | onCancel _ _ => simpa [isOther, concerns] using h
  | onBook _ => cases h
  | endSession _ => simpa [isOther, concerns] using h

/-- A call of another session leaves the session's orders alone and reports nothing to it. -/
theorem other_effect (h : Inv cfg e) {call : Call} (hother : isOther s call = true) :
    (∀ side, store (OrderEngine.step cfg e call).1 s side = store e s side) ∧
      reportsTo s (OrderEngine.step cfg e call).2 = [] := by
  refine ⟨store_congr fun c => ?_, reportsTo_step_other (concerns_of_isOther hother)⟩
  have hstep := orderStep_step h call ⟨s, c⟩
  generalize (OrderEngine.step cfg e call).1.orders.find? ⟨s, c⟩ = stored' at hstep ⊢
  generalize e.orders.find? ⟨s, c⟩ = stored at hstep ⊢
  generalize reportsFor ⟨s, c⟩ (OrderEngine.step cfg e call).2 = out at hstep
  -- every other step of the order is one of its own session, or a book
  cases hstep with
  | quiet _ _ _ => rfl
  | duplicate _ => rfl
  | rejected _ _ _ => simp [isOther] at hother
  | accepted _ _ _ _ _ => simp [isOther] at hother
  | unknown _ => rfl
  | terminal _ _ => rfl
  | cancelled _ _ => simp [isOther] at hother
  | filled _ _ _ => simp [isOther] at hother
  | reaped _ => simp [isOther] at hother

/-- A processed book, on a side with at most one live order. -/
theorem onBook_effect (h : Inv cfg e) {book : Book} (hfresh : e.isFresh book)
    (honly : OnlyAt (store e s side) c) :
    BookEffect cfg (store e s side) (store (OrderEngine.step cfg e (.onBook book)).1 s side)
      (reportsOn side (reportsTo s (OrderEngine.step cfg e (.onBook book)).2)) := by
  obtain ⟨hi, hout⟩ := onBook_of_fresh cfg h.indexed hfresh
  simp only [OrderEngine.step]
  rw [hout]
  have hswept : ∀ c, store (onBook cfg e book).1 s side c =
      (store e s side c).map (swept cfg book) := by
    intro c
    simp only [store, hi.find?]
    split_ifs <;> rfl
  -- the fills of this side are those of its live order
  have hnamed : ∀ r ∈ fillsFrom cfg book e.nextExecId (filledBy cfg book e.orders),
      r.session = s → ∀ p, r.msg.digest = some p → sideOf p.1 = side →
      p.1 = c ∧ ∃ ord, store e s side c = some ord ∧ isFilled cfg book ord = true := by
    intro r hr hs p hp hside
    obtain ⟨key, ord, execId, hmem, rfl⟩ := mem_fillsFrom hr
    obtain ⟨hord, hfill⟩ := mem_filledBy.mp hmem
    cases hp
    have hkey : key = ⟨s, key.clId⟩ := by
      rw [← hs]
    have hstored : store e s side key.clId = some ord :=
      store_eq_some_iff.mpr ⟨hside, hkey ▸ hord⟩
    obtain rfl := honly key.clId ord hstored (st_of_isFilled hfill)
    exact ⟨rfl, ord, hstored, hfill⟩
  by_cases hhit : ∃ ord, store e s side c = some ord ∧ isFilled cfg book ord = true
  · obtain ⟨ord, hstored, hfill⟩ := hhit
    obtain ⟨hside, hord⟩ := store_eq_some_iff.mp hstored
    have hpos := (h.live _ _ hord (st_of_isFilled hfill)).leaves_pos
    -- every other order of the side is dead, and a book leaves it alone
    have hupdate : store (onBook cfg e book).1 s side =
        Function.update (store e s side) c (some (swept cfg book ord)) := by
      funext c'
      rw [hswept]
      by_cases hc : c' = c
      · subst hc
        rw [Function.update_self, hstored, Option.map_some]
      · rw [Function.update_of_ne hc]
        cases hc' : store e s side c' with
        | none => rfl
        | some ord' =>
          have hdead : ¬isFilled cfg book ord' = true := fun hfill' =>
            hc (honly c' ord' hc' (st_of_isFilled hfill'))
          rw [Option.map_some, swept_of_not_isFilled hdead]
    rw [hupdate, reportsOn_reportsTo hside fun r hr hs p hp hd => (hnamed r hr hs p hp hd).1]
    rcases reportsFor_fillsFrom cfg ⟨s, c⟩ book e.nextExecId (filledBy cfg book e.orders)
      nodup_filledBy with ⟨hnone, -⟩ | ⟨ord', execId, hmem, -, -, hreports⟩
    · exact absurd (mem_filledBy.mpr ⟨hord, hfill⟩) (hnone ord)
    · obtain ⟨hord', -⟩ := mem_filledBy.mp hmem
      have hsame : ord' = ord := Option.some.inj (hord'.symm.trans hord)
      subst hsame
      rw [hreports]
      have hst : (swept cfg book ord').st = .live ↔ _ := st_swept_eq_live_iff ord'
      by_cases h0 : ord'.leaves - fillQty book ord' = 0
      · have hdead : (swept cfg book ord').st ≠ .live := fun hlive => (hst.mp hlive).2 ⟨hfill, h0⟩
        simpa [OutMsg.digest, fillOf, h0] using
          @BookEffect.filled cfg _ _ _ _ hstored (st_of_isFilled hfill) hdead
      · have hlive : (swept cfg book ord').st = .live :=
          hst.mpr ⟨st_of_isFilled hfill, fun hall => h0 hall.2⟩
        simpa [OutMsg.digest, fillOf, h0] using
          @BookEffect.traded cfg _ _ _ _ hstored (st_of_isFilled hfill) hlive (px_swept ord')
  · have hsame : store (onBook cfg e book).1 s side = store e s side := by
      funext c'
      rw [hswept]
      cases hc' : store e s side c' with
      | none => rfl
      | some ord' =>
        have hdead : ¬isFilled cfg book ord' = true := by
          intro hfill'
          obtain rfl := honly c' ord' hc' (st_of_isFilled hfill')
          exact hhit ⟨ord', hc', hfill'⟩
        rw [Option.map_some, swept_of_not_isFilled hdead]
    have hnil : reportsOn side (reportsTo s
        (fillsFrom cfg book e.nextExecId (filledBy cfg book e.orders))) = [] := by
      rw [reportsOn, List.filter_eq_nil_iff]
      intro p hp hside
      obtain ⟨m, hm, hd⟩ := List.mem_filterMap.mp hp
      obtain ⟨r, hr, rfl⟩ := List.mem_map.mp hm
      obtain ⟨hr, hs⟩ := List.mem_filter.mp hr
      exact hhit (hnamed r hr (by simpa using hs) p hd (by simpa using hside)).2
    rw [hsame, hnil]
    exact .untouched

end Duplex

end MarketMaker
