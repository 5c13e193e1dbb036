import MarketMaker.Engine.OrderStep
import MarketMaker.Lib.Renumber

/-!
# An engine and its restriction to some sessions

A run and the same run without the calls of some sessions. `Restricts` relates the two engines: the
kept sessions' part of the `orders_` map is the other engine's whole map, up to a renaming of
engine ids. Each call either involves a kept session, and then both engines make a related step with
the same reports up to renaming, or it does not, and then it is invisible to the kept ones
(`Restricts.step_kept`, `Restricts.step_dropped`). The renamings grow along the run: a later one
agrees with an earlier one on every id handed out by then.
-/

namespace MarketMaker

/-- Rename the ids of a report. -/
def OutMsg.rename (ρ σ : ℕ → ℕ) : OutMsg → OutMsg
  | .tob m => .tob m
  | .orderAck m => .orderAck { m with engId := ρ m.engId }
  | .cancelAck m => .cancelAck { m with engId := ρ m.engId }
  | .reject m => .reject m
  | .fill m => .fill { m with engId := ρ m.engId, execId := σ m.execId }

/-- Rename the id of an accepted order; a tombstone has none. -/
def Order.rename (ρ : ℕ → ℕ) (ord : Order) : Order :=
  if ord.st = .rejected then ord else { ord with engId := ρ ord.engId }

/-- Rename the ids of a routed report. -/
def Routed.rename (ρ σ : ℕ → ℕ) (r : Routed) : Routed := { r with msg := r.msg.rename ρ σ }

namespace OrderEngine

/-- The call is a book, or a call of a kept session. -/
def involves (keep : ℕ → Bool) : Call → Bool
  | .onNew session _ => keep session
  | .onCancel session _ => keep session
  | .onBook _ => true
  | .endSession session => keep session

/-- The reports of a batch for the kept sessions. -/
def reportsIn (keep : ℕ → Bool) (out : List Routed) : List Routed :=
  out.filter fun r => keep r.session

/-- What the kept sessions see of a history: the calls that involve them, each with its reports for
them. -/
def keptView (keep : ℕ → Bool) (history : List (Call × List Routed)) : List (Call × List Routed) :=
  (history.filter fun p => involves keep p.1).map fun p => (p.1, reportsIn keep p.2)

variable {cfg : EngineConfig} {keep : ℕ → Bool} {ρ ρ' σ σ' : ℕ → ℕ} {e e₁ e₂ : OrderEngine}

/-! ## Renamed orders -/

@[simp]
theorem st_rename (ord : Order) : (ord.rename ρ).st = ord.st := by
  unfold Order.rename
  split_ifs <;> rfl

@[simp]
theorem side_rename (ord : Order) : (ord.rename ρ).side = ord.side := by
  unfold Order.rename
  split_ifs <;> rfl

@[simp]
theorem px_rename (ord : Order) : (ord.rename ρ).px = ord.px := by
  unfold Order.rename
  split_ifs <;> rfl

@[simp]
theorem leaves_rename (ord : Order) : (ord.rename ρ).leaves = ord.leaves := by
  unfold Order.rename
  split_ifs <;> rfl

theorem engId_rename {ord : Order} (h : ord.st ≠ .rejected) :
    (ord.rename ρ).engId = ρ ord.engId := by
  rw [Order.rename, if_neg h]

theorem rename_congr {ord : Order} (h : ord.st ≠ .rejected → ρ' ord.engId = ρ ord.engId) :
    ord.rename ρ' = ord.rename ρ := by
  unfold Order.rename
  split_ifs with hst
  · rfl
  · rw [h hst]

/-- Whether and how much a book fills does not depend on the id. -/
@[simp]
theorem isFilled_rename (book : Book) (ord : Order) :
    isFilled cfg book (ord.rename ρ) = isFilled cfg book ord := by
  simp [isFilled]

@[simp]
theorem fillQty_rename (book : Book) (ord : Order) :
    fillQty book (ord.rename ρ) = fillQty book ord := by
  simp [fillQty]

theorem swept_rename (book : Book) (ord : Order) :
    swept cfg book (ord.rename ρ) = (swept cfg book ord).rename ρ := by
  by_cases hfill : isFilled cfg book ord = true
  · have hlive := st_of_isFilled hfill
    rw [swept_of_isFilled hfill, swept_of_isFilled (by rwa [isFilled_rename])]
    simp only [Order.rename, hlive, reduceCtorEq, ↓reduceIte, fillQty]
    split_ifs <;> simp_all
  · rw [swept_of_not_isFilled hfill, swept_of_not_isFilled (by rwa [isFilled_rename])]

/-! ## The relation between the two engines -/

/-- `e₁` has seen every call and `e₂` only those that involve a kept session. -/
structure Restricts (cfg : EngineConfig) (keep : ℕ → Bool) (ρ σ : ℕ → ℕ)
    (e₁ e₂ : OrderEngine) : Prop where
  inv₁ : Inv cfg e₁
  inv₂ : Inv cfg e₂
  book : e₁.book = e₂.book
  bookSeen : e₁.bookSeen = e₂.bookSeen
  eng : Renumbers e₂.nextEngId e₁.nextEngId ρ
  exec : Renumbers e₂.nextExecId e₁.nextExecId σ
  own : ∀ k, keep k.session = true → e₁.orders.find? k = (e₂.orders.find? k).map (Order.rename ρ)
  alone : ∀ k, keep k.session = false → e₂.orders.find? k = none

theorem restricts_init (cfg : EngineConfig) (keep : ℕ → Bool) : Restricts cfg keep id id {} {} :=
  ⟨inv_init cfg, inv_init cfg, rfl, rfl, .id 1, .id 1, fun _ _ => rfl, fun _ _ => rfl⟩

namespace Restricts

/-- The kept part of the map is the other engine's map. -/
theorem filter_orders (h : Restricts cfg keep ρ σ e₁ e₂) :
    (e₁.orders.filter fun k _ => keep k.session) =
      e₂.orders.mapVal fun _ ord => ord.rename ρ := by
  refine OrderedMap.ext_find? fun k => ?_
  rw [OrderedMap.find?_filter, OrderedMap.find?_mapVal]
  cases hk : keep k.session with
  | true =>
    rw [h.own k hk]
    cases e₂.orders.find? k <;> simp
  | false => simp [h.alone k hk]

theorem filter_toList (h : Restricts cfg keep ρ σ e₁ e₂) :
    (e₁.orders.toList.filter fun p => keep p.1.session) =
      e₂.orders.toList.map fun p => (p.1, p.2.rename ρ) :=
  congrArg OrderedMap.toList h.filter_orders

theorem kept (h : Restricts cfg keep ρ σ e₁ e₂) {k : OrderKey} {ord : Order}
    (hord : e₂.orders.find? k = some ord) : keep k.session = true := by
  by_contra hdropped
  rw [h.alone k (Bool.eq_false_iff.mpr hdropped)] at hord
  cases hord

/-- The live cap of a kept session counts the same orders. -/
theorem liveCount (h : Restricts cfg keep ρ σ e₁ e₂) {s : ℕ} (hs : keep s = true) :
    e₁.liveCount s = e₂.liveCount s := by
  rw [liveCount_eq h.inv₁.indexed, liveCount_eq h.inv₂.indexed]
  have hcount : e₁.liveTotal s =
      (e₁.orders.filter fun k _ => keep k.session).count
        fun k o => decide (k.session = s ∧ o.st = .live) := by
    rw [OrderedMap.count_filter]
    refine OrderedMap.count_congr fun k o _ => ?_
    by_cases hk : k.session = s
    · simp [hk, hs]
    · simp [hk]
  rw [hcount, h.filter_orders, OrderedMap.count_mapVal]
  exact OrderedMap.count_congr fun k o _ => by simp

theorem isDuplicate (h : Restricts cfg keep ρ σ e₁ e₂) {s : ℕ} (hs : keep s = true)
    (clId : Bytes) : e₁.isDuplicate s clId = e₂.isDuplicate s clId := by
  rw [Bool.eq_iff_iff, isDuplicate_iff, isDuplicate_iff, h.own _ hs]
  cases e₂.orders.find? ⟨s, clId⟩ <;> simp

/-- A book fills the same orders of the kept sessions on both sides. -/
theorem filter_filledBy (h : Restricts cfg keep ρ σ e₁ e₂) (book : Book) :
    ((filledBy cfg book e₁.orders).filter fun p => keep p.1.session) =
      (filledBy cfg book e₂.orders).map fun p => (p.1, p.2.rename ρ) := by
  have hside : ∀ side, ((filledOn cfg book e₁.orders side).filter fun p => keep p.1.session) =
      (filledOn cfg book e₂.orders side).map fun p => (p.1, p.2.rename ρ) := by
    intro side
    rw [filledOn, List.filter_comm, h.filter_toList, List.filter_map, filledOn]
    congr 1
    refine List.filter_congr fun p _ => ?_
    simp
  rw [filledBy, List.filter_append, hside, hside, filledBy, List.map_append]

end Restricts

/-! ## Reports -/

theorem reportsIn_routeTo_of_kept {s : ℕ} (hs : keep s = true) (msgs : List OutMsg) :
    reportsIn keep (msgs.map fun m => ⟨s, m⟩) = msgs.map fun m => ⟨s, m⟩ := by
  rw [reportsIn, List.filter_eq_self]
  intro r hr
  obtain ⟨m, -, rfl⟩ := List.mem_map.mp hr
  exact hs

theorem map_session_fillsFrom (cfg : EngineConfig) (book : Book) (n : ℕ)
    (l : List (OrderKey × Order)) :
    (fillsFrom cfg book n l).map Routed.session = l.map fun p => p.1.session := by
  induction l generalizing n with
  | nil => rfl
  | cons p l ih => rw [fillsFrom, List.map_cons, List.map_cons, ih]

/-- Two numbered batches: the kept orders of the left one are the right one. Its kept fills are
those of the right one up to a renaming of `exec_id`s that extends the given one, and is the given
one if all orders are kept. -/
theorem exists_renaming_fillsFrom (cfg : EngineConfig) (book : Book)
    (l₁ l₂ : List (OrderKey × Order)) {n₁ n₂ : ℕ} (hσ : Renumbers n₂ n₁ σ)
    (hl : (l₁.filter fun p => keep p.1.session) = l₂.map fun p => (p.1, p.2.rename ρ))
    (hst : ∀ p ∈ l₂, p.2.st ≠ .rejected) :
    ∃ σ', Renumbers (n₂ + l₂.length) (n₁ + l₁.length) σ' ∧ Set.EqOn σ σ' (Set.Iio n₂) ∧
      ((∀ p ∈ l₁, keep p.1.session = true) → σ' = σ) ∧
      reportsIn keep (fillsFrom cfg book n₁ l₁) =
        (reportsIn keep (fillsFrom cfg book n₂ l₂)).map (Routed.rename ρ σ') := by
  induction l₁ generalizing l₂ n₁ n₂ σ with
  | nil =>
    have hnil : l₂ = [] := by simpa using hl.symm
    subst hnil
    exact ⟨σ, hσ, Set.eqOn_refl _ _, fun _ => rfl, rfl⟩
  | cons p l₁ ih =>
    obtain ⟨k, o⟩ := p
    cases hk : keep k.session with
    | true =>
      rw [List.filter_cons_of_pos (by simpa using hk)] at hl
      -- a kept order: both batches number it
      cases l₂ with
      | nil => cases hl
      | cons q l₂ =>
        obtain ⟨k₂, o₂⟩ := q
        rw [List.map_cons, List.cons.injEq, Prod.mk.injEq] at hl
        obtain ⟨⟨rfl, rfl⟩, hl⟩ := hl
        obtain ⟨σ', hσ', hext, hall, hout⟩ :=
          ih l₂ hσ.keep hl fun p hp => hst p (List.mem_cons_of_mem _ hp)
        refine ⟨σ', ?_, fun i hi => hext (Nat.lt_succ_of_lt hi),
          fun h => hall fun p hp => h p (List.mem_cons_of_mem _ hp), ?_⟩
        · simpa [Nat.add_assoc, Nat.add_comm 1] using hσ'
        · have hn : σ' n₂ = n₁ := by
            rw [← hext (Nat.lt_succ_self n₂), hσ.apply_next]
          have heng := engId_rename (ρ := ρ) (hst (k, o₂) List.mem_cons_self)
          simp only [reportsIn] at hout
          simp [reportsIn, fillsFrom, hk, hout, fillOf, Routed.rename, OutMsg.rename, hn, heng]
    | false =>
      rw [List.filter_cons_of_neg (by simpa using hk)] at hl
      -- a dropped order: only the left batch numbers it
      obtain ⟨σ', hσ', hext, -, hout⟩ := ih l₂ hσ.skip hl hst
      refine ⟨σ', ?_, (Renumbers.eqOn_skipAt n₂ σ).trans hext, fun h => ?_, ?_⟩
      · simpa [Nat.add_assoc, Nat.add_comm 1] using hσ'
      · have hkept := h (k, o) List.mem_cons_self
        rw [hk] at hkept
        cases hkept
      · rw [← hout]
        simp [reportsIn, fillsFrom, hk]

/-! ## Calls of dropped sessions -/

namespace Restricts

/-- A step of `e₁` alone that leaves the kept orders and the book as they are. -/
private theorem of_frame (h : Restricts cfg keep ρ σ e₁ e₂) {e₁' : OrderEngine} (hinv : Inv cfg e₁')
    (hbook : e₁'.book = e₁.book) (hseen : e₁'.bookSeen = e₁.bookSeen)
    (heng : e₁'.nextEngId = e₁.nextEngId) (hexec : e₁'.nextExecId = e₁.nextExecId)
    (hown : ∀ k, keep k.session = true → e₁'.orders.find? k = e₁.orders.find? k) :
    Restricts cfg keep ρ σ e₁' e₂ where
  inv₁ := hinv
  inv₂ := h.inv₂
  book := hbook.trans h.book
  bookSeen := hseen.trans h.bookSeen
  eng := by rw [heng]; exact h.eng
  exec := by rw [hexec]; exact h.exec
  own k hk := by rw [hown k hk, h.own k hk]
  alone := h.alone

/-- A renaming that agrees on all ids handed out so far renames the stored orders the same way. -/
private theorem map_rename (h : Restricts cfg keep ρ σ e₁ e₂)
    (hext : Set.EqOn ρ ρ' (Set.Iio e₂.nextEngId)) (k : OrderKey) :
    (e₂.orders.find? k).map (Order.rename ρ') = (e₂.orders.find? k).map (Order.rename ρ) := by
  cases hord : e₂.orders.find? k with
  | none => rfl
  | some ord =>
    rw [Option.map_some, Option.map_some, rename_congr fun hst => ?_]
    exact (hext (h.inv₂.engId k ord hord hst).2).symm

/-- A call of a dropped session is invisible; an accept of it consumes an engine id. -/
theorem step_dropped (h : Restricts cfg keep ρ σ e₁ e₂) {call : Call}
    (hdropped : involves keep call = false) :
    ∃ ρ', Set.EqOn ρ ρ' (Set.Iio e₂.nextEngId) ∧
      Restricts cfg keep ρ' σ (OrderEngine.step cfg e₁ call).1 e₂ := by
  have hinv := inv_step h.inv₁ call
  -- a kept key is none of a dropped session
  have hkey : ∀ (session : ℕ) (clId : Bytes), keep session = false →
      ∀ k : OrderKey, keep k.session = true → k ≠ ⟨session, clId⟩ := by
    rintro session clId hsession k hk rfl
    rw [hsession] at hk
    cases hk
  cases call with
  | onNew session order =>
    have hkey := hkey session order.clId hdropped
    have hspec := onNew_spec cfg e₁ session order
    simp only [OrderEngine.step, routeTo] at hinv ⊢
    generalize onNew cfg e₁ session order = r at hspec hinv
    cases hspec with
    | duplicate _ => exact ⟨ρ, Set.eqOn_refl _ _, h⟩
    | rejected _ _ _ =>
      refine ⟨ρ, Set.eqOn_refl _ _, h.of_frame hinv rfl rfl rfl rfl fun k hk => ?_⟩
      exact OrderedMap.find?_insert_of_ne _ _ (hkey k hk)
    | accepted side _ _ _ _ =>
      have hext := Renumbers.eqOn_skipAt e₂.nextEngId ρ
      refine ⟨_, hext, ⟨hinv, h.inv₂, ?_, ?_, h.eng.skip, ?_, fun k hk => ?_, h.alone⟩⟩
      · simpa [recordAccept] using h.book
      · simpa [recordAccept] using h.bookSeen
      · simpa [recordAccept] using h.exec
      · rw [orders_recordAccept, OrderedMap.find?_insert_of_ne _ _ (hkey k hk), h.own k hk,
          h.map_rename hext]
  | onCancel session cancel =>
    refine ⟨ρ, Set.eqOn_refl _ _, ?_⟩
    have hspec := onCancel_spec e₁ session cancel
    simp only [OrderEngine.step, routeTo] at hinv ⊢
    generalize onCancel e₁ session cancel = r at hspec hinv
    cases hspec with
    | unknown _ => exact h
    | terminal _ _ => exact h
    | cancelled _ _ =>
      refine h.of_frame hinv (by simp [recordCancel]) (by simp [recordCancel])
        (by simp [recordCancel]) (by simp [recordCancel]) fun k hk => ?_
      rw [orders_recordCancel, OrderedMap.find?_modify, if_neg (hkey _ _ hdropped k hk)]
  | onBook book => cases hdropped
  | endSession session =>
    refine ⟨ρ, Set.eqOn_refl _ _, ?_⟩
    refine h.of_frame hinv rfl rfl rfl rfl fun k hk => ?_
    change (eraseSession e₁.orders session).find? k = _
    rw [find?_eraseSession, if_neg]
    rintro rfl
    have hsession : keep k.session = false := hdropped
    rw [hk] at hsession
    cases hsession

end Restricts

/-! ## Calls of kept sessions -/

namespace Restricts

private theorem ne_of_dropped {s : ℕ} {clId : Bytes} {k : OrderKey} (hs : keep s = true)
    (hk : keep k.session = false) : k ≠ ⟨s, clId⟩ := by
  rintro rfl
  rw [hs] at hk
  cases hk

/-- `on_new` of a kept session: the same decision on both sides. -/
private theorem onNew_kept (h : Restricts cfg keep ρ σ e₁ e₂) {s : ℕ} (hs : keep s = true)
    (order : NewOrder)
    (hinv₁ : Inv cfg (onNew cfg e₁ s order).1) (hinv₂ : Inv cfg (onNew cfg e₂ s order).1) :
    Restricts cfg keep ρ σ (onNew cfg e₁ s order).1 (onNew cfg e₂ s order).1 ∧
      (onNew cfg e₁ s order).2 = (onNew cfg e₂ s order).2.map (OutMsg.rename ρ σ) := by
  rw [onNew_eq] at hinv₁ hinv₂ ⊢
  rw [onNew_eq cfg e₂]
  rw [h.isDuplicate hs, h.liveCount hs, h.book] at hinv₁ ⊢
  generalize decideNew cfg (e₂.isDuplicate s order.clId) (e₂.liveCount s) e₂.book order = d
    at hinv₁ hinv₂ ⊢
  cases d with
  | duplicate => exact ⟨h, rfl⟩
  | impossible => exact ⟨h, rfl⟩
  | reject code reason =>
    refine ⟨⟨hinv₁, hinv₂, h.book, h.bookSeen, h.eng, h.exec, fun k hk => ?_, fun k hk => ?_⟩, rfl⟩
    · simp only [applyDecision, recordReject, OrderedMap.find?_insert]
      split_ifs
      · rfl
      · exact h.own k hk
    · simp only [applyDecision, recordReject, OrderedMap.find?_insert]
      rw [if_neg (ne_of_dropped hs hk), h.alone k hk]
  | accept side =>
    refine ⟨⟨hinv₁, hinv₂, ?_, ?_, h.eng.keep, ?_, fun k hk => ?_, fun k hk => ?_⟩, ?_⟩
    · simpa [applyDecision, recordAccept] using h.book
    · simpa [applyDecision, recordAccept] using h.bookSeen
    · simpa [applyDecision, recordAccept] using h.exec
    · simp only [applyDecision, orders_recordAccept, OrderedMap.find?_insert]
      split_ifs
      · simp [acceptedOrder, Order.rename, h.eng.apply_next]
      · exact h.own k hk
    · simp only [applyDecision, orders_recordAccept, OrderedMap.find?_insert]
      rw [if_neg (ne_of_dropped hs hk), h.alone k hk]
    · simp [applyDecision, recordAccept, OutMsg.rename, h.eng.apply_next]

/-- `on_cancel` of a kept session: the order stored at the key is the same up to its id. -/
private theorem onCancel_kept (h : Restricts cfg keep ρ σ e₁ e₂) {s : ℕ} (hs : keep s = true)
    (cancel : CancelOrder)
    (hinv₁ : Inv cfg (onCancel e₁ s cancel).1) (hinv₂ : Inv cfg (onCancel e₂ s cancel).1) :
    Restricts cfg keep ρ σ (onCancel e₁ s cancel).1 (onCancel e₂ s cancel).1 ∧
      (onCancel e₁ s cancel).2 = (onCancel e₂ s cancel).2.map (OutMsg.rename ρ σ) := by
  have hfind₁ := h.own ⟨s, cancel.clId⟩ hs
  unfold onCancel at hinv₁ hinv₂ ⊢
  rw [hfind₁] at hinv₁ ⊢
  cases hfind : e₂.orders.find? ⟨s, cancel.clId⟩ with
  | none => exact ⟨h, rfl⟩
  | some ord =>
    simp only [hfind, Option.map_some, st_rename] at hinv₁ hinv₂ ⊢
    by_cases hst : ord.st = .live
    · simp only [hst, ne_eq, not_true_eq_false, ↓reduceIte] at hinv₁ hinv₂ ⊢
      have hrej : ord.st ≠ .rejected := by simp [hst]
      refine ⟨⟨hinv₁, hinv₂, ?_, ?_, ?_, ?_, fun k hk => ?_, fun k hk => ?_⟩, ?_⟩
      · simpa [recordCancel] using h.book
      · simpa [recordCancel] using h.bookSeen
      · simpa [recordCancel] using h.eng
      · simpa [recordCancel] using h.exec
      · rw [orders_recordCancel, orders_recordCancel, OrderedMap.find?_modify,
          OrderedMap.find?_modify]
        split_ifs with hkey
        · subst hkey
          rw [hfind₁, hfind]
          simp [Order.rename, hst]
        · exact h.own k hk
      · rw [orders_recordCancel, OrderedMap.find?_modify, h.alone k hk]
        split_ifs <;> rfl
      · simp [recordCancel, OutMsg.rename, engId_rename hrej]
    · simp only [hst, ne_eq, not_false_eq_true, ↓reduceIte] at hinv₁ hinv₂ ⊢
      exact ⟨h, rfl⟩

/-- A book: the kept orders trade alike, and their fills are renumbered. -/
private theorem onBook_kept (h : Restricts cfg keep ρ σ e₁ e₂) (book : Book)
    (hinv₁ : Inv cfg (onBook cfg e₁ book).1) (hinv₂ : Inv cfg (onBook cfg e₂ book).1) :
    ∃ σ', Set.EqOn σ σ' (Set.Iio e₂.nextExecId) ∧
      ((∀ r ∈ (onBook cfg e₁ book).2, ∀ m, r.msg = .fill m → keep r.session = true) → σ' = σ) ∧
      Restricts cfg keep ρ σ' (onBook cfg e₁ book).1 (onBook cfg e₂ book).1 ∧
      reportsIn keep (onBook cfg e₁ book).2 =
        (reportsIn keep (onBook cfg e₂ book).2).map (Routed.rename ρ σ') := by
  have hsame : e₁.isFresh book ↔ e₂.isFresh book := by
    rw [isFresh, isFresh, h.book, h.bookSeen]
  by_cases hfresh : e₂.isFresh book
  · obtain ⟨hi₁, hout₁⟩ := onBook_of_fresh cfg h.inv₁.indexed (hsame.mpr hfresh)
    obtain ⟨hi₂, hout₂⟩ := onBook_of_fresh cfg h.inv₂.indexed hfresh
    obtain ⟨σ', hσ', hext, hall, hreports⟩ := exists_renaming_fillsFrom cfg book
      _ _ h.exec (h.filter_filledBy book) fun p hp hrej => by
        have := st_of_isFilled (mem_filledBy.mp hp).2
        rw [hrej] at this
        cases this
    refine ⟨σ', hext, fun hkept => hall fun p hp => ?_, ⟨hinv₁, hinv₂,
      hi₁.book.trans hi₂.book.symm, hi₁.bookSeen.trans hi₂.bookSeen.symm, ?_, ?_, fun k hk => ?_,
      fun k hk => ?_⟩, ?_⟩
    · -- the sessions of the fills are the sessions of the filled orders
      have hmem : p.1.session ∈ (onBook cfg e₁ book).2.map Routed.session := by
        rw [hout₁, map_session_fillsFrom]
        exact List.mem_map.mpr ⟨p, hp, rfl⟩
      obtain ⟨r, hr, hsession⟩ := List.mem_map.mp hmem
      obtain ⟨⟨m, hfill⟩, -⟩ := mem_onBook h.inv₁.indexed hr
      exact hsession ▸ hkept r hr m hfill
    · rw [hi₁.nextEngId, hi₂.nextEngId]
      exact h.eng
    · rw [hi₁.nextExecId, hi₂.nextExecId]
      exact hσ'
    · rw [hi₁.find?, hi₂.find?, h.own k hk]
      cases e₂.orders.find? k with
      | none => rfl
      | some ord => simp [swept_rename]
    · rw [hi₂.find?, h.alone k hk]
      rfl
    · rw [hout₁, hout₂, hreports]
  · rw [onBook_of_not_fresh hfresh] at hinv₂ ⊢
    rw [onBook_of_not_fresh (mt hsame.mp hfresh)] at hinv₁ ⊢
    exact ⟨σ, Set.eqOn_refl _ _, fun _ => rfl,
      ⟨hinv₁, hinv₂, h.book, h.bookSeen, h.eng, h.exec, h.own, h.alone⟩, rfl⟩

/-- The acks of a reaped session are the acks on the other side. -/
private theorem sessionAcks_kept (h : Restricts cfg keep ρ σ e₁ e₂) {s : ℕ} (hs : keep s = true) :
    e₁.sessionAcks s = (e₂.sessionAcks s).map (OutMsg.rename ρ σ) := by
  have hlist : (e₁.orders.toList.filter fun p => p.1.session = s) =
      (e₂.orders.toList.filter fun p => p.1.session = s).map fun p => (p.1, p.2.rename ρ) := by
    have hkept : (e₁.orders.toList.filter fun p => p.1.session = s) =
        (e₁.orders.toList.filter fun p => keep p.1.session).filter fun p => p.1.session = s := by
      rw [List.filter_filter]
      refine List.filter_congr fun p _ => ?_
      by_cases hp : p.1.session = s
      · simp [hp, hs]
      · simp [hp]
    rw [hkept, h.filter_toList, List.filter_map]
    rfl
  simp only [sessionAcks, sessionRange_eq_filter]
  rw [hlist, List.filterMap_map, List.map_filterMap]
  refine List.filterMap_congr fun p _ => ?_
  by_cases hst : p.2.st = .live
  · have hrej : p.2.st ≠ .rejected := by simp [hst]
    simp [hst, engId_rename hrej, OutMsg.rename]
  · simp [hst]

/-- `end_session` of a kept session: the same live orders are acked and nothing is left. -/
private theorem endSession_kept (h : Restricts cfg keep ρ σ e₁ e₂) {s : ℕ} (hs : keep s = true)
    (hinv₁ : Inv cfg (endSession e₁ s).1) (hinv₂ : Inv cfg (endSession e₂ s).1) :
    Restricts cfg keep ρ σ (endSession e₁ s).1 (endSession e₂ s).1 ∧
      (endSession e₁ s).2 = (endSession e₂ s).2.map (OutMsg.rename ρ σ) := by
  refine ⟨⟨hinv₁, hinv₂, h.book, h.bookSeen, h.eng, h.exec, fun k hk => ?_, fun k hk => ?_⟩,
    h.sessionAcks_kept hs⟩
  · rw [orders_endSession, orders_endSession, find?_eraseSession, find?_eraseSession]
    split_ifs
    · rfl
    · exact h.own k hk
  · rw [orders_endSession, find?_eraseSession, h.alone k hk]
    split_ifs <;> rfl

/-- Direct replies to a kept session that are related are related as a batch. -/
private theorem reportsIn_routeTo {s : ℕ} (hs : keep s = true) {msgs₁ msgs₂ : List OutMsg}
    (hout : msgs₁ = msgs₂.map (OutMsg.rename ρ σ)) :
    reportsIn keep (msgs₁.map fun m => (⟨s, m⟩ : Routed)) =
      (reportsIn keep (msgs₂.map fun m => (⟨s, m⟩ : Routed))).map (Routed.rename ρ σ) := by
  rw [reportsIn_routeTo_of_kept hs, reportsIn_routeTo_of_kept hs, hout, List.map_map, List.map_map]
  rfl

/-- A call that involves a kept session is answered alike on both sides. The renaming of `exec_id`s
does not change if no dropped session is filled. -/
theorem step_kept (h : Restricts cfg keep ρ σ e₁ e₂) {call : Call}
    (hkept : involves keep call = true) :
    ∃ σ', Set.EqOn σ σ' (Set.Iio e₂.nextExecId) ∧
      ((∀ r ∈ (OrderEngine.step cfg e₁ call).2, ∀ m, r.msg = .fill m → keep r.session = true) →
        σ' = σ) ∧
      Restricts cfg keep ρ σ' (OrderEngine.step cfg e₁ call).1 (OrderEngine.step cfg e₂ call).1 ∧
      reportsIn keep (OrderEngine.step cfg e₁ call).2 =
        (reportsIn keep (OrderEngine.step cfg e₂ call).2).map (Routed.rename ρ σ') := by
  have hinv₁ := inv_step h.inv₁ call
  have hinv₂ := inv_step h.inv₂ call
  cases call with
  | onNew session order =>
    obtain ⟨hsim, hout⟩ := h.onNew_kept hkept order hinv₁ hinv₂
    exact ⟨σ, Set.eqOn_refl _ _, fun _ => rfl, hsim, reportsIn_routeTo hkept hout⟩
  | onCancel session cancel =>
    obtain ⟨hsim, hout⟩ := h.onCancel_kept hkept cancel hinv₁ hinv₂
    exact ⟨σ, Set.eqOn_refl _ _, fun _ => rfl, hsim, reportsIn_routeTo hkept hout⟩
  | onBook book => exact h.onBook_kept book hinv₁ hinv₂
  | endSession session =>
    obtain ⟨hsim, hout⟩ := h.endSession_kept hkept hinv₁ hinv₂
    exact ⟨σ, Set.eqOn_refl _ _, fun _ => rfl, hsim, reportsIn_routeTo hkept hout⟩

end Restricts

/-! ## Whole runs -/

/-- The ids of a report have been handed out. -/
def idsBelow (n m : ℕ) : OutMsg → Prop
  | .orderAck ack => ack.engId < n
  | .cancelAck ack => ack.engId < n
  | .fill fill => fill.engId < n ∧ fill.execId < m
  | _ => True

theorem OutMsg.rename_congr {n m : ℕ} {msg : OutMsg} (h : idsBelow n m msg)
    (hρ : Set.EqOn ρ ρ' (Set.Iio n)) (hσ : Set.EqOn σ σ' (Set.Iio m)) :
    msg.rename ρ σ = msg.rename ρ' σ' := by
  cases msg with
  | tob _ => rfl
  | reject _ => rfl
  | orderAck ack => simp only [OutMsg.rename, hρ (Set.mem_Iio.mpr h)]
  | cancelAck ack => simp only [OutMsg.rename, hρ (Set.mem_Iio.mpr h)]
  | fill fill => simp only [OutMsg.rename, hρ (Set.mem_Iio.mpr h.1), hσ (Set.mem_Iio.mpr h.2)]

private theorem idsBelow_fillsFrom {book : Book} {n : ℕ} (m : ℕ) (l : List (OrderKey × Order))
    (hl : ∀ p ∈ l, p.2.engId < n) :
    ∀ r ∈ fillsFrom cfg book m l, idsBelow n (m + l.length) r.msg := by
  induction l generalizing m with
  | nil => simp [fillsFrom]
  | cons p l ih =>
    intro r hr
    rcases List.mem_cons.mp hr with rfl | hr
    · exact ⟨hl p List.mem_cons_self, by simp [fillOf]⟩
    · have := ih (m + 1) (fun q hq => hl q (List.mem_cons_of_mem _ hq)) r hr
      rwa [List.length_cons, show m + (l.length + 1) = m + 1 + l.length by omega]

/-- A call reports only ids handed out by its end. -/
theorem idsBelow_step (h : Inv cfg e) (call : Call) :
    ∀ r ∈ (step cfg e call).2,
      idsBelow (step cfg e call).1.nextEngId (step cfg e call).1.nextExecId r.msg := by
  cases call with
  | onNew session order =>
    have hspec := onNew_spec cfg e session order
    simp only [step, routeTo]
    generalize onNew cfg e session order = r at hspec
    cases hspec with
    | duplicate _ => simp [idsBelow]
    | rejected _ _ _ => simp [recordReject, idsBelow]
    | accepted _ _ _ _ _ => simp [recordAccept, idsBelow]
  | onCancel session cancel =>
    have hspec := onCancel_spec e session cancel
    simp only [step, routeTo]
    generalize onCancel e session cancel = r at hspec
    cases hspec with
    | unknown _ => simp [idsBelow]
    | terminal _ _ => simp [idsBelow]
    | cancelled used live =>
      have := (h.engId _ _ used (by simp [live])).2
      simpa [recordCancel, idsBelow] using this
  | onBook book =>
    simp only [step]
    by_cases hfresh : e.isFresh book
    · obtain ⟨hi, hout⟩ := onBook_of_fresh cfg h.indexed hfresh
      rw [hi.nextEngId, hi.nextExecId, hout]
      refine idsBelow_fillsFrom _ _ fun p hp => ?_
      obtain ⟨hord, hfill⟩ := mem_filledBy.mp hp
      exact (h.engId _ _ hord (by simp [st_of_isFilled hfill])).2
    · rw [onBook_of_not_fresh hfresh]
      simp
  | endSession session =>
    intro r hr
    simp only [step, routeTo, endSession, sessionAcks, sessionRange_eq_filter, List.mem_map,
      List.mem_filterMap, List.mem_filter] at hr
    obtain ⟨msg, ⟨p, ⟨hmem, -⟩, hmsg⟩, rfl⟩ := hr
    split_ifs at hmsg with hst
    cases hmsg
    have hst : p.2.st = .live := by simpa using hst
    exact (h.engId _ _ (OrderedMap.find?_eq_some_iff.mpr hmem) (by simp [hst])).2

/-- Ids are only handed out, never taken back. -/
theorem ids_le_step (h : Inv cfg e) (call : Call) :
    e.nextEngId ≤ (step cfg e call).1.nextEngId ∧
      e.nextExecId ≤ (step cfg e call).1.nextExecId := by
  obtain ⟨n, -, hexec⟩ := execIds_step cfg h.indexed call
  rcases ackIds_step cfg h.indexed call with ⟨-, heng⟩ | ⟨-, heng⟩ <;> omega

theorem keptView_cons (call : Call) (out : List Routed) (history : List (Call × List Routed)) :
    keptView keep ((call, out) :: history) =
      if involves keep call then (call, reportsIn keep out) :: keptView keep history
      else keptView keep history := by
  unfold keptView
  split_ifs with hc <;> simp [hc]

/-- Related engines stay related along a run, under renamings that extend the given ones. -/
theorem Restricts.run (h : Restricts cfg keep ρ σ e₁ e₂) (calls : List Call) :
    let r₁ := Mealy.run (step cfg) e₁ calls
    let r₂ := Mealy.run (step cfg) e₂ (calls.filter (involves keep))
    ∃ ρ' σ', Restricts cfg keep ρ' σ' r₁.1 r₂.1 ∧
      Set.EqOn ρ ρ' (Set.Iio e₂.nextEngId) ∧ Set.EqOn σ σ' (Set.Iio e₂.nextExecId) ∧
      ((∀ p ∈ r₁.2, ∀ r ∈ p.2, ∀ m, r.msg = .fill m → keep r.session = true) → σ' = σ) ∧
      keptView keep r₁.2 =
        (keptView keep r₂.2).map fun p => (p.1, p.2.map (Routed.rename ρ' σ')) := by
  induction calls generalizing ρ σ e₁ e₂ with
  | nil => exact ⟨ρ, σ, h, Set.eqOn_refl _ _, Set.eqOn_refl _ _, fun _ => rfl, rfl⟩
  | cons call calls ih =>
    cases hc : involves keep call with
    | true =>
      obtain ⟨σ₁, hσ₁, hfill₁, hsim, hout⟩ := h.step_kept hc
      obtain ⟨ρ', σ', hlast, hρ', hσ', hfill', hview⟩ := ih hsim
      obtain ⟨heng, hexec⟩ := ids_le_step h.inv₂ call
      rw [List.filter_cons_of_pos hc]
      refine ⟨ρ', σ', hlast, hρ'.mono fun _ hi => lt_of_lt_of_le hi heng,
        hσ₁.trans (hσ'.mono fun _ hi => lt_of_lt_of_le hi hexec), fun hkept => ?_, ?_⟩
      · rw [hfill' fun p hp => hkept p (List.mem_cons_of_mem _ hp),
          hfill₁ (hkept _ List.mem_cons_self)]
      · -- the reports of this call name ids on which the later renamings agree
        have hhead : reportsIn keep (step cfg e₁ call).2 =
            (reportsIn keep (step cfg e₂ call).2).map (Routed.rename ρ' σ') := by
          rw [hout]
          refine List.map_congr_left fun r hr => ?_
          have hids := idsBelow_step h.inv₂ call r (List.mem_filter.mp hr).1
          rw [Routed.rename, OutMsg.rename_congr hids hρ' hσ', Routed.rename]
        simp only [Mealy.run, keptView_cons, hc, ↓reduceIte, List.map_cons, hview, hhead]
    | false =>
      obtain ⟨ρ₁, hρ₁, hsim⟩ := h.step_dropped hc
      obtain ⟨ρ', σ', hlast, hρ', hσ', hfill', hview⟩ := ih hsim
      rw [List.filter_cons_of_neg (by simp [hc])]
      refine ⟨ρ', σ', hlast, hρ₁.trans hρ', hσ', fun hkept => ?_, ?_⟩
      · exact hfill' fun p hp => hkept p (List.mem_cons_of_mem _ hp)
      · simpa [Mealy.run, keptView_cons, hc] using hview

end OrderEngine

end MarketMaker
