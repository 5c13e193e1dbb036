import MarketMaker.Engine.Sweep

/-!
# The engine invariant

`Inv` ties the four containers of the engine together and bounds what they store. It is stated
through lookups in `orders_`, so each entry point is checked one key at a time:

* the live indexes hold exactly the live orders (`Indexed`);
* a session's counter node is its number of keys, and there is no node for a session without keys;
* no session has more than `max_live_orders` live orders;
* a live order has a positive remainder and a price in range;
* accepted orders have distinct `eng_id`s below `next_eng_id_`.

`OnNew` is the inversion of `on_new`: every outcome with the facts its checks established. Later
modules use it and never unfold `onNew`.
-/

namespace MarketMaker

namespace OrderEngine

variable {cfg : EngineConfig} {e : OrderEngine} {session : ℕ}

/-! ## Session ranges -/

/-- The floor of a session is below its keys. -/
private theorem sessionFloor_le {k : OrderKey} (h : k.session = session) :
    sessionFloor session ≤ k := by
  rw [OrderKey.le_iff]
  refine Or.inr ⟨h.symm, ?_⟩
  rw [← not_lt]
  exact List.not_lt_nil _

/-- The keys between two keys of a session, from its floor on, are its own. -/
private theorem session_of_between {a b : OrderKey} (ha : sessionFloor session ≤ a) (hab : a ≤ b)
    (hb : b.session = session) : a.session = session := by
  rw [OrderKey.le_iff] at ha hab
  simp only [sessionFloor] at ha
  omega

/-- The walk of `session_range` visits exactly the session's entries. -/
theorem sessionRange_eq_filter {V : Type} (c : OrderedMap OrderKey V) (session : ℕ) :
    sessionRange c session = c.toList.filter fun p => p.1.session = session := by
  refine c.range_eq_filter ?_ ?_
  · intro k hk
    exact sessionFloor_le (by simpa using hk)
  · intro a b ha hab hb
    simpa using session_of_between ha hab (by simpa using hb)

/-- The range that is erased is the filter by session: keys are ordered by session first. -/
theorem eraseSession_eq_filter {V : Type} (c : OrderedMap OrderKey V) (session : ℕ) :
    eraseSession c session = c.filter fun k _ => !decide (k.session = session) := by
  refine c.eraseRange_eq_filter ?_ ?_
  · intro k hk
    exact sessionFloor_le (by simpa using hk)
  · intro a b ha hab hb
    simpa using session_of_between ha hab (by simpa using hb)

/-- After a session is erased only the other sessions are found. -/
theorem find?_eraseSession {V : Type} (c : OrderedMap OrderKey V) (session : ℕ) (k : OrderKey) :
    (eraseSession c session).find? k = if k.session = session then none else c.find? k := by
  rw [eraseSession_eq_filter, OrderedMap.find?_filter]
  split_ifs with h
  · cases c.find? k <;> simp [h]
  · cases c.find? k <;> simp [h]

/-! ## Counting entries -/

/-- The number of keys of a session in `orders_`. -/
def entryTotal (e : OrderEngine) (session : ℕ) : ℕ :=
  e.orders.count fun k _ => k.session = session

/-- The number of live orders of a session in `orders_`. -/
def liveTotal (e : OrderEngine) (session : ℕ) : ℕ :=
  e.orders.count fun k o => k.session = session ∧ o.st = .live

/-- The range of a session in an index counts its live orders of that side. -/
private theorem length_sessionRange_liveIndex (h : e.Indexed) (side : Side) (session : ℕ) :
    (sessionRange (e.liveIndex side) session).length =
      e.orders.count fun k o => k.session = session ∧ o.st = .live ∧ o.side = side := by
  have hkeys : (sessionRange (e.liveIndex side) session).length =
      (e.liveIndex side).keys.countP fun k => k.session = session := by
    rw [sessionRange_eq_filter, OrderedMap.keys, List.countP_map, List.countP_eq_length_filter]
    rfl
  rw [hkeys, h.keys_eq, List.countP_map, List.countP_filter]
  refine List.countP_congr fun p _ => ?_
  simp

/-- `live_count`, which reads the indexes, counts the live orders of `orders_`. -/
theorem liveCount_eq (h : e.Indexed) (session : ℕ) : e.liveCount session = e.liveTotal session := by
  rw [liveCount, length_sessionRange_liveIndex h, length_sessionRange_liveIndex h, liveTotal]
  simp only [OrderedMap.count]
  rw [List.countP_eq_countP_filter_add (q := fun p : OrderKey × Order => p.2.side = .bid)
    e.orders.toList (fun p => decide (p.1.session = session ∧ p.2.st = .live))]
  rw [List.countP_filter, List.countP_filter]
  congr 1
  · refine List.countP_congr fun p _ => ?_
    simp [and_assoc]
  · refine List.countP_congr fun p _ => ?_
    cases p.2.side <;> simp

/-! ## The outcomes of `on_new` -/

/-- An id is a duplicate if the session has an entry under it, live or not. -/
theorem isDuplicate_iff {clId : Bytes} :
    e.isDuplicate session clId = true ↔ ∃ ord, e.orders.find? ⟨session, clId⟩ = some ord := by
  rw [← OrderedMap.mem_keys_iff, ← OrderedMap.lowerBound_key_eq_iff, isDuplicate]
  cases hlb : e.orders.lowerBound ⟨session, clId⟩ with
  | none => simp
  | some p =>
    obtain ⟨⟨s, c⟩, o⟩ := p
    simp

/-- A new id has no entry. -/
theorem find?_eq_none_of_not_isDuplicate {clId : Bytes} (h : ¬e.isDuplicate session clId = true) :
    e.orders.find? ⟨session, clId⟩ = none := by
  rw [isDuplicate_iff, ← Option.isSome_iff_exists] at h
  exact Option.not_isSome_iff_eq_none.mp h

/-- Why `on_new` answers a fresh `cl_id` with a reject. -/
inductive RejectCause (cfg : EngineConfig) (e : OrderEngine) (session : ℕ) (order : NewOrder) :
    RejectCode → Prop
  | invalid {code : RejectCode}
      (h : validateOrder cfg.inst order.symbol order.side order.px order.qty = some code) :
      RejectCause cfg e session order code
  | capped (h : cfg.inst.maxLiveOrders.toNat ≤ e.liveCount session) :
      RejectCause cfg e session order .maxLiveOrders
  | crossing (h : order.postOnly = true) : RejectCause cfg e session order .postOnlyCross

/-- Every outcome of `on_new`, with what its checks established. -/
inductive OnNew (cfg : EngineConfig) (e : OrderEngine) (session : ℕ) (order : NewOrder) :
    OrderEngine × List OutMsg → Prop
  | duplicate {ord : Order} (used : e.orders.find? ⟨session, order.clId⟩ = some ord) :
      OnNew cfg e session order
        (e, [.reject (makeReject order.clId .dupClOrdId
          (ascii "cl_id already used on this session"))])
  | rejected {code : RejectCode} (reason : Bytes)
      (unused : e.orders.find? ⟨session, order.clId⟩ = none)
      (cause : RejectCause cfg e session order code) :
      OnNew cfg e session order (recordReject e session order code reason)
  | accepted (side : Side) (unused : e.orders.find? ⟨session, order.clId⟩ = none)
      (valid : ValidOrder cfg.inst order.symbol order.side order.px order.qty)
      (room : e.liveCount session < cfg.inst.maxLiveOrders.toNat)
      (hside : sideFromWire order.side = some side) :
      OnNew cfg e session order (recordAccept cfg e session order side)

/-- The two sides of the wire are read. -/
theorem sideFromWire_of_valid {side : Bytes} (h : side = ascii "B" ∨ side = ascii "S") :
    ∃ s, sideFromWire side = some s := by
  rcases h with rfl | rfl
  · exact ⟨.bid, rfl⟩
  · exact ⟨.ask, by decide⟩

/-- What `on_new` does in each of its branches. -/
theorem onNew_spec (cfg : EngineConfig) (e : OrderEngine) (session : ℕ) (order : NewOrder) :
    OnNew cfg e session order (onNew cfg e session order) := by
  by_cases hdup : e.isDuplicate session order.clId = true
  · obtain ⟨ord, hord⟩ := isDuplicate_iff.mp hdup
    rw [onNew, if_pos hdup]
    exact .duplicate hord
  have hnone := find?_eq_none_of_not_isDuplicate hdup
  rw [onNew, if_neg hdup]
  cases hval : validateOrder cfg.inst order.symbol order.side order.px order.qty with
  | some code => exact .rejected _ hnone (.invalid hval)
  | none =>
    have hvalid := validOrder_of_validateOrder hval
    by_cases hcap : cfg.inst.maxLiveOrders.toNat ≤ e.liveCount session
    · simp only [hcap, ↓reduceIte]
      exact .rejected _ hnone (.capped hcap)
    · obtain ⟨side, hside⟩ := sideFromWire_of_valid hvalid.side
      simp only [hcap, ↓reduceIte, hside]
      split_ifs with hcross
      · rw [Bool.and_eq_true] at hcross
        exact .rejected _ hnone (.crossing hcross.1)
      · exact .accepted side hnone hvalid (not_le.mp hcap) hside

/-- What `on_new` decides. -/
inductive Decision
  | duplicate
  | reject (code : RejectCode) (reason : Bytes)
  | accept (side : Side)
  | impossible

/-- The checks of `on_new`, as a function of all that they read: the duplicate probe, the live
count of the session and the book. -/
def decideNew (cfg : EngineConfig) (duplicate : Bool) (live : ℕ) (book : Book)
    (order : NewOrder) : Decision :=
  if duplicate then .duplicate
  else
    match validateOrder cfg.inst order.symbol order.side order.px order.qty with
    | some code => .reject code (validationReason code order)
    | none =>
      if cfg.inst.maxLiveOrders.toNat ≤ live then
        .reject .maxLiveOrders (ascii "session already holds max_live_orders live orders")
      else
        match sideFromWire order.side with
        | some side =>
          if order.postOnly && crosses book side order.px then
            .reject .postOnlyCross (ascii "post-only order would cross the book")
          else .accept side
        | none => .impossible

/-- The effect of a decision. -/
def applyDecision (cfg : EngineConfig) (e : OrderEngine) (session : ℕ) (order : NewOrder) :
    Decision → OrderEngine × List OutMsg
  | .duplicate =>
    (e, [.reject (makeReject order.clId .dupClOrdId (ascii "cl_id already used on this session"))])
  | .reject code reason => recordReject e session order code reason
  | .accept side => recordAccept cfg e session order side
  | .impossible => (e, [])

/-- `on_new` decides on what it reads and then applies the decision. -/
theorem onNew_eq (cfg : EngineConfig) (e : OrderEngine) (session : ℕ) (order : NewOrder) :
    onNew cfg e session order =
      applyDecision cfg e session order (decideNew cfg (e.isDuplicate session order.clId)
        (e.liveCount session) e.book order) := by
  unfold onNew decideNew
  cases e.isDuplicate session order.clId with
  | true => rfl
  | false =>
    cases validateOrder cfg.inst order.symbol order.side order.px order.qty with
    | some code => rfl
    | none =>
      by_cases hcap : cfg.inst.maxLiveOrders.toNat ≤ e.liveCount session
      · simp [hcap, applyDecision]
      · cases sideFromWire order.side with
        | none => simp [hcap, applyDecision]
        | some side =>
          by_cases hcross : order.postOnly = true ∧ crosses e.book side order.px = true <;>
            simp [hcap, hcross, applyDecision]

/-- The codes of `on_new` on a fresh `cl_id` are those of `validate_order`, the cap and
post-only. -/
theorem validateOrder_code {inst : Instrument} {symbol side : Bytes} {px qty : ℤ}
    {code : RejectCode} (h : validateOrder inst symbol side px qty = some code) :
    code ∈ [RejectCode.unknownSymbol, .badSide, .tickSize, .lotSize, .qtyLimit, .priceRange] := by
  unfold validateOrder at h
  split_ifs at h <;> cases h <;> decide

/-! ## Prices -/

/-- Dividing a valid price into ticks and multiplying back is exact. -/
theorem toRawPx_toTicks {inst : Instrument} {px : ℤ} (h : inst.tickSize ∣ px) :
    toRawPx inst (toTicks inst px) = px :=
  Int.tdiv_mul_cancel h

/-! ## The invariant -/

/-- The bounds on a live order. -/
structure LiveOk (cfg : EngineConfig) (ord : Order) : Prop where
  leaves_pos : 0 < ord.leaves
  leaves_le : ord.leaves ≤ cfg.inst.maxOrderQty
  px_ge : cfg.inst.minPrice ≤ toRawPx cfg.inst ord.px
  px_le : toRawPx cfg.inst ord.px ≤ cfg.inst.maxPrice

/-- The counter node of a session with `n` entries: absent at zero. -/
def counterNode (n : ℕ) : Option ℕ := if n = 0 then none else some n

/-- What holds of the engine between calls. -/
structure Inv (cfg : EngineConfig) (e : OrderEngine) : Prop where
  indexed : e.Indexed
  entries : ∀ s, e.entriesBySession.find? s = counterNode (e.entryTotal s)
  liveCap : ∀ s, e.liveTotal s ≤ cfg.inst.maxLiveOrders.toNat
  live : ∀ k ord, e.orders.find? k = some ord → ord.st = .live → LiveOk cfg ord
  nextEngId_pos : 0 < e.nextEngId
  engId : ∀ k ord, e.orders.find? k = some ord → ord.st ≠ .rejected →
    0 < ord.engId ∧ ord.engId < e.nextEngId
  engId_inj : ∀ k ord k' ord', e.orders.find? k = some ord → e.orders.find? k' = some ord' →
    ord.st ≠ .rejected → ord'.st ≠ .rejected → ord.engId = ord'.engId → k = k'

/-- A new engine is empty. -/
theorem inv_init (cfg : EngineConfig) : Inv cfg {} where
  indexed := by
    intro side k
    cases side <;> simp [liveIndex]
  entries s := rfl
  liveCap s := Nat.zero_le _
  live := by simp
  nextEngId_pos := Nat.one_pos
  engId := by simp
  engId_inj := by simp

/-- The counters say how many orders are stored. -/
theorem Inv.entryCount_eq (h : Inv cfg e) (s : ℕ) : e.entryCount s = e.entryTotal s := by
  rw [entryCount, h.entries, counterNode]
  split_ifs with h0
  · rw [h0]
    rfl
  · rfl

/-- A session without orders has no entries. -/
theorem Inv.entryCount_eq_zero (h : Inv cfg e) {s : ℕ}
    (hnone : ∀ k ord, e.orders.find? k = some ord → k.session ≠ s) : e.entryCount s = 0 := by
  rw [h.entryCount_eq, entryTotal, OrderedMap.count_eq_zero_iff]
  intro k ord hord
  simpa using hnone k ord hord

/-- Counting one more entry of `session` keeps the counters at the entry totals. -/
private theorem find?_countEntry {entries : OrderedMap ℕ ℕ} {total : ℕ → ℕ}
    (h : ∀ s, entries.find? s = counterNode (total s)) (session s : ℕ) :
    (countEntry entries session).find? s =
      counterNode (total s + if session = s then 1 else 0) := by
  rw [countEntry, OrderedMap.find?_insert]
  by_cases hs : s = session
  · subst hs
    rw [if_pos rfl, if_pos rfl, h, counterNode, counterNode, if_neg (Nat.succ_ne_zero _)]
    by_cases h0 : total s = 0
    · rw [if_pos h0, h0]
      rfl
    · rw [if_neg h0]
      rfl
  · rw [if_neg hs, h, if_neg (Ne.symm hs), Nat.add_zero]

/-- A new entry counts for its own session. -/
private theorem count_session_insert {key : OrderKey} (ord : Order)
    (hnone : e.orders.find? key = none) (s : ℕ) :
    ((e.orders.insert key ord).count fun k _ => k.session = s) =
      e.entryTotal s + if key.session = s then 1 else 0 := by
  rw [OrderedMap.count_insert ord hnone]
  simp [entryTotal]

/-- A refused order takes its id and an entry, and is indexed nowhere. -/
theorem inv_recordReject (h : Inv cfg e) (order : NewOrder) (code : RejectCode) (reason : Bytes)
    (hnone : e.orders.find? ⟨session, order.clId⟩ = none) :
    Inv cfg (recordReject e session order code reason).1 where
  indexed := by
    intro side k
    change k ∈ (e.liveIndex side).keys ↔ ∃ ord, (e.orders.insert _ _).find? k = some ord ∧ _
    rw [h.indexed side k, OrderedMap.find?_insert]
    split_ifs with hk
    · -- the tombstone is not live, and there was no order at its key
      subst hk
      simp [hnone]
    · rfl
  entries s := by
    change (countEntry e.entriesBySession session).find? s = _
    rw [find?_countEntry h.entries, ← count_session_insert { st := .rejected } hnone]
    rfl
  liveCap s := by
    refine le_trans (le_of_eq ?_) (h.liveCap s)
    simp only [liveTotal, recordReject]
    rw [OrderedMap.count_insert _ hnone]
    simp
  live := by
    intro k ord hord hst
    simp only [recordReject, OrderedMap.find?_insert] at hord
    split_ifs at hord with hk
    · cases hord
      cases hst
    · exact h.live k ord hord hst
  nextEngId_pos := h.nextEngId_pos
  engId := by
    intro k ord hord hst
    simp only [recordReject, OrderedMap.find?_insert] at hord
    split_ifs at hord with hk
    · cases hord
      exact absurd rfl hst
    · exact h.engId k ord hord hst
  engId_inj := by
    intro k ord k' ord' hord hord' hst hst' heq
    simp only [recordReject, OrderedMap.find?_insert] at hord hord'
    split_ifs at hord hord' with hk hk'
    · exact hk.trans hk'.symm
    · cases hord
      exact absurd rfl hst
    · cases hord'
      exact absurd rfl hst'
    · exact h.engId_inj k ord k' ord' hord hord' hst hst' heq

/-- The order that `on_new` stores on accept. -/
def acceptedOrder (cfg : EngineConfig) (e : OrderEngine) (order : NewOrder) (side : Side) : Order :=
  { engId := e.nextEngId, side, px := toTicks cfg.inst order.px, leaves := order.qty, st := .live }

/-- An accepted order is stored under its key. -/
theorem orders_recordAccept (order : NewOrder) (side : Side) :
    (recordAccept cfg e session order side).1.orders =
      e.orders.insert ⟨session, order.clId⟩ (acceptedOrder cfg e order side) := rfl

/-- An accepted order is stored and indexed, with the next `eng_id`. -/
theorem inv_recordAccept (h : Inv cfg e) {order : NewOrder} {side : Side}
    (hnone : e.orders.find? ⟨session, order.clId⟩ = none)
    (hvalid : ValidOrder cfg.inst order.symbol order.side order.px order.qty)
    (hroom : e.liveCount session < cfg.inst.maxLiveOrders.toNat) :
    Inv cfg (recordAccept cfg e session order side).1 where
  indexed := by
    intro side' k
    have hindex : (recordAccept cfg e session order side).1.liveIndex side' =
        (e.setLiveIndex side ((e.liveIndex side).insert ⟨session, order.clId⟩ ())).liveIndex
          side' := by
      cases side' <;> rfl
    rw [hindex, orders_recordAccept, OrderedMap.find?_insert]
    by_cases hk : k = ⟨session, order.clId⟩
    · subst hk
      rw [if_pos rfl]
      by_cases hs : side' = side
      · subst hs
        simp [OrderedMap.mem_keys_insert, acceptedOrder]
      · rw [liveIndex_setLiveIndex_of_ne _ _ hs, h.indexed side' _, hnone]
        simp [acceptedOrder, Ne.symm hs]
    · rw [if_neg hk, ← h.indexed side' k]
      by_cases hs : side' = side
      · subst hs
        simp [OrderedMap.mem_keys_insert, hk]
      · rw [liveIndex_setLiveIndex_of_ne _ _ hs]
  entries s := by
    change (countEntry e.entriesBySession session).find? s = _
    rw [find?_countEntry h.entries,
      ← count_session_insert (acceptedOrder cfg e order side) hnone]
    rfl
  liveCap s := by
    simp only [liveTotal, orders_recordAccept]
    rw [OrderedMap.count_insert _ hnone]
    change e.liveTotal s + _ ≤ _
    by_cases hs : session = s
    · subst hs
      rw [liveCount_eq h.indexed] at hroom
      simp only [acceptedOrder, and_self, decide_true, ↓reduceIte]
      omega
    · simpa [hs] using h.liveCap s
  live := by
    intro k ord hord hst
    rw [orders_recordAccept, OrderedMap.find?_insert] at hord
    split_ifs at hord with hk
    · cases hord
      have hraw := toRawPx_toTicks hvalid.tick
      refine ⟨hvalid.qty_pos, hvalid.qty_le, ?_, ?_⟩
      · exact hraw ▸ hvalid.px_ge
      · exact hraw ▸ hvalid.px_le
    · exact h.live k ord hord hst
  nextEngId_pos := Nat.succ_pos _
  engId := by
    intro k ord hord hst
    rw [orders_recordAccept, OrderedMap.find?_insert] at hord
    split_ifs at hord with hk
    · cases hord
      exact ⟨h.nextEngId_pos, Nat.lt_succ_self _⟩
    · obtain ⟨hpos, hlt⟩ := h.engId k ord hord hst
      exact ⟨hpos, Nat.lt_succ_of_lt hlt⟩
  engId_inj := by
    intro k ord k' ord' hord hord' hst hst' heq
    rw [orders_recordAccept, OrderedMap.find?_insert] at hord hord'
    -- the fresh `eng_id` is above every stored one
    split_ifs at hord hord' with hk hk'
    · exact hk.trans hk'.symm
    · cases hord
      have := (h.engId k' ord' hord' hst').2
      simp only [acceptedOrder] at heq
      omega
    · cases hord'
      have := (h.engId k ord hord hst).2
      simp only [acceptedOrder] at heq
      omega
    · exact h.engId_inj k ord k' ord' hord hord' hst hst' heq

/-- `on_new` keeps the invariant. -/
theorem inv_onNew (h : Inv cfg e) (session : ℕ) (order : NewOrder) :
    Inv cfg (onNew cfg e session order).1 := by
  have hspec := onNew_spec cfg e session order
  generalize onNew cfg e session order = r at hspec
  cases hspec with
  | duplicate _ => exact h
  | rejected reason unused _ => exact inv_recordReject h order _ reason unused
  | accepted side unused valid room _ => exact inv_recordAccept h unused valid room

/-! ## Updates that only move orders forward

`on_cancel` and `on_book` rewrite stored orders in place. Such an update keeps the keys, the ids
and the tombstones, and makes no order live. -/

/-- An in-place update of stored orders. -/
structure Advances (e e' : OrderEngine) : Prop where
  find? : ∀ k, Option.Rel
    (fun ord ord' => ord'.engId = ord.engId ∧ ord'.side = ord.side ∧ ord'.px = ord.px ∧
      (ord'.st = .rejected ↔ ord.st = .rejected) ∧
      (ord'.st = .live → ord.st = .live ∧ 0 < ord'.leaves ∧ ord'.leaves ≤ ord.leaves))
    (e.orders.find? k) (e'.orders.find? k)
  count_keys : ∀ s, e'.entryTotal s = e.entryTotal s
  count_live : ∀ s, e'.liveTotal s ≤ e.liveTotal s
  nextEngId : e'.nextEngId = e.nextEngId
  entriesBySession : e'.entriesBySession = e.entriesBySession

/-- Orders that only advance keep the invariant, once the indexes are in step. -/
theorem Inv.advance {e' : OrderEngine} (h : Inv cfg e) (hadv : Advances e e')
    (hidx : e'.Indexed) : Inv cfg e' where
  indexed := hidx
  entries s := by rw [hadv.entriesBySession, h.entries, hadv.count_keys]
  liveCap s := (hadv.count_live s).trans (h.liveCap s)
  live := by
    intro k ord' hord' hst'
    have hrel := hadv.find? k
    rw [hord'] at hrel
    cases hord : e.orders.find? k with
    | none => rw [hord] at hrel; cases hrel
    | some ord =>
      rw [hord] at hrel
      cases hrel with
      | some hrel =>
        obtain ⟨-, -, hpx, -, hlive⟩ := hrel
        obtain ⟨hst, hpos, hle⟩ := hlive hst'
        obtain ⟨-, h2, h3, h4⟩ := h.live k ord hord hst
        exact ⟨hpos, hle.trans h2, hpx ▸ h3, hpx ▸ h4⟩
  nextEngId_pos := hadv.nextEngId ▸ h.nextEngId_pos
  engId := by
    intro k ord' hord' hst'
    have hrel := hadv.find? k
    rw [hord'] at hrel
    cases hord : e.orders.find? k with
    | none => rw [hord] at hrel; cases hrel
    | some ord =>
      rw [hord] at hrel
      cases hrel with
      | some hrel =>
        obtain ⟨hid, -, -, hrej, -⟩ := hrel
        rw [hid, hadv.nextEngId]
        exact h.engId k ord hord fun hr => hst' (hrej.mpr hr)
  engId_inj := by
    have hback : ∀ k ord', e'.orders.find? k = some ord' → ord'.st ≠ .rejected →
        ∃ ord, e.orders.find? k = some ord ∧ ord.st ≠ .rejected ∧ ord'.engId = ord.engId := by
      intro k ord' hord' hst'
      have hrel := hadv.find? k
      rw [hord'] at hrel
      cases hord : e.orders.find? k with
      | none => rw [hord] at hrel; cases hrel
      | some ord =>
        rw [hord] at hrel
        cases hrel with
        | some hrel => exact ⟨ord, rfl, fun hr => hst' (hrel.2.2.2.1.mpr hr), hrel.1⟩
    intro k ord k' ord' hord hord' hst hst' heq
    obtain ⟨o, ho, hso, hid⟩ := hback k ord hord hst
    obtain ⟨o', ho', hso', hid'⟩ := hback k' ord' hord' hst'
    exact h.engId_inj k o k' o' ho ho' hso hso' (by omega)

/-! ## The outcomes of `on_cancel` -/

/-- Every outcome of `on_cancel`. -/
inductive OnCancel (e : OrderEngine) (session : ℕ) (cancel : CancelOrder) :
    OrderEngine × List OutMsg → Prop
  | unknown (unused : e.orders.find? ⟨session, cancel.clId⟩ = none) :
      OnCancel e session cancel
        (e, [.reject (makeReject cancel.clId .unknownClOrdId
          (ascii "unknown cl_id on this session"))])
  | terminal {ord : Order} (used : e.orders.find? ⟨session, cancel.clId⟩ = some ord)
      (dead : ord.st ≠ .live) :
      OnCancel e session cancel
        (e, [.reject (makeReject cancel.clId .alreadyTerminal
          (ascii "order is already terminal"))])
  | cancelled {ord : Order} (used : e.orders.find? ⟨session, cancel.clId⟩ = some ord)
      (live : ord.st = .live) :
      OnCancel e session cancel (recordCancel e session cancel.clId ord)

/-- What `on_cancel` does in each of its branches. -/
theorem onCancel_spec (e : OrderEngine) (session : ℕ) (cancel : CancelOrder) :
    OnCancel e session cancel (onCancel e session cancel) := by
  unfold onCancel
  cases hfind : e.orders.find? ⟨session, cancel.clId⟩ with
  | none => exact .unknown hfind
  | some ord =>
    by_cases hst : ord.st = .live
    · simp only [hst, ne_eq, not_true_eq_false, ↓reduceIte]
      exact .cancelled hfind hst
    · simp only [hst, ne_eq, not_false_eq_true, ↓reduceIte]
      exact .terminal hfind hst

/-- A cancel changes the state of its order. -/
theorem orders_recordCancel (clId : Bytes) (ord : Order) :
    (recordCancel e session clId ord).1.orders =
      e.orders.modify ⟨session, clId⟩ fun o => { o with st := .cancelled } := rfl

/-- A cancelled order leaves the index of its side. -/
private theorem indexed_recordCancel (h : e.Indexed) {clId : Bytes} {ord : Order}
    (hfind : e.orders.find? ⟨session, clId⟩ = some ord) :
    (recordCancel e session clId ord).1.Indexed := by
  intro side k
  have hindex : (recordCancel e session clId ord).1.liveIndex side =
      (e.setLiveIndex ord.side ((e.liveIndex ord.side).erase ⟨session, clId⟩)).liveIndex side := by
    cases side <;> rfl
  rw [hindex, orders_recordCancel, OrderedMap.find?_modify]
  by_cases hk : k = ⟨session, clId⟩
  · subst hk
    rw [if_pos rfl, hfind]
    by_cases hs : side = ord.side
    · subst hs
      simp [OrderedMap.mem_keys_erase]
    · rw [liveIndex_setLiveIndex_of_ne _ _ hs, h side, hfind]
      simp [Ne.symm hs]
  · rw [if_neg hk, ← h side k]
    by_cases hs : side = ord.side
    · subst hs
      simp [OrderedMap.mem_keys_erase, hk]
    · rw [liveIndex_setLiveIndex_of_ne _ _ hs]

/-- A cancel advances its order to a terminal state. -/
theorem advances_recordCancel (h : Inv cfg e) {clId : Bytes} {ord : Order}
    (hfind : e.orders.find? ⟨session, clId⟩ = some ord) (hlive : ord.st = .live) :
    Advances e (recordCancel e session clId ord).1 := by
  refine ⟨fun k => ?_, fun s => ?_, fun s => ?_, ?_, ?_⟩
  · rw [orders_recordCancel, OrderedMap.find?_modify]
    split_ifs with hk
    · subst hk
      rw [hfind]
      refine Option.Rel.some ⟨rfl, rfl, rfl, ?_, ?_⟩
      · simp [hlive]
      · intro hst
        cases hst
    · cases ho : e.orders.find? k with
      | none => exact Option.Rel.none
      | some o =>
        refine Option.Rel.some ⟨rfl, rfl, rfl, Iff.rfl, fun hst => ⟨hst, ?_, le_rfl⟩⟩
        exact (h.live k o ho hst).leaves_pos
  · simp only [entryTotal, orders_recordCancel, OrderedMap.modify, OrderedMap.count_mapVal]
  · simp only [liveTotal, orders_recordCancel, OrderedMap.modify, OrderedMap.count_mapVal]
    refine OrderedMap.count_mono fun k o _ hp => ?_
    simp only [decide_eq_true_eq] at hp ⊢
    refine ⟨hp.1, ?_⟩
    have hst := hp.2
    split_ifs at hst
    exact hst
  · simp [recordCancel]
  · simp [recordCancel]

/-- A cancel keeps the invariant. -/
theorem inv_recordCancel (h : Inv cfg e) {clId : Bytes} {ord : Order}
    (hfind : e.orders.find? ⟨session, clId⟩ = some ord) (hlive : ord.st = .live) :
    Inv cfg (recordCancel e session clId ord).1 :=
  h.advance (advances_recordCancel h hfind hlive) (indexed_recordCancel h.indexed hfind)

/-- `on_cancel` keeps the invariant. -/
theorem inv_onCancel (h : Inv cfg e) (session : ℕ) (cancel : CancelOrder) :
    Inv cfg (onCancel e session cancel).1 := by
  have hspec := onCancel_spec e session cancel
  generalize onCancel e session cancel = r at hspec
  cases hspec with
  | unknown _ => exact h
  | terminal _ _ => exact h
  | cancelled used live => exact inv_recordCancel h used live

/-! ## `on_book` and `end_session` keep the invariant -/

/-- What a crossed live order trades is positive and at most what is left of it. -/
theorem fillQty_bounds {book : Book} {ord : Order} (hfill : isFilled cfg book ord = true)
    (hpos : 0 < ord.leaves) : 0 < fillQty book ord ∧ fillQty book ord ≤ ord.leaves := by
  simp only [isFilled, crosses, Bool.and_eq_true, decide_eq_true_eq] at hfill
  obtain ⟨-, ⟨hq, -⟩, -⟩ := hfill
  unfold fillQty
  omega

/-- An installed book advances the orders that it fills. -/
theorem advances_installed {book : Book} {e' : OrderEngine} (h : Inv cfg e)
    (hi : Installed cfg e book e') : Advances e e' where
  find? k := by
    rw [hi.find?]
    cases ho : e.orders.find? k with
    | none => exact Option.Rel.none
    | some o =>
      refine Option.Rel.some ⟨engId_swept o, side_swept o, px_swept o, ?_, ?_⟩
      · by_cases hfill : isFilled cfg book o = true
        · rw [swept_of_isFilled hfill, st_of_isFilled hfill]
          dsimp only
          split_ifs <;> simp
        · rw [swept_of_not_isFilled hfill]
      · intro hst
        obtain ⟨hlive, hnot⟩ := (st_swept_eq_live_iff o).mp hst
        refine ⟨hlive, ?_⟩
        have hpos := (h.live k o ho hlive).leaves_pos
        by_cases hfill : isFilled cfg book o = true
        · obtain ⟨hq, hle⟩ := fillQty_bounds hfill hpos
          have hne : o.leaves - fillQty book o ≠ 0 := fun h0 => hnot ⟨hfill, h0⟩
          rw [swept_of_isFilled hfill]
          dsimp only
          omega
        · rw [swept_of_not_isFilled hfill]
          exact ⟨hpos, le_rfl⟩
  count_keys s := by
    simp only [entryTotal, hi.orders, OrderedMap.count_mapVal]
  count_live s := by
    simp only [liveTotal, hi.orders, OrderedMap.count_mapVal]
    refine OrderedMap.count_mono fun k o _ hp => ?_
    simp only [decide_eq_true_eq, st_swept_eq_live_iff] at hp ⊢
    exact ⟨hp.1, hp.2.1⟩
  nextEngId := hi.nextEngId
  entriesBySession := hi.entriesBySession

/-- `on_book` keeps the invariant. -/
theorem inv_onBook (h : Inv cfg e) (book : Book) : Inv cfg (onBook cfg e book).1 := by
  by_cases hfresh : e.isFresh book
  · obtain ⟨hi, -⟩ := onBook_of_fresh cfg h.indexed hfresh
    exact h.advance (advances_installed h hi) hi.indexed
  · rw [onBook_of_not_fresh hfresh]
    exact ⟨fun side k => by cases side <;> [exact h.indexed .bid k; exact h.indexed .ask k],
      h.entries, h.liveCap, h.live, h.nextEngId_pos, h.engId, h.engId_inj⟩

/-- `end_session` erases the orders of its session. -/
theorem orders_endSession (session : ℕ) :
    (endSession e session).1.orders = eraseSession e.orders session := rfl

/-- `end_session` keeps the invariant. -/
theorem inv_endSession (h : Inv cfg e) (session : ℕ) : Inv cfg (endSession e session).1 := by
  -- every order that is left was there before
  have hfind : ∀ k ord, (endSession e session).1.orders.find? k = some ord →
      k.session ≠ session ∧ e.orders.find? k = some ord := by
    intro k ord hord
    rw [orders_endSession, find?_eraseSession] at hord
    split_ifs at hord with hk
    exact ⟨hk, hord⟩
  have hcount : ∀ (s : ℕ) (p : OrderKey → Order → Bool),
      ((endSession e session).1.orders.count fun k o => decide (k.session = s) && p k o) =
        if s = session then 0 else e.orders.count fun k o => decide (k.session = s) && p k o := by
    intro s p
    rw [orders_endSession, eraseSession_eq_filter, OrderedMap.count_filter]
    split_ifs with hs
    · rw [OrderedMap.count_eq_zero_iff]
      intro k o _
      by_cases hk : k.session = session <;> simp [hs, hk]
    · refine OrderedMap.count_congr fun k o _ => ?_
      simp only [Bool.and_eq_true, decide_eq_true_eq, Bool.not_eq_true', decide_eq_false_iff_not]
      exact ⟨fun hp => hp.1, fun hp => ⟨hp, fun hk => hs (hp.1.symm.trans hk)⟩⟩
  have hkeys : ∀ s, (endSession e session).1.entryTotal s =
      if s = session then 0 else e.entryTotal s := by
    intro s
    simpa [entryTotal] using hcount s fun _ _ => true
  refine ⟨fun side k => ?_, fun s => ?_, fun s => ?_, fun k ord hord hst => ?_, h.nextEngId_pos,
    fun k ord hord hst => ?_, fun k ord k' ord' hord hord' hst hst' heq => ?_⟩
  · have hindex : (endSession e session).1.liveIndex side =
        eraseSession (e.liveIndex side) session := by
      cases side <;> rfl
    rw [hindex, orders_endSession, OrderedMap.mem_keys_iff, find?_eraseSession, find?_eraseSession]
    split_ifs with hk
    · simp
    · rw [← OrderedMap.mem_keys_iff]
      exact h.indexed side k
  · change (e.entriesBySession.erase session).find? s = _
    rw [OrderedMap.find?_erase, hkeys, h.entries]
    split_ifs <;> rfl
  · have hlive := hcount s fun _ o => decide (o.st = .live)
    simp only [← Bool.decide_and] at hlive
    rw [liveTotal, hlive]
    split_ifs
    · exact Nat.zero_le _
    · exact h.liveCap s
  · exact h.live k ord (hfind k ord hord).2 hst
  · exact h.engId k ord (hfind k ord hord).2 hst
  · exact h.engId_inj k ord k' ord' (hfind k ord hord).2 (hfind k' ord' hord').2 hst hst' heq

/-- Every entry point keeps the invariant. -/
theorem inv_step (h : Inv cfg e) (call : Call) : Inv cfg (step cfg e call).1 := by
  cases call with
  | onNew session order => exact inv_onNew h session order
  | onCancel session cancel => exact inv_onCancel h session cancel
  | onBook book => exact inv_onBook h book
  | endSession session => exact inv_endSession h session

/-- The invariant holds in every reachable state. -/
theorem inv_of_reachable (h : Reachable cfg e) : Inv cfg e :=
  Mealy.Reachable.induct (step cfg) h (inv_init cfg) fun _ call hu => inv_step hu call

/-! ## Whole runs -/

/-- The `eng_id` of an accept. -/
def ackId (r : Routed) : Option ℕ :=
  match r.msg with
  | .orderAck ack => some ack.engId
  | _ => none

/-- The `eng_id`s of all accepts of a run, in order. -/
def ackIds (history : List (Call × List Routed)) : List ℕ :=
  (history.flatMap Prod.snd).filterMap ackId

/-- The acks of a history are read off in order. -/
private theorem ackIds_concat (history : List (Call × List Routed)) (call : Call)
    (out : List Routed) :
    ackIds (history ++ [(call, out)]) = ackIds history ++ out.filterMap ackId := by
  simp [ackIds]

/-- A sweep acks nothing. -/
private theorem filterMap_ackId_fillsFrom {book : Book} (n : ℕ) (l : List (OrderKey × Order)) :
    (fillsFrom cfg book n l).filterMap ackId = [] := by
  induction l generalizing n with
  | nil => rfl
  | cons p l ih => exact ih (n + 1)

/-- The accepts of one call: none, or the current `next_eng_id_`, which is burnt. -/
theorem ackIds_step (cfg : EngineConfig) (h : e.Indexed) (call : Call) :
    ((step cfg e call).2.filterMap ackId = [] ∧
        (step cfg e call).1.nextEngId = e.nextEngId) ∨
      ((step cfg e call).2.filterMap ackId = [e.nextEngId] ∧
        (step cfg e call).1.nextEngId = e.nextEngId + 1) := by
  cases call with
  | onNew session order =>
    have hspec := onNew_spec cfg e session order
    simp only [step, routeTo]
    generalize onNew cfg e session order = r at hspec
    cases hspec with
    | duplicate _ => exact Or.inl ⟨rfl, rfl⟩
    | rejected _ _ _ => exact Or.inl ⟨rfl, rfl⟩
    | accepted _ _ _ _ _ => exact Or.inr ⟨rfl, rfl⟩
  | onCancel session cancel =>
    have hspec := onCancel_spec e session cancel
    simp only [step, routeTo]
    generalize onCancel e session cancel = r at hspec
    cases hspec with
    | unknown _ => exact Or.inl ⟨rfl, rfl⟩
    | terminal _ _ => exact Or.inl ⟨rfl, rfl⟩
    | cancelled _ _ => exact Or.inl ⟨rfl, by simp [recordCancel]⟩
  | onBook book =>
    left
    simp only [step]
    by_cases hfresh : e.isFresh book
    · obtain ⟨hi, hout⟩ := onBook_of_fresh cfg h hfresh
      exact ⟨hout ▸ filterMap_ackId_fillsFrom _ _, hi.nextEngId⟩
    · rw [onBook_of_not_fresh hfresh]
      exact ⟨rfl, rfl⟩
  | endSession session =>
    refine Or.inl ⟨?_, rfl⟩
    simp only [step, routeTo, endSession, sessionAcks, List.filterMap_map,
      List.filterMap_eq_nil_iff,
      List.mem_filterMap]
    rintro msg ⟨⟨k, ord⟩, -, hmsg⟩
    split_ifs at hmsg
    cases hmsg
    rfl

/-- The `exec_id` of a fill. -/
def execId (r : Routed) : Option ℕ :=
  match r.msg with
  | .fill fill => some fill.execId
  | _ => none

/-- The `exec_id`s of all fills of a run, in order. -/
def execIds (history : List (Call × List Routed)) : List ℕ :=
  (history.flatMap Prod.snd).filterMap execId

/-- The fills of a sweep are numbered on. -/
private theorem filterMap_execId_fillsFrom {book : Book} (n : ℕ) (l : List (OrderKey × Order)) :
    (fillsFrom cfg book n l).filterMap execId = List.range' n l.length := by
  induction l generalizing n with
  | nil => rfl
  | cons p l ih =>
    rw [List.length_cons, List.range'_succ, ← ih (n + 1)]
    rfl

/-- The fills of one call are numbered consecutively from `next_exec_id_`. -/
theorem execIds_step (cfg : EngineConfig) (h : e.Indexed) (call : Call) :
    ∃ n, (step cfg e call).2.filterMap execId = List.range' e.nextExecId n ∧
      (step cfg e call).1.nextExecId = e.nextExecId + n := by
  cases call with
  | onNew session order =>
    refine ⟨0, ?_⟩
    have hspec := onNew_spec cfg e session order
    simp only [step, routeTo]
    generalize onNew cfg e session order = r at hspec
    cases hspec with
    | duplicate _ => exact ⟨rfl, rfl⟩
    | rejected _ _ _ => exact ⟨rfl, rfl⟩
    | accepted _ _ _ _ _ => exact ⟨rfl, by simp [recordAccept]⟩
  | onCancel session cancel =>
    refine ⟨0, ?_⟩
    have hspec := onCancel_spec e session cancel
    simp only [step, routeTo]
    generalize onCancel e session cancel = r at hspec
    cases hspec with
    | unknown _ => exact ⟨rfl, rfl⟩
    | terminal _ _ => exact ⟨rfl, rfl⟩
    | cancelled _ _ => exact ⟨rfl, by simp [recordCancel]⟩
  | onBook book =>
    simp only [step]
    by_cases hfresh : e.isFresh book
    · obtain ⟨hi, hout⟩ := onBook_of_fresh cfg h hfresh
      exact ⟨_, hout ▸ filterMap_execId_fillsFrom _ _, hi.nextExecId⟩
    · rw [onBook_of_not_fresh hfresh]
      exact ⟨0, rfl, rfl⟩
  | endSession session =>
    refine ⟨0, ?_, rfl⟩
    simp only [step, routeTo, endSession, sessionAcks, List.filterMap_map, List.range'_zero,
      List.filterMap_eq_nil_iff, List.mem_filterMap]
    rintro msg ⟨⟨k, ord⟩, -, hmsg⟩
    split_ifs at hmsg
    cases hmsg
    rfl

/-- After a call, every accepted order that is stored was stored before, or was accepted by the
call. -/
private theorem engId_step (h : Inv cfg e) (call : Call) {k : OrderKey} {ord : Order}
    (hord : (step cfg e call).1.orders.find? k = some ord) (hst : ord.st ≠ .rejected) :
    (∃ ord₀, e.orders.find? k = some ord₀ ∧ ord₀.st ≠ .rejected ∧ ord₀.engId = ord.engId) ∨
      ord.engId ∈ (step cfg e call).2.filterMap ackId := by
  -- an order that only advances keeps its `eng_id`, and a rejected one stays rejected
  have hadvance : ∀ {e' : OrderEngine}, Advances e e' → e'.orders.find? k = some ord →
      ∃ ord₀, e.orders.find? k = some ord₀ ∧ ord₀.st ≠ .rejected ∧ ord₀.engId = ord.engId := by
    intro e' hadv hfind
    have hrel := hadv.find? k
    rw [hfind] at hrel
    cases hord₀ : e.orders.find? k with
    | none => rw [hord₀] at hrel; cases hrel
    | some ord₀ =>
      rw [hord₀] at hrel
      cases hrel with
      | some hrel =>
        exact ⟨ord₀, rfl, fun hr => hst (hrel.2.2.2.1.mpr hr), hrel.1.symm⟩
  cases call with
  | onNew session order =>
    have hspec := onNew_spec cfg e session order
    simp only [step, routeTo] at hord ⊢
    generalize onNew cfg e session order = r at hspec hord
    cases hspec with
    | duplicate _ => exact Or.inl ⟨ord, hord, hst, rfl⟩
    | rejected _ _ _ =>
      simp only [recordReject, OrderedMap.find?_insert] at hord
      split_ifs at hord
      · cases hord
        exact absurd rfl hst
      · exact Or.inl ⟨ord, hord, hst, rfl⟩
    | accepted side _ _ _ _ =>
      rw [orders_recordAccept, OrderedMap.find?_insert] at hord
      split_ifs at hord
      -- the accepted order is the one that is acked
      · cases hord
        exact Or.inr (List.mem_singleton.mpr rfl)
      · exact Or.inl ⟨ord, hord, hst, rfl⟩
  | onCancel session cancel =>
    left
    have hspec := onCancel_spec e session cancel
    simp only [step, routeTo] at hord
    generalize onCancel e session cancel = r at hspec hord
    cases hspec with
    | unknown _ => exact ⟨ord, hord, hst, rfl⟩
    | terminal _ _ => exact ⟨ord, hord, hst, rfl⟩
    | cancelled used live => exact hadvance (advances_recordCancel h used live) hord
  | onBook book =>
    left
    simp only [step] at hord
    by_cases hfresh : e.isFresh book
    · obtain ⟨hi, -⟩ := onBook_of_fresh cfg h.indexed hfresh
      exact hadvance (advances_installed h hi) hord
    · rw [onBook_of_not_fresh hfresh] at hord
      exact ⟨ord, hord, hst, rfl⟩
  | endSession session =>
    left
    simp only [step, routeTo, orders_endSession, find?_eraseSession] at hord
    split_ifs at hord
    exact ⟨ord, hord, hst, rfl⟩

/-- After every run: the accepts are numbered in increasing order below `next_eng_id_`, and every
accepted order still stored carries the number of an accept. -/
private theorem ackIds_run (cfg : EngineConfig) (calls : List Call) :
    Inv cfg (run cfg calls).1 ∧ (ackIds (run cfg calls).2).Pairwise (· < ·) ∧
      (∀ id ∈ ackIds (run cfg calls).2, 0 < id ∧ id < (run cfg calls).1.nextEngId) ∧
      ∀ k ord, (run cfg calls).1.orders.find? k = some ord → ord.st ≠ .rejected →
        ord.engId ∈ ackIds (run cfg calls).2 := by
  refine Mealy.run_induct (step cfg) (P := fun e h => Inv cfg e ∧ (ackIds h).Pairwise (· < ·) ∧
    (∀ id ∈ ackIds h, 0 < id ∧ id < e.nextEngId) ∧
      ∀ k ord, e.orders.find? k = some ord → ord.st ≠ .rejected → ord.engId ∈ ackIds h)
    ⟨inv_init cfg, List.Pairwise.nil, by simp [ackIds], by simp⟩ ?_ calls
  rintro e history call ⟨hinv, hsorted, hbound, hstored⟩
  rw [ackIds_concat]
  refine ⟨inv_step hinv call, ?_, ?_, ?_⟩
  · rcases ackIds_step cfg hinv.indexed call with ⟨hids, -⟩ | ⟨hids, -⟩
    · rw [hids, List.append_nil]
      exact hsorted
    · rw [hids, List.pairwise_append]
      refine ⟨hsorted, List.pairwise_singleton _ _, ?_⟩
      intro id hid id' hid'
      rw [List.mem_singleton.mp hid']
      exact (hbound id hid).2
  · intro id hid
    rcases ackIds_step cfg hinv.indexed call with ⟨hids, hnext⟩ | ⟨hids, hnext⟩
    · rw [hids, List.append_nil] at hid
      rw [hnext]
      exact hbound id hid
    · rw [hids, List.mem_append, List.mem_singleton] at hid
      rw [hnext]
      rcases hid with hid | rfl
      · exact ⟨(hbound id hid).1, Nat.lt_succ_of_lt (hbound id hid).2⟩
      · exact ⟨hinv.nextEngId_pos, Nat.lt_succ_self _⟩
  · intro k ord hord hst
    rw [List.mem_append]
    rcases engId_step hinv call hord hst with ⟨ord₀, hord₀, hst₀, hid⟩ | hid
    · exact Or.inl (hid ▸ hstored k ord₀ hord₀ hst₀)
    · exact Or.inr hid

/-- After every run of the four entry points on a fresh engine: each live index lists exactly the
live orders of its side, each once and in key order; a session's counter is its number of keys,
with no node at zero; `live_count` is the number of live orders and stays within
`max_live_orders`; live orders have a positive bounded remainder and a price in range; and
`eng_id`s of accepted orders, stored or reported, are distinct, non-zero and below
`next_eng_id_`. -/
theorem run_containers (cfg : EngineConfig) (calls : List Call) :
    let e := (run cfg calls).1
    (∀ side, (e.liveIndex side).keys.Pairwise (· < ·) ∧
      (e.liveIndex side).keys =
        (e.orders.toList.filter fun p => p.2.st = .live ∧ p.2.side = side).map Prod.fst) ∧
    (∀ s, e.entriesBySession.find? s =
      counterNode (e.orders.keys.countP fun k => k.session = s)) ∧
    (∀ s, e.liveCount s =
        e.orders.toList.countP (fun p => p.1.session = s ∧ p.2.st = .live) ∧
      (e.liveCount s : ℤ) ≤ cfg.inst.maxLiveOrders) ∧
    (∀ k ord, (k, ord) ∈ e.orders.toList → ord.st = .live →
      0 < ord.leaves ∧ ord.leaves ≤ cfg.inst.maxOrderQty ∧
        cfg.inst.minPrice ≤ toRawPx cfg.inst ord.px ∧
        toRawPx cfg.inst ord.px ≤ cfg.inst.maxPrice) ∧
    (∀ k ord k' ord', (k, ord) ∈ e.orders.toList → (k', ord') ∈ e.orders.toList →
      ord.st ≠ .rejected → ord'.st ≠ .rejected → ord.engId = ord'.engId → k = k') ∧
    (∀ k ord, (k, ord) ∈ e.orders.toList → ord.st ≠ .rejected →
      ord.engId ∈ ackIds (run cfg calls).2) ∧
    (ackIds (run cfg calls).2).Nodup ∧
    ∀ id ∈ ackIds (run cfg calls).2, id ≠ 0 ∧ id < e.nextEngId := by
  obtain ⟨hinv, hsorted, hbound, hstored⟩ := ackIds_run cfg calls
  simp only [← OrderedMap.find?_eq_some_iff]
  refine ⟨fun side => ⟨OrderedMap.keys_sorted _, hinv.indexed.keys_eq side⟩, fun s => ?_,
    fun s => ⟨?_, ?_⟩, fun k ord hord hst => ?_, hinv.engId_inj, hstored,
    hsorted.imp ne_of_lt, fun id hid => ⟨(hbound id hid).1.ne', (hbound id hid).2⟩⟩
  · rw [hinv.entries, OrderedMap.keys, List.countP_map]
    rfl
  · rw [liveCount_eq hinv.indexed]
    rfl
  · have hcap := hinv.liveCap s
    rw [liveCount_eq hinv.indexed]
    have := cfg.maxLiveOrders_nonneg
    omega
  · obtain ⟨h1, h2, h3, h4⟩ := hinv.live k ord hord hst
    exact ⟨h1, h2, h3, h4⟩

end OrderEngine

end MarketMaker
