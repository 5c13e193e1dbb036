import MarketMaker.Engine.Basic

/-!
# The fill sweep

`on_book` walks the live indexes, stages a batch and commits it order by order. On a state whose
indexes agree with `orders_` (`Indexed`) this module gives the batch and the resulting orders in
one formula each, without the indexes and without the commit loop:

* `sweep_eq`: the reports are the fills of the crossed live orders of `orders_`, bids before
  asks, in key order, with consecutive `exec_id`s;
* `onBook_of_fresh`: after the commit every order is `swept`, which touches exactly the crossed
  live orders, and the indexes agree with `orders_` again.
-/

namespace MarketMaker

namespace OrderEngine

variable {cfg : EngineConfig} {e : OrderEngine} {book : Book}

/-! ## Live indexes -/

/-- Each live index holds exactly the keys of the live orders of its side. -/
def Indexed (e : OrderEngine) : Prop :=
  ∀ side key, key ∈ (e.liveIndex side).keys ↔
    ∃ ord, e.orders.find? key = some ord ∧ ord.st = .live ∧ ord.side = side

/-- The index of a side is replaced. -/
@[simp]
theorem liveIndex_setLiveIndex_self (e : OrderEngine) (side : Side) (live : OrderedSet OrderKey) :
    (e.setLiveIndex side live).liveIndex side = live := by
  cases side <;> rfl

/-- The other index stays. -/
theorem liveIndex_setLiveIndex_of_ne (e : OrderEngine) {side side' : Side}
    (live : OrderedSet OrderKey) (h : side' ≠ side) :
    (e.setLiveIndex side live).liveIndex side' = e.liveIndex side' := by
  cases side <;> cases side' <;> first | rfl | exact absurd rfl h

@[simp]
theorem orders_setLiveIndex (e : OrderEngine) (side : Side) (live : OrderedSet OrderKey) :
    (e.setLiveIndex side live).orders = e.orders := by
  cases side <;> rfl

@[simp]
theorem book_setLiveIndex (e : OrderEngine) (side : Side) (live : OrderedSet OrderKey) :
    (e.setLiveIndex side live).book = e.book := by
  cases side <;> rfl

@[simp]
theorem bookSeen_setLiveIndex (e : OrderEngine) (side : Side) (live : OrderedSet OrderKey) :
    (e.setLiveIndex side live).bookSeen = e.bookSeen := by
  cases side <;> rfl

@[simp]
theorem nextEngId_setLiveIndex (e : OrderEngine) (side : Side) (live : OrderedSet OrderKey) :
    (e.setLiveIndex side live).nextEngId = e.nextEngId := by
  cases side <;> rfl

@[simp]
theorem nextExecId_setLiveIndex (e : OrderEngine) (side : Side) (live : OrderedSet OrderKey) :
    (e.setLiveIndex side live).nextExecId = e.nextExecId := by
  cases side <;> rfl

@[simp]
theorem staleBooksIgnored_setLiveIndex (e : OrderEngine) (side : Side)
    (live : OrderedSet OrderKey) :
    (e.setLiveIndex side live).staleBooksIgnored = e.staleBooksIgnored := by
  cases side <;> rfl

@[simp]
theorem entriesBySession_setLiveIndex (e : OrderEngine) (side : Side)
    (live : OrderedSet OrderKey) :
    (e.setLiveIndex side live).entriesBySession = e.entriesBySession := by
  cases side <;> rfl

/-- The live index of a side is the list of its live orders' keys, in key order. -/
theorem Indexed.keys_eq (h : e.Indexed) (side : Side) :
    (e.liveIndex side).keys =
      (e.orders.toList.filter fun p => p.2.st = .live ∧ p.2.side = side).map Prod.fst := by
  -- the right-hand side is the key list of a filtered map, so both sides are sorted
  let live : OrderedSet OrderKey :=
    (e.orders.filter fun _ o => o.st = .live ∧ o.side = side).mapVal fun _ _ => ()
  have hlive : live.keys =
      (e.orders.toList.filter fun p => p.2.st = .live ∧ p.2.side = side).map Prod.fst := by
    simp only [live, OrderedMap.keys_mapVal]
    rfl
  have heq : e.liveIndex side = live := by
    refine OrderedMap.ext_keys fun k => ?_
    rw [h side k, OrderedMap.mem_keys_iff]
    simp only [live, OrderedMap.find?_mapVal, OrderedMap.find?_filter]
    constructor
    · rintro ⟨ord, hord, hst, hside⟩
      exact ⟨(), by simp [hord, hst, hside]⟩
    · rintro ⟨_, hv⟩
      obtain ⟨ord, hord, -⟩ := Option.map_eq_some_iff.mp hv
      obtain ⟨hfind, hp⟩ := Option.filter_eq_some_iff.mp hord
      simp only [decide_eq_true_eq] at hp
      exact ⟨ord, hfind, hp⟩
  rw [heq, hlive]

/-! ## The staged batch -/

/-- The order is live and the opposite side of `book` is present and crosses its limit. -/
def isFilled (cfg : EngineConfig) (book : Book) (ord : Order) : Bool :=
  ord.st = .live && crosses book ord.side (toRawPx cfg.inst ord.px)

/-- The quantity a crossed order trades. -/
def fillQty (book : Book) (ord : Order) : ℤ := min ord.leaves (oppQty book ord.side)

/-- The fill of a crossed order. -/
def fillOf (cfg : EngineConfig) (book : Book) (key : OrderKey) (ord : Order) (execId : ℕ) : Fill :=
  { clId := key.clId, engId := ord.engId, px := toRawPx cfg.inst ord.px, qty := fillQty book ord,
    leaves := ord.leaves - fillQty book ord, execId }

/-- The orders of one side that `book` fills, in key order. -/
def filledOn (cfg : EngineConfig) (book : Book) (orders : OrderedMap OrderKey Order) (side : Side) :
    List (OrderKey × Order) :=
  orders.toList.filter fun p => p.2.side = side ∧ isFilled cfg book p.2

/-- The orders that `book` fills, bids before asks. -/
def filledBy (cfg : EngineConfig) (book : Book) (orders : OrderedMap OrderKey Order) :
    List (OrderKey × Order) :=
  filledOn cfg book orders .bid ++ filledOn cfg book orders .ask

/-- The fills of a list of orders, numbered consecutively from `execId`. -/
def fillsFrom (cfg : EngineConfig) (book : Book) (execId : ℕ) :
    List (OrderKey × Order) → List Routed
  | [] => []
  | (key, ord) :: rest =>
    ⟨key.session, .fill (fillOf cfg book key ord execId)⟩ :: fillsFrom cfg book (execId + 1) rest

/-- The staged entries of a list of orders. -/
def stagedOf (book : Book) (l : List (OrderKey × Order)) : List StagedFill :=
  l.map fun p => ⟨p.1, p.2.side, p.2.leaves - fillQty book p.2⟩

/-- Fills are numbered on over the sides. -/
theorem fillsFrom_append (n : ℕ) (l₁ l₂ : List (OrderKey × Order)) :
    fillsFrom cfg book n (l₁ ++ l₂) =
      fillsFrom cfg book n l₁ ++ fillsFrom cfg book (n + l₁.length) l₂ := by
  induction l₁ generalizing n with
  | nil => simp [fillsFrom]
  | cons p l ih =>
    simp only [List.cons_append, fillsFrom, ih, List.length_cons]
    rw [show n + 1 + l.length = n + (l.length + 1) by omega]

/-- A fill is of one of the orders. -/
theorem mem_fillsFrom {n : ℕ} {l : List (OrderKey × Order)} {r : Routed}
    (h : r ∈ fillsFrom cfg book n l) :
    ∃ key ord execId, (key, ord) ∈ l ∧
      r = ⟨key.session, .fill (fillOf cfg book key ord execId)⟩ := by
  induction l generalizing n with
  | nil => cases h
  | cons p l ih =>
    rcases List.mem_cons.mp h with rfl | h
    · exact ⟨p.1, p.2, n, List.mem_cons_self, rfl⟩
    · obtain ⟨key, ord, execId, hmem, rfl⟩ := ih h
      exact ⟨key, ord, execId, List.mem_cons_of_mem _ hmem, rfl⟩

/-- The orders that a book fills are stored and crossed. -/
theorem mem_filledBy {p : OrderKey × Order} :
    p ∈ filledBy cfg book e.orders ↔
      e.orders.find? p.1 = some p.2 ∧ isFilled cfg book p.2 = true := by
  obtain ⟨k, o⟩ := p
  rw [OrderedMap.find?_eq_some_iff]
  simp only [filledBy, filledOn, List.mem_append, List.mem_filter, decide_eq_true_eq]
  cases o.side <;> simp

/-- Each is filled once. -/
theorem nodup_filledBy : ((filledBy cfg book e.orders).map Prod.fst).Nodup := by
  have hside : ∀ side, ((filledOn cfg book e.orders side).map Prod.fst).Nodup := fun side =>
    e.orders.keys_nodup.sublist (List.Sublist.map _ List.filter_sublist)
  rw [filledBy, List.map_append, List.nodup_append]
  refine ⟨hside _, hside _, ?_⟩
  intro k hk k' hk' heq
  obtain ⟨⟨_, o⟩, hp, rfl⟩ := List.mem_map.mp hk
  obtain ⟨⟨_, o'⟩, hp', rfl⟩ := List.mem_map.mp hk'
  simp only [filledOn, List.mem_filter, decide_eq_true_eq] at hp hp' heq
  subst heq
  -- one key holds one order, which has one side
  have := OrderedMap.eq_of_mem_of_mem hp.1 hp'.1
  subst this
  rw [hp.2.1] at hp'
  cases hp'.2.1

/-- The inner loop over a list of stored orders stages the fills of the crossed ones. -/
private theorem foldl_stageFill (side : Side) (l : List (OrderKey × Order)) (acc : Sweep)
    (hl : ∀ p ∈ l, e.orders.find? p.1 = some p.2 ∧ p.2.side = side) :
    (l.map Prod.fst).foldl (stageFill cfg e book side) acc =
      let hit := l.filter fun p => crossed side (oppPx book side) (toRawPx cfg.inst p.2.px)
      { staged := acc.staged ++ stagedOf book hit
        out := acc.out ++ fillsFrom cfg book acc.execId hit
        execId := acc.execId + hit.length } := by
  induction l generalizing acc with
  | nil => simp [stagedOf, fillsFrom]
  | cons p l ih =>
    obtain ⟨key, ord⟩ := p
    obtain ⟨hfind, hside⟩ := hl _ List.mem_cons_self
    have htail := fun acc => ih acc fun q hq => hl q (List.mem_cons_of_mem _ hq)
    simp only [List.map_cons, List.foldl_cons]
    rw [htail]
    simp only at hfind hside
    by_cases hc : crossed side (oppPx book side) (toRawPx cfg.inst ord.px) = true
    · subst hside
      have hstage : stageFill cfg e book ord.side acc key =
          { staged := acc.staged ++ [⟨key, ord.side, ord.leaves - fillQty book ord⟩]
            out := acc.out ++ [⟨key.session, .fill (fillOf cfg book key ord acc.execId)⟩]
            execId := acc.execId + 1 } := by
        simp [stageFill, hfind, hc, fillOf, fillQty]
      rw [hstage, List.filter_cons_of_pos (by simpa using hc)]
      simp only [stagedOf, fillsFrom, List.map_cons, List.length_cons, List.append_assoc,
        List.singleton_append, Sweep.mk.injEq, true_and]
      omega
    · have hstage : stageFill cfg e book side acc key = acc := by
        simp [stageFill, hfind, hc]
      rw [hstage, List.filter_cons_of_neg (by simpa using hc)]

/-- The sweep of one side stages the fills of the orders in `filledOn`. -/
private theorem sweepSide_eq (h : e.Indexed) (acc : Sweep) (side : Side) :
    sweepSide cfg e book acc side =
      { staged := acc.staged ++ stagedOf book (filledOn cfg book e.orders side)
        out := acc.out ++ fillsFrom cfg book acc.execId (filledOn cfg book e.orders side)
        execId := acc.execId + (filledOn cfg book e.orders side).length } := by
  by_cases habs : oppQty book side ≤ 0 ∨ oppPx book side ≤ 0
  · -- an absent opposite side crosses nothing
    have hnil : filledOn cfg book e.orders side = [] := by
      rw [filledOn, List.filter_eq_nil_iff]
      rintro ⟨k, o⟩ - hp
      simp only [isFilled, crosses, Bool.and_eq_true, decide_eq_true_eq] at hp
      obtain ⟨rfl, -, ⟨hq, hpx⟩, -⟩ := hp
      omega
    rw [sweepSide, if_pos habs, hnil]
    simp [stagedOf, fillsFrom]
  · rw [sweepSide, if_neg habs, h.keys_eq side, foldl_stageFill]
    · push Not at habs
      have hfilter : ((e.orders.toList.filter fun p => p.2.st = .live ∧ p.2.side = side).filter
          fun p => crossed side (oppPx book side) (toRawPx cfg.inst p.2.px)) =
            filledOn cfg book e.orders side := by
        rw [filledOn, List.filter_filter]
        refine List.filter_congr fun p _ => ?_
        rw [Bool.eq_iff_iff]
        simp only [isFilled, crosses, Bool.and_eq_true, decide_eq_true_eq]
        constructor
        · rintro ⟨hc, hst, rfl⟩
          exact ⟨rfl, hst, ⟨habs.1, habs.2⟩, hc⟩
        · rintro ⟨rfl, hst, -, hc⟩
          exact ⟨hc, hst, rfl⟩
      rw [hfilter]
    · intro p hp
      obtain ⟨hmem, hp⟩ := List.mem_filter.mp hp
      simp only [decide_eq_true_eq] at hp
      exact ⟨OrderedMap.find?_eq_some_iff.mpr hmem, hp.2⟩

/-- The whole batch: the fills of `filledBy`, numbered from `next_exec_id_`. -/
theorem sweep_eq (h : e.Indexed) :
    sweep cfg e book =
      { staged := stagedOf book (filledBy cfg book e.orders)
        out := fillsFrom cfg book e.nextExecId (filledBy cfg book e.orders)
        execId := e.nextExecId + (filledBy cfg book e.orders).length } := by
  simp only [sweep, List.foldl_cons, List.foldl_nil, sweepSide_eq h, List.nil_append, filledBy,
    fillsFrom_append, List.length_append]
  simp only [stagedOf, List.map_append, Sweep.mk.injEq, true_and]
  omega

/-! ## The commit -/

/-- An order after a book: a crossed live one loses what it traded, and is terminal once nothing
is left. -/
def swept (cfg : EngineConfig) (book : Book) (ord : Order) : Order :=
  if isFilled cfg book ord then
    { ord with
      leaves := ord.leaves - fillQty book ord
      st := if ord.leaves - fillQty book ord = 0 then .filled else .live }
  else ord

/-- A filled order loses what was filled. -/
theorem swept_of_isFilled {ord : Order} (h : isFilled cfg book ord = true) :
    swept cfg book ord =
      { ord with
        leaves := ord.leaves - fillQty book ord
        st := if ord.leaves - fillQty book ord = 0 then .filled else .live } :=
  if_pos h

/-- Any other order stays. -/
theorem swept_of_not_isFilled {ord : Order} (h : ¬isFilled cfg book ord = true) :
    swept cfg book ord = ord :=
  if_neg h

/-- Only a live order is filled. -/
theorem st_of_isFilled {ord : Order} (h : isFilled cfg book ord = true) : ord.st = .live := by
  simp only [isFilled, Bool.and_eq_true, decide_eq_true_eq] at h
  exact h.1

/-- A sweep keeps sides. -/
@[simp]
theorem side_swept (ord : Order) : (swept cfg book ord).side = ord.side := by
  unfold swept
  split_ifs <;> rfl

/-- It keeps `eng_id`s. -/
@[simp]
theorem engId_swept (ord : Order) : (swept cfg book ord).engId = ord.engId := by
  unfold swept
  split_ifs <;> rfl

/-- It keeps prices. -/
@[simp]
theorem px_swept (ord : Order) : (swept cfg book ord).px = ord.px := by
  unfold swept
  split_ifs <;> rfl

/-- An order stays live exactly when the book does not trade all of it. -/
theorem st_swept_eq_live_iff (ord : Order) :
    (swept cfg book ord).st = .live ↔
      ord.st = .live ∧ ¬(isFilled cfg book ord = true ∧ ord.leaves - fillQty book ord = 0) := by
  unfold swept
  by_cases hfill : isFilled cfg book ord = true
  · by_cases h0 : ord.leaves - fillQty book ord = 0
    · simp [hfill, h0]
    · simp [hfill, h0, st_of_isFilled hfill]
  · simp [hfill]

/-- What committing one staged fill does to the order it names. -/
private def commitOrder (leavesAfter : ℤ) (ord : Order) : Order :=
  { ord with leaves := leavesAfter, st := if leavesAfter = 0 then .filled else ord.st }

/-- Committing a fill changes its order. -/
private theorem find?_commitFill (e : OrderEngine) (f : StagedFill) (k : OrderKey) :
    (commitFill e f).orders.find? k =
      if k = f.key then (e.orders.find? k).map (commitOrder f.leavesAfter)
      else e.orders.find? k := by
  unfold commitFill
  by_cases h0 : f.leavesAfter = 0
  · simp only [h0, ↓reduceIte]
    rw [OrderedMap.find?_modify, OrderedMap.find?_modify]
    split_ifs with hk
    · rw [Option.map_map]
      rfl
    · rfl
  · simp only [h0, ↓reduceIte]
    rw [OrderedMap.find?_modify]
    split_ifs with hk
    · have : commitOrder f.leavesAfter = fun o => { o with leaves := f.leavesAfter } := by
        funext o
        rw [commitOrder, if_neg h0]
      rw [this]
    · rfl

/-- An order that is filled whole leaves its index. -/
private theorem mem_liveIndex_commitFill (e : OrderEngine) (f : StagedFill) (side : Side)
    (k : OrderKey) :
    k ∈ ((commitFill e f).liveIndex side).keys ↔
      k ∈ (e.liveIndex side).keys ∧ ¬(f.leavesAfter = 0 ∧ f.side = side ∧ k = f.key) := by
  unfold commitFill
  by_cases h0 : f.leavesAfter = 0
  · simp only [h0, ↓reduceIte, true_and]
    by_cases hs : f.side = side
    · subst hs
      cases hf : f.side <;>
        simp [setLiveIndex, liveIndex, OrderedMap.mem_keys_erase, and_comm]
    · cases hf : f.side <;> cases side <;> simp_all [setLiveIndex, liveIndex]
  · simp only [h0, ↓reduceIte, false_and, not_false_eq_true, and_true]
    cases side <;> rfl

/-- After the commit loop over distinct orders, exactly those orders have changed. -/
private theorem find?_foldl_commitFill (l : List StagedFill) (hl : (l.map (·.key)).Nodup)
    (e : OrderEngine) (k : OrderKey) :
    (l.foldl commitFill e).orders.find? k =
      ((l.find? fun f => f.key = k).elim (e.orders.find? k) fun f =>
        (e.orders.find? k).map (commitOrder f.leavesAfter)) := by
  induction l generalizing e with
  | nil => rfl
  | cons f l ih =>
    rw [List.map_cons, List.nodup_cons] at hl
    rw [List.foldl_cons, ih hl.2]
    by_cases hk : f.key = k
    · -- no later staged fill names the same order
      have hnone : (l.find? fun g => g.key = k) = none := by
        rw [List.find?_eq_none]
        intro g hg hgk
        exact hl.1 (List.mem_map.mpr ⟨g, hg, by simpa [hk] using hgk⟩)
      rw [hnone, List.find?_cons_of_pos (by simpa using hk), Option.elim_none, Option.elim_some,
        find?_commitFill, if_pos hk.symm]
    · rw [List.find?_cons_of_neg (by simpa using hk), find?_commitFill, if_neg (Ne.symm hk)]

/-- So for all the fills of a book. -/
private theorem mem_liveIndex_foldl_commitFill (l : List StagedFill) (e : OrderEngine)
    (side : Side) (k : OrderKey) :
    k ∈ ((l.foldl commitFill e).liveIndex side).keys ↔
      k ∈ (e.liveIndex side).keys ∧ ∀ f ∈ l, ¬(f.leavesAfter = 0 ∧ f.side = side ∧ k = f.key) := by
  induction l generalizing e with
  | nil => simp
  | cons f l ih =>
    rw [List.foldl_cons, ih, mem_liveIndex_commitFill, List.forall_mem_cons, and_assoc]

/-- The commit loop touches only `orders_` and the live indexes. -/
private theorem foldl_commitFill_frame (l : List StagedFill) (e : OrderEngine) :
    (l.foldl commitFill e).book = e.book ∧ (l.foldl commitFill e).bookSeen = e.bookSeen ∧
      (l.foldl commitFill e).nextEngId = e.nextEngId ∧
      (l.foldl commitFill e).nextExecId = e.nextExecId ∧
      (l.foldl commitFill e).staleBooksIgnored = e.staleBooksIgnored ∧
      (l.foldl commitFill e).entriesBySession = e.entriesBySession := by
  induction l generalizing e with
  | nil => simp
  | cons f l ih =>
    rw [List.foldl_cons]
    obtain ⟨h1, h2, h3, h4, h5, h6⟩ := ih (commitFill e f)
    rw [h1, h2, h3, h4, h5, h6]
    unfold commitFill
    by_cases h0 : f.leavesAfter = 0 <;> simp [h0]

/-- Fills store nothing. -/
theorem entriesBySession_commitFills (l : List StagedFill) (e : OrderEngine) :
    (l.foldl commitFill e).entriesBySession = e.entriesBySession :=
  (foldl_commitFill_frame l e).2.2.2.2.2

/-- The staged entry of a key, if any, is the fill of the order stored there. -/
private theorem find?_stagedOf (k : OrderKey) :
    ((stagedOf book (filledBy cfg book e.orders)).find? fun f => f.key = k) =
      ((e.orders.find? k).filter (isFilled cfg book)).map
        fun o => ⟨k, o.side, o.leaves - fillQty book o⟩ := by
  cases hfind : (stagedOf book (filledBy cfg book e.orders)).find? fun f => f.key = k with
  | none =>
    symm
    rw [Option.map_eq_none_iff, Option.filter_eq_none_iff]
    intro o ho hfill
    have hmem : (k, o) ∈ filledBy cfg book e.orders := mem_filledBy.mpr ⟨ho, hfill⟩
    exact absurd (List.find?_eq_none.mp hfind _ (List.mem_map.mpr ⟨_, hmem, rfl⟩)) (by simp)
  | some f =>
    obtain ⟨⟨k', o⟩, hmem, rfl⟩ := List.mem_map.mp (List.mem_of_find?_eq_some hfind)
    have hk : k' = k := by simpa using List.find?_some hfind
    subst hk
    obtain ⟨ho, hfill⟩ := mem_filledBy.mp hmem
    simp only at ho hfill
    rw [ho, Option.filter_some, if_pos hfill, Option.map_some]

/-- The commit loop sweeps every stored order. -/
private theorem find?_commit (e : OrderEngine) (k : OrderKey) :
    ((stagedOf book (filledBy cfg book e.orders)).foldl commitFill e).orders.find? k =
      (e.orders.find? k).map (swept cfg book) := by
  have hkeys : ((stagedOf book (filledBy cfg book e.orders)).map (·.key)).Nodup := by
    have : (stagedOf book (filledBy cfg book e.orders)).map (·.key) =
        (filledBy cfg book e.orders).map Prod.fst := by
      simp [stagedOf]
    rw [this]
    exact nodup_filledBy
  rw [find?_foldl_commitFill _ hkeys, find?_stagedOf]
  cases ho : e.orders.find? k with
  | none => rfl
  | some o =>
    by_cases hfill : isFilled cfg book o = true
    · rw [Option.filter_some, if_pos hfill]
      simp [swept, hfill, commitOrder, st_of_isFilled hfill]
    · rw [Option.filter_some, if_neg hfill]
      simp [swept, hfill]

/-- The commit loop keeps the live indexes in agreement with `orders_`. -/
private theorem indexed_commit (h : e.Indexed) :
    ((stagedOf book (filledBy cfg book e.orders)).foldl commitFill e).Indexed := by
  intro side k
  rw [mem_liveIndex_foldl_commitFill, h side k, find?_commit]
  constructor
  · rintro ⟨⟨o, ho, hst, hside⟩, hnot⟩
    refine ⟨swept cfg book o, by rw [ho]; rfl, ?_, by rw [side_swept, hside]⟩
    rw [st_swept_eq_live_iff]
    refine ⟨hst, ?_⟩
    rintro ⟨hfill, h0⟩
    have hmem : (k, o) ∈ filledBy cfg book e.orders := mem_filledBy.mpr ⟨ho, hfill⟩
    exact hnot _ (List.mem_map.mpr ⟨_, hmem, rfl⟩) ⟨h0, hside, rfl⟩
  · rintro ⟨o', ho', hst', hside'⟩
    obtain ⟨o, ho, rfl⟩ := Option.map_eq_some_iff.mp ho'
    rw [st_swept_eq_live_iff] at hst'
    rw [side_swept] at hside'
    refine ⟨⟨o, ho, hst'.1, hside'⟩, ?_⟩
    rintro f hf ⟨h0, -, rfl⟩
    obtain ⟨⟨k', o₂⟩, hmem, rfl⟩ := List.mem_map.mp hf
    obtain ⟨ho₂, hfill₂⟩ := mem_filledBy.mp hmem
    simp only at ho₂ ho h0 hfill₂
    rw [ho] at ho₂
    cases ho₂
    exact hst'.2 ⟨hfill₂, h0⟩

/-! ## `on_book` -/

/-- The book is processed: it is the first one, or newer than the last processed one. -/
def isFresh (e : OrderEngine) (book : Book) : Prop :=
  ¬(e.bookSeen = true ∧ book.mdSeq ≤ e.book.mdSeq)

instance : Decidable (e.isFresh book) := by
  unfold isFresh
  infer_instance

/-- Everything `on_book` does to the state, on a book it processes. -/
structure Installed (cfg : EngineConfig) (e : OrderEngine) (b : Book) (e' : OrderEngine) :
    Prop where
  book : e'.book = b
  bookSeen : e'.bookSeen = true
  nextEngId : e'.nextEngId = e.nextEngId
  nextExecId : e'.nextExecId = e.nextExecId + (filledBy cfg b e.orders).length
  staleBooksIgnored : e'.staleBooksIgnored = e.staleBooksIgnored
  entriesBySession : e'.entriesBySession = e.entriesBySession
  orders : e'.orders = e.orders.mapVal fun _ ord => swept cfg b ord
  indexed : e'.Indexed

/-- `on_book` on a processed book: `orders_` is swept and the reports are the fills. -/
theorem onBook_of_fresh (cfg : EngineConfig) (h : e.Indexed) (hfresh : e.isFresh book) :
    Installed cfg e book (onBook cfg e book).1 ∧
      (onBook cfg e book).2 =
        fillsFrom cfg book e.nextExecId (filledBy cfg book e.orders) := by
  have hguard : ¬(e.bookSeen && decide (book.mdSeq ≤ e.book.mdSeq)) = true := by
    simpa [isFresh] using hfresh
  simp only [onBook, if_neg hguard, sweep_eq h]
  refine ⟨?_, trivial⟩
  let e₀ : OrderEngine :=
    { e with
      bookSeen := true, book, nextExecId := e.nextExecId + (filledBy cfg book e.orders).length }
  have h₀ : e₀.Indexed := fun side k => by
    cases side
    · exact h .bid k
    · exact h .ask k
  obtain ⟨h1, h2, h3, h4, h5, h6⟩ :=
    foldl_commitFill_frame (stagedOf book (filledBy cfg book e.orders)) e₀
  refine ⟨h1, h2, h3, h4, h5, h6, OrderedMap.ext_find? fun k => ?_, indexed_commit h₀⟩
  rw [OrderedMap.find?_mapVal]
  exact find?_commit e₀ k

/-- After the book every order is swept. -/
theorem Installed.find? {e' : OrderEngine} (h : Installed cfg e book e') (k : OrderKey) :
    e'.orders.find? k = (e.orders.find? k).map (swept cfg book) := by
  rw [h.orders, OrderedMap.find?_mapVal]

/-- `on_book` on a stale book only counts it. -/
theorem onBook_of_not_fresh (hstale : ¬e.isFresh book) :
    onBook cfg e book = ({ e with staleBooksIgnored := e.staleBooksIgnored + 1 }, []) := by
  have hguard : (e.bookSeen && decide (book.mdSeq ≤ e.book.mdSeq)) = true := by
    simpa [isFresh] using hstale
  simp [onBook, hguard]

end OrderEngine

end MarketMaker
