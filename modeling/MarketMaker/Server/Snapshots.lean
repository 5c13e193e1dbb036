import MarketMaker.Server.Ledger
import Mathlib.Algebra.BigOperators.Fin

/-!
# What the snapshots report

A snapshot sums over the sessions in the map what each of them has: its live orders in the engine
and its superseded ticks. With the base that closed sessions have left, these are the sums over the
whole engine and over every session that ever existed (`World.Reports`), whether the snapshot is
taken by the timer, by a teardown or by a stop. A sum of the second kind never decreases.
-/

namespace MarketMaker

/-! ## Sums over a part of a list -/

/-- Counting group by group counts everything once, if every group that occurs is listed once. -/
theorem sum_countP_groups {α β : Type} [DecidableEq β] {groups : List β} (hnodup : groups.Nodup)
    (group : α → β) (p : α → Bool) (xs : List α) (hlisted : ∀ x ∈ xs, p x → group x ∈ groups) :
    (groups.map fun g => xs.countP fun x => group x = g ∧ p x).sum = xs.countP p := by
  induction xs with
  | nil => simp
  | cons x xs ih =>
    have hrest := ih fun y hy => hlisted y (List.mem_cons_of_mem _ hy)
    -- the head is counted in its own group only
    have hhead : (groups.map fun g => if group x = g ∧ p x then 1 else 0).sum =
        if p x then 1 else 0 := by
      rw [← List.sum_toFinset _ hnodup]
      cases hp : p x with
      | false => simp
      | true =>
        have hmem : group x ∈ groups.toFinset :=
          List.mem_toFinset.mpr (hlisted x List.mem_cons_self hp)
        simp [Finset.sum_ite_eq, List.mem_toFinset.mp hmem]
    simp only [List.countP_cons, decide_eq_true_eq]
    rw [List.sum_map_add, hrest, hhead]

/-- A sum over distinct positions is the sum over the list, if it is zero at all others. -/
theorem sum_map_positions {α : Type} (xs : List α) (f : α → ℕ) {positions : List ℕ}
    (hnodup : positions.Nodup) (hmem : ∀ i ∈ positions, i < xs.length)
    (hzero : ∀ (i : ℕ) x, xs[i]? = some x → i ∉ positions → f x = 0) :
    (positions.map fun i => (xs[i]?.map f).getD 0).sum = (xs.map f).sum := by
  rw [← List.sum_toFinset _ hnodup, ← Fin.sum_univ_fun_getElem]
  have hall : ∑ i ∈ Finset.range xs.length, (xs[i]?.map f).getD 0 =
      ∑ i : Fin xs.length, f xs[i] := by
    rw [Finset.sum_range]
    exact Finset.sum_congr rfl fun i _ => by simp
  refine Eq.trans (Finset.sum_subset ?_ ?_) hall
  · intro i hi
    exact Finset.mem_range.mpr (hmem i (List.mem_toFinset.mp hi))
  · intro i hi hnot
    have hlt : i < xs.length := Finset.mem_range.mp hi
    rw [List.getElem?_eq_getElem hlt]
    exact hzero i xs[i] (List.getElem?_eq_getElem hlt) fun hin => hnot (List.mem_toFinset.mpr hin)

/-- The number of live orders in `orders_`. -/
def OrderEngine.liveOrders (e : OrderEngine) : ℕ := e.orders.count fun _ o => o.st = .live

namespace World

variable {cfg : ServerConfig} {codec : Codec} {w w' : World}

/-- The ticks superseded in every session that ever existed. -/
def conflated (w : World) : ℕ := (w.heap.map fun x => x.outbox.conflated).sum

/-- Every live order belongs to one session of the map. -/
theorem Inv.liveOrders (h : w.Inv cfg) :
    (w.srv.sessions.toList.map fun p => w.srv.engine.liveCount p.1).sum =
      w.srv.engine.liveOrders := by
  have hindexed : w.srv.engine.Indexed := h.net.roster.engineInv.indexed
  have hgroups := sum_countP_groups w.srv.sessions.keys_nodup
    (fun p : OrderKey × Order => p.1.session) (fun p => decide (p.2.st = .live))
    w.srv.engine.orders.toList fun p hp _ => by
      obtain ⟨i, -, hfind, -⟩ := h.owner p.1 p.2 (OrderedMap.find?_eq_some_iff.mpr hp)
      exact OrderedMap.mem_keys_iff.mpr ⟨i, hfind⟩
  rw [OrderedMap.keys, List.map_map] at hgroups
  rw [OrderEngine.liveOrders, OrderedMap.count, ← hgroups]
  refine congrArg List.sum (List.map_congr_left fun p _ => ?_)
  refine (OrderEngine.liveCount_eq hindexed p.1).trans ?_
  simp [OrderEngine.liveTotal, OrderedMap.count]

/-- The base and the sessions of the map have all superseded ticks between them. -/
theorem Inv.conflated (h : w.Inv cfg) (hb : w.Balanced) :
    w.srv.conflatedBase + (w.srv.sessions.toList.map fun p =>
      (w.heap[p.2]?.map fun x => x.outbox.conflated).getD 0).sum = w.conflated := by
  -- what a session that is up has superseded is in its outbox only
  let own : Session → ℕ := fun x => if x.tornDown then 0 else x.outbox.conflated
  have hopen : ∀ p ∈ w.srv.sessions.toList, ∃ x, w.heap[p.2]? = some x ∧ x.epoch = p.1 ∧
      x.tornDown = false := by
    rintro ⟨e, i⟩ hp
    obtain ⟨-, x, hx, hepoch, hup⟩ := h.mapped.mp (OrderedMap.find?_eq_some_iff.mpr hp)
    exact ⟨x, hx, hepoch, hup⟩
  have hnodup : (w.srv.sessions.toList.map Prod.snd).Nodup := by
    refine List.Nodup.map_on ?_ (List.Nodup.of_map _ w.srv.sessions.keys_nodup)
    rintro ⟨e, i⟩ hp ⟨e', i'⟩ hp' hsame
    -- an object has one epoch
    obtain ⟨x, hx, hepoch, -⟩ := hopen _ hp
    obtain ⟨x', hx', hepoch', -⟩ := hopen _ hp'
    dsimp only at hsame hx hx' hepoch hepoch'
    subst hsame
    cases hx.symm.trans hx'
    rw [← hepoch, ← hepoch']
  have hown := sum_map_positions w.heap own hnodup
    (fun i hi => by
      obtain ⟨p, hp, rfl⟩ := List.mem_map.mp hi
      obtain ⟨x, hx, -⟩ := hopen p hp
      exact (List.getElem?_eq_some_iff.mp hx).1)
    fun i x hx hnot => by
      simp only [own]
      split_ifs with hdown
      · rfl
      · by_cases hstarted : x.epoch = 0
        · rw [h.unstarted x (List.mem_of_getElem? hx) hstarted]
          rfl
        · have hmem := h.mem_sessions hx hstarted (Bool.eq_false_of_not_eq_true hdown)
          exact absurd (List.mem_map.mpr ⟨_, hmem, rfl⟩) hnot
  have hmapped : (w.srv.sessions.toList.map fun p =>
      (w.heap[p.2]?.map fun x => x.outbox.conflated).getD 0).sum = (w.heap.map own).sum := by
    rw [← hown, List.map_map]
    refine congrArg List.sum (List.map_congr_left fun p hp => ?_)
    obtain ⟨x, hx, -, hup⟩ := hopen p hp
    simp [hx, own, hup]
  have hbase : w.srv.conflatedBase = (w.heap.map fun x => x.line.held .conflated).sum :=
    hb .conflated
  rw [hmapped, hbase, ← List.sum_map_add, World.conflated]
  refine congrArg List.sum (List.map_congr_left fun x _ => ?_)
  simp only [own, Line.held, Session.line]
  by_cases hdown : x.tornDown = true <;> simp [hdown]

/-! ## Settling -/

/-- The counters report the live orders of the engine, and the superseded ticks of every session
that ever existed. -/
structure Reports (w : World) (c : Counters) : Prop where
  liveOrders : c.liveOrders = w.srv.engine.liveOrders
  conflated : c.conflated = w.conflated

/-- What a snapshot sums up is what it has to report. -/
theorem Inv.reports (h : w.Inv cfg) (hb : w.Balanced) {c : Counters} (conflatedOf : ℕ → ℕ)
    (hlive : c.liveOrders =
      (w.srv.sessions.toList.map fun p => w.srv.engine.liveCount p.1).sum)
    (hconflated : c.conflated =
      w.srv.conflatedBase + (w.srv.sessions.toList.map fun p => conflatedOf p.2).sum)
    (hread : ∀ p ∈ w.srv.sessions.toList,
      conflatedOf p.2 = (w.heap[p.2]?.map fun x => x.outbox.conflated).getD 0) : w.Reports c where
  liveOrders := hlive.trans h.liveOrders
  conflated := by
    rw [hconflated, ← h.conflated hb, List.map_congr_left hread]

/-- The final counters, which are settled with an empty map. -/
theorem settled_finalize {srv : ServerImpl} (hunfinished : srv.finalized = false) :
    srv.finalize.counters.liveOrders =
        (srv.finalize.sessions.toList.map fun p => srv.finalize.engine.liveCount p.1).sum ∧
      srv.finalize.counters.conflated = srv.finalize.conflatedBase +
        (srv.finalize.sessions.toList.map fun _ => 0).sum := by
  rw [ServerImpl.finalize, if_neg (by simp [hunfinished])]
  exact ⟨rfl, rfl⟩

/-- The telemetry grew, and every snapshot among the new records reports the sums. -/
def Narrates (w w' : World) : Prop :=
  ∃ new, w'.srv.telemetry = w.srv.telemetry ++ new ∧
    ∀ part ts c, .counters part ts c ∈ new → w'.Reports c

theorem Narrates.silent (h : w'.srv.telemetry = w.srv.telemetry) : Narrates w w' :=
  ⟨[], by simp [h], fun _ _ _ hc => by cases hc⟩

theorem Narrates.calm {srv : ServerImpl} (h : srv.Calm w'.srv)
    (hold : srv.telemetry = w.srv.telemetry) : Narrates w w' := by
  obtain ⟨new, hnew, hroutine⟩ := h.telemetry
  exact ⟨new, hold ▸ hnew, fun part ts c hc => by cases hroutine _ hc⟩

/-- A turn that finalizes the server narrates routine records, and last the final snapshot. -/
theorem Narrates.finalize (told : ServerImpl) (new : List TelemetryRecord) (h : w'.Inv cfg)
    (hb : w'.Balanced) (hsrv : w'.srv = told.finalize) (hunfinished : told.finalized = false)
    (hempty : told.sessions.toList.isEmpty = true)
    (htold : told.telemetry = w.srv.telemetry ++ new)
    (hroutine : ∀ r ∈ new, r.isSnapshot = false) : Narrates w w' := by
  have hfin := told.finalizes hunfinished
  obtain ⟨ts, htelemetry⟩ := hfin.telemetry
  obtain ⟨hlive, hconflated⟩ := settled_finalize hunfinished
  have hnone : w'.srv.sessions.toList = [] := by
    rw [hsrv, hfin.sessions]
    exact List.isEmpty_iff.mp hempty
  have hreports : w'.Reports told.finalize.counters := by
    refine h.reports hb (fun _ => 0) ?_ ?_ fun p hp => ?_
    · rw [hsrv]
      exact hlive
    · rw [hsrv]
      exact hconflated
    · rw [hnone] at hp
      cases hp
  refine ⟨new ++ [.counters .totals ts told.finalize.counters,
    .counters .watermarks ts told.finalize.counters], ?_, fun part ts' c hc => ?_⟩
  · rw [hsrv, htelemetry, htold, List.append_assoc]
  · rcases List.mem_append.mp hc with hc | hc
    · cases hroutine _ hc
    · obtain rfl : c = told.finalize.counters := by
        rcases List.mem_cons.mp hc with hc | hc
        · cases hc
          rfl
        · cases List.mem_singleton.mp hc
          rfl
      exact hreports

/-- The snapshot timer settles with the outboxes as they are. -/
theorem Inv.narrates_pushSnapshot (h : w.Inv cfg) (hb : w.Balanced) {conflatedOf : ℕ → ℕ}
    (hread : ∀ p ∈ w.srv.sessions.toList,
      conflatedOf p.2 = (w.heap[p.2]?.map fun x => x.outbox.conflated).getD 0) :
    Narrates w { w with srv := w.srv.pushSnapshot conflatedOf } := by
  refine ⟨_, rfl, fun part ts c hc => ?_⟩
  obtain rfl : c = (w.srv.settleSnapshotCounters conflatedOf).counters := by
    rcases List.mem_cons.mp hc with hc | hc
    · cases hc
      rfl
    · cases List.mem_singleton.mp hc
      rfl
  -- settling changes neither the heap nor the engine
  obtain ⟨hlive, hconflated⟩ : w.Reports (w.srv.settleSnapshotCounters conflatedOf).counters :=
    h.reports hb conflatedOf rfl rfl hread
  exact ⟨hlive, hconflated⟩

theorem Inv.narrates_snapshot (h : w.Inv cfg) (hb : w.Balanced) (codec : Codec) :
    Narrates w (w.step cfg codec .snapshot) := by
  simp only [World.step]
  split_ifs
  · exact .silent rfl
  · refine h.narrates_pushSnapshot hb fun p _ => ?_
    cases w.heap[p.2]? <;> rfl

theorem Inv.narrates_step (h : w.Inv cfg) (hb : w.Balanced) (hfinal : w.Final)
    (harmed : ∀ x ∈ w.heap, x.Armed) (codec : Codec) (event : Event) :
    Narrates w (w.step cfg codec event) := by
  have hinv' := (h.step_netSteps codec event).2
  have hb' := hb.step h codec event
  by_cases hevent : event = .snapshot
  · rw [hevent]
    exact h.narrates_snapshot hb codec
  have hturned := turned_step cfg codec w event
  generalize w.step cfg codec event = w' at hturned hinv' hb' ⊢
  cases hturned with
  | ignored => exact .silent rfl
  | @completed _ i x f hfound hcompletes =>
    have hout := outcome_completes (harmed x (List.mem_of_getElem? hfound)) hcompletes w.srv
    rw [heap_on hfound] at hinv' hb' ⊢
    generalize f ⟨w.srv, x⟩ = t' at hout hinv' hb' ⊢
    cases hout with
    | mild hmild => exact .calm hmild.srv rfl
    | @tearDown t₀ code hmild _ hup _ _ =>
      obtain ⟨calm, told, hcalm, hcloses, heq⟩ :=
        Session.closes_teardown cfg code (hmild.tornDown.trans hup)
      obtain ⟨new, hnew, hroutine⟩ := (hmild.srv.trans hcalm).telemetry
      obtain ⟨ts, hclose⟩ := hcloses.telemetry
      have htold : told.telemetry =
          w.srv.telemetry ++ (new ++ [.event .sessionClose ts t₀.self.epoch code]) := by
        rw [hclose, hnew, List.append_assoc]
      have hno : ∀ r ∈ new ++ [.event .sessionClose ts t₀.self.epoch code],
          r.isSnapshot = false := by
        intro r hr
        rcases List.mem_append.mp hr with hold | hlast
        · exact TelemetryRecord.isSnapshot_of_isRoutine (hroutine r hold)
        · rw [List.mem_singleton.mp hlast]
          rfl
      split_ifs at heq with hlast
      · -- the last session of a stopping server is gone
        rw [Bool.and_eq_true] at hlast
        have hunfinished : told.finalized = false := by
          rw [hcloses.finalized, (hmild.srv.trans hcalm).finalized]
          by_contra hfin
          have hnone := (hfinal.mp (Bool.eq_true_of_not_eq_false hfin)).2
          have hmem := h.mem_sessions hfound (h.started_completes hfound hcompletes) hup
          rw [hnone] at hmem
          cases hmem
        exact .finalize told _ hinv' hb' heq hunfinished hlast.2 htold hno
      · refine ⟨_, (congrArg ServerImpl.telemetry heq).trans htold, fun part ts c hc => ?_⟩
        cases hno _ hc
  | fed index _ => exact .silent rfl
  | dropped index _ => exact .calm (pokes_closeAll cfg codec (w.fed index)).srv rfl
  | published index bidPx bidQty askPx askQty _ =>
    exact .calm (pokes_publishBook cfg codec (w.fed index) bidPx bidQty askPx askQty).srv rfl
  | stopped _ index hrunning =>
    rw [beginStop_of_running (w := w.fed index) hrunning] at hinv' hb' ⊢
    split_ifs at hinv' hb' ⊢ with hempty
    · exact .finalize (w.fed index).halted.srv [] hinv' hb' rfl
        (hfinal.unfinished hrunning) hempty (List.append_nil _).symm fun r hr => by cases hr
    · exact .calm (pokes_closeAll cfg codec (w.fed index).halted).srv rfl
  | snapshot conflatedOf _ => exact absurd rfl hevent
  | accepted ok =>
    unfold World.onAccept
    dsimp only
    split_ifs
    · exact .silent rfl
    · exact .silent rfl
    · exact ⟨_, rfl, fun part ts c hc => by simp at hc⟩
    · exact .silent rfl
    · exact .silent rfl
  | requested request _ =>
    unfold World.onUpgradeRequest
    cases request with
    | none => exact .silent rfl
    | some req =>
      dsimp only
      split_ifs
      · exact .silent rfl
      · exact ⟨_, rfl, fun part ts c hc => by simp at hc⟩
      · exact ⟨_, rfl, fun part ts c hc => by simp at hc⟩
      · exact ⟨_, List.append_assoc _ _ _, fun part ts c hc => by simp at hc⟩
      · exact .silent rfl
  | refused _ => exact .silent rfl
  | shaken ok hfound =>
    rw [(h.onHandshake_eq hfound ok).2]
    split_ifs
    · exact .silent rfl
    · exact ⟨_, rfl, fun part ts c hc => by simp at hc⟩

/-! ## Runs -/

/-- The superseded ticks that the snapshots have reported, in order. -/
def conflatedIn (records : List TelemetryRecord) : List ℕ :=
  records.filterMap fun
    | .counters _ _ c => some c.conflated
    | .event _ _ _ _ => none

theorem conflatedIn_append (l l' : List TelemetryRecord) :
    conflatedIn (l ++ l') = conflatedIn l ++ conflatedIn l' :=
  List.filterMap_append

/-- What was reported never decreased, and there are at least as many superseded ticks by now. -/
structure Monotone (w : World) : Prop where
  sorted : (conflatedIn w.srv.telemetry).Pairwise (· ≤ ·)
  bound : ∀ n ∈ conflatedIn w.srv.telemetry, n ≤ w.conflated

theorem conflated_net (w : World) : w.net.conflated = w.conflated := by
  simp [Net.conflated, World.conflated, World.net, Session.line, Function.comp_def]

theorem Monotone.step (h : w.Monotone) (hgrows : w.conflated ≤ w'.conflated)
    (hnarrates : Narrates w w') : w'.Monotone := by
  obtain ⟨new, hnew, hreports⟩ := hnarrates
  -- the new snapshots report the present sum
  have hpresent : ∀ n ∈ conflatedIn new, n = w'.conflated := by
    intro n hn
    obtain ⟨r, hr, hn⟩ := List.mem_filterMap.mp hn
    cases r with
    | event kind ts a0 a1 => cases hn
    | counters part ts c =>
      cases hn
      exact (hreports part ts c hr).conflated
  have hold : ∀ n ∈ conflatedIn w.srv.telemetry, n ≤ w'.conflated := fun n hn =>
    (h.bound n hn).trans hgrows
  constructor
  · rw [hnew, conflatedIn_append, List.pairwise_append]
    refine ⟨h.sorted, ?_, fun a ha b hb => (hpresent b hb).symm ▸ hold a ha⟩
    refine List.pairwise_iff_forall_sublist.mpr fun {a b} hab => ?_
    rw [hpresent a (hab.subset (by simp)), hpresent b (hab.subset (by simp))]
  · intro n hn
    rw [hnew, conflatedIn_append, List.mem_append] at hn
    exact hn.elim (hold n) fun hn => (hpresent n hn).le

theorem narrates_run (cfg : ServerConfig) (codec : Codec) (clock : ℕ → ℤ) (events : List Event)
    (event : Event) :
    Narrates (run cfg codec clock events) ((run cfg codec clock events).step cfg codec event) :=
  (run_steps cfg codec clock events).2.narrates_step (run_balanced cfg codec clock events)
    (run_final cfg codec clock events) (run_armed cfg codec clock events) codec event

theorem run_monotone (cfg : ServerConfig) (codec : Codec) (clock : ℕ → ℤ) (events : List Event) :
    (run cfg codec clock events).Monotone := by
  induction events using List.reverseRecOn with
  | nil => exact ⟨List.Pairwise.nil, fun n hn => by cases hn⟩
  | append_singleton events event ih =>
    have hsteps := ((run_steps cfg codec clock events).2.step_netSteps codec event).1
    have hgrows := conflated_netSteps hsteps
    rw [conflated_net, conflated_net] at hgrows
    rw [run_concat]
    exact ih.step hgrows (narrates_run cfg codec clock events event)

/-- The server has counted under a figure what all sessions have queued under it. -/
theorem Balanced.queued (h : w.Balanced) {k : Figure} (hk : k ≠ .conflated) :
    w.srv.counted k = (w.heap.map fun x => queuedAs k x.log).sum := by
  rw [h k]
  refine congrArg List.sum (List.map_congr_left fun x _ => ?_)
  rw [Line.held_eq, if_neg fun hc => hk hc.1]
  rfl

/-- Between turns, each tick that entered an outbox was written, superseded, is pending or was
discarded, and at most one of a session was; orders, cancels, rejects and fills are counted as often
as their reports were queued in all sessions; every snapshot that a turn narrates reports the live
orders of the engine and the superseded ticks of all sessions there ever were; and what the
snapshots report of the latter never decreases. -/
theorem run_conserved (cfg : ServerConfig) (codec : Codec) (htotal : codec.Total) (clock : ℕ → ℤ)
    (events : List Event) :
    let w := run cfg codec clock events
    (∀ x ∈ w.heap,
      (ticksIn x.log).length = (tobsIn x.log).length + x.outbox.conflated +
          (if x.outbox.tob.isSome then 1 else 0) + (discardedIn x.log).length ∧
        (discardedIn x.log).length ≤ 1) ∧
      w.srv.counters.orders = (w.heap.map fun x => queuedAs .orders x.log).sum ∧
      w.srv.counters.cancels = (w.heap.map fun x => queuedAs .cancels x.log).sum ∧
      w.srv.counters.rejects = (w.heap.map fun x => queuedAs .rejects x.log).sum ∧
      w.srv.counters.fills = (w.heap.map fun x => queuedAs .fills x.log).sum ∧
      (∀ event, ∃ new,
        (w.step cfg codec event).srv.telemetry = w.srv.telemetry ++ new ∧
          ∀ part ts c, .counters part ts c ∈ new →
            c.liveOrders = (w.step cfg codec event).srv.engine.orders.toList.countP
                (fun p => p.2.st = .live) ∧
              c.conflated =
                ((w.step cfg codec event).heap.map fun x => x.outbox.conflated).sum) ∧
      (conflatedIn w.srv.telemetry).Pairwise (· ≤ ·) := by
  intro w
  have hbalanced : w.Balanced := run_balanced cfg codec clock events
  refine ⟨fun x hx => ?_, hbalanced.queued (k := .orders) (by simp),
    hbalanced.queued (k := .cancels) (by simp), hbalanced.queued (k := .rejects) (by simp),
    hbalanced.queued (k := .fills) (by simp), fun event => ?_,
      (run_monotone cfg codec clock events).sorted⟩
  · have hticked := run_ticked cfg htotal clock events hx
    exact ⟨hticked.balance, (Nat.le_add_right _ _).trans hticked.discarded⟩
  · obtain ⟨new, hnew, hreports⟩ := narrates_run cfg codec clock events event
    exact ⟨new, hnew, fun part ts c hc => ⟨(hreports part ts c hc).liveOrders,
      (hreports part ts c hc).conflated⟩⟩

theorem run_conserved_drop :
    ∃ x ∈ (run dropConfig dropCodec (fun n => 5 * n) dropEvents).heap,
      (ticksIn x.log).length = 1 ∧
        (ticksIn x.log).length = (tobsIn x.log).length + x.outbox.conflated +
          (if x.outbox.tob.isSome then 1 else 0) + (discardedIn x.log).length := by
  have hrun : ∃ x ∈ (run dropConfig dropCodec (fun n => 5 * n) dropEvents).heap,
      (ticksIn x.log).length = 1 := by decide
  obtain ⟨x, hx, hticks⟩ := hrun
  exact ⟨x, hx, hticks,
    ((run_conserved dropConfig dropCodec dropCodec_total _ dropEvents).1 x hx).1⟩

end World

end MarketMaker
