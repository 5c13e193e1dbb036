import MarketMaker.Engine.OrderStep
import MarketMaker.Server.Line

/-!
# Epochs, the session map and the engine

What ties the hub to the lines. Of a line this needs its `Row` only: the epoch, whether the epoch
was retired and whether the line was torn down. `Roster` says whose epoch is whose, what
`sessions_` holds and which orders the engine may hold, and keeps the history of engine calls: once
`end_session` ran for an epoch, no later call is made for that epoch or reports to it.

There is one lemma per way a hub and its rows change; `Server.Invariant` maps the moves to them.
-/

namespace MarketMaker

open OrderEngine (Call)

/-- What the roster knows of a line. -/
structure Row where
  epoch : ℕ
  retired : Bool
  down : Bool
  deriving DecidableEq, Repr

def Line.row (l : Line) : Row := ⟨l.epoch, l.epochRetired, l.tornDown⟩

/-- The call is made for the epoch, or reports to it. -/
def Involves (e : ℕ) (c : Call × List Routed) : Prop :=
  (∃ order, c.1 = .onNew e order) ∨ (∃ cancel, c.1 = .onCancel e cancel) ∨ c.1 = .endSession e ∨
    ∃ r ∈ c.2, r.session = e

/-- What holds between the hub and the rows of its lines. -/
structure Roster (cfg : ServerConfig) (h : Hub) (rows : List Row) : Prop where
  ran : OrderEngine.run cfg.engine (h.calls.map Prod.fst) = (h.engine, h.calls)
  epoch_le : ∀ (i : ℕ) (r : Row), rows[i]? = some r → r.epoch ≤ h.nextEpoch
  epoch_inj : ∀ (i j : ℕ) (r s : Row), rows[i]? = some r → rows[j]? = some s → r.epoch ≠ 0 →
    r.epoch = s.epoch → i = j
  mapped : ∀ e (i : ℕ), h.sessions.find? e = some i ↔
    e ≠ 0 ∧ ∃ r : Row, rows[i]? = some r ∧ r.epoch = e ∧ r.down = false
  /-- Every stored order belongs to an epoch that is not retired. -/
  owned : ∀ k ord, h.engine.orders.find? k = some ord →
    k.session ≠ 0 ∧ ∃ (i : ℕ) (r : Row), rows[i]? = some r ∧ r.epoch = k.session ∧ r.retired = false
  ended : ∀ e, Call.endSession e ∈ h.calls.map Prod.fst ↔
    e ≠ 0 ∧ ∃ (i : ℕ) (r : Row), rows[i]? = some r ∧ r.epoch = e ∧ r.retired = true
  silent : h.calls.Pairwise fun a b => ∀ e, a.1 = .endSession e → ¬Involves e b

namespace Roster

variable {cfg : ServerConfig} {h : Hub} {rows : List Row} {i : ℕ} {r : Row}

theorem init (cfg : ServerConfig) : Roster cfg {} [] where
  ran := rfl
  epoch_le := by simp
  epoch_inj := by simp
  mapped := by simp
  owned := by simp
  ended := by simp
  silent := List.Pairwise.nil

/-- The hub's engine is a reachable one. -/
theorem engineInv (hr : Roster cfg h rows) : OrderEngine.Inv cfg.engine h.engine :=
  OrderEngine.inv_of_reachable ⟨_, congrArg Prod.fst hr.ran⟩

/-! ## Engine calls -/

private theorem getElem?_set_row (hi : rows[i]? = some r) (r' : Row) (j : ℕ) :
    (rows.set i r')[j]? = if j = i then some r' else rows[j]? := by
  obtain ⟨hlt, -⟩ := List.getElem?_eq_some_iff.mp hi
  rw [List.getElem?_set]
  by_cases hj : i = j
  · subst hj
    simp [hlt]
  · rw [if_neg hj, if_neg fun h => hj h.symm]

/-- Every row has its epoch after a row was changed that keeps its own. -/
private theorem epoch_of_set {r' : Row} (hi : rows[i]? = some r) (hepoch : r'.epoch = r.epoch)
    {j : ℕ} {s : Row} (hj : (rows.set i r')[j]? = some s) :
    ∃ s', rows[j]? = some s' ∧ s'.epoch = s.epoch := by
  rw [getElem?_set_row hi] at hj
  split_ifs at hj with hji
  · cases hj
    exact ⟨r, hji ▸ hi, hepoch.symm⟩
  · exact ⟨s, hj, rfl⟩

private theorem epoch_le_set (hr : Roster cfg h rows) {r' : Row} (hi : rows[i]? = some r)
    (hepoch : r'.epoch = r.epoch) (j : ℕ) (s : Row) (hj : (rows.set i r')[j]? = some s) :
    s.epoch ≤ h.nextEpoch := by
  obtain ⟨s', hs', heq⟩ := epoch_of_set hi hepoch hj
  exact heq ▸ hr.epoch_le j s' hs'

private theorem epoch_inj_set (hr : Roster cfg h rows) {r' : Row} (hi : rows[i]? = some r)
    (hepoch : r'.epoch = r.epoch) (j k : ℕ) (s u : Row) (hj : (rows.set i r')[j]? = some s)
    (hk : (rows.set i r')[k]? = some u) (hne : s.epoch ≠ 0) (heq : s.epoch = u.epoch) : j = k := by
  obtain ⟨s', hs', hse⟩ := epoch_of_set hi hepoch hj
  obtain ⟨u', hu', hue⟩ := epoch_of_set hi hepoch hk
  refine hr.epoch_inj j k s' u' hs' hu' ?_ ?_
  · rw [hse]
    exact hne
  · rw [hse, hue, heq]

theorem ran_call (hr : Roster cfg h rows) (c : Call) :
    OrderEngine.run cfg.engine ((h.call cfg c).calls.map Prod.fst) =
      ((h.call cfg c).engine, (h.call cfg c).calls) := by
  simp only [Hub.call, List.map_append, List.map_cons, List.map_nil, OrderEngine.run]
  rw [Mealy.run_concat]
  have hran := hr.ran
  simp only [OrderEngine.run] at hran
  rw [hran]

/-- An unretired epoch was never ended. -/
theorem not_ended (hr : Roster cfg h rows) (hi : rows[i]? = some r) (hlive : r.retired = false) :
    Call.endSession r.epoch ∉ h.calls.map Prod.fst := by
  intro hmem
  obtain ⟨he, j, s, hj, hepoch, hret⟩ := (hr.ended r.epoch).mp hmem
  have hij : i = j := hr.epoch_inj i j r s hi hj he hepoch.symm
  subst hij
  have hsame : r = s := Option.some.inj (hi.symm.trans hj)
  rw [hsame, hret] at hlive
  cases hlive

/-- A call that involves no ended epoch keeps the history silent. -/
theorem silent_call (hr : Roster cfg h rows) {c : Call}
    (hc : ∀ e, Involves e (c, (OrderEngine.step cfg.engine h.engine c).2) →
      Call.endSession e ∉ h.calls.map Prod.fst) :
    (h.call cfg c).calls.Pairwise fun a b => ∀ e, a.1 = .endSession e → ¬Involves e b := by
  refine List.pairwise_append.mpr ⟨hr.silent, List.pairwise_singleton _ _, ?_⟩
  intro a ha b hb e hend hinv
  rw [List.mem_singleton.mp hb] at hinv
  exact hc e hinv (List.mem_map.mpr ⟨a, ha, hend⟩)

/-- A call made for an epoch involves that epoch only. -/
theorem involves_own {c : Call} {e e' : ℕ} {eng : OrderEngine}
    (hown : (∃ order, c = .onNew e order) ∨ (∃ cancel, c = .onCancel e cancel) ∨ c = .endSession e)
    (hinv : Involves e' (c, (OrderEngine.step cfg.engine eng c).2)) : e' = e := by
  -- the replies are routed back to the epoch that called
  have hreplies : ∀ q ∈ (OrderEngine.step cfg.engine eng c).2, q.session = e := by
    intro q hq
    rcases hown with ⟨order, rfl⟩ | ⟨cancel, rfl⟩ | rfl <;>
    · simp only [OrderEngine.step, OrderEngine.routeTo, List.mem_map] at hq
      obtain ⟨msg, -, rfl⟩ := hq
      rfl
  rcases hinv with ⟨order, hc⟩ | ⟨cancel, hc⟩ | hc | ⟨q, hq, hsession⟩
  · rcases hown with ⟨_, rfl⟩ | ⟨_, rfl⟩ | rfl <;> cases hc
    rfl
  · rcases hown with ⟨_, rfl⟩ | ⟨_, rfl⟩ | rfl <;> cases hc
    rfl
  · rcases hown with ⟨_, rfl⟩ | ⟨_, rfl⟩ | rfl <;> cases hc
    rfl
  · rw [← hsession, hreplies q hq]

/-- A book involves the epochs of stored orders only. -/
theorem involves_onBook (hr : Roster cfg h rows) {book : Book} {e : ℕ}
    (hinv : Involves e (.onBook book, (OrderEngine.step cfg.engine h.engine (.onBook book)).2)) :
    ∃ (i : ℕ) (r : Row), rows[i]? = some r ∧ r.epoch = e ∧ r.retired = false := by
  rcases hinv with ⟨order, hc⟩ | ⟨cancel, hc⟩ | hc | ⟨q, hq, hsession⟩
  · cases hc
  · cases hc
  · cases hc
  · obtain ⟨-, k, ord, hk, hord⟩ := OrderEngine.mem_onBook hr.engineInv.indexed hq
    obtain ⟨-, i, r, hi, hepoch, hlive⟩ := hr.owned k ord hord
    exact ⟨i, r, hi, by rw [hepoch, hk, hsession], hlive⟩

/-- The engine serves a command of an unretired epoch. -/
theorem serve (hr : Roster cfg h rows) (hi : rows[i]? = some r) (hstarted : r.epoch ≠ 0)
    (hlive : r.retired = false) {c : Call}
    (hown : (∃ order, c = .onNew r.epoch order) ∨ ∃ cancel, c = .onCancel r.epoch cancel) :
    Roster cfg (h.call cfg c) rows where
  ran := hr.ran_call c
  epoch_le := hr.epoch_le
  epoch_inj := hr.epoch_inj
  mapped := hr.mapped
  owned k ord hord := by
    rcases OrderEngine.stored_step hr.engineInv hord with ⟨-, ord', hord'⟩ | ⟨order, hc⟩
    · exact hr.owned k ord' hord'
    · -- a new order belongs to the epoch of the command
      have hk : r.epoch = k.session := by
        rcases hown with ⟨_, hown⟩ | ⟨_, hown⟩ <;> rw [hc] at hown
        · exact (Call.onNew.inj hown).1.symm
        · cases hown
      exact ⟨hk ▸ hstarted, i, r, hi, hk, hlive⟩
  ended e := by
    have hne : c ≠ .endSession e := by
      rcases hown with ⟨_, rfl⟩ | ⟨_, rfl⟩ <;> simp
    rw [← hr.ended e]
    simp [Hub.call, hne.symm]
  silent := by
    refine hr.silent_call fun e hinv => ?_
    rw [involves_own (hown.imp_right Or.inl) hinv]
    exact hr.not_ended hi hlive

/-- A book is published. -/
theorem publish (hr : Roster cfg h rows) (book : Book) :
    Roster cfg (({ h with nextMdSeq := h.nextMdSeq + 1 } : Hub).call cfg (.onBook book)) rows where
  ran := hr.ran_call (.onBook book)
  epoch_le := hr.epoch_le
  epoch_inj := hr.epoch_inj
  mapped := hr.mapped
  owned k ord hord := by
    rcases OrderEngine.stored_step hr.engineInv hord with ⟨-, ord', hord'⟩ | ⟨order, hc⟩
    · exact hr.owned k ord' hord'
    · cases hc
  ended e := by
    rw [← hr.ended e]
    simp [Hub.call]
  silent := by
    refine hr.silent_call fun e hinv => ?_
    obtain ⟨j, s, hj, rfl, hlive⟩ := hr.involves_onBook hinv
    exact hr.not_ended hj hlive

/-- An epoch is retired. -/
theorem retire (hr : Roster cfg h rows) (hi : rows[i]? = some r) (hstarted : r.epoch ≠ 0)
    (hlive : r.retired = false) :
    Roster cfg (h.call cfg (.endSession r.epoch)) (rows.set i { r with retired := true }) where
  ran := hr.ran_call (.endSession r.epoch)
  epoch_le := hr.epoch_le_set hi rfl
  epoch_inj := hr.epoch_inj_set hi rfl
  mapped e j := by
    rw [getElem?_set_row hi]
    change h.sessions.find? e = some j ↔ _
    rw [hr.mapped e j]
    by_cases hji : j = i
    · subst hji
      simp [hi]
    · simp [hji]
  owned k ord hord := by
    rcases OrderEngine.stored_step hr.engineInv hord with ⟨hcall, ord', hord'⟩ | ⟨order, hc⟩
    · obtain ⟨hne, j, s, hj, hepoch, hs⟩ := hr.owned k ord' hord'
      refine ⟨hne, j, s, ?_, hepoch, hs⟩
      -- the retired line is another one: its epoch is the one that was ended
      have hji : j ≠ i := by
        rintro rfl
        have hsame : r = s := Option.some.inj (hi.symm.trans hj)
        exact hcall (by rw [hsame, hepoch])
      rw [getElem?_set_row hi, if_neg hji, hj]
    · cases hc
  ended e := by
    simp only [Hub.call, List.map_append, List.map_cons, List.map_nil, List.mem_append,
      List.mem_singleton, Call.endSession.injEq]
    rw [hr.ended e]
    constructor
    · rintro (⟨hne, j, s, hj, hepoch, hret⟩ | rfl)
      · have hji : j ≠ i := by
          rintro rfl
          have hsame : r = s := Option.some.inj (hi.symm.trans hj)
          rw [hsame, hret] at hlive
          cases hlive
        exact ⟨hne, j, s, by rw [getElem?_set_row hi, if_neg hji, hj], hepoch, hret⟩
      · exact ⟨hstarted, i, { r with retired := true }, by rw [getElem?_set_row hi, if_pos rfl],
          rfl, rfl⟩
    · rintro ⟨hne, j, s, hj, hepoch, hret⟩
      rw [getElem?_set_row hi] at hj
      split_ifs at hj with hji
      · cases hj
        exact Or.inr hepoch.symm
      · exact Or.inl ⟨hne, j, s, hj, hepoch, hret⟩
  silent := by
    refine hr.silent_call fun e hinv => ?_
    rw [involves_own (Or.inr (Or.inr rfl)) hinv]
    exact hr.not_ended hi hlive

/-! ## The map -/

/-- A line leaves the map. -/
theorem leave (hr : Roster cfg h rows) (hi : rows[i]? = some r) :
    Roster cfg { h with sessions := h.sessions.erase r.epoch }
      (rows.set i { r with down := true }) where
  ran := hr.ran
  epoch_le := hr.epoch_le_set hi rfl
  epoch_inj := hr.epoch_inj_set hi rfl
  mapped e j := by
    rw [getElem?_set_row hi, OrderedMap.find?_erase]
    by_cases hji : j = i
    · subst hji
      -- the line itself is down, and no entry points at it any more
      have hgone : ¬∃ e', e' ≠ r.epoch ∧ h.sessions.find? e' = some j := by
        rintro ⟨e', hne, hfind⟩
        obtain ⟨-, s, hs, hepoch, -⟩ := (hr.mapped e' j).mp hfind
        have hsame : r = s := Option.some.inj (hi.symm.trans hs)
        exact hne (by rw [hsame, hepoch])
      rw [if_pos rfl]
      split_ifs with he
      · simp
      · refine ⟨fun hfind => absurd ⟨e, he, hfind⟩ hgone, ?_⟩
        rintro ⟨-, s, hs, -, hdown⟩
        cases hs
        cases hdown
    · rw [if_neg hji]
      split_ifs with he
      · -- only the line itself has this epoch
        refine ⟨(by simp), ?_⟩
        rintro ⟨hne, s, hs, hepoch, -⟩
        exact absurd (hr.epoch_inj j i s r hs hi (hepoch ▸ hne) (hepoch.trans he)) hji
      · exact hr.mapped e j
  owned k ord hord := by
    obtain ⟨hne, j, s, hj, hepoch, hs⟩ := hr.owned k ord hord
    by_cases hji : j = i
    · subst hji
      have hsame : r = s := Option.some.inj (hi.symm.trans hj)
      subst hsame
      exact ⟨hne, j, { r with down := true }, by rw [getElem?_set_row hi, if_pos rfl], hepoch, hs⟩
    · exact ⟨hne, j, s, by rw [getElem?_set_row hi, if_neg hji, hj], hepoch, hs⟩
  ended e := by
    rw [hr.ended e]
    constructor
    · rintro ⟨hne, j, s, hj, hepoch, hret⟩
      by_cases hji : j = i
      · subst hji
        have hsame : r = s := Option.some.inj (hi.symm.trans hj)
        subst hsame
        exact ⟨hne, j, { r with down := true }, by rw [getElem?_set_row hi, if_pos rfl], hepoch,
          hret⟩
      · exact ⟨hne, j, s, by rw [getElem?_set_row hi, if_neg hji, hj], hepoch, hret⟩
    · rintro ⟨hne, j, s, hj, hepoch, hret⟩
      rw [getElem?_set_row hi] at hj
      split_ifs at hj with hji
      · cases hj
        exact ⟨hne, i, r, hi, hepoch, hret⟩
      · exact ⟨hne, j, s, hj, hepoch, hret⟩
  silent := hr.silent

/-- A new line appears, without an epoch. -/
theorem create (hr : Roster cfg h rows) : Roster cfg h (rows ++ [⟨0, false, false⟩]) := by
  -- a row with an epoch is one of the old ones
  have hrow : ∀ {j : ℕ} {s : Row}, s.epoch ≠ 0 →
      ((rows ++ [⟨0, false, false⟩])[j]? = some s ↔ rows[j]? = some s) := by
    intro j s hne
    rw [List.getElem?_append]
    split_ifs with hlt
    · rfl
    · rw [List.getElem?_eq_none (not_lt.mp hlt), List.getElem?_singleton]
      split_ifs
      · refine ⟨fun heq => ?_, fun heq => by cases heq⟩
        cases heq
        exact absurd rfl hne
      · rfl
  refine ⟨hr.ran, fun j s hj => ?_, fun j k s u hj hk hne heq => ?_, fun e j => ?_,
    fun k ord hord => ?_, fun e => ?_, hr.silent⟩
  · by_cases hne : s.epoch = 0
    · rw [hne]
      exact Nat.zero_le _
    · exact hr.epoch_le j s ((hrow hne).mp hj)
  · exact hr.epoch_inj j k s u ((hrow hne).mp hj) ((hrow (heq ▸ hne)).mp hk) hne heq
  · rw [hr.mapped e j]
    refine and_congr_right fun hne => exists_congr fun s => ?_
    constructor
    · rintro ⟨hs, rfl, hdown⟩
      exact ⟨(hrow hne).mpr hs, rfl, hdown⟩
    · rintro ⟨hs, rfl, hdown⟩
      exact ⟨(hrow hne).mp hs, rfl, hdown⟩
  · obtain ⟨hne, j, s, hj, hepoch, hlive⟩ := hr.owned k ord hord
    exact ⟨hne, j, s, (hrow (hepoch ▸ hne)).mpr hj, hepoch, hlive⟩
  · rw [hr.ended e]
    refine and_congr_right fun hne => exists_congr fun j => exists_congr fun s => ?_
    constructor
    · rintro ⟨hs, rfl, hret⟩
      exact ⟨(hrow hne).mpr hs, rfl, hret⟩
    · rintro ⟨hs, rfl, hret⟩
      exact ⟨(hrow hne).mp hs, rfl, hret⟩

/-- A line without an epoch is given the next one. -/
theorem start (hr : Roster cfg h rows) (hi : rows[i]? = some ⟨0, false, false⟩) :
    Roster cfg
      { h with
        nextEpoch := h.nextEpoch + 1
        sessions := h.sessions.insert (h.nextEpoch + 1) i }
      (rows.set i ⟨h.nextEpoch + 1, false, false⟩) := by
  -- the rows that have an epoch keep their places, and none of them has the new one
  have hold : ∀ {j : ℕ} {s : Row}, s.epoch ≠ 0 → rows[j]? = some s →
      j ≠ i ∧ s.epoch ≠ h.nextEpoch + 1 := by
    intro j s hne hj
    refine ⟨?_, fun heq => ?_⟩
    · rintro rfl
      rw [hi] at hj
      cases hj
      exact hne rfl
    · have hle := hr.epoch_le j s hj
      omega
  refine ⟨hr.ran, fun j s hj => ?_, fun j k s u hj hk hne heq => ?_, fun e j => ?_,
    fun k ord hord => ?_, fun e => ?_, hr.silent⟩
  · rw [getElem?_set_row hi] at hj
    split_ifs at hj with hji
    · cases hj
      exact Nat.le_refl _
    · exact Nat.le_succ_of_le (hr.epoch_le j s hj)
  · rw [getElem?_set_row hi] at hj hk
    split_ifs at hj hk with hji hki hki
    · rw [hji, hki]
    · cases hj
      exact absurd heq.symm (hold (heq ▸ hne) hk).2
    · cases hk
      exact absurd heq (hold hne hj).2
    · exact hr.epoch_inj j k s u hj hk hne heq
  · rw [getElem?_set_row hi, OrderedMap.find?_insert]
    by_cases hji : j = i
    · subst hji
      rw [if_pos rfl]
      split_ifs with he
      · simp [he]
      · refine ⟨fun hfind => ?_, ?_⟩
        · obtain ⟨hne, s, hs, hepoch, -⟩ := (hr.mapped e j).mp hfind
          exact absurd rfl (hold (hepoch ▸ hne) hs).1
        · rintro ⟨-, s, hs, hepoch, -⟩
          cases hs
          exact absurd hepoch.symm he
    · rw [if_neg hji]
      split_ifs with he
      · refine ⟨fun hij => absurd (Option.some.inj hij).symm hji, ?_⟩
        rintro ⟨hne, s, hs, hepoch, -⟩
        exact absurd (hepoch.trans he) (hold (hepoch ▸ hne) hs).2
      · exact hr.mapped e j
  · obtain ⟨hne, j, s, hj, hepoch, hlive⟩ := hr.owned k ord hord
    refine ⟨hne, j, s, ?_, hepoch, hlive⟩
    rw [getElem?_set_row hi, if_neg (hold (hepoch ▸ hne) hj).1, hj]
  · rw [hr.ended e]
    refine and_congr_right fun hne => exists_congr fun j => exists_congr fun s => ?_
    rw [getElem?_set_row hi]
    constructor
    · rintro ⟨hs, rfl, hret⟩
      rw [if_neg (hold hne hs).1]
      exact ⟨hs, rfl, hret⟩
    · rintro ⟨hs, rfl, hret⟩
      split_ifs at hs with hji
      · cases hs
        cases hret
      · exact ⟨hs, rfl, hret⟩

end Roster

end MarketMaker
