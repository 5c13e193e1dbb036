import MarketMaker.Engine.OrderStep
import MarketMaker.Strategy.Side

/-!
# The joint invariant of one side

What the strategy knows of a side, the commands and reports in flight on it and what the engine
stores of it, related to each other. Everything is seen through digests: a command or a report is
its order id and what it does or says, and the engine is the store of the side's orders.

A side has at most two orders: the current one, and one that is being cancelled to make room for
it. `SideInv` lists the configurations a running strategy can be in, by how far the two have got.
`Halted` is what is left once the strategy has stopped: it hears nothing more, and only the
commands already sent matter.
-/

namespace MarketMaker

namespace Duplex

open OrderEngine

/-- The orders of one side as the engine stores them, by client order id. -/
abbrev Store := Bytes → Option Order

variable {cfg : EngineConfig} {v v' : Store} {a c : Bytes} {px : ℤ}

/-- The order at `c` is live, at raw price `px`. -/
def LiveAt (cfg : EngineConfig) (v : Store) (c : Bytes) (px : ℤ) : Prop :=
  ∃ ord, v c = some ord ∧ ord.st = .live ∧ toRawPx cfg.inst ord.px = px

/-- No order is live. -/
def Quiet (v : Store) : Prop := ∀ c ord, v c = some ord → ord.st ≠ .live

/-- No order but the one at `c` is live. -/
def OnlyAt (v : Store) (c : Bytes) : Prop := ∀ c' ord, v c' = some ord → ord.st = .live → c' = c

/-- A side without live orders has one at most. -/
theorem Quiet.onlyAt (h : Quiet v) (c : Bytes) : OnlyAt v c := fun _ ord hord hst =>
  absurd hst (h _ ord hord)

/-- An order that is not live leaves the side without one. -/
theorem Quiet.update (h : OnlyAt v c) {ord : Order} (hst : ord.st ≠ .live) :
    Quiet (Function.update v c (some ord)) := by
  intro c' ord' hord' hst'
  by_cases hc : c' = c
  · subst hc
    rw [Function.update_self] at hord'
    cases hord'
    exact hst hst'
  · rw [Function.update_of_ne hc] at hord'
    exact hc (h c' ord' hord' hst')

/-- The one live order may be replaced. -/
theorem OnlyAt.update (h : OnlyAt v c) (ord : Order) :
    OnlyAt (Function.update v c (some ord)) c := by
  intro c' ord' hord' hst'
  by_contra hc
  rw [Function.update_of_ne hc] at hord'
  exact hc (h c' ord' hord' hst')

/-- A live order is stored at its price. -/
theorem liveAt_update {ord : Order} (hst : ord.st = .live) (hpx : toRawPx cfg.inst ord.px = px) :
    LiveAt cfg (Function.update v c (some ord)) c px :=
  ⟨ord, Function.update_self _ _ _, hst, hpx⟩

/-! ## What the engine does to a side -/

/-- A book, on a side with at most one live order. -/
inductive BookEffect (cfg : EngineConfig) (v : Store) : Store → List (Bytes × ReportKind) → Prop
  | untouched : BookEffect cfg v v []
  | traded {c : Bytes} {ord ord' : Order} (found : v c = some ord) (live : ord.st = .live)
      (live' : ord'.st = .live) (px : ord'.px = ord.px) :
      BookEffect cfg v (Function.update v c (some ord')) [(c, .traded)]
  | filled {c : Bytes} {ord ord' : Order} (found : v c = some ord) (live : ord.st = .live)
      (dead : ord'.st ≠ .live) : BookEffect cfg v (Function.update v c (some ord')) [(c, .filled)]

/-- A cancel of the order at `c`. -/
inductive CancelEffect (v : Store) (c : Bytes) : Store → List (Bytes × ReportKind) → Prop
  | unknown (none : v c = none) : CancelEffect v c v [(c, .refused)]
  | terminal {ord : Order} (found : v c = some ord) (dead : ord.st ≠ .live) :
      CancelEffect v c v [(c, .refused)]
  | cancelled {ord ord' : Order} (found : v c = some ord) (live : ord.st = .live)
      (dead : ord'.st ≠ .live) :
      CancelEffect v c (Function.update v c (some ord')) [(c, .cancelled)]

/-- A new order at `c`, at raw price `px`. -/
inductive NewEffect (cfg : EngineConfig) (v : Store) (c : Bytes) (px : ℤ) :
    Store → List (Bytes × ReportKind) → Prop
  | duplicate {ord : Order} (found : v c = some ord) : NewEffect cfg v c px v [(c, .refused)]
  | refused {ord : Order} (none : v c = none) (dead : ord.st ≠ .live) :
      NewEffect cfg v c px (Function.update v c (some ord)) [(c, .refused)]
  | acked {ord : Order} (none : v c = none) (live : ord.st = .live)
      (hpx : toRawPx cfg.inst ord.px = px) :
      NewEffect cfg v c px (Function.update v c (some ord)) [(c, .acked)]

/-! ## Reports in flight -/

/-- The reports in flight of an accepted order that has not been cancelled: some trades, and a last
one once it is complete. -/
inductive Flow (cfg : EngineConfig) (v : Store) (c : Bytes) (px : ℤ) :
    List (Bytes × ReportKind) → Prop
  | resting (n : ℕ) (live : LiveAt cfg v c px) (only : OnlyAt v c) :
      Flow cfg v c px (List.replicate n (c, .traded))
  | completed (n : ℕ) (quiet : Quiet v) :
      Flow cfg v c px (List.replicate n (c, .traded) ++ [(c, .filled)])

/-- The order on its way is the only one that may be live. -/
theorem Flow.onlyAt {reps : List (Bytes × ReportKind)} (h : Flow cfg v c px reps) : OnlyAt v c := by
  cases h with
  | resting _ _ only => exact only
  | completed _ quiet => exact quiet.onlyAt c

/-- A book may fill the order, and the fill follows what is already in the queue. -/
theorem Flow.book {reps r : List (Bytes × ReportKind)} (h : Flow cfg v c px reps)
    (hb : BookEffect cfg v v' r) : Flow cfg v' c px (reps ++ r) := by
  cases h with
  | resting n live only =>
    cases hb with
    | untouched =>
      rw [List.append_nil]
      exact .resting n live only
    | @traded c' ord ord' found hlive live' hpx =>
      obtain rfl := only c' ord found hlive
      obtain ⟨ord₀, hord₀, -, hpx₀⟩ := live
      rw [found] at hord₀
      cases hord₀
      rw [← List.replicate_succ']
      exact .resting (n + 1) (liveAt_update live' (by rw [hpx, hpx₀])) (only.update ord')
    | @filled c' ord ord' found hlive dead =>
      obtain rfl := only c' ord found hlive
      exact .completed n (Quiet.update only dead)
  | completed n quiet =>
    cases hb with
    | untouched =>
      rw [List.append_nil]
      exact .completed n quiet
    | traded found hlive _ _ => exact absurd hlive (quiet _ _ found)
    | filled found hlive _ => exact absurd hlive (quiet _ _ found)

/-- The next report of an accepted order is a trade, or its last. -/
theorem Flow.next {p : Bytes × ReportKind} {reps : List (Bytes × ReportKind)}
    (h : Flow cfg v c px (p :: reps)) :
    (p = (c, .traded) ∧ Flow cfg v c px reps) ∨ (p = (c, .filled) ∧ reps = [] ∧ Quiet v) := by
  generalize hl : p :: reps = l at h
  cases h with
  | resting n live only =>
    cases n with
    | zero => cases hl
    | succ n =>
      rw [List.replicate_succ] at hl
      cases hl
      exact Or.inl ⟨rfl, .resting n live only⟩
  | completed n quiet =>
    cases n with
    | zero =>
      cases hl
      exact Or.inr ⟨rfl, rfl, quiet⟩
    | succ n =>
      rw [List.replicate_succ, List.cons_append] at hl
      cases hl
      exact Or.inl ⟨rfl, .completed n quiet⟩

/-- The reports in flight of an order whose `new` has been processed and not yet heard of. -/
inductive Answered (cfg : EngineConfig) (v : Store) (c : Bytes) (px : ℤ) :
    List (Bytes × ReportKind) → Prop
  | refused (quiet : Quiet v) : Answered cfg v c px [(c, .refused)]
  | acked {reps : List (Bytes × ReportKind)} (flow : Flow cfg v c px reps) :
      Answered cfg v c px ((c, .acked) :: reps)

/-- The order that made room for `c`, once its cancel has been processed: what is left of it in
the strategy's map and among the reports in flight. -/
inductive Closing (c : Bytes) : List ClientOrder → List (Bytes × ReportKind) → Prop
  | done : Closing c [] []
  /-- It was filled first; the refusal of its cancel is still on the way. -/
  | late {a : Bytes} (ne : a ≠ c) : Closing c [] [(a, .refused)]
  | cancelled {a : Bytes} (ne : a ≠ c) (px : ℤ) (n : ℕ) :
      Closing c [⟨a, px, .pendingCancel⟩] (List.replicate n (a, .traded) ++ [(a, .cancelled)])
  | crossed {a : Bytes} (ne : a ≠ c) (px : ℤ) (n : ℕ) :
      Closing c [⟨a, px, .pendingCancel⟩]
        (List.replicate n (a, .traded) ++ [(a, .filled), (a, .refused)])

variable {side : Side} {next : ℕ} {cmds k : List (Bytes × CmdKind)}
  {reps r : List (Bytes × ReportKind)} {old orders : List ClientOrder} {view view' : SideView}

/-- A book does nothing to a side without live orders. -/
theorem Quiet.book (h : Quiet v) (hb : BookEffect cfg v v' r) : v' = v ∧ r = [] := by
  cases hb with
  | untouched => exact ⟨rfl, rfl⟩
  | traded found live _ _ => exact absurd live (h _ _ found)
  | filled found live _ => exact absurd live (h _ _ found)

/-- A book neither adds nor removes an entry. -/
theorem BookEffect.eq_none_iff (hb : BookEffect cfg v v' r) (c : Bytes) :
    v' c = none ↔ v c = none := by
  cases hb with
  | untouched => rfl
  | @traded c' ord ord' found _ _ _ =>
    by_cases hc : c = c'
    · subst hc
      simp [found]
    · rw [Function.update_of_ne hc]
  | @filled c' ord ord' found _ _ =>
    by_cases hc : c = c'
    · subst hc
      simp [found]
    · rw [Function.update_of_ne hc]

/-- A book makes no order live. -/
theorem BookEffect.onlyAt (hb : BookEffect cfg v v' r) (h : OnlyAt v c) : OnlyAt v' c := by
  cases hb with
  | untouched => exact h
  | traded found live _ _ =>
    obtain rfl := h _ _ found live
    exact h.update _
  | filled found live _ =>
    obtain rfl := h _ _ found live
    exact h.update _

/-- After the cancel of the only order that may be live, none is. -/
theorem CancelEffect.quiet (hc : CancelEffect v c v' r) (h : OnlyAt v c) : Quiet v' := by
  have hdead : ∀ ord, v c = some ord → ord.st ≠ .live → Quiet v := by
    intro ord hord hst c' ord' hord' hst'
    obtain rfl := h c' ord' hord' hst'
    rw [hord] at hord'
    cases hord'
    exact hst hst'
  cases hc with
  | unknown none =>
    intro c' ord' hord' hst'
    obtain rfl := h c' ord' hord' hst'
    rw [none] at hord'
    cases hord'
  | terminal found dead => exact hdead _ found dead
  | cancelled found live dead => exact Quiet.update h dead

/-- A cancel adds no entry and removes none. -/
theorem CancelEffect.eq_none_iff (hc : CancelEffect v c v' r) (c' : Bytes) :
    v' c' = none ↔ v c' = none := by
  cases hc with
  | unknown _ => rfl
  | terminal _ _ => rfl
  | cancelled found _ _ =>
    by_cases h : c' = c
    · subst h
      simp [found]
    · rw [Function.update_of_ne h]

/-- A new order on a quiet side is the only one that may be live. -/
theorem NewEffect.onlyAt (hn : NewEffect cfg v c px v' r) (h : Quiet v) : OnlyAt v' c := by
  cases hn with
  | duplicate _ => exact h.onlyAt c
  | refused _ _ => exact (h.onlyAt c).update _
  | acked _ _ _ => exact (h.onlyAt c).update _

/-- A new order has an entry, accepted or refused. -/
theorem NewEffect.stored (hn : NewEffect cfg v c px v' r) : v' c ≠ none := by
  cases hn with
  | duplicate found => simp [found]
  | refused _ _ => simp
  | acked _ _ _ => simp

/-- A fresh order on a quiet side is answered. -/
theorem NewEffect.answered (hn : NewEffect cfg v c px v' r) (hfresh : v c = none) (h : Quiet v) :
    Answered cfg v' c px r := by
  cases hn with
  | duplicate found =>
    rw [hfresh] at found
    cases found
  | refused _ dead => exact .refused (Quiet.update (h.onlyAt c) dead)
  | acked _ live hpx =>
    exact .acked (.resting 0 (liveAt_update live hpx) ((h.onlyAt c).update _))

/-- An order that was answered is the only one that may be live. -/
theorem Answered.onlyAt (h : Answered cfg v c px r) : OnlyAt v c := by
  cases h with
  | refused quiet => exact quiet.onlyAt c
  | acked flow => exact flow.onlyAt

/-- A book may fill the order after its answer. -/
theorem Answered.book (h : Answered cfg v c px reps) (hb : BookEffect cfg v v' r) :
    Answered cfg v' c px (reps ++ r) := by
  cases h with
  | refused quiet =>
    obtain ⟨rfl, rfl⟩ := quiet.book hb
    exact .refused quiet
  | acked flow => exact .acked (flow.book hb)

/-- The cancel of an order that has been accepted leaves it closing. -/
theorem Flow.closing (hflow : Flow cfg v a px reps) (hc : CancelEffect v a v' r)
    (hstored : v a ≠ none) (hne : a ≠ c) (apx : ℤ) :
    Closing c [⟨a, apx, .pendingCancel⟩] (reps ++ r) := by
  cases hflow with
  | resting n live only =>
    obtain ⟨ord, hord, hst, -⟩ := live
    cases hc with
    | unknown none => exact absurd none hstored
    | terminal found dead =>
      rw [hord] at found
      cases found
      exact absurd hst dead
    | cancelled _ _ _ => exact .cancelled hne apx n
  | completed n quiet =>
    rw [List.append_assoc]
    cases hc with
    | unknown none => exact absurd none hstored
    | terminal _ _ => exact .crossed hne apx n
    | cancelled found live _ => exact absurd live (quiet _ _ found)

/-- On a side without a live order, the cancel of a known order is refused. -/
theorem CancelEffect.refused (hc : CancelEffect v c v' r) (h : Quiet v) :
    v' = v ∧ r = [(c, .refused)] := by
  cases hc with
  | unknown _ => exact ⟨rfl, rfl⟩
  | terminal _ _ => exact ⟨rfl, rfl⟩
  | cancelled found live _ => exact absurd live (h _ _ found)

/-- The order that is being closed is none of the older ones. -/
theorem Closing.ne (h : Closing c old reps) : ∀ o ∈ old, o.clId ≠ c := by
  cases h with
  | done => simp
  | late _ => simp
  | cancelled ne _ _ => simpa using ne
  | crossed ne _ _ => simpa using ne

/-! ## A running side -/

/-- The configurations of one side while the strategy runs. -/
inductive SideInv (cfg : EngineConfig) (v : Store) :
    SideView → List (Bytes × CmdKind) → List (Bytes × ReportKind) → Prop
  /-- No quote, and none on the way. -/
  | idle {next : ℕ} (quiet : Quiet v) : SideInv cfg v ⟨next, none, []⟩ [] []
  /-- One quote, acknowledged. -/
  | resting {next : ℕ} {c : Bytes} {px : ℤ} {reps : List (Bytes × ReportKind)}
      (stored : v c ≠ none) (flow : Flow cfg v c px reps) :
      SideInv cfg v ⟨next, some c, [⟨c, px, .live⟩]⟩ [] reps
  /-- The quote `a` is being replaced by `c`; neither command has arrived. -/
  | amending {next : ℕ} {a c : Bytes} {apx px : ℤ} {reps : List (Bytes × ReportKind)} (ne : a ≠ c)
      (stored : v a ≠ none) (fresh : v c = none) (flow : Flow cfg v a apx reps) :
      SideInv cfg v ⟨next, some c, [⟨a, apx, .pendingCancel⟩, ⟨c, px, .pendingNew⟩]⟩
        [(a, .cancel), (c, .new px)] reps
  /-- As before, but the strategy has already heard that `a` is filled. -/
  | overtaken {next : ℕ} {a c : Bytes} {px : ℤ} (ne : a ≠ c) (stored : v a ≠ none)
      (fresh : v c = none) (quiet : Quiet v) :
      SideInv cfg v ⟨next, some c, [⟨c, px, .pendingNew⟩]⟩ [(a, .cancel), (c, .new px)] []
  /-- Only the `new` of the current quote is on the way. -/
  | sent {next : ℕ} {c : Bytes} {px : ℤ} {old : List ClientOrder}
      {reps : List (Bytes × ReportKind)} (fresh : v c = none) (quiet : Quiet v)
      (closing : Closing c old reps) :
      SideInv cfg v ⟨next, some c, old ++ [⟨c, px, .pendingNew⟩]⟩ [(c, .new px)] reps
  /-- The engine has answered, behind the reports of the order before. -/
  | answered {next : ℕ} {c : Bytes} {px : ℤ} {old : List ClientOrder}
      {reps reps' : List (Bytes × ReportKind)} (stored : v c ≠ none) (closing : Closing c old reps)
      (answer : Answered cfg v c px reps') :
      SideInv cfg v ⟨next, some c, old ++ [⟨c, px, .pendingNew⟩]⟩ [] (reps ++ reps')

namespace SideInv

/-- A book keeps the side. -/
theorem book (h : SideInv cfg v view cmds reps) (hb : BookEffect cfg v v' r) :
    SideInv cfg v' view cmds (reps ++ r) := by
  have hstored : ∀ {c}, v c ≠ none → v' c ≠ none := fun hc => mt (hb.eq_none_iff _).mp hc
  have hfresh : ∀ {c}, v c = none → v' c = none := (hb.eq_none_iff _).mpr
  cases h with
  | idle quiet =>
    obtain ⟨rfl, rfl⟩ := quiet.book hb
    exact .idle quiet
  | resting stored flow => exact .resting (hstored stored) (flow.book hb)
  | amending ne stored fresh flow =>
    exact .amending ne (hstored stored) (hfresh fresh) (flow.book hb)
  | overtaken ne stored fresh quiet =>
    obtain ⟨rfl, rfl⟩ := quiet.book hb
    exact .overtaken ne stored fresh quiet
  | sent fresh quiet closing =>
    obtain ⟨rfl, rfl⟩ := quiet.book hb
    rw [List.append_nil]
    exact .sent fresh quiet closing
  | answered stored closing answer =>
    rw [List.append_assoc]
    exact .answered (hstored stored) closing (answer.book hb)

/-- A cancel that is served keeps the side. -/
theorem cancel (h : SideInv cfg v view ((c, .cancel) :: cmds) reps) (hc : CancelEffect v c v' r) :
    SideInv cfg v' view cmds (reps ++ r) := by
  generalize hcmds : (c, CmdKind.cancel) :: cmds = l at h
  cases h with
  | idle _ => cases hcmds
  | resting _ _ => cases hcmds
  | amending ne stored fresh flow =>
    cases hcmds
    exact .sent ((hc.eq_none_iff _).mpr fresh) (hc.quiet flow.onlyAt) (flow.closing hc stored ne _)
  | overtaken ne stored fresh quiet =>
    cases hcmds
    obtain ⟨rfl, rfl⟩ := hc.refused quiet
    exact .sent fresh quiet (.late ne)
  | sent _ _ _ => cases hcmds
  | answered _ _ _ => cases hcmds

/-- A new order that is served keeps the side. -/
theorem new (h : SideInv cfg v view ((c, .new px) :: cmds) reps) (hn : NewEffect cfg v c px v' r) :
    SideInv cfg v' view cmds (reps ++ r) := by
  generalize hcmds : (c, CmdKind.new px) :: cmds = l at h
  cases h with
  | idle _ => cases hcmds
  | resting _ _ => cases hcmds
  | amending _ _ _ _ => cases hcmds
  | overtaken _ _ _ _ => cases hcmds
  | sent fresh quiet closing =>
    cases hcmds
    exact .answered hn.stored closing (hn.answered fresh quiet)
  | answered _ _ _ => cases hcmds

/-- A side whose current order is still unanswered does not quote. -/
private theorem quoted_pending {o : ClientOrder} (hq : Strategy.Quoted side view view' k)
    (hcur : view.current = some o.clId) (hfind : view.find? o.clId = some o)
    (hst : o.state = .pendingNew) : view' = view ∧ k = [] := by
  cases hq with
  | silent => exact ⟨rfl, rfl⟩
  | opened px idle =>
    rw [hcur, Option.bind_some, hfind] at idle
    cases idle
  | amended px current found settled _ =>
    rw [← Option.some.inj (hcur.symm.trans current), hfind] at found
    cases found
    exact absurd hst settled

/-- The newest order of the view is found. -/
private theorem find?_pending (hold : ∀ o ∈ old, o.clId ≠ c) :
    (SideView.mk next (some c) (old ++ [⟨c, px, .pendingNew⟩])).find? c =
      some ⟨c, px, .pendingNew⟩ := by
  have hnone : (old.find? fun o => o.clId = c) = none := by
    rw [List.find?_eq_none]
    intro o ho
    simpa using hold o ho
  simp [SideView.find?, List.find?_append, hnone]

/-- A quote decision: an idle side may open, a settled one may amend, and a side with a `new` on
the way stays silent. -/
theorem quoted (h : SideInv cfg v view cmds reps) (hq : Strategy.Quoted side view view' k)
    (hfresh : v (clIdOf side (view.next + 1)) = none) : SideInv cfg v view' (cmds ++ k) reps := by
  have hpending : ∀ {next c px} old, (∀ o ∈ old, o.clId ≠ c) →
      Strategy.Quoted side ⟨next, some c, old ++ [⟨c, px, .pendingNew⟩]⟩ view' k →
      view' = ⟨next, some c, old ++ [⟨c, px, .pendingNew⟩]⟩ ∧ k = [] := by
    intro next c px old hold hq
    exact quoted_pending (o := ⟨c, px, .pendingNew⟩) hq rfl (find?_pending hold) rfl
  cases h with
  | idle quiet =>
    cases hq with
    | silent => exact .idle quiet
    | opened px _ => exact .sent hfresh quiet .done
    | amended _ current _ _ _ => cases current
  | @resting next c px reps stored flow =>
    cases hq with
    | silent => exact .resting stored flow
    | opened px idle => simp [SideView.find?] at idle
    | @amended px' o current found _ _ =>
      have hid : o.clId = c := (Option.some.inj current).symm
      have ho : o = ⟨c, px, .live⟩ := by simpa [SideView.find?, hid, eq_comm] using found
      subst ho
      have hne : c ≠ clIdOf side (next + 1) := by
        rintro rfl
        exact stored hfresh
      simpa [SideView.new, SideView.setState] using
        @SideInv.amending _ _ _ _ _ _ px' _ hne stored hfresh flow
  | amending ne stored fresh flow =>
    obtain ⟨rfl, rfl⟩ := hpending [_] (by simpa using ne) hq
    rw [List.append_nil]
    exact .amending ne stored fresh flow
  | overtaken ne stored fresh quiet =>
    obtain ⟨rfl, rfl⟩ := hpending [] (by simp) hq
    exact .overtaken ne stored fresh quiet
  | sent fresh quiet closing =>
    obtain ⟨rfl, rfl⟩ := hpending _ closing.ne hq
    exact .sent fresh quiet closing
  | answered stored closing answer =>
    obtain ⟨rfl, rfl⟩ := hpending _ closing.ne hq
    exact .answered stored closing answer

/-! ### Reports -/

/-- A partial fill changes nothing that the view holds. -/
private theorem heard_traded (h : Strategy.Heard side view (c, .traded) view' k) :
    view' = view ∧ k = [] := by
  cases h with
  | unknown _ => exact ⟨rfl, rfl⟩
  | traded => exact ⟨rfl, rfl⟩
  | retired _ terminal => simp at terminal

/-- A report for an order that the view has dropped is ignored. -/
private theorem heard_unknown {kind : ReportKind} (h : Strategy.Heard side view (c, kind) view' k)
    (hnone : view.find? c = none) : view' = view ∧ k = [] := by
  cases h with
  | unknown _ => exact ⟨rfl, rfl⟩
  | settled found _ _ => rw [hnone] at found; cases found
  | stale _ _ => exact ⟨rfl, rfl⟩
  | traded => exact ⟨rfl, rfl⟩
  | retired found _ => rw [hnone] at found; cases found

/-- A final report retires its order. -/
private theorem heard_terminal {kind : ReportKind} {o : ClientOrder}
    (h : Strategy.Heard side view (c, kind) view' k) (hfind : view.find? c = some o)
    (hkind : kind = .filled ∨ kind = .cancelled ∨ kind = .refused) :
    view' = view.retire c ∧ k = [] := by
  cases h with
  | unknown unknown => rw [hfind] at unknown; cases unknown
  | settled _ _ _ => simp at hkind
  | stale _ _ => simp at hkind
  | traded => simp at hkind
  | retired _ _ => exact ⟨rfl, rfl⟩

/-- The next report of the order that makes room for `c`. -/
private theorem heard_closing {p : Bytes × ReportKind} (hc : Closing c old (p :: reps))
    (h : Strategy.Heard side ⟨next, some c, old ++ [⟨c, px, .pendingNew⟩]⟩ p view' k) :
    k = [] ∧ ∃ old', view' = ⟨next, some c, old' ++ [⟨c, px, .pendingNew⟩]⟩ ∧
      Closing c old' reps := by
  generalize hl : p :: reps = l at hc
  -- the retirement of an order that has lost the side leaves the current one alone
  have hretire : ∀ {a apx}, a ≠ c →
      (SideView.mk next (some c) ([⟨a, apx, .pendingCancel⟩] ++ [⟨c, px, .pendingNew⟩])).retire a =
        ⟨next, some c, [] ++ [⟨c, px, .pendingNew⟩]⟩ := by
    intro a apx hne
    simp [SideView.retire, Ne.symm hne]
  cases hc with
  | done => cases hl
  | late ne =>
    cases hl
    obtain ⟨rfl, rfl⟩ := heard_unknown h (by simp [SideView.find?, Ne.symm ne])
    exact ⟨rfl, [], rfl, .done⟩
  | cancelled ne apx n =>
    cases n with
    | zero =>
      cases hl
      obtain ⟨rfl, rfl⟩ := heard_terminal h (by simp [SideView.find?]; rfl) (by simp)
      exact ⟨rfl, [], hretire ne, .done⟩
    | succ n =>
      rw [List.replicate_succ, List.cons_append] at hl
      cases hl
      obtain ⟨rfl, rfl⟩ := heard_traded h
      exact ⟨rfl, _, rfl, .cancelled ne apx n⟩
  | crossed ne apx n =>
    cases n with
    | zero =>
      cases hl
      obtain ⟨rfl, rfl⟩ := heard_terminal h (by simp [SideView.find?]; rfl) (by simp)
      exact ⟨rfl, [], hretire ne, .late ne⟩
    | succ n =>
      rw [List.replicate_succ, List.cons_append] at hl
      cases hl
      obtain ⟨rfl, rfl⟩ := heard_traded h
      exact ⟨rfl, _, rfl, .crossed ne apx n⟩

/-- The answer to the current order, once the order before it is settled. -/
private theorem heard_answer {p : Bytes × ReportKind} (hstored : v c ≠ none)
    (ha : Answered cfg v c px (p :: reps))
    (h : Strategy.Heard side ⟨next, some c, [⟨c, px, .pendingNew⟩]⟩ p view' k)
    (hfresh : v (clIdOf side (next + 1)) = none) : SideInv cfg v view' k reps := by
  have hfind : (SideView.mk next (some c) [⟨c, px, .pendingNew⟩]).find? c =
      some ⟨c, px, .pendingNew⟩ := by
    simp [SideView.find?]
  generalize hl : p :: reps = l at ha
  cases ha with
  | refused quiet =>
    cases hl
    obtain ⟨rfl, rfl⟩ := heard_terminal h hfind (by simp)
    simpa [SideView.retire] using @SideInv.idle cfg v next quiet
  | acked flow =>
    cases hl
    cases h with
    | unknown unknown => rw [hfind] at unknown; cases unknown
    | settled found pending quoted =>
      -- the order rests, and the side decides again at once
      have hrest : SideInv cfg v
          ((SideView.mk next (some c) [⟨c, px, .pendingNew⟩]).setState c .live) [] reps := by
        simpa [SideView.setState] using @SideInv.resting cfg v next c px reps hstored flow
      exact hrest.quoted quoted hfresh
    | stale found settled =>
      rw [hfind] at found
      cases found
      exact absurd rfl settled
    | retired _ terminal => simp at terminal

/-- A report that the strategy hears keeps the side, with the commands it draws. -/
theorem heard {p : Bytes × ReportKind} (h : SideInv cfg v view cmds (p :: reps))
    (hh : Strategy.Heard side view p view' k) (hfresh : v (clIdOf side (view.next + 1)) = none) :
    SideInv cfg v view' (cmds ++ k) reps := by
  generalize hl : p :: reps = l at h
  cases h with
  | idle _ => cases hl
  | resting stored flow =>
    subst hl
    rcases flow.next with ⟨rfl, hflow⟩ | ⟨rfl, rfl, quiet⟩
    · obtain ⟨rfl, rfl⟩ := heard_traded hh
      exact .resting stored hflow
    · obtain ⟨rfl, rfl⟩ := heard_terminal hh (by simp [SideView.find?]; rfl) (by simp)
      simpa [SideView.retire] using SideInv.idle quiet
  | amending ne stored fresh flow =>
    subst hl
    rcases flow.next with ⟨rfl, hflow⟩ | ⟨rfl, rfl, quiet⟩
    · obtain ⟨rfl, rfl⟩ := heard_traded hh
      rw [List.append_nil]
      exact .amending ne stored fresh hflow
    · -- the order being replaced is filled: it leaves the map, and its cancel comes too late
      obtain ⟨rfl, rfl⟩ := heard_terminal hh (by simp [SideView.find?]; rfl) (by simp)
      simpa [SideView.retire, Ne.symm ne] using SideInv.overtaken ne stored fresh quiet
  | overtaken _ _ _ _ => cases hl
  | sent fresh quiet closing =>
    subst hl
    obtain ⟨rfl, old', rfl, hclosing⟩ := heard_closing closing hh
    exact .sent fresh quiet hclosing
  | @answered next c px old reps₀ reps' stored closing answer =>
    cases reps₀ with
    | nil =>
      obtain rfl : old = [] := by
        generalize hnil : ([] : List (Bytes × ReportKind)) = l at closing
        cases closing with
        | done => rfl
        | late _ => cases hnil
        | cancelled _ _ _ => simp at hnil
        | crossed _ _ _ => simp at hnil
      rw [List.nil_append] at hl
      subst hl
      exact heard_answer stored answer hh hfresh
    | cons p' reps₀ =>
      cases hl
      obtain ⟨rfl, old', rfl, hclosing⟩ := heard_closing closing hh
      exact .answered stored hclosing answer

end SideInv

/-! ## A stopped side -/

/-- The commands of a side up to its newest order. -/
inductive Pipe (v : Store) : Option Bytes → List (Bytes × CmdKind) → Prop
  | idle (quiet : Quiet v) : Pipe v none []
  | done {c : Bytes} (stored : v c ≠ none) (only : OnlyAt v c) : Pipe v (some c) []
  | sent {c : Bytes} {px : ℤ} (fresh : v c = none) (quiet : Quiet v) :
      Pipe v (some c) [(c, .new px)]
  | amend {a c : Bytes} {px : ℤ} (stored : v a ≠ none) (only : OnlyAt v a) (fresh : v c = none) :
      Pipe v (some c) [(a, .cancel), (c, .new px)]

/-- The orders that a sweep would cancel. -/
def restingOf (orders : List ClientOrder) : List ClientOrder :=
  orders.filter fun o => o.state ≠ .pendingCancel

/-- One side of a stopped strategy: the commands in flight, and the cancel of the newest order
once the sweep has sent it. -/
inductive Halted (v : Store) (orders : List ClientOrder) : List (Bytes × CmdKind) → Prop
  | unswept {newest : Option Bytes} {cmds : List (Bytes × CmdKind)} (pipe : Pipe v newest cmds)
      (few : orders.length ≤ 2)
      (resting : restingOf orders = [] ∨ ∃ o, restingOf orders = [o] ∧ newest = some o.clId) :
      Halted v orders cmds
  | swept {c : Bytes} {cmds : List (Bytes × CmdKind)} (pipe : Pipe v (some c) cmds)
      (few : orders.length ≤ 2) (resting : restingOf orders = []) :
      Halted v orders (cmds ++ [(c, .cancel)])

/-- A book keeps the commands on their way. -/
theorem Pipe.book {newest : Option Bytes} (h : Pipe v newest cmds) (hb : BookEffect cfg v v' r) :
    Pipe v' newest cmds := by
  have hstored : ∀ {c}, v c ≠ none → v' c ≠ none := fun hc => mt (hb.eq_none_iff _).mp hc
  have hfresh : ∀ {c}, v c = none → v' c = none := (hb.eq_none_iff _).mpr
  cases h with
  | idle quiet =>
    obtain ⟨rfl, -⟩ := quiet.book hb
    exact .idle quiet
  | done stored only => exact .done (hstored stored) (hb.onlyAt only)
  | sent fresh quiet =>
    obtain ⟨rfl, -⟩ := quiet.book hb
    exact .sent fresh quiet
  | amend stored only fresh => exact .amend (hstored stored) (hb.onlyAt only) (hfresh fresh)

/-- So does a cancel that is served. -/
theorem Pipe.cancel {newest : Option Bytes} (h : Pipe v newest ((c, .cancel) :: cmds))
    (hc : CancelEffect v c v' r) : Pipe v' newest cmds := by
  cases h with
  | amend stored only fresh =>
    exact .sent ((hc.eq_none_iff _).mpr fresh) (hc.quiet only)

/-- So does a new order that is served. -/
theorem Pipe.new {newest : Option Bytes} (h : Pipe v newest ((c, .new px) :: cmds))
    (hn : NewEffect cfg v c px v' r) : Pipe v' newest cmds := by
  cases h with
  | sent fresh quiet => exact .done hn.stored (hn.onlyAt quiet)

/-- On a stopped side one order at most is live. -/
theorem Pipe.onlyAt {newest : Option Bytes} (h : Pipe v newest cmds) : ∃ c, OnlyAt v c := by
  cases h with
  | idle quiet => exact ⟨[], quiet.onlyAt []⟩
  | done _ only => exact ⟨_, only⟩
  | sent _ quiet => exact ⟨[], quiet.onlyAt []⟩
  | amend _ only _ => exact ⟨_, only⟩

namespace Halted

/-- A stopped side holds two orders at most. -/
theorem few (h : Halted v orders cmds) : orders.length ≤ 2 := by
  cases h with
  | unswept _ few _ => exact few
  | swept _ few _ => exact few

/-- One of them at most is live. -/
theorem onlyAt (h : Halted v orders cmds) : ∃ c, OnlyAt v c := by
  cases h with
  | unswept pipe _ _ => exact pipe.onlyAt
  | swept pipe _ _ => exact pipe.onlyAt

theorem book (h : Halted v orders cmds) (hb : BookEffect cfg v v' r) : Halted v' orders cmds := by
  cases h with
  | unswept pipe few resting => exact .unswept (pipe.book hb) few resting
  | swept pipe few resting => exact .swept (pipe.book hb) few resting

/-- A cancel in flight names an order the engine has heard of. -/
theorem stored_of_cancel (h : Halted v orders ((c, .cancel) :: cmds)) : v c ≠ none := by
  generalize hl : (c, CmdKind.cancel) :: cmds = l at h
  cases h with
  | unswept pipe _ _ =>
    subst hl
    cases pipe with
    | amend stored _ _ => exact stored
  | swept pipe _ _ =>
    cases pipe with
    | done stored _ =>
      cases hl
      exact stored
    | sent _ _ => cases hl
    | amend stored _ _ =>
      cases hl
      exact stored

/-- A new order in flight is fresh, and finds its side without a live order. -/
theorem fresh_of_new (h : Halted v orders ((c, .new px) :: cmds)) : v c = none ∧ Quiet v := by
  generalize hl : (c, CmdKind.new px) :: cmds = l at h
  cases h with
  | unswept pipe _ _ =>
    subst hl
    cases pipe with
    | sent fresh quiet => exact ⟨fresh, quiet⟩
  | swept pipe _ _ =>
    cases pipe with
    | done _ _ => cases hl
    | sent fresh quiet =>
      cases hl
      exact ⟨fresh, quiet⟩
    | amend _ _ _ => cases hl

theorem cancel (h : Halted v orders ((c, .cancel) :: cmds)) (hc : CancelEffect v c v' r) :
    Halted v' orders cmds := by
  generalize hl : (c, CmdKind.cancel) :: cmds = l at h
  cases h with
  | unswept pipe few resting =>
    subst hl
    exact .unswept (pipe.cancel hc) few resting
  | @swept c' pre pipe few resting =>
    cases pre with
    | nil =>
      -- the cancel of the sweep itself
      cases hl
      cases pipe with
      | done stored only =>
        exact .unswept (.done (mt (hc.eq_none_iff _).mp stored) ((hc.quiet only).onlyAt _)) few
          (Or.inl resting)
    | cons p pre =>
      cases hl
      exact .swept (pipe.cancel hc) few resting

theorem new (h : Halted v orders ((c, .new px) :: cmds)) (hn : NewEffect cfg v c px v' r) :
    Halted v' orders cmds := by
  generalize hl : (c, CmdKind.new px) :: cmds = l at h
  cases h with
  | unswept pipe few resting =>
    subst hl
    exact .unswept (pipe.new hn) few resting
  | @swept c' pre pipe few resting =>
    cases pre with
    | nil => cases hl
    | cons p pre =>
      cases hl
      exact .swept (pipe.new hn) few resting

theorem sweep (h : Halted v orders cmds) :
    Halted v (orders.map fun o => { o with state := .pendingCancel })
      (cmds ++ (restingOf orders).map fun o => (o.clId, .cancel)) := by
  have hswept : restingOf (orders.map fun o => { o with state := .pendingCancel }) = [] := by
    simp [restingOf]
  cases h with
  | unswept pipe few resting =>
    rcases resting with hnil | ⟨o, hone, hnewest⟩
    · rw [hnil, List.map_nil, List.append_nil]
      exact .unswept pipe (by simpa using few) (Or.inl hswept)
    · rw [hone, List.map_singleton]
      subst hnewest
      exact .swept pipe (by simpa using few) hswept
  | swept pipe few resting =>
    rw [resting, List.map_nil, List.append_nil]
    exact .swept pipe (by simpa using few) hswept

end Halted

/-- A side that stops is halted, whatever its configuration. -/
theorem SideInv.halted (h : SideInv cfg v view cmds reps) : Halted v view.orders cmds := by
  have hclosing : ∀ {c : Bytes} {old : List ClientOrder} {reps : List (Bytes × ReportKind)}
    {px : ℤ},
      Closing c old reps → (old ++ [(⟨c, px, .pendingNew⟩ : ClientOrder)]).length ≤ 2 ∧
        restingOf (old ++ [⟨c, px, .pendingNew⟩]) = [⟨c, px, .pendingNew⟩] := by
    intro c old reps px hc
    cases hc <;> simp [restingOf]
  cases h with
  | idle quiet => exact .unswept (.idle quiet) (by simp) (Or.inl rfl)
  | resting stored flow =>
    exact .unswept (.done stored flow.onlyAt) (by simp) (Or.inr ⟨_, rfl, rfl⟩)
  | amending _ stored fresh flow =>
    exact .unswept (.amend stored flow.onlyAt fresh) (by simp) (Or.inr ⟨_, rfl, rfl⟩)
  | overtaken _ stored fresh quiet =>
    exact .unswept (.amend stored (quiet.onlyAt _) fresh) (by simp) (Or.inr ⟨_, rfl, rfl⟩)
  | sent fresh quiet closing =>
    obtain ⟨hfew, hrest⟩ := hclosing closing
    exact .unswept (.sent fresh quiet) hfew (Or.inr ⟨_, hrest, rfl⟩)
  | answered stored closing answer =>
    obtain ⟨hfew, hrest⟩ := hclosing closing
    exact .unswept (.done stored answer.onlyAt) hfew (Or.inr ⟨_, hrest, rfl⟩)

/-- A running side with nothing in flight: the strategy's orders are the engine's live orders. -/
theorem SideInv.quiescent (h : SideInv cfg v view [] []) :
    (view.orders = [] ∧ Quiet v) ∨
      ∃ c px, view.orders = [⟨c, px, .live⟩] ∧ LiveAt cfg v c px ∧ OnlyAt v c := by
  generalize hr : ([] : List (Bytes × ReportKind)) = reps at h
  cases h with
  | idle quiet => exact Or.inl ⟨rfl, quiet⟩
  | @resting next c px reps stored flow =>
    cases flow with
    | resting _ live only => exact Or.inr ⟨c, px, rfl, live, only⟩
    | completed _ _ => simp at hr
  | answered _ _ answer =>
    cases answer with
    | refused _ => simp at hr
    | acked _ => simp at hr

end Duplex

end MarketMaker
