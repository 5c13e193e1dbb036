import MarketMaker.Duplex.Effects

/-!
# Agreement of the strategy and the engine

`Good` is the invariant of the composition: every side is in a configuration of `SideInv` while
the strategy runs, and halted once it has stopped. Each event keeps it (`Good.step`), whichever
order books, commands, reports, ticks and timers come in.

Two results follow for every run. The strategy never draws a reject for a full book of its own, a
reused id or an unknown id, and never has two live orders on a side (`run_neverRefused`). With
nothing in flight, a running strategy and the engine hold the same orders (`run_agree`).
-/

namespace MarketMaker

namespace Duplex

open OrderEngine

variable {cfg : EngineConfig} {scfg : StrategyConfig} {s : ℕ} {x : Duplex} {e : OrderEngine}

/-! ## The ids of the session -/

/-- The session uses only ids the strategy has handed out, each on its own side. -/
structure Owned (st : Strategy) (e : OrderEngine) (s : ℕ) : Prop where
  fresh : ∀ side n, st.nextCl side < n → e.orders.find? ⟨s, clIdOf side n⟩ = none
  side : ∀ c ord, e.orders.find? ⟨s, c⟩ = some ord → ord.st = .live → ord.side = sideOf c

/-- Ids that were given out stay given out. -/
theorem Owned.grow {st st' : Strategy} (h : Owned st e s)
    (hle : ∀ side, st.nextCl side ≤ st'.nextCl side) : Owned st' e s where
  fresh side n hn := h.fresh side n ((hle side).trans_lt hn)
  side := h.side

/-- So for a new order on its way. -/
theorem NewOk.grow {st st' : Strategy} {m : InMsg} (h : Strategy.NewOk st m)
    (hle : ∀ side, st.nextCl side ≤ st'.nextCl side) : Strategy.NewOk st' m := by
  intro order horder
  obtain ⟨side, n, hn, hid, hside⟩ := h order horder
  exact ⟨side, n, hn.trans (hle side), hid, hside⟩

/-- Any call keeps the ids, when the new orders of the session are the strategy's. -/
theorem Owned.step {st : Strategy} (h : Owned st e s) (hinv : Inv cfg e) {call : Call}
    (hnew : ∀ order, call = .onNew s order → Strategy.NewOk st (.newOrder order)) :
    Owned st (OrderEngine.step cfg e call).1 s where
  fresh side n hn := by
    have hstep := orderStep_step hinv call ⟨s, clIdOf side n⟩
    have hnone := h.fresh side n hn
    rw [hnone] at hstep
    generalize (OrderEngine.step cfg e call).1.orders.find? ⟨s, clIdOf side n⟩ = stored at hstep ⊢
    generalize reportsFor _ (OrderEngine.step cfg e call).2 = out at hstep
    -- a new order would carry an id that has not been handed out
    have hunused : ∀ order : NewOrder, order.clId = clIdOf side n → call ≠ .onNew s order := by
      rintro order hid rfl
      obtain ⟨side', n', hn', hid', -⟩ := hnew order rfl order rfl
      obtain ⟨rfl, rfl⟩ := clIdOf_inj (hid.symm.trans hid')
      omega
    cases hstep with
    | quiet _ _ _ => rfl
    | rejected hid _ _ => exact absurd rfl (hunused _ hid)
    | accepted hid _ _ _ _ => exact absurd rfl (hunused _ hid)
    | unknown _ => rfl
    | reaped _ => rfl
  side c ord hord hst := by
    have hstep := orderStep_step hinv call ⟨s, c⟩
    rw [hord] at hstep
    generalize hold : e.orders.find? ⟨s, c⟩ = stored at hstep
    generalize reportsFor _ (OrderEngine.step cfg e call).2 = out at hstep
    cases hstep with
    | quiet _ _ _ => exact h.side c ord hold hst
    | duplicate _ => exact h.side c ord hold hst
    | rejected _ _ _ => cases hst
    | @accepted order hid _ side _ hside =>
      obtain ⟨side', n, -, hid', hwire⟩ := hnew order rfl order rfl
      rw [hwire, sideFromWire_wire] at hside
      obtain rfl := Option.some.inj hside
      have hc : clIdOf side' n = c := hid'.symm.trans hid
      rw [← hc, sideOf_clIdOf]
    | terminal _ dead => exact absurd hst dead
    | cancelled _ _ => cases hst
    | @filled book ord₀ hit _ _ =>
      rw [side_swept]
      exact h.side c ord₀ hold (st_of_isFilled hit)

/-! ## The invariant -/

/-- The invariant of the composition. -/
structure Good (cfg : EngineConfig) (s : ℕ) (x : Duplex) : Prop where
  inv : Inv cfg x.engine
  epoch : x.strategy.epoch = s
  owned : Owned x.strategy x.engine s
  newOk : ∀ m ∈ x.commands, Strategy.NewOk x.strategy m
  digested : ∀ m ∈ x.reports, ∃ p, m.digest = some p
  current : x.strategy.stopped = false → x.strategy.CurrentOk
  running : x.strategy.stopped = false → ∀ side,
    SideInv cfg (store x.engine s side) (x.strategy.sideView side) (cmdsOn side x.commands)
      (reportsOn side x.reports)
  stopped : x.strategy.stopped = true → ∀ side,
    Halted (store x.engine s side) (x.strategy.sideView side).orders (cmdsOn side x.commands)

namespace Good

/-- A strategy that has stopped has two stopped sides. -/
theorem halted (h : Good cfg s x) (side : Side) :
    Halted (store x.engine s side) (x.strategy.sideView side).orders (cmdsOn side x.commands) := by
  cases hst : x.strategy.stopped with
  | false => exact (h.running hst side).halted
  | true => exact h.stopped hst side

/-- Nothing is on its way at the start. -/
theorem init (cfg : EngineConfig) (s : ℕ) (st : Strategy) : Good cfg s (Duplex.init s st) where
  inv := inv_init cfg
  epoch := rfl
  owned := ⟨fun _ _ _ => rfl, fun _ _ hord => by cases hord⟩
  newOk := by simp [Duplex.init]
  digested := by simp [Duplex.init]
  current := by
    intro _ side clId hcur
    cases hcur
  running := by
    intro _ side
    refine SideInv.idle fun c ord hord => ?_
    obtain ⟨-, hord⟩ := store_eq_some_iff.mp hord
    cases hord
  stopped hst := by cases hst

/-! ### Engine events -/

/-- A call of the engine keeps the invariant if it keeps it side by side. -/
private theorem call {x' : Duplex} {c : Call} (h : Good cfg s x) (hst : x'.strategy = x.strategy)
    (hsub : ∀ m ∈ x'.commands, m ∈ x.commands)
    (hengine : x'.engine = (OrderEngine.step cfg x.engine c).1)
    (hreports : x'.reports = x.reports ++ reportsTo s (OrderEngine.step cfg x.engine c).2)
    (hnew : ∀ order, c = .onNew s order → Strategy.NewOk x.strategy (.newOrder order))
    (hdigested : ∀ m ∈ reportsTo s (OrderEngine.step cfg x.engine c).2, ∃ p, m.digest = some p)
    (hrun : ∀ side view reps,
      SideInv cfg (store x.engine s side) view (cmdsOn side x.commands) reps →
      SideInv cfg (store (OrderEngine.step cfg x.engine c).1 s side) view (cmdsOn side x'.commands)
        (reps ++ reportsOn side (reportsTo s (OrderEngine.step cfg x.engine c).2)))
    (hstop : ∀ side orders,
      Halted (store x.engine s side) orders (cmdsOn side x.commands) →
      Halted (store (OrderEngine.step cfg x.engine c).1 s side) orders (cmdsOn side x'.commands)) :
    Good cfg s x' where
  inv := hengine ▸ inv_step h.inv c
  epoch := hst ▸ h.epoch
  owned := by
    rw [hst, hengine]
    exact h.owned.step h.inv hnew
  newOk m hm := hst ▸ h.newOk m (hsub m hm)
  digested m hm := by
    rw [hreports, List.mem_append] at hm
    exact hm.elim (h.digested m) (hdigested m)
  current := hst ▸ h.current
  running hrunning side := by
    rw [hst] at hrunning ⊢
    rw [hengine, hreports, reportsOn_append]
    exact hrun side _ _ (h.running hrunning side)
  stopped hstopped side := by
    rw [hst] at hstopped ⊢
    rw [hengine]
    exact hstop side _ (h.stopped hstopped side)

/-- A book that is fresh keeps the composition good. -/
theorem book (h : Good cfg s x) {book : Book} (hfresh : x.engine.isFresh book) :
    Good cfg s { x.call cfg s (.onBook book) with books := x.books ++ [book] } := by
  have heffect : ∀ side, BookEffect cfg (store x.engine s side)
      (store (OrderEngine.step cfg x.engine (.onBook book)).1 s side)
      (reportsOn side (reportsTo s (OrderEngine.step cfg x.engine (.onBook book)).2)) := by
    intro side
    obtain ⟨c, honly⟩ := (h.halted side).onlyAt
    exact onBook_effect h.inv hfresh honly
  refine h.call rfl (fun m hm => hm) rfl rfl (fun _ heq => by cases heq) ?_ ?_ ?_
  · intro m hm
    -- a book draws fills only
    obtain ⟨r, hr, rfl⟩ := List.mem_map.mp hm
    simp only [OrderEngine.step] at hr
    rw [(onBook_of_fresh cfg h.inv.indexed hfresh).2] at hr
    obtain ⟨_, _, _, _, rfl⟩ := mem_fillsFrom (List.mem_filter.mp hr).1
    exact ⟨_, rfl⟩
  · exact fun side view reps hside => hside.book (heffect side)
  · exact fun side orders hside => hside.book (heffect side)

/-- So does a call of another session. -/
theorem other (h : Good cfg s x) {c : Call} (hother : isOther s c = true) :
    Good cfg s (x.call cfg s c) := by
  obtain ⟨hstore, hnone⟩ := other_effect h.inv hother
  refine h.call rfl (fun m hm => hm) rfl rfl ?_ ?_ ?_ ?_
  · rintro order rfl
    simp [isOther] at hother
  · rw [hnone]
    simp
  · intro side view reps hside
    rw [hstore, hnone]
    change SideInv cfg _ view _ (reps ++ [])
    rw [List.append_nil]
    exact hside
  · intro side orders hside
    rw [hstore]
    exact hside

/-- A command is on the side of its id. -/
theorem cmdsOn_cons (side : Side) (m : InMsg) (rest : List InMsg) :
    cmdsOn side (m :: rest) = if sideOf m.digest.1 = side then m.digest :: cmdsOn side rest
      else cmdsOn side rest := by
  simp only [cmdsOn, List.map_cons, List.filter_cons, decide_eq_true_eq]

/-- A command keeps the invariant if its effect keeps it on its own side. -/
private theorem command_of {m : InMsg} {rest : List InMsg}
    {Q : Store → List (Bytes × ReportKind) → Prop} (h : Good cfg s x)
    (hcmds : x.commands = m :: rest)
    (heffect : CommandEffect s x.engine (OrderEngine.step cfg x.engine (callOf s m)) m.digest.1 Q)
    (hrun : ∀ {v' view cmds reps r}, Q v' r →
      SideInv cfg (store x.engine s (sideOf m.digest.1)) view (m.digest :: cmds) reps →
      SideInv cfg v' view cmds (reps ++ r))
    (hstop : ∀ {v' orders cmds r}, Q v' r →
      Halted (store x.engine s (sideOf m.digest.1)) orders (m.digest :: cmds) →
      Halted v' orders cmds) :
    Good cfg s (({ x with commands := rest } : Duplex).call cfg s (callOf s m)) := by
  have hown : cmdsOn (sideOf m.digest.1) x.commands =
      m.digest :: cmdsOn (sideOf m.digest.1) rest := by
    rw [hcmds, cmdsOn_cons, if_pos rfl]
  have hother : ∀ side, side ≠ sideOf m.digest.1 → cmdsOn side x.commands = cmdsOn side rest := by
    intro side hne
    rw [hcmds, cmdsOn_cons, if_neg (Ne.symm hne)]
  refine h.call rfl (fun m' hm' => hcmds ▸ List.mem_cons_of_mem _ hm') rfl rfl ?_
    heffect.digested ?_ ?_
  · intro order hcall
    have hm : m = .newOrder order := by
      cases m with
      | newOrder order' =>
        cases hcall
        rfl
      | cancelOrder cancel => cases hcall
    exact hm ▸ h.newOk m (hcmds ▸ List.mem_cons_self)
  · intro side view reps hside
    by_cases hd : side = sideOf m.digest.1
    · subst hd
      rw [hown] at hside
      exact hrun heffect.own hside
    · obtain ⟨hstore, hnil⟩ := heffect.other side hd
      rw [hstore, hnil, List.append_nil]
      exact hother side hd ▸ hside
  · intro side orders hside
    by_cases hd : side = sideOf m.digest.1
    · subst hd
      rw [hown] at hside
      exact hstop heffect.own hside
    · rw [(heffect.other side hd).1]
      exact hother side hd ▸ hside

/-- So does a command that the engine serves. -/
theorem command {m : InMsg} {rest : List InMsg} (h : Good cfg s x)
    (hcmds : x.commands = m :: rest) :
    Good cfg s (({ x with commands := rest } : Duplex).call cfg s (callOf s m)) := by
  cases m with
  | newOrder order =>
    exact h.command_of hcmds (onNew_effect cfg x.engine s order)
      (fun hQ hside => hside.new hQ) fun hQ hside => hside.new hQ
  | cancelOrder cancel =>
    exact h.command_of hcmds (onCancel_effect cfg x.engine s cancel)
      (fun hQ hside => hside.cancel hQ) fun hQ hside => hside.cancel hQ

/-! ### Strategy events -/

/-- An action of the strategy keeps the invariant if it keeps it side by side. -/
private theorem act {x' : Duplex} {r : Strategy × List Cmd} (h : Good cfg s x)
    (hst : x'.strategy = r.1) (hcmds : x'.commands = x.commands ++ sends r.2)
    (hengine : x'.engine = x.engine) (hsub : ∀ m ∈ x'.reports, m ∈ x.reports)
    (hepoch : r.1.epoch = x.strategy.epoch)
    (hnext : ∀ side, x.strategy.nextCl side ≤ r.1.nextCl side)
    (hnew : ∀ m ∈ sends r.2, Strategy.NewOk r.1 m)
    (hcurrent : r.1.stopped = false → r.1.CurrentOk)
    (hrun : r.1.stopped = false → ∀ side, SideInv cfg (store x.engine s side) (r.1.sideView side)
      (cmdsOn side x.commands ++ cmdsOn side (sends r.2)) (reportsOn side x'.reports))
    (hstop : r.1.stopped = true → ∀ side, Halted (store x.engine s side) (r.1.sideView side).orders
      (cmdsOn side x.commands ++ cmdsOn side (sends r.2))) : Good cfg s x' where
  inv := hengine ▸ h.inv
  epoch := by rw [hst, hepoch, h.epoch]
  owned := by
    rw [hst, hengine]
    exact h.owned.grow hnext
  newOk m hm := by
    rw [hcmds, List.mem_append] at hm
    rw [hst]
    exact hm.elim (fun hm => NewOk.grow (h.newOk m hm) hnext) (hnew m)
  digested m hm := h.digested m (hsub m hm)
  current := hst ▸ hcurrent
  running hrunning side := by
    rw [hst] at hrunning ⊢
    rw [hengine, hcmds, Strategy.cmdsOn_append]
    exact hrun hrunning side
  stopped hstopped side := by
    rw [hst] at hstopped ⊢
    rw [hengine, hcmds, Strategy.cmdsOn_append]
    exact hstop hstopped side

/-- The strategy has stopped and sent nothing. -/
private theorem act_inert {x' : Duplex} {r : Strategy × List Cmd} (h : Good cfg s x)
    (hst : x'.strategy = r.1) (hcmds : x'.commands = x.commands ++ sends r.2)
    (hengine : x'.engine = x.engine) (hsub : ∀ m ∈ x'.reports, m ∈ x.reports)
    (hinert : Strategy.Inert x.strategy r) (hstopped : r.1.stopped = true) : Good cfg s x' := by
  refine h.act hst hcmds hengine hsub hinert.epoch (fun side => ?_) ?_ ?_ ?_ ?_
  · exact (congrArg SideView.next (hinert.view side)).ge
  · rw [hinert.sends]
    simp
  · intro hrunning
    rw [hstopped] at hrunning
    cases hrunning
  · intro hrunning
    rw [hstopped] at hrunning
    cases hrunning
  · intro _ side
    rw [hinert.sends, hinert.view side]
    exact (List.append_nil _).symm ▸ h.halted side

/-- The next id of a side is unknown to the engine. -/
private theorem next_fresh (h : Good cfg s x) (side : Side) :
    store x.engine s side (clIdOf side ((x.strategy.sideView side).next + 1)) = none := by
  have hnone := h.owned.fresh side (x.strategy.nextCl side + 1) (Nat.lt_succ_self _)
  simp [store, hnone]

/-- So does a tick that the strategy reads. -/
theorem tob (h : Good cfg s x) (scfg : StrategyConfig) (book : Book) (rest : List Book)
    (nowNs : ℤ) :
    Good cfg s (({ x with books := rest } : Duplex).deliver scfg s (tobOf cfg book) nowNs) := by
  -- a tick is dispatched to `on_tob`, whatever its envelope
  obtain ⟨tob, htob⟩ : ∃ tob, (tobOf cfg book).stamp (x.inbound + 1) s = .tob tob := ⟨_, rfl⟩
  have hcall : x.strategy.onReport scfg ((tobOf cfg book).stamp (x.inbound + 1) s) nowNs =
      x.strategy.onTob scfg tob nowNs := by
    rw [htob]
    rfl
  unfold deliver
  dsimp only
  rw [hcall]
  cases hst : x.strategy.stopped with
  | true =>
    obtain ⟨hinert, hstopped⟩ := Strategy.inert_onTob_of_stopped hst tob nowNs
    exact h.act_inert rfl rfl rfl (fun _ hm => hm) hinert hstopped
  | false =>
    rcases Strategy.onTob_spec (h.current hst) hst tob nowNs with ⟨hinert, hstopped⟩ | hboth
    · exact h.act_inert rfl rfl rfl (fun _ hm => hm) hinert hstopped
    · refine h.act rfl rfl rfl (fun _ hm => hm) hboth.epoch (fun side => (hboth.own side).next_le)
        hboth.newOk ?_ ?_ ?_
      · intro _ side
        exact (hboth.own side).current (h.current hst side)
      · intro _ side
        exact (h.running hst side).quoted (hboth.own side) (h.next_fresh side)
      · intro hstopped
        rw [hboth.stopped, hst] at hstopped
        cases hstopped

/-- So does a report that it reads. -/
theorem report {m : OutMsg} {rest : List OutMsg} (h : Good cfg s x) (scfg : StrategyConfig)
    (hreports : x.reports = m :: rest) (nowNs : ℤ) :
    Good cfg s (({ x with reports := rest } : Duplex).deliver scfg s m nowNs) := by
  have hsub : ∀ m' ∈ rest, m' ∈ x.reports := fun m' hm' => hreports ▸ List.mem_cons_of_mem _ hm'
  obtain ⟨⟨clId, kind⟩, hm⟩ := h.digested m (hreports ▸ List.mem_cons_self)
  have hstamp : (m.stamp (x.inbound + 1) s).digest = some (clId, kind) := by
    rw [OutMsg.digest_stamp, hm]
  unfold deliver
  dsimp only
  cases hst : x.strategy.stopped with
  | true =>
    obtain ⟨hinert, hstopped⟩ := Strategy.inert_onReport_of_stopped hst hstamp nowNs
    exact h.act_inert rfl rfl rfl hsub hinert hstopped
  | false =>
    have hepoch : (m.stamp (x.inbound + 1) s).epoch = x.strategy.epoch := by
      rw [OutMsg.epoch_stamp, h.epoch]
    rcases Strategy.onReport_spec (h.current hst) hst hstamp hepoch nowNs with
      ⟨hinert, hstopped⟩ | hheard
    · exact h.act_inert rfl rfl rfl hsub hinert hstopped
    · refine h.act rfl rfl rfl hsub hheard.epoch (fun side => ?_) hheard.newOk ?_ ?_ ?_
      · by_cases hd : side = sideOf clId
        · subst hd
          exact hheard.own.next_le
        · exact (congrArg SideView.next (hheard.other side hd).1).ge
      · intro _ side c hcur
        by_cases hd : side = sideOf clId
        · subst hd
          exact hheard.own.current (h.current hst _) c hcur
        · rw [← Strategy.current_sideView, (hheard.other side hd).1] at hcur
          exact h.current hst side c hcur
      · intro _ side
        have hside := h.running hst side
        rw [hreports, reportsOn_cons hm] at hside
        by_cases hd : side = sideOf clId
        · subst hd
          rw [if_pos rfl] at hside
          exact hside.heard hheard.own (h.next_fresh _)
        · rw [if_neg (Ne.symm hd)] at hside
          obtain ⟨hview, hnil⟩ := hheard.other side hd
          rw [hview, hnil, List.append_nil]
          exact hside
      · intro hstopped
        rw [hheard.stopped, hst] at hstopped
        cases hstopped

/-- So does its timer. -/
theorem timer (h : Good cfg s x) (scfg : StrategyConfig) (nowNs : ℤ) :
    Good cfg s (x.act (x.strategy.onTimer scfg nowNs)) := by
  rcases x.strategy.onTimer_spec nowNs with ⟨hinert, hsame⟩ | hswept
  · cases hst : x.strategy.stopped with
    | true => exact h.act_inert rfl rfl rfl (fun _ hm => hm) hinert (hsame.trans hst)
    | false =>
      refine h.act rfl rfl rfl (fun _ hm => hm) hinert.epoch (fun side => ?_) ?_ ?_ ?_ ?_
      · exact (congrArg SideView.next (hinert.view side)).ge
      · rw [hinert.sends]
        simp
      · intro _ side c hcur
        rw [← Strategy.current_sideView, hinert.view side] at hcur
        exact h.current hst side c hcur
      · intro _ side
        rw [hinert.sends, hinert.view side]
        exact (List.append_nil _).symm ▸ h.running hst side
      · intro hstopped
        rw [hsame, hst] at hstopped
        cases hstopped
  · refine h.act rfl rfl rfl (fun _ hm => hm) hswept.epoch (fun side => ?_) hswept.newOk ?_ ?_ ?_
    · rw [hswept.nextCl]
    · intro hrunning
      rw [hswept.stopped] at hrunning
      cases hrunning
    · intro hrunning
      rw [hswept.stopped] at hrunning
      cases hrunning
    · intro _ side
      rw [hswept.orders, hswept.cmds]
      exact (h.halted side).sweep

/-- Every event keeps the invariant. -/
theorem step (h : Good cfg s x) (scfg : StrategyConfig) (ev : Event) :
    Good cfg s (Duplex.step cfg scfg s x ev).1 := by
  cases ev with
  | book book =>
    simp only [Duplex.step]
    split_ifs with hfresh
    · exact h.book hfresh
    · exact h
  | other c =>
    simp only [Duplex.step]
    split_ifs with hother
    · exact h.other hother
    · exact h
  | command =>
    simp only [Duplex.step]
    split
    · exact h
    · next m rest hcmds => exact h.command hcmds
  | report nowNs =>
    simp only [Duplex.step]
    split
    · exact h
    · next m rest hreports => exact h.report scfg hreports nowNs
  | tob conflated nowNs =>
    simp only [Duplex.step]
    split
    · exact h
    · next book rest _ => exact h.tob scfg book rest nowNs
  | timer nowNs => exact h.timer scfg nowNs

end Good

/-- So the composition is good in every state. -/
theorem good_run (cfg : EngineConfig) (scfg : StrategyConfig) (s : ℕ) (st : Strategy)
    (events : List Event) : Good cfg s (run cfg scfg s st events).1 :=
  Mealy.run_induct (step cfg scfg s) (P := fun x _ => Good cfg s x) (Good.init cfg s st)
    (fun _ _ ev h => h.step scfg ev) events

/-! ## What the engine answers -/

/-- At most one live order of the session on each side. -/
theorem Good.live_le_one (h : Good cfg s x) (side : Side) :
    (x.engine.orders.count fun k o => k.session = s ∧ o.st = .live ∧ o.side = side) ≤ 1 := by
  obtain ⟨c, honly⟩ := (h.halted side).onlyAt
  refine OrderedMap.count_le_one ⟨s, c⟩ fun k ord hord hp => ?_
  obtain ⟨hs, hst, hside⟩ : k.session = s ∧ ord.st = .live ∧ ord.side = side := by simpa using hp
  obtain ⟨session, c'⟩ := k
  subst hs
  have hc : sideOf c' = side := (h.owned.side c' ord hord hst).symm.trans hside
  rw [honly c' ord (store_eq_some_iff.mpr ⟨hc, hord⟩) hst]

/-- A new order finds at most one live order of the session: its own side has none. -/
theorem Good.liveCount_le_one {order : NewOrder} {rest : List InMsg} (h : Good cfg s x)
    (hcmds : x.commands = .newOrder order :: rest) : x.engine.liveCount s ≤ 1 := by
  have hquiet : Quiet (store x.engine s (sideOf order.clId)) := by
    have hside := h.halted (sideOf order.clId)
    rw [hcmds, Good.cmdsOn_cons, if_pos (by rfl)] at hside
    exact hside.fresh_of_new.2
  obtain ⟨side, hne⟩ : ∃ side, side ≠ sideOf order.clId := by
    cases sideOf order.clId
    · exact ⟨.ask, by decide⟩
    · exact ⟨.bid, by decide⟩
  rw [liveCount_eq h.inv.indexed]
  refine le_trans (OrderedMap.count_mono fun k ord hord hp => ?_) (h.live_le_one side)
  obtain ⟨hs, hst⟩ : k.session = s ∧ ord.st = .live := by simpa using hp
  obtain ⟨session, c⟩ := k
  subst hs
  have howner := h.owned.side c ord hord hst
  -- an order on the new order's side would be live there
  have hother : sideOf c ≠ sideOf order.clId := fun heq =>
    hquiet c ord (store_eq_some_iff.mpr ⟨heq, hord⟩) hst
  have hside : ord.side = side := by
    rw [howner]
    generalize sideOf c = a at hother
    generalize sideOf order.clId = b at hother hne
    cases a <;> cases b <;> cases side <;> simp_all
  simp [hst, hside]

/-- The codes that an orderly client never draws. -/
def isAvoidable (code : Bytes) : Prop :=
  code = RejectCode.maxLiveOrders.toString ∨ code = RejectCode.dupClOrdId.toString ∨
    code = RejectCode.unknownClOrdId.toString

/-- The code of a reject is read off its text. -/
private theorem not_isAvoidable (code : RejectCode)
    (h : code ∉ [RejectCode.maxLiveOrders, .dupClOrdId, .unknownClOrdId]) :
    ¬isAvoidable code.toString := by
  simp only [List.mem_cons, List.not_mem_nil, or_false, not_or] at h
  rintro (heq | heq | heq)
  · exact h.1 (RejectCode.toString_injective heq)
  · exact h.2.1 (RejectCode.toString_injective heq)
  · exact h.2.2 (RejectCode.toString_injective heq)

/-- In a good composition no reject has an avoidable code. -/
theorem Good.answers (h : Good cfg s x) (scfg : StrategyConfig)
    (hcap : 2 ≤ cfg.inst.maxLiveOrders) (ev : Event) {rej : Reject}
    (hrej : .reject rej ∈ (Duplex.step cfg scfg s x ev).2) : ¬isAvoidable rej.code := by
  cases ev with
  | book book =>
    simp only [Duplex.step] at hrej
    split_ifs at hrej <;> cases hrej
  | other c =>
    simp only [Duplex.step] at hrej
    split_ifs at hrej <;> cases hrej
  | report nowNs =>
    simp only [Duplex.step] at hrej
    split at hrej <;> cases hrej
  | tob conflated nowNs =>
    simp only [Duplex.step] at hrej
    split at hrej <;> cases hrej
  | timer nowNs => cases hrej
  | command =>
    simp only [Duplex.step] at hrej
    split at hrej
    · cases hrej
    · next m rest hcmds =>
      -- the command is the oldest one of its side, which the invariant speaks about
      have hside := h.halted (sideOf m.digest.1)
      rw [hcmds, Good.cmdsOn_cons, if_pos rfl] at hside
      cases m with
      | newOrder order =>
        obtain ⟨hfresh, -⟩ := hside.fresh_of_new
        change store x.engine s (sideOf order.clId) order.clId = none at hfresh
        rw [store_sideOf] at hfresh
        have hspec := onNew_spec cfg x.engine s order
        simp only [callOf, OrderEngine.step, routeTo] at hrej
        rw [reportsTo_own] at hrej
        generalize onNew cfg x.engine s order = r at hspec hrej
        cases hspec with
        | duplicate used =>
          rw [hfresh] at used
          cases used
        | rejected reason _ cause =>
          cases List.mem_singleton.mp hrej
          refine not_isAvoidable _ ?_
          cases cause with
          | invalid hcode =>
            have := validateOrder_code hcode
            revert this
            cases ‹RejectCode› <;> decide
          -- the side of the order has no live order, and the other at most one
          | capped hcapped =>
            have := h.liveCount_le_one hcmds
            omega
          | crossing _ => decide
        | accepted _ _ _ _ _ => cases List.mem_singleton.mp hrej
      | cancelOrder cancel =>
        have hstored := hside.stored_of_cancel
        change store x.engine s (sideOf cancel.clId) cancel.clId ≠ none at hstored
        rw [store_sideOf] at hstored
        have hspec := onCancel_spec x.engine s cancel
        simp only [callOf, OrderEngine.step, routeTo] at hrej
        rw [reportsTo_own] at hrej
        generalize onCancel x.engine s cancel = r at hspec hrej
        cases hspec with
        | unknown unused => exact absurd unused hstored
        | terminal _ _ =>
          cases List.mem_singleton.mp hrej
          exact not_isAvoidable .alreadyTerminal (by decide)
        | cancelled _ _ => cases List.mem_singleton.mp hrej

/-- The engine answers no command of the strategy with `MAX_LIVE_ORDERS`, `DUP_CLORDID` or
`UNKNOWN_CLORDID`, and never holds two live orders of the session on a side. -/
theorem run_neverRefused (cfg : EngineConfig) (scfg : StrategyConfig) (s : ℕ) (st : Strategy)
    (hcap : 2 ≤ cfg.inst.maxLiveOrders) (events : List Event) :
    (∀ answer ∈ (run cfg scfg s st events).2, ∀ rej, .reject rej ∈ answer.2 →
      rej.code ≠ RejectCode.maxLiveOrders.toString ∧ rej.code ≠ RejectCode.dupClOrdId.toString ∧
        rej.code ≠ RejectCode.unknownClOrdId.toString) ∧
      ∀ side, ((run cfg scfg s st events).1.engine.orders.count fun k o =>
        k.session = s ∧ o.st = .live ∧ o.side = side) ≤ 1 := by
  refine ⟨fun answer hanswer rej hrej => ?_, (good_run cfg scfg s st events).live_le_one⟩
  have hall : ∀ answer ∈ (run cfg scfg s st events).2, ∀ rej, .reject rej ∈ answer.2 →
      ¬isAvoidable rej.code := by
    refine (Mealy.run_induct (step cfg scfg s) (P := fun x history => Good cfg s x ∧
      ∀ answer ∈ history, ∀ rej, OutMsg.reject rej ∈ answer.2 → ¬isAvoidable rej.code)
      ⟨Good.init cfg s st, by simp⟩ ?_ events).2
    rintro x history ev ⟨hgood, hpast⟩
    refine ⟨hgood.step scfg ev, fun answer hanswer rej hrej => ?_⟩
    rcases List.mem_append.mp hanswer with hanswer | hanswer
    · exact hpast answer hanswer rej hrej
    · cases List.mem_singleton.mp hanswer
      exact hgood.answers scfg hcap ev hrej
  have havoid := hall answer hanswer rej hrej
  simp only [isAvoidable, not_or] at havoid
  exact havoid

/-- A small quoter of the default instrument. -/
def quoterConfig : StrategyConfig :=
  { symbol := ascii "MOCKUSDT", qty := 100, maxQty := 100, staleNs := 1000 }

/-- A first book, its tick, and both quotes placed and acknowledged. -/
def quoting : List Event :=
  [.book { mdSeq := 1, bidPx := 100, bidQty := 10, askPx := 110, askQty := 10 }, .tob 0 0,
    .command, .command, .report 1, .report 2]

theorem run_neverRefused_quoting :
    2 ≤ specConfig.inst.maxLiveOrders ∧
      (run specConfig quoterConfig 7 {} quoting).1.engine.orders.toList.length = 2 ∧
      ∀ side, ((run specConfig quoterConfig 7 {} quoting).1.engine.orders.count fun k o =>
        k.session = 7 ∧ o.st = .live ∧ o.side = side) ≤ 1 :=
  ⟨by decide, by decide +kernel,
    (run_neverRefused specConfig quoterConfig 7 {} (by decide) quoting).2⟩

/-! ## Agreement -/

/-- The orders the strategy believes in, as id, side and price. -/
def believed (st : Strategy) : Set (Bytes × Side × ℤ) :=
  {t | ∃ o ∈ st.orders, t = (o.clId, sideOf o.clId, o.px)}

/-- The live orders of a session, as id, side and price. -/
def liveOrders (cfg : EngineConfig) (e : OrderEngine) (s : ℕ) : Set (Bytes × Side × ℤ) :=
  {t | ∃ c ord, e.orders.find? ⟨s, c⟩ = some ord ∧ ord.st = .live ∧
    t = (c, ord.side, toRawPx cfg.inst ord.px)}

/-- With both queues empty the strategy believes what the engine holds. -/
theorem Good.agree (h : Good cfg s x) (hst : x.strategy.stopped = false) (hcmds : x.commands = [])
    (hreps : x.reports = []) :
    (∀ o ∈ x.strategy.orders, o.state = .live) ∧
      believed x.strategy = liveOrders cfg x.engine s := by
  have hquiescent := fun side => by
    have hside := h.running hst side
    rw [hcmds, hreps] at hside
    exact SideInv.quiescent hside
  have hmem : ∀ o : ClientOrder, o ∈ x.strategy.orders ↔
      o ∈ (x.strategy.sideView (sideOf o.clId)).orders := by
    intro o
    simp [Strategy.sideView]
  refine ⟨fun o ho => ?_, Set.Subset.antisymm ?_ ?_⟩
  · rcases hquiescent (sideOf o.clId) with ⟨hnil, -⟩ | ⟨c, px, hone, -, -⟩
    · rw [hmem, hnil] at ho
      cases ho
    · rw [hmem, hone, List.mem_singleton] at ho
      rw [ho]
  · rintro t ⟨o, ho, rfl⟩
    rcases hquiescent (sideOf o.clId) with ⟨hnil, -⟩ | ⟨c, px, hone, ⟨ord, hord, hlive, hpx⟩, -⟩
    · rw [hmem, hnil] at ho
      cases ho
    · rw [hmem, hone, List.mem_singleton] at ho
      subst ho
      obtain ⟨-, hord⟩ := store_eq_some_iff.mp hord
      exact ⟨c, ord, hord, hlive, by rw [h.owned.side c ord hord hlive, hpx]⟩
  · rintro t ⟨c, ord, hord, hlive, rfl⟩
    have hstored : store x.engine s (sideOf c) c = some ord := by rw [store_sideOf, hord]
    rcases hquiescent (sideOf c) with ⟨-, hquiet⟩ | ⟨c', px, hone, ⟨ord', hord', -, hpx⟩, honly⟩
    · exact absurd hlive (hquiet c ord hstored)
    · obtain rfl := honly c ord hstored hlive
      rw [hstored] at hord'
      cases hord'
      refine ⟨⟨c, px, .live⟩, ?_, ?_⟩
      · rw [hmem, hone]
        exact List.mem_singleton_self _
      · rw [h.owned.side c ord hord hlive, hpx]

/-- With no command and no report in flight, a running strategy has exactly the engine's live orders
of the session, all of them `LIVE`; and at any time it has at most two orders per side. -/
theorem run_agree (cfg : EngineConfig) (scfg : StrategyConfig) (s : ℕ) (st : Strategy)
    (events : List Event) :
    ((run cfg scfg s st events).1.strategy.stopped = false →
      (run cfg scfg s st events).1.commands = [] → (run cfg scfg s st events).1.reports = [] →
      (∀ o ∈ (run cfg scfg s st events).1.strategy.orders, o.state = .live) ∧
        believed (run cfg scfg s st events).1.strategy =
          liveOrders cfg (run cfg scfg s st events).1.engine s) ∧
      ∀ side, ((run cfg scfg s st events).1.strategy.orders.filter
        fun o => sideOf o.clId = side).length ≤ 2 := by
  have hgood := good_run cfg scfg s st events
  exact ⟨hgood.agree, fun side => (hgood.halted side).few⟩

theorem run_agree_quoting :
    (run specConfig quoterConfig 7 {} quoting).1.strategy.orders.length = 2 ∧
      believed (run specConfig quoterConfig 7 {} quoting).1.strategy =
        liveOrders specConfig (run specConfig quoterConfig 7 {} quoting).1.engine 7 := by
  refine ⟨by decide +kernel, ((run_agree specConfig quoterConfig 7 {} quoting).1 ?_ ?_ ?_).2⟩
  · decide +kernel
  · decide +kernel
  · decide +kernel

end Duplex

end MarketMaker
