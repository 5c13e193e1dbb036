import MarketMaker.Server.Shutdown

/-!
# Admission control

Two tiers bound the connections. The accept tier compares the pending upgrades, the upgrade tier the
sessions and the pending upgrades together. Neither quantity is the one to bound: a request that is
admitted becomes a session only when its handshake is over. `World.Admitted` therefore bounds the
sessions and the handshakes in flight, and says that `upgrades_` refers to every live upgrade.
-/

namespace MarketMaker

/-- A pending upgrade counts until its last handler releases it. -/
def Upgrade.isLive : Upgrade → Bool
  | .released => false
  | _ => true

/-- The upgrade tier has let the request through. -/
def Upgrade.isHandshaking : Upgrade → Bool
  | .handshaking _ => true
  | _ => false

namespace World

variable {cfg : ServerConfig} {codec : Codec} {w w' : World}

/-- How many pending upgrades are alive. -/
def liveUpgrades (w : World) : ℕ := w.pending.countP Upgrade.isLive

/-- How many handshakes are in flight. -/
def handshakes (w : World) : ℕ := w.pending.countP Upgrade.isHandshaking

/-- Both tiers hold. -/
structure Admitted (cfg : ServerConfig) (w : World) : Prop where
  tracked : ∀ (i : ℕ) u, w.pending[i]? = some u → u.isLive = true → i ∈ w.srv.upgrades
  live : w.liveUpgrades ≤ cfg.maxSessions
  load : w.srv.sessions.toList.length + w.handshakes ≤ cfg.maxSessions

/-! ## Counting -/

/-- A list of positions that holds every position of a kind is at least as long as their number. -/
theorem countP_le_length {α : Type} {p : α → Bool} {l : List α} {is : List ℕ}
    (h : ∀ (i : ℕ) a, l[i]? = some a → p a = true → i ∈ is) : l.countP p ≤ is.length := by
  induction l generalizing is with
  | nil => exact Nat.zero_le _
  | cons a l ih =>
    -- the positions of the tail, one lower
    have htail : l.countP p ≤ ((is.filter (· ≠ 0)).map Nat.pred).length := by
      refine ih fun i b hb hp => ?_
      have hmem := h (i + 1) b (by simpa using hb) hp
      exact List.mem_map.mpr ⟨i + 1, by simpa using hmem, rfl⟩
    rw [List.length_map] at htail
    rw [List.countP_cons]
    split_ifs with ha
    · have hzero : 0 ∈ is := h 0 a rfl ha
      have hlt : (is.filter (· ≠ 0)).length < is.length :=
        List.length_filter_lt_length_iff_exists.mpr ⟨0, hzero, by simp⟩
      omega
    · exact htail.trans (List.length_filter_le _ _)

/-- A live upgrade is still referred to after pruning. -/
theorem Admitted.tracked_pruned (h : w.Admitted cfg) (i : ℕ) (u : Upgrade)
    (hu : w.pending[i]? = some u) (hlive : u.isLive = true) :
    i ∈ w.pruneUpgrades.srv.upgrades := by
  refine List.mem_filter.mpr ⟨h.tracked i u hu hlive, ?_⟩
  rw [hu]
  cases u with
  | released => cases hlive
  | _ => rfl

theorem Admitted.live_le_pruned (h : w.Admitted cfg) :
    w.liveUpgrades ≤ w.pruneUpgrades.srv.upgrades.length := by
  exact countP_le_length h.tracked_pruned

/-- Moving one upgrade from one stage to another. -/
theorem countP_set_eq {p : Upgrade → Bool} {pending : List Upgrade} {i : ℕ} {u v : Upgrade}
    (hu : pending[i]? = some u) :
    (pending.set i v).countP p + (if p u then 1 else 0) =
      pending.countP p + if p v then 1 else 0 := by
  obtain ⟨hlt, rfl⟩ := List.getElem?_eq_some_iff.mp hu
  have hpos : (if p pending[i] then 1 else 0) ≤ pending.countP p := by
    split_ifs with hp
    · exact List.countP_pos_iff.mpr ⟨_, List.getElem_mem hlt, hp⟩
    · exact Nat.zero_le _
  rw [List.countP_set hlt]
  omega

/-- A request that is still being read is live and no handshake. -/
theorem handshakes_lt_liveUpgrades {i : ℕ} (hi : w.pending[i]? = some .reading) :
    w.handshakes < w.liveUpgrades := by
  have hlive := countP_set_eq (p := Upgrade.isLive) (v := .released) hi
  have hshake := countP_set_eq (p := Upgrade.isHandshaking) (v := .released) hi
  have hle : (w.pending.set i .released).countP Upgrade.isHandshaking ≤
      (w.pending.set i .released).countP Upgrade.isLive := by
    refine List.countP_mono_left fun u _ hu => ?_
    cases u with
    | handshaking j => rfl
    | _ => cases hu
  simp only [Upgrade.isLive, Upgrade.isHandshaking, if_true, Bool.false_eq_true, if_false]
    at hlive hshake
  unfold handshakes liveUpgrades
  omega

/-! ## Turns -/

/-- Nothing entered the map or the accept path. -/
theorem Admitted.same (h : w.Admitted cfg) (hpending : w'.pending = w.pending)
    (htracked : ∀ (i : ℕ) u, w.pending[i]? = some u → u.isLive = true → i ∈ w'.srv.upgrades)
    (hsessions : w'.srv.sessions.toList.length ≤ w.srv.sessions.toList.length) :
    w'.Admitted cfg := by
  refine ⟨?_, ?_, ?_⟩
  · rw [hpending]
    exact htracked
  · rw [liveUpgrades, hpending]
    exact h.live
  · rw [handshakes, hpending]
    exact (Nat.add_le_add_right hsessions _).trans h.load

theorem Admitted.calm (h : w.Admitted cfg) (hcalm : w.srv.Calm w'.srv)
    (hpending : w'.pending = w.pending) : w'.Admitted cfg :=
  h.same hpending (hcalm.upgrades ▸ h.tracked) (by rw [hcalm.sessions])

/-- A live upgrade moved on, but not to a handshake. -/
theorem Admitted.set (h : w.Admitted cfg) {i : ℕ} {u v : Upgrade} (hu : w.pending[i]? = some u)
    (hlive : u.isLive = true) (hv : v.isHandshaking = false)
    (hpending : w'.pending = w.pending.set i v)
    (htracked : ∀ (j : ℕ) u', w.pending[j]? = some u' → u'.isLive = true → j ∈ w'.srv.upgrades)
    (hsessions : w'.srv.sessions.toList.length ≤ w.srv.sessions.toList.length) :
    w'.Admitted cfg := by
  have hlt : i < w.pending.length := (List.getElem?_eq_some_iff.mp hu).1
  refine ⟨fun j u' hj hlive' => ?_, ?_, ?_⟩
  · rw [hpending] at hj
    by_cases hij : i = j
    · subst hij
      exact htracked i u hu hlive
    · rw [List.getElem?_set_ne hij] at hj
      exact htracked j u' hj hlive'
  · have hcount := countP_set_eq (p := Upgrade.isLive) (v := v) hu
    have hle := h.live
    rw [if_pos hlive] at hcount
    rw [liveUpgrades, hpending]
    unfold liveUpgrades at hle
    split_ifs at hcount <;> omega
  · have hcount := countP_set_eq (p := Upgrade.isHandshaking) (v := v) hu
    have hle := h.load
    simp only [hv, Bool.false_eq_true, if_false, Nat.add_zero] at hcount
    rw [handshakes, hpending]
    unfold handshakes at hle
    split_ifs at hcount <;> omega

theorem Admitted.onAccept (h : w.Admitted cfg) (ok : Bool) : (w.onAccept cfg ok).Admitted cfg := by
  unfold World.onAccept
  dsimp only
  split_ifs with _ _ hfull hroom
  · exact h.same rfl h.tracked le_rfl
  · exact h
  · exact h.same rfl h.tracked_pruned le_rfl
  · -- the accept tier has room for one more
    have hlt : w.pruneUpgrades.srv.upgrades.length < cfg.maxSessions := by
      by_contra hge
      refine hfull ?_
      rw [Bool.and_eq_true]
      exact ⟨hroom, by simpa using hge⟩
    have hlive := h.live_le_pruned
    refine ⟨fun i u hu hlive => ?_, ?_, ?_⟩
    · show i ∈ w.pruneUpgrades.srv.upgrades ++ [w.pending.length]
      rw [List.mem_append]
      change (w.pending ++ [Upgrade.reading])[i]? = some u at hu
      rw [List.getElem?_append] at hu
      split_ifs at hu with hi
      · exact Or.inl (h.tracked_pruned i u hu hlive)
      · rw [List.getElem?_singleton] at hu
        split_ifs at hu
        exact Or.inr (List.mem_singleton.mpr (by omega))
    · show (w.pending ++ [Upgrade.reading]).countP Upgrade.isLive ≤ cfg.maxSessions
      rw [List.countP_append]
      unfold liveUpgrades at hlive
      have hone : [Upgrade.reading].countP Upgrade.isLive = 1 := rfl
      omega
    · show _ + (w.pending ++ [Upgrade.reading]).countP Upgrade.isHandshaking ≤ cfg.maxSessions
      rw [List.countP_append]
      exact h.load
  · exact h.same rfl h.tracked_pruned le_rfl

theorem Admitted.onUpgradeRequest (h : w.Admitted cfg) {i : ℕ} (request : Option UpgradeRequest)
    (hi : w.pending[i]? = some .reading) : (w.onUpgradeRequest cfg i request).Admitted cfg := by
  unfold World.onUpgradeRequest
  cases request with
  | none => exact h.set hi rfl (v := .released) rfl rfl h.tracked le_rfl
  | some req =>
    dsimp only
    split_ifs with _ _ _ hload
    · exact h.set hi rfl (v := .released) rfl rfl h.tracked le_rfl
    · exact h.set hi rfl (v := .refusing) rfl rfl h.tracked le_rfl
    · exact h.set hi rfl (v := .refusing) rfl rfl h.tracked le_rfl
    · exact h.set hi rfl (v := .refusing) rfl rfl h.tracked_pruned le_rfl
    · -- the load counts this request, which is not a handshake yet
      have hlive := h.live_le_pruned
      have hlt := handshakes_lt_liveUpgrades hi
      have hcount := countP_set_eq (p := Upgrade.isHandshaking) (v := .handshaking w.heap.length) hi
      have hcountLive := countP_set_eq (p := Upgrade.isLive) (v := .handshaking w.heap.length) hi
      have hsessions : w.pruneUpgrades.srv.sessions = w.srv.sessions := rfl
      have hle := h.live
      rw [hsessions] at hload
      refine ⟨fun j u hj hlive' => ?_, ?_, ?_⟩
      · show j ∈ w.pruneUpgrades.srv.upgrades
        by_cases hij : i = j
        · subst hij
          exact h.tracked_pruned i .reading hi rfl
        · rw [List.getElem?_set_ne hij] at hj
          exact h.tracked_pruned j u hj hlive'
      · show (w.pending.set i (.handshaking w.heap.length)).countP Upgrade.isLive ≤ _
        simp only [Upgrade.isLive, if_true] at hcountLive
        unfold liveUpgrades at hle
        omega
      · show w.srv.sessions.toList.length +
          (w.pending.set i (.handshaking w.heap.length)).countP Upgrade.isHandshaking ≤ _
        simp only [Upgrade.isHandshaking, if_true, Bool.false_eq_true, if_false, Nat.add_zero]
          at hcount
        unfold handshakes at hlt
        omega

/-- A session that starts takes the place of its handshake. -/
theorem Admitted.onHandshake (h : w.Admitted cfg) (hinv : w.Inv cfg) {i j : ℕ} (ok : Bool)
    (hi : w.pending[i]? = some (.handshaking j)) : (w.onHandshake i j ok).Admitted cfg := by
  rw [(hinv.onHandshake_eq hi ok).2]
  split_ifs
  · exact h.set hi rfl (v := .released) rfl rfl h.tracked le_rfl
  · have hfree : w.srv.sessions.find? (w.srv.nextEpoch + 1) = none := by
      by_contra hsome
      obtain ⟨k, hk⟩ := Option.ne_none_iff_exists'.mp hsome
      obtain ⟨-, x, hx, hepoch, -⟩ := hinv.mapped.mp hk
      have hle : x.epoch ≤ w.srv.nextEpoch := hinv.net.roster.epoch_le k x.line.row (Inv.row hx)
      omega
    have hlength : (w.srv.sessions.insert (w.srv.nextEpoch + 1) j).toList.length =
        w.srv.sessions.toList.length + 1 :=
      (OrderedMap.insert_perm j hfree).length_eq
    have hcount := countP_set_eq (p := Upgrade.isHandshaking) (v := .released) hi
    have hcountLive := countP_set_eq (p := Upgrade.isLive) (v := .released) hi
    simp only [Upgrade.isHandshaking, if_true, Bool.false_eq_true, if_false, Nat.add_zero]
      at hcount
    simp only [Upgrade.isLive, if_true, Bool.false_eq_true, if_false, Nat.add_zero] at hcountLive
    have hload := h.load
    have hlive := h.live
    refine ⟨fun k u hk hlive' => ?_, ?_, ?_⟩
    · show k ∈ w.srv.upgrades
      change (w.pending.set i .released)[k]? = some u at hk
      by_cases hik : i = k
      · subst hik
        exact h.tracked i _ hi rfl
      · rw [List.getElem?_set_ne hik] at hk
        exact h.tracked k u hk hlive'
    · show (w.pending.set i .released).countP Upgrade.isLive ≤ _
      unfold liveUpgrades at hlive
      omega
    · show (w.srv.sessions.insert (w.srv.nextEpoch + 1) j).toList.length +
        (w.pending.set i .released).countP Upgrade.isHandshaking ≤ _
      unfold handshakes at hload
      omega

theorem Admitted.step (h : w.Admitted cfg) (hinv : w.Inv cfg) (harmed : ∀ x ∈ w.heap, x.Armed)
    (codec : Codec) (event : Event) : (w.step cfg codec event).Admitted cfg := by
  have hfed : ∀ index, (w.fed index).Admitted cfg := fun index => h.same rfl h.tracked le_rfl
  have hturned := turned_step cfg codec w event
  generalize w.step cfg codec event = w' at hturned ⊢
  cases hturned with
  | ignored => exact h
  | @completed _ i x f hfound hcompletes =>
    have hout := outcome_completes (harmed x (List.mem_of_getElem? hfound)) hcompletes w.srv
    rw [heap_on hfound]
    generalize f ⟨w.srv, x⟩ = t' at hout ⊢
    cases hout with
    | mild hmild => exact h.calm hmild.srv rfl
    | @tearDown t₀ code hmild _ hup _ _ =>
      obtain ⟨hsessions, hupgrades⟩ :=
        Session.sessions_teardown cfg code (hmild.tornDown.trans hup)
      -- a teardown gives a slot back and admits none
      refine h.same rfl ?_ ?_
      · show ∀ (j : ℕ) u, _ → _ → j ∈ (Session.teardown cfg code t₀).srv.upgrades
        rw [hupgrades, hmild.srv.upgrades]
        exact h.tracked
      · show (Session.teardown cfg code t₀).srv.sessions.toList.length ≤ _
        rw [hsessions, hmild.srv.sessions]
        exact List.length_filter_le _ _
  | fed index _ => exact hfed index
  | dropped index _ =>
    have hpokes := pokes_closeAll cfg codec (w.fed index)
    exact (hfed index).calm hpokes.srv hpokes.pending
  | published index bidPx bidQty askPx askQty _ =>
    have hpokes := pokes_publishBook cfg codec (w.fed index) bidPx bidQty askPx askQty
    refine Admitted.calm ?_ hpokes.srv hpokes.pending
    exact h.same rfl h.tracked le_rfl
  | stopped _ index hrunning =>
    rw [beginStop_of_running (w := w.fed index) hrunning]
    split_ifs
    · refine h.same rfl ?_ ?_
      · show ∀ (j : ℕ) u, _ → _ → j ∈ (w.fed index).halted.srv.finalize.upgrades
        rw [ServerImpl.upgrades_finalize]
        exact h.tracked
      · have hhub := Session.hub_finalize (w.fed index).halted.srv
        exact (congrArg (fun hub => hub.sessions.toList.length) hhub).le
    · have hpokes := pokes_closeAll cfg codec (w.fed index).halted
      refine Admitted.calm ?_ hpokes.srv hpokes.pending
      exact h.same rfl h.tracked le_rfl
  | snapshot conflatedOf _ => exact h.same rfl h.tracked le_rfl
  -- the three events that admit are the ones with a lemma of their own
  | accepted ok => exact h.onAccept ok
  | requested request hi => exact h.onUpgradeRequest request hi
  | refused hi => exact h.set hi rfl (v := .released) rfl rfl h.tracked le_rfl
  | shaken ok hi => exact h.onHandshake hinv ok hi

/-- In every state between turns, the sessions, the live pending upgrades, and the sessions together
with the handshakes in flight are each at most `max_sessions`. -/
theorem run_admission (cfg : ServerConfig) (codec : Codec) (clock : ℕ → ℤ) (events : List Event) :
    (run cfg codec clock events).srv.sessions.toList.length ≤ cfg.maxSessions ∧
      (run cfg codec clock events).liveUpgrades ≤ cfg.maxSessions ∧
      (run cfg codec clock events).srv.sessions.toList.length +
        (run cfg codec clock events).handshakes ≤ cfg.maxSessions := by
  have hadmitted : (run cfg codec clock events).Admitted cfg := by
    induction events using List.reverseRecOn with
    | nil =>
      refine ⟨fun i u hu => ?_, Nat.zero_le _, Nat.zero_le _⟩
      simp [run, init] at hu
    | append_singleton events event ih =>
      rw [run_concat]
      exact ih.step (run_steps cfg codec clock events).2
        (run_armed cfg codec clock events) codec event
  have hload := hadmitted.load
  exact ⟨by omega, hadmitted.live, hload⟩

end World

end MarketMaker
