import MarketMaker.Engine.Feed
import MarketMaker.Server.Turns

/-!
# The books of a run

`publish_book` numbers the books itself, so the engine's guard against stale books never refuses one
of them. A session is queued the ticks of books that the engine processed before the session's epoch
was ended: what the engine does from then on is of no concern to it (`liveCalls`).
-/

namespace MarketMaker

open OrderEngine (Call)

/-! ## Books in order -/

namespace OrderEngine

/-- A call that presents no stale book leaves the count of these alone. -/
theorem staleBooksIgnored_step_of_fresh (cfg : EngineConfig) (e : OrderEngine) {call : Call}
    (hfresh : ∀ book, call = .onBook book → e.isFresh book) :
    (step cfg e call).1.staleBooksIgnored = e.staleBooksIgnored := by
  have hself := step_withStale cfg hfresh e.staleBooksIgnored
  rw [withStale_self] at hself
  exact congrArg (fun r => r.1.staleBooksIgnored) hself

/-- After books in increasing order the guard knows the last, and has refused none. -/
theorem run_inOrder (cfg : EngineConfig) {calls : List Call}
    (hsorted : (calls.filterMap Call.mdSeq?).Pairwise (· < ·)) :
    Newest (run cfg calls).1 (calls.filterMap Call.mdSeq?) ∧
      (run cfg calls).1.staleBooksIgnored = 0 ∧
      Mealy.Along (step cfg) (fun e c => ∀ book, c = .onBook book → e.isFresh book) {} calls := by
  induction calls using List.reverseRecOn with
  | nil => exact ⟨Newest.init, rfl, trivial⟩
  | append_singleton calls call ih =>
    rw [List.filterMap_append, List.pairwise_append] at hsorted
    obtain ⟨hbefore, -, hlast⟩ := hsorted
    obtain ⟨hnewest, hstale, halong⟩ := ih hbefore
    have hinv : Inv cfg (run cfg calls).1 := inv_of_reachable ⟨calls, rfl⟩
    -- the new book is beyond all that the guard has seen
    have hfresh : ∀ book, call = .onBook book → (run cfg calls).1.isFresh book := by
      rintro book rfl
      refine (hnewest.isFresh_iff book).mpr ?_
      rw [← Bool.not_eq_true]
      simp only [Call.isStale, Call.mdSeq?, Option.any_some, List.any_eq_true, decide_eq_true_eq,
        not_exists, not_and, not_le]
      exact fun m hm => hlast m hm book.mdSeq List.mem_cons_self
    have hrun : (run cfg (calls ++ [call])).1 = (step cfg (run cfg calls).1 call).1 := by
      rw [run, Mealy.run_concat]
    rw [hrun]
    refine ⟨?_, (staleBooksIgnored_step_of_fresh cfg _ hfresh).trans hstale, ?_⟩
    · have hnext := hnewest.step cfg hinv.indexed call
      rw [List.filterMap_append]
      cases hcall : call.mdSeq? <;> simpa [hcall] using hnext
    · exact (Mealy.along_concat _ _ _ _ _).mpr ⟨halong, hfresh⟩

end OrderEngine

/-- The numbers of the books are read off the calls. -/
theorem mdSeqs_booksIn (calls : List (Call × List Routed)) :
    (calls.map Prod.fst).filterMap Call.mdSeq? = (booksIn calls).map Book.mdSeq := by
  rw [booksIn, List.map_filterMap, List.filterMap_map]
  refine List.filterMap_congr fun c _ => ?_
  obtain ⟨call, out⟩ := c
  cases call <;> rfl

/-! ## The life of an epoch -/

/-- The calls up to the end of an epoch. -/
def liveCalls (epoch : ℕ) (calls : List (Call × List Routed)) : List (Call × List Routed) :=
  calls.takeWhile fun c => c.1 ≠ .endSession epoch

section Live

variable {epoch : ℕ} {calls new : List (Call × List Routed)}

/-- The calls of an epoch before its end come first. -/
theorem isPrefix_liveCalls (epoch : ℕ) (calls : List (Call × List Routed)) :
    liveCalls epoch calls <+: calls :=
  List.takeWhile_prefix _

/-- Its end is none of them. -/
theorem not_mem_liveCalls (epoch : ℕ) (calls : List (Call × List Routed)) :
    ∀ c ∈ liveCalls epoch calls, c.1 ≠ .endSession epoch := by
  intro c hc
  simpa using List.mem_takeWhile_imp hc

/-- The epoch has not ended: it lives through the new calls, up to its end. -/
theorem liveCalls_append (h : Call.endSession epoch ∉ calls.map Prod.fst) :
    liveCalls epoch (calls ++ new) = calls ++ liveCalls epoch new := by
  refine List.takeWhile_append_of_pos fun c hc => ?_
  have hne : c.1 ≠ .endSession epoch := by
    rintro heq
    exact h (heq ▸ List.mem_map_of_mem hc)
  simpa using hne

/-- Without its end they are all the calls. -/
theorem liveCalls_of_not_mem (h : Call.endSession epoch ∉ calls.map Prod.fst) :
    liveCalls epoch calls = calls := by
  have happend : liveCalls epoch (calls ++ []) = calls ++ liveCalls epoch [] := liveCalls_append h
  simpa [liveCalls] using happend

/-- The epoch has ended: the new calls come too late. -/
theorem liveCalls_append_of_mem (h : Call.endSession epoch ∈ calls.map Prod.fst) :
    liveCalls epoch (calls ++ new) = liveCalls epoch calls := by
  induction calls with
  | nil => cases h
  | cons c calls ih =>
    by_cases hend : c.1 = .endSession epoch
    · simp [liveCalls, hend]
    · have hrest : Call.endSession epoch ∈ calls.map Prod.fst :=
        (List.mem_cons.mp h).resolve_left fun heq => hend heq.symm
      have hcons : ∀ l, liveCalls epoch (c :: l) = c :: liveCalls epoch l := fun l => by
        simp [liveCalls, hend]
      rw [List.cons_append, hcons, hcons, ih hrest]

/-- More calls add to them at the end. -/
theorem liveCalls_mono (epoch : ℕ) (h : calls <+: new) :
    liveCalls epoch calls <+: liveCalls epoch new := by
  obtain ⟨more, rfl⟩ := h
  by_cases hend : Call.endSession epoch ∈ calls.map Prod.fst
  · simp only [liveCalls_append_of_mem hend, List.prefix_refl]
  · rw [liveCalls_append hend, liveCalls_of_not_mem hend]
    exact List.prefix_append _ _

/-- So they do to the books. -/
theorem booksIn_mono (h : calls <+: new) : booksIn calls <+: booksIn new := h.filterMap _

/-- So there are no fewer books. -/
theorem length_booksIn_mono (h : calls <+: new) : (booksIn calls).length ≤ (booksIn new).length :=
  (booksIn_mono h).length_le

end Live

/-! ## The books of the net -/

section Net

variable {cfg : ServerConfig} {codec : Codec} {v v' : View} {n n' : Net}

/-- A retirement is no book. -/
theorem books_retire (cfg : ServerConfig) (v : View) :
    booksIn (v.retire cfg).hub.calls = booksIn v.hub.calls := by
  rw [View.retire]
  split_ifs
  · rfl
  · exact (booksIn_append _ _).trans (List.append_nil _)

/-- A drain calls no book. -/
theorem books_drain (h : Drain cfg codec v v') : booksIn v'.hub.calls = booksIn v.hub.calls := by
  cases h with
  | latch code _ _ => exact books_retire cfg _
  | _ => rfl

/-- Nor do several. -/
theorem books_drains (h : Drains cfg codec v v') : booksIn v'.hub.calls = booksIn v.hub.calls := by
  induction h with
  | refl => rfl
  | tail _ hlast ih => exact (books_drain hlast).trans ih

/-- A session's turn processes no book. -/
theorem books_act (h : Act cfg codec v v') : booksIn v'.hub.calls = booksIn v.hub.calls := by
  cases h with
  | drain hdrain => exact books_drain hdrain
  | enqueue _ hchecked _ => exact (books_drains hchecked).trans rfl
  | serve _ _ hown =>
    refine (booksIn_append _ _).trans ?_
    rcases hown with ⟨order, rfl⟩ | ⟨cancel, rfl⟩ <;> exact List.append_nil _
  | tick _ _ _ _ => rfl
  | written => rfl
  | tearDown code _ => exact books_retire cfg _

/-- A tick enters an open session only. -/
theorem open_of_ticked (h : Act cfg codec v v') {k : ℕ} (hk : k ∈ ticksIn v'.line.log)
    (hnew : k ∉ ticksIn v.line.log) : v.line.closing = false ∧ v.line.tornDown = false ∧
      k = v.hub.nextMdSeq := by
  have hcurrent := (ticks_act h hk).resolve_left hnew
  cases h with
  | drain hdrain => exact absurd ((keeps_drain hdrain).ticks ▸ hk) hnew
  | enqueue _ hchecked _ =>
    rw [(keeps_drains hchecked).ticks, View.push, ticksIn_append] at hk
    exact absurd ((List.mem_append.mp hk).resolve_right fun h => by cases h) hnew
  | serve _ _ _ => exact absurd hk hnew
  | tick hopen hup _ _ => exact ⟨hopen, hup, hcurrent⟩
  | written => exact absurd hk hnew
  | tearDown code _ =>
    rw [View.line_tearDown, ticksIn_append] at hk
    exact absurd ((List.mem_append.mp hk).resolve_right fun h => by cases h) hnew

/-- The books are numbered from 1, and a session is told of those of its life only. -/
structure Net.Booked (n : Net) : Prop where
  numbered : (booksIn n.hub.calls).map Book.mdSeq = List.range' 1 n.hub.nextMdSeq
  told : ∀ l ∈ n.lines, ∀ k ∈ ticksIn l.log, k ≤ (booksIn (liveCalls l.epoch n.hub.calls)).length

/-- There are as many books as numbers given out. -/
theorem Net.Booked.length (h : n.Booked) : (booksIn n.hub.calls).length = n.hub.nextMdSeq := by
  have hlength := congrArg List.length h.numbered
  rwa [List.length_map, List.length_range'] at hlength

/-- At the start there is none. -/
theorem Net.Booked.init : Net.Booked {} where
  numbered := rfl
  told l hl := by cases hl

/-- More calls take nothing away from what a session was told. -/
theorem Net.Booked.told_mono (h : n.Booked) {l : Line} (hl : l ∈ n.lines)
    {calls : List (Call × List Routed)} (hcalls : n.hub.calls <+: calls) :
    ∀ k ∈ ticksIn l.log, k ≤ (booksIn (liveCalls l.epoch calls)).length := fun k hk =>
  (h.told l hl k hk).trans (length_booksIn_mono (liveCalls_mono l.epoch hcalls))

/-- A step numbers its book on. -/
theorem Net.Booked.step (h : n.Booked) (hinv : n.Inv cfg) (hs : NetStep cfg codec n n') :
    n'.Booked := by
  have hgrows := (grows_netSteps (.single hs)).1
  cases hs with
  | @publish book next =>
    refine ⟨?_, fun l hl => h.told_mono hl hgrows⟩
    show (booksIn (n.hub.calls ++ _)).map Book.mdSeq = List.range' 1 (n.hub.nextMdSeq + 1)
    rw [booksIn_append, List.map_append, h.numbered, List.range'_1_concat, Nat.add_comm 1, ← next]
    rfl
  | move hmove =>
    cases hmove with
    | @act i l v hfound hstarted hact =>
      have hl : l ∈ n.lines := List.mem_of_getElem? hfound
      refine ⟨?_, fun l' hl' => ?_⟩
      · have hbooks := books_act hact
        have hnext := nextMdSeq_act hact
        dsimp only at hbooks hnext ⊢
        rw [hbooks, hnext, h.numbered]
      · rcases List.mem_or_eq_of_mem_set hl' with hold | rfl
        · exact h.told_mono hold hgrows
        · intro k hk
          rw [epoch_act hact]
          by_cases hold : k ∈ ticksIn l.log
          · exact h.told_mono hl hgrows k hold
          · -- the session is open, so that its epoch has lived through all the books
            obtain ⟨hopen, hup, rfl⟩ := open_of_ticked hact hk hold
            have hlive : l.epochRetired = false := by
              rw [(hinv.sound l hl).retired]
              simp [show l.closing = false from hopen, show l.tornDown = false from hup]
            have hrow : (n.lines.map Line.row)[i]? = some l.row := by
              rw [List.getElem?_map, hfound]
              rfl
            have hend := hinv.roster.not_ended hrow hlive
            refine le_trans ?_ (length_booksIn_mono (liveCalls_mono l.epoch hgrows))
            rw [show l.row.epoch = l.epoch from rfl] at hend
            rw [liveCalls_of_not_mem hend, h.length]
    | create =>
      refine ⟨h.numbered, fun l hl => ?_⟩
      rcases List.mem_append.mp hl with hold | hnew
      · exact h.told l hold
      · rw [List.mem_singleton.mp hnew]
        exact fun k hk => by cases hk
    | start hfound =>
      refine ⟨h.numbered, fun l hl => ?_⟩
      rcases List.mem_or_eq_of_mem_set hl with hold | rfl
      · exact h.told l hold
      · exact fun k hk => by cases hk

/-- So do several. -/
theorem Net.Booked.steps (h : n.Booked) (hinv : n.Inv cfg) (hs : NetSteps cfg codec n n') :
    n'.Booked ∧ n'.Inv cfg := by
  induction hs with
  | refl => exact ⟨h, hinv⟩
  | tail _ hlast ih =>
    obtain ⟨hbooked, hinv⟩ := ih
    refine ⟨hbooked.step hinv hlast, ?_⟩
    cases hlast with
    | move hmove => exact hinv.move hmove
    | publish _ => exact hinv.publish _

end Net

namespace World

variable {cfg : ServerConfig} {codec : Codec}

/-- So the books are numbered in every run. -/
theorem run_netBooked (cfg : ServerConfig) (codec : Codec) (clock : ℕ → ℤ) (events : List Event) :
    (run cfg codec clock events).net.Booked :=
  (Net.Booked.init.steps (Net.inv_init cfg) (run_steps cfg codec clock events).1).1

/-- The books of a run are numbered from 1 on, the engine ignores none of them, and a session is
queued the ticks of those only that were processed before its epoch was ended. -/
theorem run_books (cfg : ServerConfig) (codec : Codec) (clock : ℕ → ℤ) (events : List Event) :
    let w := run cfg codec clock events
    (booksIn w.srv.calls).map Book.mdSeq = List.range' 1 w.srv.nextMdSeq ∧
      w.srv.engine.staleBooksIgnored = 0 ∧
      ∀ x ∈ w.heap, ∀ k ∈ ticksIn x.log, k ≤ (booksIn (liveCalls x.epoch w.srv.calls)).length := by
  intro w
  have hbooked : w.net.Booked := run_netBooked cfg codec clock events
  have hran := (run_steps cfg codec clock events).2.net.roster.ran
  refine ⟨hbooked.numbered, ?_, fun x hx => hbooked.told x.line (List.mem_map_of_mem hx)⟩
  have hsorted : ((w.srv.calls.map Prod.fst).filterMap Call.mdSeq?).Pairwise (· < ·) := by
    rw [mdSeqs_booksIn, show (booksIn w.srv.calls).map Book.mdSeq = _ from hbooked.numbered]
    exact List.pairwise_lt_range' _ (by decide)
  have hstale := (OrderEngine.run_inOrder cfg.engine hsorted).2.1
  rw [show OrderEngine.run cfg.engine (w.srv.calls.map Prod.fst) = _ from hran] at hstale
  exact hstale

end World

end MarketMaker
