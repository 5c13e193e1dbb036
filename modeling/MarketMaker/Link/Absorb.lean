import MarketMaker.Client.Session
import MarketMaker.Duplex.Basic
import MarketMaker.Engine.Isolation
import MarketMaker.Server.Books
import MarketMaker.Server.Delivery

/-!
# The calls of a server, as events of a duplex

A turn of the server makes a batch of engine calls. Seen from one session, each of them is a book, a
command of another session or the end of one, or the oldest command of the session's own client. A
duplex whose engine is in the same state absorbs the batch, call by call (`absorb`), as long as the
session itself is not ended in it.
-/

namespace MarketMaker

namespace Duplex

open OrderEngine (Call reportsTo)

/-! ## Stamps -/

/-- The message, with some envelope. -/
def IsStamped (msg stamped : InMsg) : Prop := ∃ seq epoch, stamped = Client.stampMsg seq epoch msg

/-- The engine does not read the envelope of a command. -/
theorem step_callOf_stampMsg (cfg : EngineConfig) (e : OrderEngine) (s seq epoch : ℕ)
    (msg : InMsg) :
    OrderEngine.step cfg e (callOf s (Client.stampMsg seq epoch msg)) =
      OrderEngine.step cfg e (callOf s msg) := by
  cases msg with
  | newOrder m => rfl
  | cancelOrder m => rfl

/-! ## One call -/

/-- The commands of a session among some calls. -/
def ownIn (s : ℕ) (calls : List (Call × List Routed)) : List InMsg :=
  ((servedIn calls).filter fun p => p.1 = s).map Prod.snd

section Absorb

variable {cfg : EngineConfig} {scfg : StrategyConfig} {s : ℕ} {x y z : Duplex}
  {calls calls' : List (Call × List Routed)}

theorem ownIn_append (s : ℕ) (calls calls' : List (Call × List Routed)) :
    ownIn s (calls ++ calls') = ownIn s calls ++ ownIn s calls' := by
  simp [ownIn, servedIn_append]

/-- One duplex comes out of the other by absorbing some calls, which takes the commands that have
arrived out of its channel. -/
structure Absorbs (cfg : EngineConfig) (scfg : StrategyConfig) (s : ℕ) (x : Duplex)
    (calls : List (Call × List Routed)) (left : List InMsg) (y : Duplex) : Prop where
  reaches : Mealy.Reachable (step cfg scfg s) x y
  engine : Mealy.run (OrderEngine.step cfg) x.engine (calls.map Prod.fst) = (y.engine, calls)
  strategy : y.strategy = x.strategy
  commands : y.commands = left
  reports : y.reports = x.reports ++ answersTo s calls
  books : y.books = x.books ++ booksIn calls
  inbound : y.inbound = x.inbound

theorem Absorbs.nil (x : Duplex) : Absorbs cfg scfg s x [] x.commands x where
  reaches := .refl _ x
  engine := rfl
  strategy := rfl
  commands := rfl
  reports := (List.append_nil _).symm
  books := (List.append_nil _).symm
  inbound := rfl

theorem Absorbs.trans {left left' : List InMsg} (h : Absorbs cfg scfg s x calls left y)
    (h' : Absorbs cfg scfg s y calls' left' z) :
    Absorbs cfg scfg s x (calls ++ calls') left' z where
  reaches := h.reaches.trans h'.reaches
  engine := by rw [List.map_append, Mealy.run_append, h.engine, h'.engine]
  strategy := h'.strategy.trans h.strategy
  commands := h'.commands
  reports := by rw [h'.reports, h.reports, answersTo_append, List.append_assoc]
  books := by rw [h'.books, h.books, booksIn_append, List.append_assoc]
  inbound := h'.inbound.trans h.inbound

theorem answersTo_singleton {c : Call} {out : List Routed} (h : c ≠ .endSession s) :
    answersTo s [(c, out)] = reportsTo s out := by
  rw [answersTo, List.flatMap_singleton, if_neg h]

theorem run_single (cfg : EngineConfig) (e : OrderEngine) (c : Call) :
    Mealy.run (OrderEngine.step cfg) e [c] =
      ((OrderEngine.step cfg e c).1, [(c, (OrderEngine.step cfg e c).2)]) := rfl

theorem absorbs_onBook {book : Book} (hfresh : x.engine.isFresh book) :
    ∃ y, Absorbs cfg scfg s x [(.onBook book, (OrderEngine.step cfg x.engine (.onBook book)).2)]
      x.commands y := by
  have hstep : (step cfg scfg s x (.book book)).1 =
      { x.call cfg s (.onBook book) with books := x.books ++ [book] } := by
    rw [step, if_pos hfresh]
  refine ⟨_, .single _ x (.book book), ?_, ?_, ?_, ?_, ?_, ?_⟩ <;> rw [hstep]
  · rfl
  · rfl
  · rfl
  · rw [answersTo_singleton (by simp)]
    rfl
  · rfl
  · rfl

theorem absorbs_other {c : Call} (hother : isOther s c = true) :
    ∃ y, Absorbs cfg scfg s x [(c, (OrderEngine.step cfg x.engine c).2)] x.commands y := by
  have hstep : (step cfg scfg s x (.other c)).1 = x.call cfg s c := by
    rw [step, if_pos hother]
  have hend : c ≠ .endSession s := by
    rintro rfl
    simp [isOther] at hother
  have hbooks : booksIn [(c, (OrderEngine.step cfg x.engine c).2)] = [] := by
    cases c with
    | onBook book => cases hother
    | _ => rfl
  refine ⟨_, .single _ x (.other c), ?_, ?_, ?_, ?_, ?_, ?_⟩ <;> rw [hstep]
  · rfl
  · rfl
  · rfl
  · rw [answersTo_singleton hend]
    rfl
  · rw [hbooks, List.append_nil]
    rfl
  · rfl

theorem absorbs_own {msg stamped : InMsg} {left : List InMsg} (hcommands : x.commands = msg :: left)
    (hstamped : IsStamped msg stamped) :
    ∃ y, Absorbs cfg scfg s x
      [(callOf s stamped, (OrderEngine.step cfg x.engine (callOf s stamped)).2)] left y := by
  obtain ⟨seq, epoch, rfl⟩ := hstamped
  have hstep : (step cfg scfg s x .command).1 =
      ({ x with commands := left } : Duplex).call cfg s (callOf s msg) := by
    rw [step, hcommands]
  have hend : callOf s (Client.stampMsg seq epoch msg) ≠ .endSession s := by
    cases msg <;> exact fun h => by cases h
  have hbooks : ∀ out, booksIn [(callOf s (Client.stampMsg seq epoch msg), out)] = [] := by
    cases msg <;> exact fun _ => rfl
  rw [step_callOf_stampMsg]
  refine ⟨_, .single _ x .command, ?_, ?_, ?_, ?_, ?_, ?_⟩ <;> rw [hstep]
  · rw [List.map_singleton, run_single, step_callOf_stampMsg]
    rfl
  · rfl
  · rfl
  · rw [answersTo_singleton hend]
    rfl
  · rw [hbooks, List.append_nil]
    rfl
  · rfl

/-! ## A batch of calls -/

/-- Every call is of one of the three kinds, or ends the session. -/
theorem call_cases (s : ℕ) (c : Call) :
    (∃ book, c = .onBook book) ∨ isOther s c = true ∨ (∃ msg, c = callOf s msg) ∨
      c = .endSession s := by
  cases c with
  | onBook book => exact Or.inl ⟨book, rfl⟩
  | onNew session order =>
    by_cases h : session = s
    · exact Or.inr (Or.inr (Or.inl ⟨.newOrder order, h ▸ rfl⟩))
    · exact Or.inr (Or.inl (decide_eq_true h))
  | onCancel session cancel =>
    by_cases h : session = s
    · exact Or.inr (Or.inr (Or.inl ⟨.cancelOrder cancel, h ▸ rfl⟩))
    · exact Or.inr (Or.inl (decide_eq_true h))
  | endSession session =>
    by_cases h : session = s
    · exact Or.inr (Or.inr (Or.inr (h ▸ rfl)))
    · exact Or.inr (Or.inl (decide_eq_true h))

theorem ownIn_other {c : Call} (h : isOther s c = true) (out : List Routed) :
    ownIn s [(c, out)] = [] := by
  cases c with
  | onBook book => rfl
  | onNew session order => simp_all [isOther, ownIn, servedIn, commandOf]
  | onCancel session cancel => simp_all [isOther, ownIn, servedIn, commandOf]
  | endSession session => rfl

theorem ownIn_callOf (s : ℕ) (msg : InMsg) (out : List Routed) :
    ownIn s [(callOf s msg, out)] = [msg] := by
  cases msg <;> simp [ownIn, servedIn, commandOf, callOf]

/-- A book is newer than all that the engine has processed. -/
def IsFreshCall (e : OrderEngine) (c : Call) : Prop := ∀ book, c = .onBook book → e.isFresh book

/-- A batch of calls is absorbed, when the session's own commands in it are those that its client
has sent first. -/
theorem absorb {e : OrderEngine} {taken left : List InMsg}
    (hrun : Mealy.run (OrderEngine.step cfg) x.engine (calls.map Prod.fst) = (e, calls))
    (hfresh : Mealy.Along (OrderEngine.step cfg) IsFreshCall x.engine (calls.map Prod.fst))
    (hlive : ∀ c ∈ calls, c.1 ≠ .endSession s) (hcommands : x.commands = taken ++ left)
    (hown : List.Forall₂ IsStamped taken (ownIn s calls)) :
    ∃ y, Absorbs cfg scfg s x calls left y := by
  induction calls generalizing x taken with
  | nil =>
    cases hown
    rw [List.nil_append] at hcommands
    exact ⟨x, hcommands ▸ .nil x⟩
  | cons p calls ih =>
    obtain ⟨c, out⟩ := p
    -- the run starts with the call at the head
    rw [List.map_cons, Mealy.run] at hrun
    dsimp only at hrun
    obtain ⟨he, hcalls⟩ := Prod.mk.inj hrun
    obtain ⟨hhead, htail⟩ := List.cons.inj hcalls
    obtain rfl : (OrderEngine.step cfg x.engine c).2 = out := (Prod.mk.inj hhead).2
    obtain ⟨hfirst, hrest⟩ := hfresh
    rw [← List.singleton_append, ownIn_append] at hown
    have hstep : ∃ y left',
        Absorbs cfg scfg s x [(c, (OrderEngine.step cfg x.engine c).2)] left' y ∧
        ∃ taken', left' = taken' ++ left ∧ List.Forall₂ IsStamped taken' (ownIn s calls) := by
      rcases call_cases s c with ⟨book, rfl⟩ | hother | ⟨stamped, rfl⟩ | rfl
      · obtain ⟨y, hy⟩ := absorbs_onBook (s := s) (hfirst book rfl)
        exact ⟨y, _, hy, taken, hcommands, hown⟩
      · obtain ⟨y, hy⟩ := absorbs_other (x := x) hother
        rw [ownIn_other hother, List.nil_append] at hown
        exact ⟨y, _, hy, taken, hcommands, hown⟩
      · rw [ownIn_callOf, List.singleton_append] at hown
        cases hown with
        | @cons msg _ taken' _ hstamped hothers =>
          obtain ⟨y, hy⟩ := absorbs_own (s := s) hcommands hstamped
          exact ⟨y, _, hy, taken', rfl, hothers⟩
      · exact absurd rfl (hlive _ List.mem_cons_self)
    obtain ⟨y, left', hy, taken', rfl, hothers⟩ := hstep
    have hengine : (OrderEngine.step cfg x.engine c).1 = y.engine := congrArg Prod.fst hy.engine
    rw [hengine] at he htail hrest
    obtain ⟨z, hz⟩ := ih (Prod.ext he htail) hrest
      (fun c' hc' => hlive c' (List.mem_cons_of_mem _ hc')) hy.commands hothers
    exact ⟨z, hy.trans hz⟩

end Absorb

end Duplex

end MarketMaker
