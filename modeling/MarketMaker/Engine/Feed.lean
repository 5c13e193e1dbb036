import MarketMaker.Engine.Invariant

/-!
# Redelivered and rewound books

The `md_seq` guard makes a feed idempotent. A run, and the run without the books that are not newer
than every book before them, produce the same reports and end in the same state, except that the
first one has counted the books the other never saw.
-/

namespace MarketMaker

namespace OrderEngine

/-! ## Deleting stale books -/

/-- The `md_seq` of a call that presents a book. -/
def Call.mdSeq? : Call → Option ℕ
  | .onBook book => some book.mdSeq
  | _ => none

/-- The call presents a book that is not newer than every book in `seen`. -/
def Call.isStale (seen : List ℕ) (call : Call) : Bool :=
  call.mdSeq?.any fun mdSeq => seen.any fun m => mdSeq ≤ m

/-- The entries whose calls are no stale books. `seen` is the `md_seq` of every earlier book, kept
or not. -/
def dropStale {α : Type} (callOf : α → Call) (seen : List ℕ) : List α → List α
  | [] => []
  | a :: rest =>
    let seen' := seen ++ (callOf a).mdSeq?.toList
    if (callOf a).isStale seen then dropStale callOf seen' rest
    else a :: dropStale callOf seen' rest

theorem dropStale_of_stale {α : Type} (callOf : α → Call) {seen : List ℕ} {a : α}
    (h : (callOf a).isStale seen = true) (rest : List α) :
    dropStale callOf seen (a :: rest) =
      dropStale callOf (seen ++ (callOf a).mdSeq?.toList) rest :=
  if_pos h

theorem dropStale_of_not_stale {α : Type} (callOf : α → Call) {seen : List ℕ} {a : α}
    (h : (callOf a).isStale seen = false) (rest : List α) :
    dropStale callOf seen (a :: rest) =
      a :: dropStale callOf (seen ++ (callOf a).mdSeq?.toList) rest :=
  if_neg (by rw [h]; exact Bool.false_ne_true)

/-! ## The count of stale books is never read -/

variable {cfg : EngineConfig} {e : OrderEngine}

/-- The engine with another count of stale books. -/
def withStale (e : OrderEngine) (n : ℕ) : OrderEngine := { e with staleBooksIgnored := n }

theorem withStale_self (e : OrderEngine) : e.withStale e.staleBooksIgnored = e := rfl

theorem liveIndex_withStale (e : OrderEngine) (n : ℕ) (side : Side) :
    (e.withStale n).liveIndex side = e.liveIndex side := by
  cases side <;> rfl

theorem recordAccept_withStale (n session : ℕ) (order : NewOrder) (side : Side) :
    recordAccept cfg (e.withStale n) session order side =
      ((recordAccept cfg e session order side).1.withStale n,
        (recordAccept cfg e session order side).2) := by
  cases side <;> rfl

theorem onNew_withStale (n session : ℕ) (order : NewOrder) :
    onNew cfg (e.withStale n) session order =
      ((onNew cfg e session order).1.withStale n, (onNew cfg e session order).2) := by
  have hdup : (e.withStale n).isDuplicate session order.clId = e.isDuplicate session order.clId :=
    rfl
  have hlive : (e.withStale n).liveCount session = e.liveCount session := rfl
  rw [onNew_eq, onNew_eq, hdup, hlive]
  -- the same decision on both sides
  change applyDecision cfg (e.withStale n) session order (decideNew cfg _ _ e.book order) = _
  cases decideNew cfg (e.isDuplicate session order.clId) (e.liveCount session) e.book order with
  | duplicate => rfl
  | reject code reason => rfl
  | accept side => exact recordAccept_withStale n session order side
  | impossible => rfl

theorem onCancel_withStale (n session : ℕ) (cancel : CancelOrder) :
    onCancel (e.withStale n) session cancel =
      ((onCancel e session cancel).1.withStale n, (onCancel e session cancel).2) := by
  have horders : (e.withStale n).orders = e.orders := rfl
  rw [onCancel, onCancel, horders]
  cases e.orders.find? ⟨session, cancel.clId⟩ with
  | none => rfl
  | some ord =>
    dsimp only
    split_ifs
    · rfl
    · rw [recordCancel, recordCancel]
      cases ord.side <;> rfl

theorem sweep_withStale (n : ℕ) (book : Book) :
    sweep cfg (e.withStale n) book = sweep cfg e book := by
  have hside : ∀ acc side, sweepSide cfg (e.withStale n) book acc side =
      sweepSide cfg e book acc side := by
    intro acc side
    rw [sweepSide, sweepSide, liveIndex_withStale]
    rfl
  simp only [sweep, List.foldl_cons, List.foldl_nil, hside]
  rfl

theorem commitFill_withStale (n : ℕ) (f : StagedFill) :
    commitFill (e.withStale n) f = (commitFill e f).withStale n := by
  rw [commitFill, commitFill]
  cases f.side <;> split_ifs <;> rfl

theorem commitFills_withStale (n : ℕ) (l : List StagedFill) (e : OrderEngine) :
    l.foldl commitFill (e.withStale n) = (l.foldl commitFill e).withStale n := by
  induction l generalizing e with
  | nil => rfl
  | cons f l ih => rw [List.foldl_cons, List.foldl_cons, commitFill_withStale, ih]

theorem onBook_withStale {book : Book} (hfresh : e.isFresh book) (n : ℕ) :
    onBook cfg (e.withStale n) book =
      ((onBook cfg e book).1.withStale n, (onBook cfg e book).2) := by
  have hguard : ¬(e.bookSeen && decide (book.mdSeq ≤ e.book.mdSeq)) = true := by
    simpa [isFresh] using hfresh
  have hguard' : ¬((e.withStale n).bookSeen && decide (book.mdSeq ≤ (e.withStale n).book.mdSeq)) =
      true := hguard
  rw [onBook, onBook, if_neg hguard, if_neg hguard', sweep_withStale]
  let installed : OrderEngine :=
    { e with bookSeen := true, book, nextExecId := (sweep cfg e book).execId }
  exact Prod.ext (commitFills_withStale n (sweep cfg e book).staged installed) rfl

variable (cfg) in
/-- A call other than a stale book acts alike whatever the count. -/
theorem step_withStale {call : Call} (hfresh : ∀ book, call = .onBook book → e.isFresh book)
    (n : ℕ) :
    step cfg (e.withStale n) call = ((step cfg e call).1.withStale n, (step cfg e call).2) := by
  cases call with
  | onNew session order => rw [step, step, onNew_withStale]; rfl
  | onCancel session cancel => rw [step, step, onCancel_withStale]; rfl
  | onBook book => exact onBook_withStale (hfresh book rfl) n
  | endSession session => rfl

/-! ## Both runs -/

/-- The guard knows the newest of the books presented so far. -/
structure Newest (e : OrderEngine) (seen : List ℕ) : Prop where
  seen_iff : e.bookSeen = true ↔ seen ≠ []
  mem : e.bookSeen = true → e.book.mdSeq ∈ seen
  le : e.bookSeen = true → ∀ m ∈ seen, m ≤ e.book.mdSeq

theorem Newest.init : Newest {} [] where
  seen_iff := by simp
  mem h := by cases h
  le h := by cases h

/-- The guard refuses exactly the stale books. -/
theorem Newest.isFresh_iff {seen : List ℕ} (h : Newest e seen) (book : Book) :
    e.isFresh book ↔ (Call.onBook book).isStale seen = false := by
  have hstale : (Call.onBook book).isStale seen = true ↔ ∃ m ∈ seen, book.mdSeq ≤ m := by
    simp [Call.isStale, Call.mdSeq?]
  rw [← Bool.not_eq_true, hstale, isFresh]
  refine not_congr ⟨?_, ?_⟩
  · rintro ⟨hseen, hle⟩
    exact ⟨e.book.mdSeq, h.mem hseen, hle⟩
  · rintro ⟨m, hm, hle⟩
    have hseen : e.bookSeen = true := h.seen_iff.mpr (List.ne_nil_of_mem hm)
    exact ⟨hseen, hle.trans (h.le hseen m hm)⟩

/-- Only a book moves the guard. -/
theorem book_step_of_not_book (cfg : EngineConfig) (e : OrderEngine) {call : Call}
    (h : call.mdSeq? = none) :
    (step cfg e call).1.book = e.book ∧ (step cfg e call).1.bookSeen = e.bookSeen := by
  cases call with
  | onNew session order =>
    simp only [step, routeTo, onNew_eq]
    cases decideNew cfg (e.isDuplicate session order.clId) (e.liveCount session) e.book order with
    | accept side => simp [applyDecision, recordAccept]
    | _ => exact ⟨rfl, rfl⟩
  | onCancel session cancel =>
    have hspec := onCancel_spec e session cancel
    simp only [step, routeTo]
    generalize onCancel e session cancel = out at hspec
    cases hspec with
    | cancelled _ _ => simp [recordCancel]
    | _ => exact ⟨rfl, rfl⟩
  | onBook book => cases h
  | endSession session => exact ⟨rfl, rfl⟩

variable (cfg) in
theorem Newest.step {seen : List ℕ} (h : Newest e seen) (hindexed : e.Indexed) (call : Call) :
    Newest (step cfg e call).1 (seen ++ call.mdSeq?.toList) := by
  cases hcall : call.mdSeq? with
  | none =>
    obtain ⟨hbook, hseen⟩ := book_step_of_not_book cfg e hcall
    rw [Option.toList_none, List.append_nil]
    exact ⟨by rw [hseen]; exact h.seen_iff, by rw [hseen, hbook]; exact h.mem,
      by rw [hseen, hbook]; exact h.le⟩
  | some mdSeq =>
    obtain ⟨book, rfl⟩ : ∃ book, call = .onBook book := by
      cases call with
      | onBook book => exact ⟨book, rfl⟩
      | _ => cases hcall
    obtain rfl : book.mdSeq = mdSeq := Option.some.inj hcall
    rw [OrderEngine.step]
    by_cases hfresh : e.isFresh book
    · -- the book becomes the newest one
      obtain ⟨hi, -⟩ := onBook_of_fresh cfg hindexed hfresh
      refine ⟨iff_of_true hi.bookSeen (by simp), fun _ => by simp [hi.book], fun _ m hm => ?_⟩
      rw [hi.book]
      rcases List.mem_append.mp hm with hm | hm
      · have hseen : e.bookSeen = true := h.seen_iff.mpr (List.ne_nil_of_mem hm)
        have hlt : e.book.mdSeq < book.mdSeq := Nat.not_le.mp fun hle => hfresh ⟨hseen, hle⟩
        exact (h.le hseen m hm).trans hlt.le
      · exact (List.mem_singleton.mp hm).le
    · -- the guard stays where it is
      rw [onBook_of_not_fresh hfresh]
      obtain ⟨hseen, hle⟩ := not_not.mp hfresh
      refine ⟨iff_of_true hseen (by simp), fun _ => List.mem_append_left _ (h.mem hseen),
        fun _ m hm => ?_⟩
      rcases List.mem_append.mp hm with hm | hm
      · exact h.le hseen m hm
      · exact (List.mem_singleton.mp hm).le.trans hle

/-- Both runs from states that differ in the count only, after the same books. -/
theorem run_dropStale_from {seen : List ℕ} (hinv : Inv cfg e) (hnew : Newest e seen)
    (calls : List Call) (n : ℕ) :
    let r := Mealy.run (step cfg) e calls
    let r' := Mealy.run (step cfg) (e.withStale n) (dropStale id seen calls)
    r'.1 = r.1.withStale n ∧ r'.2 = dropStale Prod.fst seen r.2 ∧
      r'.2.flatMap Prod.snd = r.2.flatMap Prod.snd ∧
      r.1.staleBooksIgnored + (dropStale id seen calls).length =
        e.staleBooksIgnored + calls.length := by
  induction calls generalizing e seen with
  | nil => exact ⟨rfl, rfl, rfl, rfl⟩
  | cons call calls ih =>
    have hinv' := inv_step hinv call
    have hnew' := hnew.step cfg hinv.indexed call
    obtain ⟨hstate, hhistory, hreports, hcount⟩ := ih hinv' hnew'
    rw [Mealy.run]
    cases hstale : call.isStale seen with
    | true =>
      -- a stale book: the full run counts it and the other one has no such call
      obtain ⟨book, rfl⟩ : ∃ book, call = .onBook book := by
        cases call with
        | onBook book => exact ⟨book, rfl⟩
        | _ => cases hstale
      have hignored : step cfg e (.onBook book) = (e.withStale (e.staleBooksIgnored + 1), []) := by
        refine onBook_of_not_fresh fun hfresh => ?_
        rw [(hnew.isFresh_iff book).mp hfresh] at hstale
        cases hstale
      rw [hignored] at hstate hhistory hreports hcount ⊢
      rw [dropStale_of_stale id hstale]
      dsimp only [id]
      rw [dropStale_of_stale Prod.fst hstale, List.flatMap_cons]
      refine ⟨hstate, hhistory, hreports, ?_⟩
      have hbump : (e.withStale (e.staleBooksIgnored + 1)).staleBooksIgnored =
          e.staleBooksIgnored + 1 := rfl
      dsimp only at hcount
      rw [hcount, hbump, List.length_cons]
      omega
    | false =>
      -- any other call acts alike in both runs
      have hfresh : ∀ book, call = .onBook book → e.isFresh book := by
        rintro book rfl
        exact (hnew.isFresh_iff book).mpr hstale
      have hsame := step_withStale cfg hfresh n
      have hcounted : (step cfg e call).1.staleBooksIgnored = e.staleBooksIgnored := by
        have hself := step_withStale cfg hfresh e.staleBooksIgnored
        rw [withStale_self] at hself
        rw [hself]
        rfl
      rw [dropStale_of_not_stale id hstale, Mealy.run]
      dsimp only [id]
      rw [hsame, dropStale_of_not_stale Prod.fst hstale]
      refine ⟨hstate, congrArg _ hhistory, ?_, ?_⟩
      · rw [List.flatMap_cons, List.flatMap_cons]
        exact congrArg _ hreports
      · rw [List.length_cons, List.length_cons, ← Nat.add_assoc]
        rw [hcounted] at hcount
        omega

/-- Deleting the stale books of a run changes no report and no state but the count of them, which is
their number. -/
theorem run_dropStale (cfg : EngineConfig) (calls : List Call) :
    let r := run cfg calls
    let kept := run cfg (dropStale id [] calls)
    kept.2.flatMap Prod.snd = r.2.flatMap Prod.snd ∧ kept.2 = dropStale Prod.fst [] r.2 ∧
      { kept.1 with staleBooksIgnored := r.1.staleBooksIgnored } = r.1 ∧
      r.1.staleBooksIgnored = calls.length - (dropStale id [] calls).length := by
  obtain ⟨hstate, hhistory, hreports, hcount⟩ :=
    run_dropStale_from (inv_init cfg) Newest.init calls 0
  refine ⟨hreports, hhistory, ?_, ?_⟩
  · change (run cfg (dropStale id [] calls)).1 = _ at hstate
    rw [hstate]
    rfl
  · change _ = 0 + _ at hcount
    change (run cfg calls).1.staleBooksIgnored + _ = _ at hcount
    omega

end OrderEngine

end MarketMaker
