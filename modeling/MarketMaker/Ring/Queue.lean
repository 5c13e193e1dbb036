import MarketMaker.Ring.Invariant

/-!
# The rings as queues

Without `push_overwrite` the consumer is the only writer of `head`, and the ring is a queue with
the capacity as its bound, however stale the loads of the other side's index are: the pops are a
prefix of the accepted pushes, the whole shared memory is a function of what was accepted, popped
and counted, and the two readings of `pending()` err on the safe side.
-/

namespace MarketMaker

namespace Ring

variable {cfg : Config} {α : Type*} {s : State cfg α}

/-- An action of a ring that is pushed with `try_push` only. -/
def Act.OnQueue : Act α → Prop
  | .push p _ => p ≠ .pushOverwrite
  | _ => True

instance (act : Act α) : Decidable act.OnQueue :=
  match act with
  | .push p _ => inferInstanceAs (Decidable (p ≠ .pushOverwrite))
  | .producerPending _ | .producer _ | .tryPop | .consumerPending | .consumer _ => .isTrue trivial

/-! ## The history as numbers and contents -/

/-- Whether the event is a `try_push` that returned `false`, counting it or not as told. -/
def Event.isRefusal (countDrop : Bool) : Event α → Bool
  | .refused c _ => c == countDrop
  | _ => false

/-- Whether the event is a push that returned. -/
def Event.isAttempt : Event α → Bool
  | .accepted _ | .refused _ _ => true
  | _ => false

/-- The pushes refused, counting the drop or not. -/
def refusals {ι : Type*} (countDrop : Bool) (h : List (ι × List (Event α))) : ℕ :=
  (h.flatMap Prod.snd).countP (Event.isRefusal countDrop)

/-- The pushes that returned. -/
def attempts {ι : Type*} (h : List (ι × List (Event α))) : ℕ :=
  (h.flatMap Prod.snd).countP Event.isAttempt

@[simp]
theorem refusals_concat {ι : Type*} (countDrop : Bool) (h : List (ι × List (Event α))) (i : ι)
    (out : List (Event α)) :
    refusals countDrop (h ++ [(i, out)]) =
      refusals countDrop h + out.countP (Event.isRefusal countDrop) := by
  simp [refusals]

theorem attempts_eq {ι : Type*} (h : List (ι × List (Event α))) :
    attempts h = (accepted h).length + refusals true h + refusals false h := by
  unfold attempts accepted refusals
  induction h.flatMap Prod.snd with
  | nil => rfl
  | cons e es ih =>
    cases e with
    | refused countDrop slot =>
      cases countDrop <;>
        simp [List.countP_cons, List.filterMap_cons, Event.isAttempt, Event.accepted?,
          Event.isRefusal, ih] <;>
        omega
    | accepted slot =>
      simp [List.countP_cons, Event.isAttempt, Event.accepted?, Event.isRefusal, ih]
      omega
    | _ => simp [List.filterMap_cons, Event.isAttempt, Event.accepted?, Event.isRefusal, ih]

/-- The storage after some pushes at the indices from `n` on. -/
def fillFrom (cfg : Config) (n : ℕ) (slots : Fin cfg.capacity.size.toNat → α) :
    List α → Fin cfg.capacity.size.toNat → α
  | [] => slots
  | slot :: rest =>
    fillFrom cfg (n + 1) (Function.update slots (cfg.capacity.slotOf n) slot) rest

theorem fillFrom_concat (n : ℕ) (slots : Fin cfg.capacity.size.toNat → α) (pushed : List α)
    (slot : α) :
    fillFrom cfg n slots (pushed ++ [slot]) =
      Function.update (fillFrom cfg n slots pushed) (cfg.capacity.slotOf (n + pushed.length))
        slot := by
  induction pushed generalizing n slots with
  | nil => rfl
  | cons first rest ih =>
    rw [List.cons_append, fillFrom, ih, fillFrom, List.length_cons, Nat.add_right_comm]
    rfl

/-- The slot that is written and not yet published. -/
def Producer.inFlight : Producer α → List α
  | .publishing slot _ => [slot]
  | _ => []

/-! ## The invariant -/

/-- What the producer's locals say beyond `ProducerAt`: it evicts nothing, and a drop is counted
only when its view of the ring is full. -/
def TryPushAt (cfg : Config) (producer : Producer α) (now seen dropped : ℕ) : Prop :=
  match producer with
  | .loadedTail push _ _ => push ≠ .pushOverwrite
  | .evicting _ _ _ => False
  | .dropping push _ _ => push = .tryPush true ∧ now = seen + cfg.capacity.size.toNat
  | .counting push _ _ d =>
    push = .tryPush true ∧ d = dropped ∧ now = seen + cfg.capacity.size.toNat
  | _ => True

/-- The invariant of a ring that is a queue. -/
structure QueueInv (slots : Fin cfg.capacity.size.toNat → α) (s : State cfg α)
    (h : List (Act α × List (Event α))) : Prop where
  inv : Inv s (accepted h) (poppedIn h)
  head_eq : s.head.now = (poppedIn h).length
  head_le_seen : s.head.now ≤ s.tailSeen
  tryPush : TryPushAt cfg s.producer s.tail.now s.headSeen s.dropped
  holds : ∀ head, s.consumer.head? = some head → head = s.head.now
  dropped : s.dropped = refusals true h
  slots_eq : s.slots = fillFrom cfg 0 slots (accepted h ++ s.producer.inFlight)

theorem queueInv_init (slots : Fin cfg.capacity.size.toNat → α) :
    QueueInv slots (State.init cfg slots) [] where
  inv := inv_init slots
  head_eq := rfl
  head_le_seen := Nat.le_refl 0
  tryPush := trivial
  holds := fun _ hhead => by contradiction
  dropped := rfl
  slots_eq := rfl

section Step

variable {slots : Fin cfg.capacity.size.toNat → α} {h : List (Act α × List (Event α))}

/-- No other thread stores to `head`, so every step is sound. -/
theorem QueueInv.sound (hq : QueueInv slots s h) (act : Act α) : Sound s act := by
  cases act with
  | producer lag =>
    intro slot tail head hat
    have htry := hq.tryPush
    rw [hat] at htry
    exact htry.elim
  | consumer lag =>
    refine ⟨fun head slot hat => ?_, fun head hat => ?_⟩
    · exact (hq.holds head (by rw [hat]; rfl)).symm
    · rw [hq.holds head (by rw [hat]; rfl)]
      exact Nat.le_trans hq.head_le_seen (s.tail.le_view _ _)
  | _ => trivial

/-- What an access of the producer leaves alone. -/
theorem producerStep_frame (hq : QueueInv slots s h) (lag : ℕ) :
    let r := producerStep s lag
    r.1.head = s.head ∧ r.1.consumer = s.consumer ∧ r.1.tailSeen = s.tailSeen ∧
      r.2.filterMap Event.popped? = [] := by
  have htry := hq.tryPush
  cases hat : s.producer with
  | evicting slot tail head =>
    rw [hat] at htry
    exact htry.elim
  | loadedTail push slot tail =>
    simp only [producerStep, hat, true_and]
    unfold afterHead
    split <;> rfl
  | counting push slot tail dropped =>
    cases push <;> simp [producerStep, hat, afterDrop, List.filterMap_cons, Event.popped?]
  | _ => simp [producerStep, hat, List.filterMap_cons, Event.popped?]

/-- After a load of `head` the producer writes or is refused. -/
theorem afterHead_tryPush (countDrop : Bool) (slot : α) {tail head : ℕ} (hle : head ≤ tail)
    (hroom : tail ≤ head + cfg.capacity.size.toNat) (dropped : ℕ) :
    let next := afterHead cfg (.tryPush countDrop) slot tail head
    TryPushAt cfg next.1 tail head dropped ∧ next.1.inFlight = [] ∧
      next.2.filterMap Event.accepted? = [] ∧ next.2.countP (Event.isRefusal true) = 0 ∧
      (next.2 ≠ [] → tail = head + cfg.capacity.size.toNat) := by
  have hfull := isFull_iff hle hroom
  cases htest : cfg.isFull tail head with
  | false =>
    simp only [afterHead, htest]
    exact ⟨trivial, rfl, rfl, rfl, fun hne => absurd rfl hne⟩
  | true =>
    have htail := hfull.mp htest
    cases countDrop with
    | false =>
      simp only [afterHead, htest]
      exact ⟨trivial, rfl, rfl, rfl, fun _ => htail⟩
    | true =>
      simp only [afterHead, htest]
      exact ⟨⟨rfl, htail⟩, rfl, rfl, rfl, fun _ => htail⟩

/-- What an access of the producer does to the rest. -/
theorem QueueInv.tryPush_producerStep (hq : QueueInv slots s h) (lag : ℕ) :
    let r := producerStep s lag
    TryPushAt cfg r.1.producer r.1.tail.now r.1.headSeen r.1.dropped ∧
      r.1.dropped = s.dropped + r.2.countP (Event.isRefusal true) ∧
      r.1.slots = fillFrom cfg 0 slots
        (accepted h ++ r.2.filterMap Event.accepted? ++ r.1.producer.inFlight) := by
  have htry := hq.tryPush
  have hat' := hq.inv.producer
  have hslots := hq.slots_eq
  cases hat : s.producer with
  | idle => simpa [producerStep, hat] using ⟨trivial, hat ▸ hslots⟩
  | loadedTail push slot tail =>
    rw [hat] at htry hat' hslots
    obtain rfl : tail = s.tail.now := hat'
    cases push with
    | pushOverwrite => exact absurd rfl htry
    | tryPush countDrop =>
      have hview := hq.inv.head_counter.snd_load hq.inv.headSeen_le lag
      have hle := hq.inv.head_counter.view_le hq.inv.headSeen_le lag
      -- the head that is loaded may be stale, but never ahead of the true one
      have hroom := Nat.le_trans hq.inv.tail_le
        (Nat.add_le_add_right (s.head.le_view s.headSeen lag) cfg.capacity.size.toNat)
      obtain ⟨hnext, hflight, hnone, hcount, -⟩ :=
        afterHead_tryPush countDrop slot (Nat.le_trans hle hq.inv.head_le) hroom s.dropped
      simp only [producerStep, hat, hview, hflight, hnone, hcount]
      exact ⟨hnext, rfl, by simpa [Producer.inFlight] using hslots⟩
  | evicting slot tail head =>
    rw [hat] at htry
    exact htry.elim
  | dropping push slot tail =>
    rw [hat] at htry hslots
    simp only [producerStep, hat]
    exact ⟨⟨htry.1, rfl, htry.2⟩, rfl, by simpa [Producer.inFlight] using hslots⟩
  | counting push slot tail dropped =>
    rw [hat] at htry hslots
    obtain ⟨rfl, rfl, -⟩ := htry
    simp only [producerStep, hat, afterDrop]
    refine ⟨trivial, rfl, ?_⟩
    simpa [Producer.inFlight, List.filterMap_cons, Event.accepted?] using hslots
  | writing slot tail =>
    rw [hat] at hslots hat'
    obtain ⟨rfl, -⟩ := hat'
    simp only [producerStep, hat, Producer.inFlight, List.filterMap_nil, List.append_nil]
      at hslots ⊢
    refine ⟨trivial, rfl, ?_⟩
    -- the slot is written where the next accepted one belongs
    rw [fillFrom_concat, Nat.zero_add, hq.inv.length, ← hslots]
  | publishing slot tail =>
    rw [hat] at hslots
    simp only [producerStep, hat]
    exact ⟨trivial, rfl, by simpa [Producer.inFlight, Event.accepted?] using hslots⟩
  | pending head =>
    rw [hat] at hslots
    simp only [producerStep, hat]
    refine ⟨trivial, rfl, ?_⟩
    simpa [Producer.inFlight, List.filterMap_cons, Event.accepted?] using hslots

/-- What an access of the consumer leaves alone. -/
theorem consumerStep_frame (s : State cfg α) (lag : ℕ) :
    let r := consumerStep s lag
    r.1.tail = s.tail ∧ r.1.dropped = s.dropped ∧ r.1.slots = s.slots ∧
      r.1.producer = s.producer ∧ r.1.headSeen = s.headSeen ∧
      r.2.filterMap Event.accepted? = [] ∧ r.2.countP (Event.isRefusal true) = 0 := by
  cases hat : s.consumer with
  | loadedHead head =>
    simp only [consumerStep, hat]
    split_ifs <;> simp [List.filterMap_cons, Event.accepted?, Event.isRefusal]
  | _ => simp [consumerStep, hat, List.filterMap_cons, Event.accepted?, Event.isRefusal]

/-- What an access of the consumer does to the rest. -/
theorem QueueInv.head_consumerStep (hq : QueueInv slots s h) (lag : ℕ) :
    let r := consumerStep s lag
    r.1.head.now = s.head.now + (r.2.filterMap Event.popped?).length ∧
      r.1.head.now ≤ r.1.tailSeen ∧
      ∀ head, r.1.consumer.head? = some head → head = r.1.head.now := by
  have hholds := hq.holds
  have hseen := Nat.le_trans hq.head_le_seen (s.tail.le_view s.tailSeen lag)
  have hat' := hq.inv.consumer
  cases hat : s.consumer with
  | idle => simpa [consumerStep, hat, Consumer.head?] using hq.head_le_seen
  | loadedHead head =>
    rw [hat] at hholds
    simp only [consumerStep, hat]
    split_ifs with hempty
    · exact ⟨rfl, hseen, fun _ hhead => by contradiction⟩
    · exact ⟨rfl, hseen, hholds⟩
  | reading head =>
    rw [hat] at hholds
    simp only [consumerStep, hat]
    exact ⟨rfl, hq.head_le_seen, hholds⟩
  | releasing head slot =>
    rw [hat] at hholds hat'
    obtain rfl := hholds head rfl
    simp only [consumerStep, hat]
    exact ⟨rfl, hat'.1.2, fun _ hhead => by contradiction⟩
  | pending head =>
    simp only [consumerStep, hat]
    exact ⟨rfl, hseen, fun _ hhead => by contradiction⟩

/-- A step of the producer keeps the invariant if it leaves the consumer's side alone. -/
theorem QueueInv.of_producer (hq : QueueInv slots s h) {act : Act α}
    {r : State cfg α × List (Event α)}
    (hinv : Inv r.1 (accepted (h ++ [(act, r.2)])) (poppedIn (h ++ [(act, r.2)])))
    (hframe : r.1.head = s.head ∧ r.1.consumer = s.consumer ∧ r.1.tailSeen = s.tailSeen ∧
      r.2.filterMap Event.popped? = [])
    (hmoved : TryPushAt cfg r.1.producer r.1.tail.now r.1.headSeen r.1.dropped ∧
      r.1.dropped = s.dropped + r.2.countP (Event.isRefusal true) ∧
      r.1.slots = fillFrom cfg 0 slots
        (accepted h ++ r.2.filterMap Event.accepted? ++ r.1.producer.inFlight)) :
    QueueInv slots r.1 (h ++ [(act, r.2)]) := by
  obtain ⟨hhead, hconsumer, hseen, hpopped⟩ := hframe
  obtain ⟨htry, hdropped, hslots⟩ := hmoved
  constructor
  case inv => exact hinv
  case head_eq => rw [hhead, poppedIn_concat, hpopped, List.append_nil, hq.head_eq]
  case head_le_seen => rw [hhead, hseen]; exact hq.head_le_seen
  case tryPush => exact htry
  case holds => rw [hconsumer, hhead]; exact hq.holds
  case dropped => rw [hdropped, refusals_concat, hq.dropped]
  case slots_eq => rw [hslots, accepted_concat]

/-- A step of the consumer keeps the invariant if it leaves the producer's side alone. -/
theorem QueueInv.of_consumer (hq : QueueInv slots s h) {act : Act α}
    {r : State cfg α × List (Event α)}
    (hinv : Inv r.1 (accepted (h ++ [(act, r.2)])) (poppedIn (h ++ [(act, r.2)])))
    (hframe : r.1.tail = s.tail ∧ r.1.dropped = s.dropped ∧ r.1.slots = s.slots ∧
      r.1.producer = s.producer ∧ r.1.headSeen = s.headSeen ∧
      r.2.filterMap Event.accepted? = [] ∧ r.2.countP (Event.isRefusal true) = 0)
    (hmoved : r.1.head.now = s.head.now + (r.2.filterMap Event.popped?).length ∧
      r.1.head.now ≤ r.1.tailSeen ∧
      ∀ head, r.1.consumer.head? = some head → head = r.1.head.now) :
    QueueInv slots r.1 (h ++ [(act, r.2)]) := by
  obtain ⟨htail, hdropped, hslots, hproducer, hseen, haccepted, hrefusals⟩ := hframe
  obtain ⟨hhead, hle, hholds⟩ := hmoved
  constructor
  case inv => exact hinv
  case head_eq => rw [hhead, poppedIn_concat, List.length_append, hq.head_eq]
  case head_le_seen => exact hle
  case tryPush => rw [hproducer, htail, hseen, hdropped]; exact hq.tryPush
  case holds => exact hholds
  case dropped => rw [hdropped, refusals_concat, hrefusals, hq.dropped, Nat.add_zero]
  case slots_eq => rw [hslots, hproducer, accepted_concat, haccepted, List.append_nil, hq.slots_eq]

theorem QueueInv.step (hq : QueueInv slots s h) {act : Act α} (hact : act.OnQueue) :
    QueueInv slots (step s act).1 (h ++ [(act, (step s act).2)]) := by
  have hinv : Inv (Ring.step s act).1 (accepted (h ++ [(act, (Ring.step s act).2)]))
      (poppedIn (h ++ [(act, (Ring.step s act).2)])) := by
    rw [accepted_concat, poppedIn_concat]
    exact hq.inv.step (hq.sound act)
  have hslots := hq.slots_eq
  -- an action of a busy thread changes nothing
  have hbusy : Ring.step s act = (s, []) →
      QueueInv slots (Ring.step s act).1 (h ++ [(act, (Ring.step s act).2)]) := by
    intro hsame
    refine hq.of_producer hinv ?_ ?_ <;> rw [hsame]
    · exact ⟨rfl, rfl, rfl, rfl⟩
    · exact ⟨hq.tryPush, rfl, by simpa using hslots⟩
  cases act with
  | push p slot =>
    cases hat : s.producer with
    | idle =>
      rw [hat] at hslots
      refine hq.of_producer hinv ?_ ?_ <;> simp only [Ring.step, hat]
      · exact ⟨trivial, trivial, trivial, rfl⟩
      · exact ⟨hact, rfl, by simpa [Producer.inFlight] using hslots⟩
    | _ => exact hbusy (by simp only [Ring.step, hat])
  | producerPending lag =>
    cases hat : s.producer with
    | idle =>
      rw [hat] at hslots
      refine hq.of_producer hinv ?_ ?_ <;> simp only [Ring.step, hat]
      · exact ⟨trivial, trivial, trivial, rfl⟩
      · exact ⟨trivial, rfl, by simpa [Producer.inFlight] using hslots⟩
    | _ => exact hbusy (by simp only [Ring.step, hat])
  | producer lag =>
    exact hq.of_producer hinv (producerStep_frame hq lag) (hq.tryPush_producerStep lag)
  | tryPop =>
    cases hat : s.consumer with
    | idle =>
      refine hq.of_consumer hinv ?_ ?_ <;> simp only [Ring.step, hat]
      · exact ⟨trivial, trivial, trivial, trivial, trivial, rfl, rfl⟩
      · exact ⟨rfl, hq.head_le_seen, fun _ hhead => (Option.some.inj hhead).symm⟩
    | _ => exact hbusy (by simp only [Ring.step, hat])
  | consumerPending =>
    cases hat : s.consumer with
    | idle =>
      refine hq.of_consumer hinv ?_ ?_ <;> simp only [Ring.step, hat]
      · exact ⟨trivial, trivial, trivial, trivial, trivial, rfl, rfl⟩
      · exact ⟨rfl, hq.head_le_seen, fun _ hhead => (Option.some.inj hhead).symm⟩
    | _ => exact hbusy (by simp only [Ring.step, hat])
  | consumer lag =>
    exact hq.of_consumer hinv (consumerStep_frame s lag) (hq.head_consumerStep lag)

end Step

/-! ## What a queue promises -/

/-- The state of a ring that is a queue, after a history. All four shared cells are given by what
was accepted, popped and counted, so that a refused push changes nothing but `dropped`. -/
structure IsFifo (slots : Fin cfg.capacity.size.toNat → α) (s : State cfg α)
    (h : List (Act α × List (Event α))) : Prop where
  fifo : poppedIn h <+: accepted h
  head : s.head.now = (poppedIn h).length
  tail : s.tail.now = (accepted h).length
  dropped : s.dropped = refusals true h
  memory : s.slots = fillFrom cfg 0 slots (accepted h ++ s.producer.inFlight)
  /-- Every slot published and not popped holds what was pushed. -/
  unread : ∀ i, s.head.now ≤ i → i < s.tail.now →
    (accepted h)[i]? = some (s.slots (cfg.capacity.slotOf i))
  bounded : s.head.now ≤ s.tail.now ∧ s.tail.now ≤ s.head.now + cfg.capacity.size.toNat
  /-- The subtraction on the cells neither wraps nor loses anything. -/
  distance : (distance s.tail.now s.head.now).toNat = s.tail.now - s.head.now
  attempts : attempts h = (accepted h).length + s.dropped + refusals false h

/-- What one access of a ring that is a queue may do. -/
structure FifoStep (s : State cfg α) (act : Act α) : Prop where
  /-- No slot is overwritten before it was popped. -/
  unread : ∀ i, s.head.now ≤ i → i < s.tail.now →
    (step s act).1.slots (cfg.capacity.slotOf i) = s.slots (cfg.capacity.slotOf i)
  /-- A push is refused only when the producer's view of the ring is full. -/
  refused : ∀ countDrop slot, .refused countDrop slot ∈ (step s act).2 →
    s.tail.now = (step s act).1.headSeen + cfg.capacity.size.toNat
  /-- The access that refuses leaves the ring alone, `dropped` apart. -/
  kept : ∀ countDrop slot, .refused countDrop slot ∈ (step s act).2 →
    (step s act).1.head = s.head ∧ (step s act).1.tail = s.tail ∧
      (step s act).1.slots = s.slots ∧
      (step s act).1.dropped = s.dropped + (if countDrop then 1 else 0)
  /-- The producer's reading is never too low, and never above the capacity. -/
  producerPending : ∀ n, .producerPending n ∈ (step s act).2 →
    s.tail.now - s.head.now ≤ n.toNat ∧ n.toNat ≤ cfg.capacity.size.toNat
  /-- The consumer's reading is never too high. -/
  consumerPending : ∀ n, .consumerPending n ∈ (step s act).2 →
    n.toNat ≤ s.tail.now - s.head.now

section Promise

variable {slots : Fin cfg.capacity.size.toNat → α} {h : List (Act α × List (Event α))}

theorem QueueInv.isFifo (hq : QueueInv slots s h) : IsFifo slots s h where
  fifo := by
    have hlength : ((accepted h).take s.head.now).length = (poppedIn h).length := by
      rw [List.length_take, hq.inv.length, Nat.min_eq_left hq.inv.head_le, hq.head_eq]
    rw [hq.inv.popped.eq_of_length hlength.symm]
    exact List.take_prefix _ _
  head := hq.head_eq
  tail := hq.inv.length.symm
  dropped := hq.dropped
  memory := hq.slots_eq
  unread := hq.inv.unread
  bounded := ⟨hq.inv.head_le, hq.inv.room⟩
  distance := toNat_distance hq.inv.head_le hq.inv.room
  attempts := by rw [attempts_eq, hq.dropped]

/-- The slots of the ring that no access of the consumer changes. -/
theorem unread_step (hinv : Inv s (accepted h) (poppedIn h)) (act : Act α) {i : ℕ}
    (hle : s.head.now ≤ i) (hlt : i < s.tail.now) :
    (step s act).1.slots (cfg.capacity.slotOf i) = s.slots (cfg.capacity.slotOf i) := by
  have hat' := hinv.producer
  cases act with
  | producer lag =>
    cases hat : s.producer with
    | writing slot tail =>
      rw [hat] at hat'
      simp only [step, producerStep, hat]
      exact Function.update_of_ne (hinv.slotOf_ne hat'.1 hat'.2 hle hlt) _ _
    | counting push slot tail dropped => cases push <;> simp [step, producerStep, hat]
    | _ => simp [step, producerStep, hat]
  | consumer lag => rw [step, (consumerStep_frame s lag).2.2.1]
  | push p slot =>
    simp only [step]
    split <;> rfl
  | producerPending lag =>
    simp only [step]
    split <;> rfl
  | tryPop =>
    simp only [step]
    split <;> rfl
  | consumerPending =>
    simp only [step]
    split <;> rfl

/-- The access that each event comes from. -/
inductive Emits (s : State cfg α) : Act α → Event α → Prop
  | full {lag : ℕ} {slot : α} {tail : ℕ}
      (hat : s.producer = .loadedTail (.tryPush false) slot tail) :
      Emits s (.producer lag) (.refused false slot)
  | counted {lag : ℕ} {countDrop : Bool} {slot : α} {tail dropped : ℕ}
      (hat : s.producer = .counting (.tryPush countDrop) slot tail dropped) :
      Emits s (.producer lag) (.refused countDrop slot)
  | accepted {lag : ℕ} {slot : α} {tail : ℕ} (hat : s.producer = .publishing slot tail) :
      Emits s (.producer lag) (.accepted slot)
  | producerPending {lag head : ℕ} (hat : s.producer = .pending head) :
      Emits s (.producer lag) (.producerPending (distance s.tail.now head))
  | empty {lag head : ℕ} (hat : s.consumer = .loadedHead head) : Emits s (.consumer lag) .empty
  | popped {lag head : ℕ} {slot : α} (hat : s.consumer = .releasing head slot) :
      Emits s (.consumer lag) (.popped slot)
  | consumerPending {lag head : ℕ} (hat : s.consumer = .pending head) :
      Emits s (.consumer lag)
        (.consumerPending (distance (s.tail.load s.tailSeen lag).2 head))

/-- A step has no other events: those of the producer's accesses and of the consumer's. -/
theorem emits_of_mem {act : Act α} {e : Event α} (hmem : e ∈ (Ring.step s act).2) :
    Emits s act e := by
  cases act with
  | producer lag =>
    cases hat : s.producer with
    | loadedTail push slot tail =>
      simp only [Ring.step, producerStep, hat] at hmem
      unfold afterHead at hmem
      split at hmem <;> simp at hmem
      subst hmem
      exact .full hat
    | counting push slot tail dropped =>
      cases push <;> simp [Ring.step, producerStep, hat, afterDrop] at hmem
      subst hmem
      exact .counted hat
    | publishing slot tail =>
      simp only [Ring.step, producerStep, hat, List.mem_singleton] at hmem
      subst hmem
      exact .accepted hat
    | pending head =>
      simp only [Ring.step, producerStep, hat, List.mem_singleton] at hmem
      subst hmem
      exact .producerPending hat
    | _ => simp [Ring.step, producerStep, hat] at hmem
  | consumer lag =>
    cases hat : s.consumer with
    | loadedHead head =>
      simp only [Ring.step, consumerStep, hat] at hmem
      split_ifs at hmem <;> simp at hmem
      subst hmem
      exact .empty hat
    | releasing head slot =>
      simp only [Ring.step, consumerStep, hat, List.mem_singleton] at hmem
      subst hmem
      exact .popped hat
    | pending head =>
      simp only [Ring.step, consumerStep, hat, List.mem_singleton] at hmem
      subst hmem
      exact .consumerPending hat
    | _ => simp [Ring.step, consumerStep, hat] at hmem
  | push p slot' =>
    simp only [Ring.step] at hmem
    split at hmem <;> simp at hmem
  | producerPending lag =>
    simp only [Ring.step] at hmem
    split at hmem <;> simp at hmem
  | tryPop =>
    simp only [Ring.step] at hmem
    split at hmem <;> simp at hmem
  | consumerPending =>
    simp only [Ring.step] at hmem
    split at hmem <;> simp at hmem

/-- An access that refuses a push. -/
theorem QueueInv.refused_step (hq : QueueInv slots s h) {act : Act α} {countDrop : Bool}
    {slot : α} (hmem : .refused countDrop slot ∈ (Ring.step s act).2) :
    s.tail.now = (Ring.step s act).1.headSeen + cfg.capacity.size.toNat ∧
      (Ring.step s act).1.head = s.head ∧ (Ring.step s act).1.tail = s.tail ∧
      (Ring.step s act).1.slots = s.slots ∧
      (Ring.step s act).1.dropped = s.dropped + (if countDrop then 1 else 0) := by
  have htry := hq.tryPush
  have hat' := hq.inv.producer
  cases emits_of_mem hmem with
  | @full lag slot tail hat =>
    rw [hat] at hat'
    obtain rfl : tail = s.tail.now := hat'
    have hview := hq.inv.head_counter.snd_load hq.inv.headSeen_le lag
    have hle := hq.inv.head_counter.view_le hq.inv.headSeen_le lag
    have hroom := Nat.le_trans hq.inv.tail_le
      (Nat.add_le_add_right (s.head.le_view s.headSeen lag) cfg.capacity.size.toNat)
    obtain ⟨-, -, -, -, hfull⟩ :=
      afterHead_tryPush false slot (Nat.le_trans hle hq.inv.head_le) hroom s.dropped
    simp only [Ring.step, producerStep, hat, hview] at hmem ⊢
    exact ⟨hfull (List.ne_nil_of_mem hmem), trivial, trivial, trivial, rfl⟩
  | counted hat =>
    -- a counted drop is refused only after the count
    rw [hat] at htry
    obtain ⟨hcount, rfl, hfull⟩ := htry
    obtain rfl := Push.tryPush.inj hcount
    simp only [Ring.step, producerStep, hat, afterDrop]
    exact ⟨hfull, trivial, trivial, trivial, rfl⟩

/-- A reading of `pending()` on the producer's thread. -/
theorem QueueInv.producerPending_step (hq : QueueInv slots s h) {act : Act α} {n : UInt64}
    (hmem : .producerPending n ∈ (Ring.step s act).2) :
    n.toNat = s.tail.now - s.headSeen := by
  have hat' := hq.inv.producer
  cases emits_of_mem hmem with
  | @producerPending lag head hat =>
    rw [hat] at hat'
    obtain rfl : head = s.headSeen := hat'
    exact toNat_distance (Nat.le_trans hq.inv.headSeen_le hq.inv.head_le) hq.inv.tail_le

/-- The events of the consumer come from its accesses. -/
theorem eq_consumer_of_mem {act : Act α} {e : Event α} (hmem : e ∈ (Ring.step s act).2)
    (hevent : (∃ n, e = .consumerPending n) ∨ e = .empty) : ∃ lag, act = .consumer lag := by
  cases emits_of_mem hmem with
  | empty _ => exact ⟨_, rfl⟩
  | popped _ => exact ⟨_, rfl⟩
  | consumerPending _ => exact ⟨_, rfl⟩
  | full _ => simp at hevent
  | counted _ => simp at hevent
  | accepted _ => simp at hevent
  | producerPending _ => simp at hevent

/-- A reading of `pending()` on the consumer's thread is what it has seen and not popped. -/
theorem QueueInv.consumerPending_step (hq : QueueInv slots s h) {act : Act α} {n : UInt64}
    (hmem : .consumerPending n ∈ (Ring.step s act).2) :
    (Ring.step s act).1.tailSeen ≤ s.tail.now ∧
      n.toNat = (Ring.step s act).1.tailSeen - s.head.now := by
  cases emits_of_mem hmem with
  | @consumerPending lag head hat =>
    have hview := hq.inv.tail_counter.snd_load hq.inv.tailSeen_le lag
    have hle := hq.inv.tail_counter.view_le hq.inv.tailSeen_le lag
    have hseen := Nat.le_trans hq.head_le_seen (s.tail.le_view s.tailSeen lag)
    obtain rfl := hq.holds head (by rw [hat]; rfl)
    simp only [Ring.step, consumerStep, hat, hview]
    exact ⟨hle, toNat_distance hseen (Nat.le_trans hle hq.inv.room)⟩

/-- A `try_pop` finds nothing only when all that was ever seen is popped. -/
theorem QueueInv.empty_step (hq : QueueInv slots s h) {act : Act α}
    (hmem : .empty ∈ (Ring.step s act).2) : s.tailSeen ≤ s.head.now := by
  cases emits_of_mem hmem with
  | @empty lag head hat =>
    have hview := hq.inv.tail_counter.snd_load hq.inv.tailSeen_le lag
    have hle := hq.inv.tail_counter.view_le hq.inv.tailSeen_le lag
    have hseen := Nat.le_trans hq.head_le_seen (s.tail.le_view s.tailSeen lag)
    obtain rfl := hq.holds head (by rw [hat]; rfl)
    simp only [Ring.step, consumerStep, hat, hview] at hmem
    split_ifs at hmem with hempty
    · -- equal residues at most a ring apart are equal indices
      have hexact := toNat_distance hseen (Nat.le_trans hle hq.inv.room)
      rw [Ring.distance, hempty, UInt64.sub_self] at hexact
      have hzero : s.tail.view s.tailSeen lag - s.head.now = 0 := hexact.symm
      exact Nat.le_trans (s.tail.le_view s.tailSeen lag) (Nat.sub_eq_zero_iff_le.mp hzero)
    · simp at hmem

theorem QueueInv.fifoStep (hq : QueueInv slots s h) (act : Act α) : FifoStep s act where
  unread := fun _ hle hlt => unread_step hq.inv act hle hlt
  refused := fun _ _ hmem => (hq.refused_step hmem).1
  kept := fun _ _ hmem => (hq.refused_step hmem).2
  producerPending := by
    intro n hmem
    have hhead := hq.inv.headSeen_le
    have htail := hq.inv.tail_le
    rw [hq.producerPending_step hmem]
    omega
  consumerPending := by
    intro n hmem
    obtain ⟨hle, hn⟩ := hq.consumerPending_step hmem
    rw [hn]
    exact Nat.sub_le_sub_right hle _

/-- What the consumer has seen of `tail` only grows. -/
theorem tailSeen_le_step (s : State cfg α) (act : Act α) :
    s.tailSeen ≤ (Ring.step s act).1.tailSeen := by
  cases act with
  | consumer lag =>
    cases hat : s.consumer with
    | loadedHead head =>
      simp only [Ring.step, consumerStep, hat]
      split_ifs <;> exact s.tail.le_view _ _
    | pending head =>
      simp only [Ring.step, consumerStep, hat]
      exact s.tail.le_view _ _
    | _ => simp [Ring.step, consumerStep, hat]
  | producer lag =>
    cases hat : s.producer with
    | counting push slot tail dropped => cases push <;> simp [Ring.step, producerStep, hat]
    | _ => simp [Ring.step, producerStep, hat]
  | push p slot =>
    simp only [Ring.step]
    split <;> exact Nat.le_refl _
  | producerPending lag =>
    simp only [Ring.step]
    split <;> exact Nat.le_refl _
  | tryPop =>
    simp only [Ring.step]
    split <;> exact Nat.le_refl _
  | consumerPending =>
    simp only [Ring.step]
    split <;> exact Nat.le_refl _

theorem tailSeen_le_run (s : State cfg α) (acts : List (Act α)) :
    s.tailSeen ≤ (Mealy.run Ring.step s acts).1.tailSeen :=
  Mealy.run_induct Ring.step (P := fun t _ => s.tailSeen ≤ t.tailSeen) (Nat.le_refl _)
    (fun t _ act hle => Nat.le_trans hle (tailSeen_le_step t act)) acts

theorem queueInv_run (slots : Fin cfg.capacity.size.toNat → α) {acts : List (Act α)}
    (hacts : ∀ act ∈ acts, act.OnQueue) :
    QueueInv slots (run cfg slots acts).1 (run cfg slots acts).2 :=
  Mealy.run_induct_along Ring.step (P := QueueInv slots) (queueInv_init slots)
    (fun _ _ _ hact hq => hq.step hact) (Mealy.along_of_forall Ring.step hacts _)

end Promise

/-! ## The consumer's calls -/

/-- Inside `try_pop`. -/
def Consumer.IsPopping : Consumer α → Prop
  | .loadedHead _ | .reading _ | .releasing _ _ => True
  | .idle | .pending _ => False

/-- Inside `pending()`. -/
def Consumer.IsPending : Consumer α → Prop
  | .pending _ => True
  | _ => False

section Calls

variable {slots : Fin cfg.capacity.size.toNat → α} {h : List (Act α × List (Event α))}

/-- The consumer's view of `tail` moves up, as when another thread hands it what it has seen. -/
theorem QueueInv.see (hq : QueueInv slots s h) {seen : ℕ} (hseen : seen ≤ s.tail.now) :
    QueueInv slots { s with tailSeen := max s.tailSeen seen } h where
  inv :=
    { hq.inv with
      tailSeen_le := max_le hq.inv.tailSeen_le hseen
      consumer := by
        have hat := hq.inv.consumer
        have hle : s.tailSeen ≤ max s.tailSeen seen := le_max_left _ _
        cases hcall : s.consumer with
        | reading head =>
          rw [hcall] at hat
          exact ⟨hat.1, hat.2.trans_le hle⟩
        | releasing head slot =>
          rw [hcall] at hat
          exact ⟨⟨hat.1.1, hat.1.2.trans_le hle⟩, hat.2⟩
        | _ => rwa [hcall] at hat }
  head_eq := hq.head_eq
  head_le_seen := hq.head_le_seen.trans (le_max_left _ _)
  tryPush := hq.tryPush
  holds := hq.holds
  dropped := hq.dropped
  slots_eq := hq.slots_eq

/-- The return of `pending()`: what the consumer now sees and has not popped. -/
theorem QueueInv.step_pending (hq : QueueInv slots s h) (hcall : s.consumer.IsPending) (lag : ℕ) :
    ∃ count : UInt64, Ring.step s (.consumer lag) =
        ({ s with tailSeen := s.tail.view s.tailSeen lag, consumer := .idle },
          [.consumerPending count]) ∧
      count.toNat = s.tail.view s.tailSeen lag - s.head.now := by
  cases hat : s.consumer with
  | pending head =>
    obtain rfl := hq.holds head (by rw [hat]; rfl)
    have hview := hq.inv.tail_counter.snd_load hq.inv.tailSeen_le lag
    have hle := hq.inv.tail_counter.view_le hq.inv.tailSeen_le lag
    have hseen := Nat.le_trans hq.head_le_seen (s.tail.le_view s.tailSeen lag)
    refine ⟨distance (s.tail.view s.tailSeen lag) s.head.now, ?_, ?_⟩
    · simp [Ring.step, consumerStep, hat, hview]
    · exact toNat_distance hseen (Nat.le_trans hle hq.inv.room)
  | _ =>
    rw [hat] at hcall
    exact hcall.elim

/-- An access inside a `try_pop` that was called when something was seen: the call goes on, or it
returns the oldest record. -/
theorem QueueInv.step_popping (hq : QueueInv slots s h) (hcall : s.consumer.IsPopping)
    (hsome : s.head.now < s.tailSeen) (lag : ℕ) :
    (∃ tailSeen consumer, Ring.step s (.consumer lag) =
        ({ s with tailSeen := tailSeen, consumer := consumer }, []) ∧
      s.tailSeen ≤ tailSeen ∧ consumer.IsPopping) ∨
    ∃ slot, Ring.step s (.consumer lag) =
      ({ s with head := s.head.store (s.head.now + 1), consumer := .idle }, [.popped slot]) := by
  cases hat : s.consumer with
  | loadedHead head =>
    obtain rfl := hq.holds head (by rw [hat]; rfl)
    have hview := hq.inv.tail_counter.snd_load hq.inv.tailSeen_le lag
    have hle := hq.inv.tail_counter.view_le hq.inv.tailSeen_le lag
    have hseen := s.tail.le_view s.tailSeen lag
    have hexact := toNat_distance (hq.head_le_seen.trans hseen) (Nat.le_trans hle hq.inv.room)
    have hne : UInt64.ofNat (s.tail.view s.tailSeen lag) ≠ UInt64.ofNat s.head.now := by
      intro heq
      rw [distance, heq, UInt64.sub_self] at hexact
      have hzero : 0 = s.tail.view s.tailSeen lag - s.head.now := hexact
      omega
    refine .inl ⟨s.tail.view s.tailSeen lag, .reading s.head.now, ?_, hseen, trivial⟩
    simp [Ring.step, consumerStep, hat, hview, hne]
  | reading head =>
    refine .inl ⟨s.tailSeen, .releasing head (s.slots (cfg.capacity.slotOf head)), ?_, le_rfl,
      trivial⟩
    simp [Ring.step, consumerStep, hat]
  | releasing head slot =>
    obtain rfl := hq.holds head (by rw [hat]; rfl)
    refine .inr ⟨slot, ?_⟩
    simp [Ring.step, consumerStep, hat]
  | _ =>
    rw [hat] at hcall
    exact hcall.elim

end Calls

/-- A ring pushed with `try_push` only is a bounded first-in first-out queue under every
interleaving and every stale load, and what the consumer reads from `pending()` it can pop: no
later `try_pop` comes back empty before that many have succeeded. -/
theorem run_isFifo (cfg : Config) {α : Type*} (slots : Fin cfg.capacity.size.toNat → α)
    (acts : List (Act α)) (hacts : ∀ act ∈ acts, act.OnQueue) :
    let r := run cfg slots acts
    IsFifo slots r.1 r.2 ∧ (∀ act, FifoStep r.1 act) ∧
      ∀ act n, .consumerPending n ∈ (step r.1 act).2 →
        ∀ more, (∀ act ∈ more, act.OnQueue) → ∀ last,
          let r' := run cfg slots (acts ++ act :: more)
          .empty ∈ (step r'.1 last).2 →
            (poppedIn r.2).length + n.toNat ≤ (poppedIn r'.2).length := by
  intro r
  have hq : QueueInv slots r.1 r.2 := queueInv_run slots hacts
  refine ⟨hq.isFifo, hq.fifoStep, ?_⟩
  intro act n hpending more hmore last r' hempty
  obtain ⟨-, hn⟩ := hq.consumerPending_step hpending
  obtain ⟨lag, rfl⟩ := eq_consumer_of_mem hpending (.inl ⟨n, rfl⟩)
  have hq' : QueueInv slots r'.1 r'.2 := by
    refine queueInv_run slots fun act hact => ?_
    obtain hact | hact := List.mem_append.mp hact
    · exact hacts act hact
    · obtain rfl | hact := List.mem_cons.mp hact
      · trivial
      · exact hmore act hact
  -- what was seen at the reading is still seen, and all of it is popped
  have hseen : (step r.1 (.consumer lag)).1.tailSeen ≤ r'.1.tailSeen := by
    have hrun : r'.1 = (Mealy.run step (step r.1 (.consumer lag)).1 more).1 := by
      change (Mealy.run step _ (acts ++ _)).1 = _
      rw [Mealy.run_append]
      rfl
    rw [hrun]
    exact tailSeen_le_run _ more
  have hall := hq'.empty_step hempty
  have hhead := hq.head_le_seen
  rw [← hq.head_eq, ← hq'.head_eq, hn]
  have hstep := tailSeen_le_step r.1 (.consumer lag)
  omega

/-- A refused push, and a pop by a consumer whose view of `tail` is one store behind. -/
theorem run_isFifo_stale :
    let cfg : Config := { kind := .spscTelemetryRing, capacity := { size := 2, isPow := ⟨1, rfl⟩ } }
    let accepts : ℕ → List (Act ℕ) := fun slot =>
      [.push (.tryPush true) slot, .producer 0, .producer 0, .producer 0]
    let acts : List (Act ℕ) := accepts 7 ++ accepts 8 ++
      [.push (.tryPush true) 9, .producer 0, .producer 0, .producer 0] ++
      [.tryPop, .consumer 1, .consumer 0, .consumer 0]
    let r := run cfg (fun _ => 0) acts
    IsFifo (fun _ => 0) r.1 r.2 ∧ poppedIn r.2 = [7] ∧ accepted r.2 = [7, 8] ∧ r.1.dropped = 1 :=
  ⟨(run_isFifo _ _ _ (by decide)).1, by decide, by decide, by decide⟩

end Ring

end MarketMaker
