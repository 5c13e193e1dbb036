import MarketMaker.Ring.Basic

/-!
# The ring invariant

What holds between any two accesses as long as no store to `head` is made from a value that
`head` has moved away from: the indices count the stores made to them, each thread's locals are
bounded by what it has seen, and every published slot that is not yet read still holds what was
pushed at its index.
-/

namespace MarketMaker

namespace Ring

variable {cfg : Config} {α : Type*} {s : State cfg α} {pushed popped : List α}

/-! ## Residues -/

/-- The distance of two indices at most a ring apart is exact. -/
theorem toNat_distance {tail head : ℕ} (hle : head ≤ tail)
    (hroom : tail ≤ head + cfg.capacity.size.toNat) : (distance tail head).toNat = tail - head := by
  have hsize := cfg.capacity.size.toNat_lt
  rw [distance, UInt64.toNat_sub, UInt64.toNat_ofNat', UInt64.toNat_ofNat']
  omega

/-- Both space checks say that the view of the ring is full. -/
theorem isFull_iff {tail head : ℕ} (hle : head ≤ tail)
    (hroom : tail ≤ head + cfg.capacity.size.toNat) :
    cfg.isFull tail head = true ↔ tail = head + cfg.capacity.size.toNat := by
  have hdistance := toNat_distance hle hroom
  rw [Config.isFull]
  cases cfg.kind with
  | spscTelemetryRing =>
    rw [beq_iff_eq, ← UInt64.toNat_inj, hdistance]
    omega
  | shmRing =>
    rw [decide_eq_true_iff, UInt64.le_iff_toNat_le, hdistance]
    omega

/-! ## What the calls returned -/

/-- The slot of a push that was accepted. -/
def Event.accepted? : Event α → Option α
  | .accepted slot => some slot
  | _ => none

/-- The slot of a pop. -/
def Event.popped? : Event α → Option α
  | .popped slot => some slot
  | _ => none

/-- The slots accepted in a history, in order. -/
def accepted {ι : Type*} (h : List (ι × List (Event α))) : List α :=
  (h.flatMap Prod.snd).filterMap Event.accepted?

/-- The slots popped in a history, in order. -/
def poppedIn {ι : Type*} (h : List (ι × List (Event α))) : List α :=
  (h.flatMap Prod.snd).filterMap Event.popped?

@[simp]
theorem accepted_concat {ι : Type*} (h : List (ι × List (Event α))) (i : ι)
    (out : List (Event α)) :
    accepted (h ++ [(i, out)]) = accepted h ++ out.filterMap Event.accepted? := by
  simp [accepted]

@[simp]
theorem poppedIn_concat {ι : Type*} (h : List (ι × List (Event α))) (i : ι)
    (out : List (Event α)) :
    poppedIn (h ++ [(i, out)]) = poppedIn h ++ out.filterMap Event.popped? := by
  simp [poppedIn]

/-! ## The invariant -/

/-- What the producer's locals say, against `tail` and its view of `head`. -/
def ProducerAt (cfg : Config) (producer : Producer α) (now seen : ℕ)
    (slots : Fin cfg.capacity.size.toNat → α) : Prop :=
  match producer with
  | .idle => True
  | .loadedTail _ _ tail => tail = now
  | .evicting _ tail head => tail = now ∧ head = seen ∧ tail = head + cfg.capacity.size.toNat
  | .dropping push _ tail | .counting push _ tail _ =>
    push = .pushOverwrite → tail = now ∧ tail < seen + cfg.capacity.size.toNat
  | .writing _ tail => tail = now ∧ tail < seen + cfg.capacity.size.toNat
  | .publishing slot tail =>
    (tail = now ∧ tail < seen + cfg.capacity.size.toNat) ∧ slots (cfg.capacity.slotOf tail) = slot
  | .pending head => head = seen

/-- What the consumer's locals say, against `head` and its view of `tail`. A slot it has copied
is the right one unless `head` has moved since. -/
def ConsumerAt (consumer : Consumer α) (now seen : ℕ) (pushed : List α) : Prop :=
  match consumer with
  | .idle => True
  | .loadedHead head => head ≤ now
  | .reading head => head ≤ now ∧ head < seen
  | .releasing head slot => (head ≤ now ∧ head < seen) ∧ (head = now → pushed[head]? = some slot)
  | .pending head => head ≤ now

/-- The invariant, beside what was pushed and what was popped. -/
structure Inv (s : State cfg α) (pushed popped : List α) : Prop where
  head_counter : s.head.IsCounter
  tail_counter : s.tail.IsCounter
  headSeen_le : s.headSeen ≤ s.head.now
  tailSeen_le : s.tailSeen ≤ s.tail.now
  head_le : s.head.now ≤ s.tail.now
  tail_le : s.tail.now ≤ s.headSeen + cfg.capacity.size.toNat
  length : pushed.length = s.tail.now
  unread : ∀ i, s.head.now ≤ i → i < s.tail.now →
    pushed[i]? = some (s.slots (cfg.capacity.slotOf i))
  producer : ProducerAt cfg s.producer s.tail.now s.headSeen s.slots
  consumer : ConsumerAt s.consumer s.head.now s.tailSeen pushed
  popped : popped.Sublist (pushed.take s.head.now)

theorem inv_init (slots : Fin cfg.capacity.size.toNat → α) :
    Inv (State.init cfg slots) [] [] where
  head_counter := Register.isCounter_init
  tail_counter := Register.isCounter_init
  headSeen_le := Nat.le_refl 0
  tailSeen_le := Nat.le_refl 0
  head_le := Nat.le_refl 0
  tail_le := Nat.zero_le _
  length := rfl
  unread := fun _ _ hlt => absurd hlt (Nat.not_lt_zero _)
  producer := trivial
  consumer := trivial
  popped := List.Sublist.slnil

/-- No store to `head` in this step is made from a value that `head` has moved away from, and a
load of `tail` by the consumer is not older than the `head` it holds. -/
def Sound (s : State cfg α) : Act α → Prop
  | .producer _ => ∀ slot tail head, s.producer = .evicting slot tail head → s.head.now = head
  | .consumer lag =>
    (∀ head slot, s.consumer = .releasing head slot → s.head.now = head) ∧
      ∀ head, s.consumer = .loadedHead head → head ≤ s.tail.view s.tailSeen lag
  | _ => True

theorem ConsumerAt.mono {consumer : Consumer α} {now now' seen : ℕ} {pushed' : List α}
    (h : ConsumerAt consumer now seen pushed) (hnow : now ≤ now') (hpushed : pushed <+: pushed') :
    ConsumerAt consumer now' seen pushed' := by
  cases consumer with
  | idle => trivial
  | loadedHead head => exact Nat.le_trans h hnow
  | reading head => exact ⟨Nat.le_trans h.1 hnow, h.2⟩
  | releasing head slot =>
    obtain ⟨⟨hle, hlt⟩, hslot⟩ := h
    refine ⟨⟨Nat.le_trans hle hnow, hlt⟩, fun hhere => ?_⟩
    -- `head` has not moved, so the copy is still the right one
    have hget := hslot (Nat.le_antisymm hle (hhere ▸ hnow))
    obtain ⟨later, rfl⟩ := hpushed
    rw [List.getElem?_append_left (List.getElem?_eq_some_iff.mp hget).1, hget]
  | pending head => exact Nat.le_trans h hnow

/-! ## The producer's accesses -/

theorem Inv.room (h : Inv s pushed popped) :
    s.tail.now ≤ s.head.now + cfg.capacity.size.toNat :=
  Nat.le_trans h.tail_le (Nat.add_le_add_right h.headSeen_le _)

/-- A load of `head`: the view moves up, and the value is the view. -/
theorem Inv.loadHead (h : Inv s pushed popped) (lag : ℕ) (producer : Producer α)
    (hat : ProducerAt cfg producer s.tail.now (s.head.view s.headSeen lag) s.slots) :
    Inv { s with headSeen := s.head.view s.headSeen lag, producer := producer } pushed popped where
  head_counter := h.head_counter
  tail_counter := h.tail_counter
  headSeen_le := h.head_counter.view_le h.headSeen_le lag
  tailSeen_le := h.tailSeen_le
  head_le := h.head_le
  tail_le := Nat.le_trans h.tail_le (Nat.add_le_add_right (s.head.le_view _ _) _)
  length := h.length
  unread := h.unread
  producer := hat
  consumer := h.consumer
  popped := h.popped

theorem producerAt_afterHead (push : Push) (slot : α) {tail head : ℕ} (hle : head ≤ tail)
    (hroom : tail ≤ head + cfg.capacity.size.toNat) (slots : Fin cfg.capacity.size.toNat → α) :
    ProducerAt cfg (afterHead cfg push slot tail head).1 tail head slots := by
  have hfull := isFull_iff hle hroom
  cases htest : cfg.isFull tail head with
  | false =>
    rw [htest, Bool.false_eq_true, false_iff] at hfull
    simp only [afterHead, htest]
    exact ⟨rfl, Nat.lt_of_le_of_ne hroom hfull⟩
  | true =>
    rw [htest] at hfull
    simp only [afterHead, htest]
    cases push with
    | pushOverwrite => exact ⟨rfl, rfl, hfull.mp rfl⟩
    | tryPush countDrop =>
      cases countDrop with
      | false => trivial
      | true => exact fun hpush => by contradiction

/-- An eviction from the value that `head` holds. -/
theorem Inv.evict (h : Inv s pushed popped) {slot : α} {tail : ℕ}
    (hat : s.producer = .evicting slot tail s.head.now) :
    Inv { s with
      head := s.head.store (s.head.now + 1)
      headSeen := s.head.held.length
      producer := .dropping .pushOverwrite slot tail } pushed popped := by
  have hproducer := h.producer
  rw [hat] at hproducer
  obtain ⟨htail, hseen, hfull⟩ := hproducer
  have hpos := cfg.capacity.toNat_pos
  have hheld : s.head.held.length = s.head.now + 1 := by
    rw [h.head_counter.held_eq, List.length_range]
  constructor
  case head_counter => exact h.head_counter.store
  case tail_counter => exact h.tail_counter
  case headSeen_le => exact hheld.le
  case tailSeen_le => exact h.tailSeen_le
  case head_le =>
    dsimp only [Register.now_store]
    omega
  case tail_le =>
    dsimp only
    omega
  case length => exact h.length
  case unread => exact fun i hi => h.unread i (Nat.le_of_succ_le hi)
  case producer =>
    refine fun _ => ⟨htail, ?_⟩
    dsimp only
    omega
  case consumer => exact h.consumer.mono (Nat.le_succ _) (List.prefix_refl _)
  case popped => exact h.popped.trans (List.take_sublist_take_left (Nat.le_succ _))

/-- A step of the producer that only moves it on. -/
theorem Inv.setProducer (h : Inv s pushed popped) {producer : Producer α} {dropped : ℕ}
    (hat : ProducerAt cfg producer s.tail.now s.headSeen s.slots) :
    Inv { s with dropped := dropped, producer := producer } pushed popped where
  head_counter := h.head_counter
  tail_counter := h.tail_counter
  headSeen_le := h.headSeen_le
  tailSeen_le := h.tailSeen_le
  head_le := h.head_le
  tail_le := h.tail_le
  length := h.length
  unread := h.unread
  producer := hat
  consumer := h.consumer
  popped := h.popped

/-- The slot written is no unread one. -/
theorem Inv.slotOf_ne (h : Inv s pushed popped) {tail : ℕ} (htail : tail = s.tail.now)
    (hroom : tail < s.headSeen + cfg.capacity.size.toNat) {i : ℕ} (hle : s.head.now ≤ i)
    (hlt : i < s.tail.now) : cfg.capacity.slotOf i ≠ cfg.capacity.slotOf tail := by
  have hseen := h.headSeen_le
  exact (cfg.capacity.slotOf_ne (by omega) (by omega)).symm

/-- The copy into the slot. -/
theorem Inv.write (h : Inv s pushed popped) {slot : α} {tail : ℕ}
    (hat : s.producer = .writing slot tail) :
    Inv { s with
      slots := Function.update s.slots (cfg.capacity.slotOf tail) slot
      producer := .publishing slot tail } pushed popped := by
  have hproducer := h.producer
  rw [hat] at hproducer
  constructor
  case unread =>
    intro i hle hlt
    dsimp only
    rw [Function.update_of_ne (h.slotOf_ne hproducer.1 hproducer.2 hle hlt)]
    exact h.unread i hle hlt
  case producer => exact ⟨hproducer, Function.update_self _ _ _⟩
  case head_counter => exact h.head_counter
  case tail_counter => exact h.tail_counter
  case headSeen_le => exact h.headSeen_le
  case tailSeen_le => exact h.tailSeen_le
  case head_le => exact h.head_le
  case tail_le => exact h.tail_le
  case length => exact h.length
  case consumer => exact h.consumer
  case popped => exact h.popped

/-- The store of `tail`, with which a push is accepted. -/
theorem Inv.publish (h : Inv s pushed popped) {slot : α} {tail : ℕ}
    (hat : s.producer = .publishing slot tail) :
    Inv { s with tail := s.tail.store (tail + 1), producer := .idle } (pushed ++ [slot])
      popped := by
  have hproducer := h.producer
  rw [hat] at hproducer
  obtain ⟨⟨rfl, hroom⟩, hslot⟩ := hproducer
  have hhead := h.head_le
  constructor
  case head_counter => exact h.head_counter
  case tail_counter => exact h.tail_counter.store
  case headSeen_le => exact h.headSeen_le
  case tailSeen_le => exact Nat.le_succ_of_le h.tailSeen_le
  case head_le => exact Nat.le_succ_of_le hhead
  case tail_le => exact hroom
  case length =>
    rw [List.length_append, h.length]
    rfl
  case unread =>
    intro i hle hlt
    obtain hlt | rfl := Nat.lt_or_eq_of_le (Nat.le_of_lt_succ hlt)
    · rw [List.getElem?_append_left (h.length ▸ hlt)]
      exact h.unread i hle hlt
    · rw [← h.length, List.getElem?_concat_length, h.length, ← hslot]
  case producer => trivial
  case consumer => exact h.consumer.mono (Nat.le_refl _) (List.prefix_append _ _)
  case popped =>
    rw [List.take_append_of_le_length (h.length ▸ hhead)]
    exact h.popped

theorem Inv.producerStep (h : Inv s pushed popped) {lag : ℕ} (hs : Sound s (.producer lag)) :
    let r := producerStep s lag
    Inv r.1 (pushed ++ r.2.filterMap Event.accepted?) (popped ++ r.2.filterMap Event.popped?) := by
  have hproducer := h.producer
  cases hat : s.producer with
  | idle => simpa [Ring.producerStep, hat] using h
  | loadedTail push slot tail =>
    rw [hat] at hproducer
    obtain rfl : tail = s.tail.now := hproducer
    have hview := h.head_counter.snd_load h.headSeen_le lag
    have hle := h.head_counter.view_le h.headSeen_le lag
    have hroom := Nat.le_trans h.tail_le
      (Nat.add_le_add_right (s.head.le_view s.headSeen lag) cfg.capacity.size.toNat)
    have hnext := h.loadHead lag _
      (producerAt_afterHead push slot (Nat.le_trans hle h.head_le) hroom s.slots)
    -- a refusal is no push, so neither list grows
    have hout : ∀ head : ℕ, (afterHead cfg push slot s.tail.now head).2.filterMap
        Event.accepted? = [] ∧ (afterHead cfg push slot s.tail.now head).2.filterMap
        Event.popped? = [] := by
      intro head
      unfold afterHead
      split <;> exact ⟨rfl, rfl⟩
    simp only [Ring.producerStep, hat, hview, hout, List.append_nil]
    exact hnext
  | evicting slot tail head =>
    -- soundness says that the eviction stores the successor of the true head
    obtain rfl := hs slot tail head hat
    simpa [Ring.producerStep, hat] using h.evict hat
  | dropping push slot tail =>
    rw [hat] at hproducer
    have hnext : Inv { s with producer := .counting push slot tail s.dropped } pushed popped :=
      h.setProducer hproducer
    simpa [Ring.producerStep, hat] using hnext
  | counting push slot tail dropped =>
    rw [hat] at hproducer
    cases push with
    | tryPush countDrop =>
      have hnext : Inv { s with dropped := dropped + 1, producer := .idle } pushed popped :=
        h.setProducer trivial
      simpa [Ring.producerStep, hat, afterDrop, List.filterMap_cons, Event.accepted?, Event.popped?]
        using hnext
    | pushOverwrite =>
      have hnext : Inv { s with dropped := dropped + 1, producer := .writing slot tail } pushed
          popped := h.setProducer (hproducer rfl)
      simpa [Ring.producerStep, hat, afterDrop, List.filterMap_cons, Event.accepted?, Event.popped?]
        using hnext
  | writing slot tail => simpa [Ring.producerStep, hat] using h.write hat
  | publishing slot tail =>
    simpa [Ring.producerStep, hat, List.filterMap_cons, Event.accepted?, Event.popped?]
      using h.publish hat
  | pending head =>
    have hnext : Inv { s with producer := .idle } pushed popped := h.setProducer trivial
    simpa [Ring.producerStep, hat, List.filterMap_cons, Event.accepted?, Event.popped?] using hnext

/-! ## The consumer's accesses -/

/-- A load of `tail`. -/
theorem Inv.loadTail (h : Inv s pushed popped) (lag : ℕ) (consumer : Consumer α)
    (hat : ConsumerAt consumer s.head.now (s.tail.view s.tailSeen lag) pushed) :
    Inv { s with tailSeen := s.tail.view s.tailSeen lag, consumer := consumer } pushed popped where
  head_counter := h.head_counter
  tail_counter := h.tail_counter
  headSeen_le := h.headSeen_le
  tailSeen_le := h.tail_counter.view_le h.tailSeen_le lag
  head_le := h.head_le
  tail_le := h.tail_le
  length := h.length
  unread := h.unread
  producer := h.producer
  consumer := hat
  popped := h.popped

/-- A step of the consumer that only moves it on. -/
theorem Inv.setConsumer (h : Inv s pushed popped) {consumer : Consumer α}
    (hat : ConsumerAt consumer s.head.now s.tailSeen pushed) :
    Inv { s with consumer := consumer } pushed popped where
  head_counter := h.head_counter
  tail_counter := h.tail_counter
  headSeen_le := h.headSeen_le
  tailSeen_le := h.tailSeen_le
  head_le := h.head_le
  tail_le := h.tail_le
  length := h.length
  unread := h.unread
  producer := h.producer
  consumer := hat
  popped := h.popped

/-- The store of `head`, with which a slot is popped. -/
theorem Inv.release (h : Inv s pushed popped) {slot : α}
    (hat : s.consumer = .releasing s.head.now slot) :
    Inv { s with head := s.head.store (s.head.now + 1), consumer := .idle } pushed
      (popped ++ [slot]) := by
  have hconsumer := h.consumer
  rw [hat] at hconsumer
  obtain ⟨⟨-, hlt⟩, hslot⟩ := hconsumer
  have hget := hslot rfl
  constructor
  case head_counter => exact h.head_counter.store
  case tail_counter => exact h.tail_counter
  case headSeen_le => exact Nat.le_succ_of_le h.headSeen_le
  case tailSeen_le => exact h.tailSeen_le
  case head_le => exact Nat.lt_of_lt_of_le hlt h.tailSeen_le
  case tail_le => exact h.tail_le
  case length => exact h.length
  case unread => exact fun i hi => h.unread i (Nat.le_of_succ_le hi)
  case producer => exact h.producer
  case consumer => trivial
  case popped =>
    rw [Register.now_store, List.take_add_one, hget]
    exact h.popped.append (List.Sublist.refl _)

theorem Inv.consumerStep (h : Inv s pushed popped) {lag : ℕ} (hs : Sound s (.consumer lag)) :
    let r := consumerStep s lag
    Inv r.1 (pushed ++ r.2.filterMap Event.accepted?) (popped ++ r.2.filterMap Event.popped?) := by
  have hconsumer := h.consumer
  obtain ⟨hrelease, hload⟩ := hs
  cases hat : s.consumer with
  | idle => simpa [Ring.consumerStep, hat] using h
  | loadedHead head =>
    rw [hat] at hconsumer
    have hle := hload head hat
    have hview := h.tail_counter.snd_load h.tailSeen_le lag
    simp only [Ring.consumerStep, hat, hview]
    split_ifs with hempty
    · simpa [List.filterMap_cons, Event.accepted?, Event.popped?] using h.loadTail lag .idle trivial
    · -- the residues differ, so the indices do
      have hne : head ≠ s.tail.view s.tailSeen lag := fun heq => hempty (heq ▸ rfl)
      have hlt := Nat.lt_of_le_of_ne hle hne
      simpa using h.loadTail lag (.reading head) ⟨hconsumer, hlt⟩
  | reading head =>
    rw [hat] at hconsumer
    have hslot : head = s.head.now → pushed[head]? = some (s.slots (cfg.capacity.slotOf head)) :=
      fun heq => h.unread head heq.ge (Nat.lt_of_lt_of_le hconsumer.2 h.tailSeen_le)
    have hnext : Inv { s with consumer := .releasing head (s.slots (cfg.capacity.slotOf head)) }
        pushed popped := h.setConsumer ⟨hconsumer, hslot⟩
    simpa [Ring.consumerStep, hat] using hnext
  | releasing head slot =>
    obtain rfl := hrelease head slot hat
    simpa [Ring.consumerStep, hat, List.filterMap_cons, Event.accepted?, Event.popped?]
      using h.release hat
  | pending head =>
    simpa [Ring.consumerStep, hat, List.filterMap_cons, Event.accepted?, Event.popped?] using
      h.loadTail lag .idle trivial

/-! ## The runs -/

theorem Inv.step (h : Inv s pushed popped) {act : Act α} (hs : Sound s act) :
    let r := step s act
    Inv r.1 (pushed ++ r.2.filterMap Event.accepted?) (popped ++ r.2.filterMap Event.popped?) := by
  cases act with
  | push push slot =>
    cases hat : s.producer with
    | idle =>
      have hnext : Inv { s with producer := .loadedTail push slot s.tail.now } pushed popped :=
        h.setProducer rfl
      simpa [Ring.step, hat] using hnext
    | _ => simpa [Ring.step, hat] using h
  | producerPending lag =>
    cases hat : s.producer with
    | idle =>
      have hview := h.head_counter.snd_load h.headSeen_le lag
      have hnext := h.loadHead lag (.pending (s.head.view s.headSeen lag)) rfl
      simpa [Ring.step, hat, hview] using hnext
    | _ => simpa [Ring.step, hat] using h
  | producer lag => exact h.producerStep hs
  | tryPop =>
    cases hat : s.consumer with
    | idle =>
      have hnext : Inv { s with consumer := .loadedHead s.head.now } pushed popped :=
        h.setConsumer (Nat.le_refl _)
      simpa [Ring.step, hat] using hnext
    | _ => simpa [Ring.step, hat] using h
  | consumerPending =>
    cases hat : s.consumer with
    | idle =>
      have hnext : Inv { s with consumer := .pending s.head.now } pushed popped :=
        h.setConsumer (Nat.le_refl _)
      simpa [Ring.step, hat] using hnext
    | _ => simpa [Ring.step, hat] using h
  | consumer lag => exact h.consumerStep hs

end Ring

end MarketMaker
