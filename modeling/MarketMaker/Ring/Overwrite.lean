import MarketMaker.Ring.Invariant

/-!
# The market-data mode

`push_overwrite` stores to `head` when the ring is full, so that `head` has two writers, and each
of them stores one more than a value it loaded some accesses ago. A store made after the other
thread has moved `head` undoes or repeats that move. The mode is lossy in the intended way, and
accounts for every push, exactly in the runs without such a store.
-/

namespace MarketMaker

namespace Ring

variable {cfg : Config} {α : Type*} {s : State cfg α}

/-- An action of a producer that calls `push_overwrite` and a consumer that calls `try_pop`, with
every load sequentially consistent. -/
def Act.OnMarketData : Act α → Prop
  | .push p _ => p = .pushOverwrite
  | .producer lag | .consumer lag => lag = 0
  | .tryPop => True
  | .producerPending _ | .consumerPending => False

instance (act : Act α) : Decidable act.OnMarketData :=
  match act with
  | .push p _ => inferInstanceAs (Decidable (p = .pushOverwrite))
  | .producer lag | .consumer lag => inferInstanceAs (Decidable (lag = 0))
  | .tryPop => .isTrue trivial
  | .producerPending _ | .consumerPending => .isFalse id

/-- The value from which the producer is about to store to `head`. -/
def Producer.evicts? : Producer α → Option ℕ
  | .evicting _ _ head => some head
  | _ => none

/-- The value from which the consumer is about to store to `head`. -/
def Consumer.releases? : Consumer α → Option ℕ
  | .releasing head _ => some head
  | _ => none

/-- A store to `head` is made only while `head` still holds the value it is computed from. -/
def Uncontended (s : State cfg α) : Act α → Prop
  | .producer _ => ∀ head ∈ s.producer.evicts?, s.head.now = head
  | .consumer _ => ∀ head ∈ s.consumer.releases?, s.head.now = head
  | _ => True

instance (s : State cfg α) (act : Act α) : Decidable (Uncontended s act) :=
  match act with
  | .producer _ => inferInstanceAs (Decidable (∀ head ∈ s.producer.evicts?, s.head.now = head))
  | .consumer _ => inferInstanceAs (Decidable (∀ head ∈ s.consumer.releases?, s.head.now = head))
  | .push _ _ | .tryPop | .producerPending _ | .consumerPending => .isTrue trivial

/-- What the lossy mode promises of a state and the history before it. -/
structure IsLossy (s : State cfg α) (h : List (Act α × List (Event α))) : Prop where
  /-- The pops are a subsequence of the pushes: no slot twice, none out of order. -/
  popped : (poppedIn h).Sublist (accepted h)
  /-- `head` has never decreased. -/
  head_mono : s.head.held.Pairwise (· ≤ ·)
  head_le : s.head.now ≤ s.tail.now
  tail_le : s.tail.now ≤ s.head.now + cfg.capacity.size.toNat
  /-- With both threads idle, every push is popped, dropped or still in the ring. -/
  balance : s.producer = .idle → s.consumer = .idle →
    (accepted h).length = (poppedIn h).length + s.dropped + (s.tail.now - s.head.now)

/-! ## What holds in every run -/

/-- What the producer's locals say of `tail` and `dropped`. -/
def OverwriteAt (producer : Producer α) (now dropped : ℕ) : Prop :=
  match producer with
  | .idle => True
  | .loadedTail push _ tail | .dropping push _ tail => push = .pushOverwrite ∧ tail = now
  | .counting push _ tail d => push = .pushOverwrite ∧ tail = now ∧ d = dropped
  | .evicting _ tail head => tail = now ∧ head < tail
  | .writing _ tail | .publishing _ tail => tail = now
  | .pending _ => False

/-- What the consumer's locals say of `tail`. -/
def PopAt (consumer : Consumer α) (now : ℕ) : Prop :=
  match consumer with
  | .idle => True
  | .loadedHead head => head ≤ now
  | .reading head | .releasing head _ => head < now
  | .pending _ => False

/-- The invariant of the mode, whatever the interleaving. -/
structure OverwriteInv (s : State cfg α) (h : List (Act α × List (Event α))) : Prop where
  length : (accepted h).length = s.tail.now
  head_le : s.head.now ≤ s.tail.now
  producer : OverwriteAt s.producer s.tail.now s.dropped
  consumer : PopAt s.consumer s.tail.now

theorem overwriteInv_init (slots : Fin cfg.capacity.size.toNat → α) :
    OverwriteInv (State.init cfg slots) [] where
  length := rfl
  head_le := Nat.le_refl 0
  producer := trivial
  consumer := trivial

theorem PopAt.succ {consumer : Consumer α} {now : ℕ} (h : PopAt consumer now) :
    PopAt consumer (now + 1) := by
  cases consumer with
  | idle => trivial
  | loadedHead head => exact Nat.le_succ_of_le h
  | reading head => exact Nat.lt_succ_of_lt h
  | releasing head slot => exact Nat.lt_succ_of_lt h
  | pending head => exact h

/-- A ring found full is not empty. -/
theorem lt_of_isFull {tail head : ℕ} (hle : head ≤ tail) (hfull : cfg.isFull tail head = true) :
    head < tail := by
  refine Nat.lt_of_le_of_ne hle ?_
  rintro rfl
  have hzero : distance head head = 0 := UInt64.sub_self _
  have hpos := cfg.capacity.toNat_pos
  rw [Config.isFull, hzero] at hfull
  cases hkind : cfg.kind with
  | spscTelemetryRing =>
    rw [hkind] at hfull
    rw [← beq_iff_eq.mp hfull] at hpos
    exact Nat.lt_irrefl 0 hpos
  | shmRing =>
    rw [hkind] at hfull
    have hle := UInt64.le_iff_toNat_le.mp (of_decide_eq_true hfull)
    exact Nat.lt_irrefl 0 (Nat.lt_of_lt_of_le hpos hle)

section Step

variable {h : List (Act α × List (Event α))}

theorem OverwriteInv.step (hi : OverwriteInv s h) {act : Act α} (hact : act.OnMarketData) :
    OverwriteInv (step s act).1 (h ++ [(act, (step s act).2)]) := by
  obtain ⟨hlength, hle, hproducer, hconsumer⟩ := hi
  have hsame : OverwriteInv s (h ++ [(act, [])]) :=
    ⟨by simpa using hlength, hle, hproducer, hconsumer⟩
  cases act with
  | push p slot =>
    cases hat : s.producer with
    | idle =>
      simp only [Ring.step, hat]
      exact ⟨by simpa using hlength, hle, ⟨hact, rfl⟩, hconsumer⟩
    | _ => simpa only [Ring.step, hat] using hsame
  | producer lag =>
    obtain rfl : lag = 0 := hact
    cases hat : s.producer with
    | idle => simpa only [Ring.step, producerStep, hat] using hsame
    | loadedTail push slot tail =>
      rw [hat] at hproducer
      obtain ⟨rfl, rfl⟩ := hproducer
      -- with lag 0 the load sees the newest store, so the test is made on the true distance
      simp only [Ring.step, producerStep, hat, Register.snd_load_zero]
      cases hfull : cfg.isFull s.tail.now s.head.now with
      | false =>
        simp only [afterHead, hfull]
        exact ⟨by simpa using hlength, hle, rfl, hconsumer⟩
      | true =>
        simp only [afterHead, hfull]
        exact ⟨by simpa using hlength, hle, ⟨rfl, lt_of_isFull hle hfull⟩, hconsumer⟩
    | evicting slot tail head =>
      rw [hat] at hproducer
      obtain ⟨rfl, hlt⟩ := hproducer
      simp only [Ring.step, producerStep, hat]
      exact ⟨by simpa using hlength, hlt, ⟨rfl, rfl⟩, hconsumer⟩
    | dropping push slot tail =>
      rw [hat] at hproducer
      simp only [Ring.step, producerStep, hat]
      exact ⟨by simpa using hlength, hle, ⟨hproducer.1, hproducer.2, rfl⟩, hconsumer⟩
    | counting push slot tail dropped =>
      rw [hat] at hproducer
      obtain ⟨rfl, rfl, -⟩ := hproducer
      simp only [Ring.step, producerStep, hat, afterDrop]
      exact ⟨by simpa using hlength, hle, rfl, hconsumer⟩
    | writing slot tail =>
      rw [hat] at hproducer
      simp only [Ring.step, producerStep, hat]
      exact ⟨by simpa using hlength, hle, hproducer, hconsumer⟩
    | publishing slot tail =>
      rw [hat] at hproducer
      obtain rfl : tail = s.tail.now := hproducer
      simp only [Ring.step, producerStep, hat]
      -- the slot is accepted at this store, and both sides of the balance grow by one
      refine ⟨?_, Nat.le_succ_of_le hle, trivial, hconsumer.succ⟩
      simpa [Event.accepted?] using hlength
    | pending head =>
      rw [hat] at hproducer
      exact hproducer.elim
  | tryPop =>
    cases hat : s.consumer with
    | idle =>
      simp only [Ring.step, hat]
      exact ⟨by simpa using hlength, hle, hproducer, hle⟩
    | _ => simpa only [Ring.step, hat] using hsame
  | consumer lag =>
    obtain rfl : lag = 0 := hact
    cases hat : s.consumer with
    | idle => simpa only [Ring.step, consumerStep, hat] using hsame
    | loadedHead head =>
      rw [hat] at hconsumer
      simp only [Ring.step, consumerStep, hat, Register.snd_load_zero]
      split_ifs with hempty
      · exact ⟨by simpa [List.filterMap_cons, Event.accepted?] using hlength, hle, hproducer,
          trivial⟩
      -- the ring was not empty, so the consumer has a slot to read
      · have hne : head ≠ s.tail.now := fun heq => hempty (heq ▸ rfl)
        exact ⟨by simpa using hlength, hle, hproducer, Nat.lt_of_le_of_ne hconsumer hne⟩
    | reading head =>
      rw [hat] at hconsumer
      simp only [Ring.step, consumerStep, hat]
      exact ⟨by simpa using hlength, hle, hproducer, hconsumer⟩
    | releasing head slot =>
      rw [hat] at hconsumer
      simp only [Ring.step, consumerStep, hat]
      exact ⟨by simpa [List.filterMap_cons, Event.accepted?] using hlength, hconsumer, hproducer,
        trivial⟩
    | pending head =>
      rw [hat] at hconsumer
      exact hconsumer.elim
  | producerPending lag => exact hact.elim
  | consumerPending => exact hact.elim

end Step

/-! ## The stores to `head` -/

/-- An eviction whose drop is not yet counted. -/
def Producer.evicted : Producer α → ℕ
  | .dropping _ _ _ | .counting _ _ _ _ => 1
  | _ => 0

/-- The stores made to `head`, by pops and by evictions. -/
def headStores (s : State cfg α) (h : List (Act α × List (Event α))) : ℕ :=
  (poppedIn h).length + s.dropped + s.producer.evicted

/-- While `head` has never decreased it lags behind the stores made to it, by nothing exactly when
no store was contended. -/
structure Balanced (s : State cfg α) (h : List (Act α × List (Event α))) (uncontended : Prop) :
    Prop where
  producer : ∀ head, s.producer.head? = some head → head ≤ s.head.now
  consumer : ∀ head, s.consumer.head? = some head → head ≤ s.head.now
  le : s.head.now ≤ headStores s h
  eq_iff : s.head.now = headStores s h ↔ uncontended

section Balance

variable {h : List (Act α × List (Event α))} {uncontended : Prop}

/-- A step that stores nothing to `head`. -/
theorem Balanced.quiet (hb : Balanced s h uncontended) {s' : State cfg α} {act : Act α}
    {out : List (Event α)} (hact : Uncontended s act) (hhead : s'.head = s.head)
    (hstores : headStores s' (h ++ [(act, out)]) = headStores s h)
    (hproducer : ∀ head, s'.producer.head? = some head → head ≤ s.head.now)
    (hconsumer : ∀ head, s'.consumer.head? = some head → head ≤ s.head.now) :
    Balanced s' (h ++ [(act, out)]) (uncontended ∧ Uncontended s act) := by
  constructor
  case producer => rwa [hhead]
  case consumer => rwa [hhead]
  case le =>
    rw [hhead, hstores]
    exact hb.le
  case eq_iff =>
    rw [hhead, hstores, hb.eq_iff]
    exact (and_iff_left hact).symm

/-- A store of one more than a value that `head` holds or held. -/
theorem Balanced.store (hb : Balanced s h uncontended) {s' : State cfg α} {act : Act α}
    {out : List (Event α)} {head : ℕ} (hact : Uncontended s act ↔ s.head.now = head)
    (hheld : head ≤ s.head.now) (hmono : s.head.now ≤ head + 1)
    (hhead : s'.head.now = head + 1)
    (hstores : headStores s' (h ++ [(act, out)]) = headStores s h + 1)
    (hproducer : ∀ head, s'.producer.head? = some head → head ≤ s.head.now)
    (hconsumer : ∀ head, s'.consumer.head? = some head → head ≤ s.head.now) :
    Balanced s' (h ++ [(act, out)]) (uncontended ∧ Uncontended s act) := by
  have hle := hb.le
  constructor
  case producer => exact fun x hx => hhead ▸ Nat.le_trans (hproducer x hx) hmono
  case consumer => exact fun x hx => hhead ▸ Nat.le_trans (hconsumer x hx) hmono
  case le =>
    rw [hhead, hstores]
    omega
  case eq_iff =>
    rw [hhead, hstores, hact, ← hb.eq_iff]
    omega

/-- The last two values in the history of a register that never decreased. -/
theorem now_le_of_pairwise {r : Register ℕ} {a : ℕ}
    (h : (r.store a).held.Pairwise (· ≤ ·)) : r.now ≤ a := by
  rw [Register.held_store, List.pairwise_append] at h
  exact h.2.2 r.now (by simp [Register.held]) a (List.mem_singleton.mpr rfl)

theorem Balanced.step (hi : OverwriteInv s h)
    (hb : s.head.held.Pairwise (· ≤ ·) → Balanced s h uncontended) {act : Act α}
    (hact : act.OnMarketData) (hmono : (step s act).1.head.held.Pairwise (· ≤ ·)) :
    Balanced (step s act).1 (h ++ [(act, (step s act).2)]) (uncontended ∧ Uncontended s act) := by
  have hproducer := hi.producer
  have hconsumer := hi.consumer
  -- an action of a busy or idle thread that changes nothing
  have hsame : Ring.step s act = (s, []) → Uncontended s act →
      Balanced (Ring.step s act).1 (h ++ [(act, (Ring.step s act).2)])
        (uncontended ∧ Uncontended s act) := by
    intro hstep hun
    rw [hstep] at hmono ⊢
    have hb := hb hmono
    exact hb.quiet hun rfl (by simp [headStores]) hb.producer hb.consumer
  cases act with
  | push p slot =>
    cases hat : s.producer with
    | idle =>
      simp only [Ring.step, hat] at hmono ⊢
      have hb := hb hmono
      exact hb.quiet trivial rfl (by simp [headStores, hat, Producer.evicted])
        (fun _ hx => by contradiction) hb.consumer
    | _ => exact hsame (by simp only [Ring.step, hat]) trivial
  | producer lag =>
    obtain rfl : lag = 0 := hact
    cases hat : s.producer with
    | idle =>
      exact hsame (by simp only [Ring.step, producerStep, hat])
        (by simp [Uncontended, hat, Producer.evicts?])
    | loadedTail push slot tail =>
      rw [hat] at hproducer
      obtain ⟨rfl, rfl⟩ := hproducer
      simp only [Ring.step, producerStep, hat, Register.snd_load_zero] at hmono ⊢
      have hb := hb hmono
      refine hb.quiet (by simp [Uncontended, hat, Producer.evicts?]) rfl ?_ ?_ hb.consumer
      · cases hfull : cfg.isFull s.tail.now s.head.now <;>
          simp [headStores, afterHead, hfull, hat, Producer.evicted]
      · cases hfull : cfg.isFull s.tail.now s.head.now with
        | false => simp [afterHead, hfull, Producer.head?]
        | true => simp [afterHead, hfull, Producer.head?]
    | evicting slot tail head =>
      have hle := now_le_of_pairwise (r := s.head) (a := head + 1) (by
        simpa only [Ring.step, producerStep, hat] using hmono)
      simp only [Ring.step, producerStep, hat] at hmono ⊢
      have hb := hb (List.pairwise_append.mp hmono).1
      refine hb.store ?_ (hb.producer head (by rw [hat]; rfl)) hle rfl ?_
        (fun _ hx => by contradiction)
        hb.consumer
      · simp [Uncontended, hat, Producer.evicts?]
      · simp [headStores, hat, Producer.evicted]
    | dropping push slot tail =>
      simp only [Ring.step, producerStep, hat] at hmono ⊢
      have hb := hb hmono
      exact hb.quiet (by simp [Uncontended, hat, Producer.evicts?]) rfl
        (by simp [headStores, hat, Producer.evicted]) (fun _ hx => by contradiction) hb.consumer
    | counting push slot tail dropped =>
      rw [hat] at hproducer
      obtain ⟨rfl, rfl, rfl⟩ := hproducer
      simp only [Ring.step, producerStep, hat, afterDrop] at hmono ⊢
      have hb := hb hmono
      refine hb.quiet (by simp [Uncontended, hat, Producer.evicts?]) rfl ?_
        (fun _ hx => by contradiction) hb.consumer
      simp [headStores, hat, Producer.evicted, Nat.add_assoc]
    | writing slot tail =>
      simp only [Ring.step, producerStep, hat] at hmono ⊢
      have hb := hb hmono
      exact hb.quiet (by simp [Uncontended, hat, Producer.evicts?]) rfl
        (by simp [headStores, hat, Producer.evicted]) (fun _ hx => by contradiction) hb.consumer
    | publishing slot tail =>
      simp only [Ring.step, producerStep, hat] at hmono ⊢
      have hb := hb hmono
      exact hb.quiet (by simp [Uncontended, hat, Producer.evicts?]) rfl
        (by simp [headStores, hat, Producer.evicted, List.filterMap_cons, Event.popped?])
        (fun _ hx => by contradiction) hb.consumer
    | pending head =>
      rw [hat] at hproducer
      exact hproducer.elim
  | tryPop =>
    cases hat : s.consumer with
    | idle =>
      simp only [Ring.step, hat] at hmono ⊢
      have hb := hb hmono
      exact hb.quiet trivial rfl (by simp [headStores]) hb.producer
        (fun x hx => (Option.some.inj hx).symm.le)
    | _ => exact hsame (by simp only [Ring.step, hat]) trivial
  | consumer lag =>
    obtain rfl : lag = 0 := hact
    cases hat : s.consumer with
    | idle =>
      exact hsame (by simp only [Ring.step, consumerStep, hat])
        (by simp [Uncontended, hat, Consumer.releases?])
    | loadedHead head =>
      have hun : Uncontended s (.consumer 0) := by simp [Uncontended, hat, Consumer.releases?]
      simp only [Ring.step, consumerStep, hat, Register.snd_load_zero] at hmono ⊢
      split_ifs at hmono ⊢ with hempty
      · have hb := hb hmono
        exact hb.quiet hun rfl (by simp [headStores, List.filterMap_cons, Event.popped?])
          hb.producer (fun _ hx => by contradiction)
      · have hb := hb hmono
        refine hb.quiet hun rfl (by simp [headStores]) hb.producer fun x hx => ?_
        exact hb.consumer x (by rw [hat]; exact hx)
    | reading head =>
      simp only [Ring.step, consumerStep, hat] at hmono ⊢
      have hb := hb hmono
      refine hb.quiet (by simp [Uncontended, hat, Consumer.releases?]) rfl
        (by simp [headStores]) hb.producer
        fun x hx => ?_
      exact hb.consumer x (by rw [hat]; exact hx)
    | releasing head slot =>
      have hle := now_le_of_pairwise (r := s.head) (a := head + 1) (by
        simpa only [Ring.step, consumerStep, hat] using hmono)
      simp only [Ring.step, consumerStep, hat] at hmono ⊢
      have hb := hb (List.pairwise_append.mp hmono).1
      refine hb.store ?_ (hb.consumer head (by rw [hat]; rfl)) hle rfl ?_ hb.producer
        (fun _ hx => by contradiction)
      · simp [Uncontended, hat, Consumer.releases?]
      · simp only [headStores, poppedIn_concat, List.filterMap_cons, Event.popped?,
          List.filterMap_nil, List.length_append, List.length_singleton]
        omega
    | pending head =>
      rw [hat] at hconsumer
      exact hconsumer.elim
  | producerPending lag => exact hact.elim
  | consumerPending => exact hact.elim

end Balance

/-! ## The runs -/

theorem overwriteInv_run (slots : Fin cfg.capacity.size.toNat → α) {acts : List (Act α)}
    (hacts : ∀ act ∈ acts, act.OnMarketData) :
    OverwriteInv (run cfg slots acts).1 (run cfg slots acts).2 :=
  Mealy.run_induct_along step (P := OverwriteInv) (overwriteInv_init slots)
    (fun _ _ _ hact hi => hi.step hact) (Mealy.along_of_forall step hacts _)

theorem balanced_run (slots : Fin cfg.capacity.size.toNat → α) {acts : List (Act α)}
    (hacts : ∀ act ∈ acts, act.OnMarketData)
    (hmono : (run cfg slots acts).1.head.held.Pairwise (· ≤ ·)) :
    Balanced (run cfg slots acts).1 (run cfg slots acts).2
      (Mealy.Along step Uncontended (State.init cfg slots) acts) := by
  induction acts using List.reverseRecOn with
  | nil =>
    refine ⟨fun _ hx => (by contradiction), fun _ hx => (by contradiction), Nat.le_refl 0, ?_⟩
    exact iff_of_true rfl trivial
  | append_singleton acts act ih =>
    have hbefore : ∀ a ∈ acts, a.OnMarketData := fun a ha =>
      hacts a (List.mem_append_left _ ha)
    have hact : act.OnMarketData := hacts act (by simp)
    rw [run, Mealy.run_concat] at hmono ⊢
    rw [Mealy.along_concat]
    exact Balanced.step (overwriteInv_run slots hbefore) (ih hbefore) hact hmono

/-- An uncontended step of this mode is sound. -/
theorem Uncontended.sound {pushed popped : List α} (hinv : Inv s pushed popped) {act : Act α}
    (hact : act.OnMarketData) (h : Uncontended s act) : Sound s act := by
  cases act with
  | producer lag => exact fun slot tail head hat => h head (by rw [hat]; rfl)
  | consumer lag =>
    obtain rfl : lag = 0 := hact
    refine ⟨fun head slot hat => h head (by rw [hat]; rfl), fun head hat => ?_⟩
    have hconsumer := hinv.consumer
    rw [hat] at hconsumer
    have hlatest : s.tail.now ≤ s.tail.view s.tailSeen 0 := by
      rw [Register.view, hinv.tail_counter, List.length_range]
      exact le_max_right _ _
    exact Nat.le_trans hconsumer (Nat.le_trans hinv.head_le hlatest)
  | _ => trivial

theorem inv_run_of_uncontended (slots : Fin cfg.capacity.size.toNat → α) {acts : List (Act α)}
    (hacts : ∀ act ∈ acts, act.OnMarketData)
    (hun : Mealy.Along step Uncontended (State.init cfg slots) acts) :
    Inv (run cfg slots acts).1 (accepted (run cfg slots acts).2)
      (poppedIn (run cfg slots acts).2) := by
  induction acts using List.reverseRecOn with
  | nil => exact inv_init slots
  | append_singleton acts act ih =>
    have hbefore : ∀ a ∈ acts, a.OnMarketData := fun a ha =>
      hacts a (List.mem_append_left _ ha)
    have hact : act.OnMarketData := hacts act (by simp)
    obtain ⟨hun, hlast⟩ := (Mealy.along_concat step _ _ acts act).mp hun
    have hinv := ih hbefore hun
    rw [run, Mealy.run_concat, accepted_concat, poppedIn_concat]
    exact hinv.step (hlast.sound hinv hact)

/-- The balance of a state whose threads are idle. -/
theorem headStores_of_idle {h : List (Act α × List (Event α))} (hidle : s.producer = .idle) :
    headStores s h = (poppedIn h).length + s.dropped := by
  rw [headStores, hidle]
  rfl

/-- While no store to `head` is contended the lossy mode keeps its promises in every state it
goes through, and a run that kept them until both threads are idle had no such store. -/
theorem run_isLossy_iff (cfg : Config) {α : Type*} (slots : Fin cfg.capacity.size.toNat → α)
    (acts : List (Act α)) (hacts : ∀ act ∈ acts, act.OnMarketData) :
    (Mealy.Along step Uncontended (State.init cfg slots) acts →
      ∀ before, before <+: acts →
        IsLossy (run cfg slots before).1 (run cfg slots before).2) ∧
    ((run cfg slots acts).1.producer = .idle → (run cfg slots acts).1.consumer = .idle →
      IsLossy (run cfg slots acts).1 (run cfg slots acts).2 →
      Mealy.Along step Uncontended (State.init cfg slots) acts) := by
  constructor
  · rintro hun before ⟨later, rfl⟩
    have hbefore : ∀ act ∈ before, act.OnMarketData := fun act hact =>
      hacts act (List.mem_append_left _ hact)
    have hun := ((Mealy.along_append step _ _ before later).mp hun).1
    have hinv := inv_run_of_uncontended slots hbefore hun
    have hmono := hinv.head_counter.pairwise
    have hstores := (balanced_run slots hbefore hmono).eq_iff.mpr hun
    constructor
    case popped => exact hinv.popped.trans (List.take_sublist _ _)
    case head_mono => exact hmono
    case head_le => exact hinv.head_le
    case tail_le => exact hinv.room
    case balance =>
      intro hproducer _
      rw [headStores_of_idle hproducer] at hstores
      have hle := hinv.head_le
      have hlength := hinv.length
      omega
  · intro hproducer _ hlossy
    have hinv := overwriteInv_run slots hacts
    have hbalanced := balanced_run slots hacts hlossy.head_mono
    apply hbalanced.eq_iff.mp
    have hbalance := hlossy.balance hproducer ‹_›
    have hle := hbalanced.le
    rw [headStores_of_idle hproducer] at hle ⊢
    have hhead := hinv.head_le
    have hlength := hinv.length
    omega

/-- Two pushes, a pop and an overwrite that finds the ring full, one after the other. -/
theorem run_isLossy_pair :
    let cfg : Config := { kind := .shmRing, capacity := { size := 1, isPow := ⟨0, rfl⟩ } }
    let push : ℕ → List (Act ℕ) := fun slot =>
      [.push .pushOverwrite slot] ++ List.replicate 6 (.producer 0)
    let acts : List (Act ℕ) :=
      push 7 ++ push 8 ++ [.tryPop, .consumer 0, .consumer 0, .consumer 0]
    let r := run cfg (fun _ => 0) acts
    IsLossy r.1 r.2 ∧ poppedIn r.2 = [8] ∧ accepted r.2 = [7, 8] ∧ r.1.dropped = 1 :=
  ⟨(run_isLossy_iff _ _ _ (by decide)).1 (by decide) _ (List.prefix_refl _),
    by decide, by decide, by decide⟩

/-- The producer finds the ring of two full and holds `head = 0`; the consumer pops both slots;
the producer stores `head = 1`, and the consumer pops the second slot again. -/
theorem pushOverwrite_pops_twice :
    let cfg : Config := { kind := .shmRing, capacity := { size := 2, isPow := ⟨1, rfl⟩ } }
    let push : ℕ → List (Act ℕ) := fun slot =>
      [.push .pushOverwrite slot, .producer 0, .producer 0, .producer 0]
    let pop : List (Act ℕ) := [.tryPop, .consumer 0, .consumer 0, .consumer 0]
    let acts : List (Act ℕ) :=
      push 0 ++ push 1 ++ [.push .pushOverwrite 2, .producer 0] ++ pop ++ pop ++
        List.replicate 5 (.producer 0) ++ pop
    let r := run cfg (fun _ => 0) acts
    (∀ act ∈ acts, act.OnMarketData) ∧ accepted r.2 = [0, 1, 2] ∧ poppedIn r.2 = [0, 1, 1] ∧
      r.1.head.held = [0, 1, 2, 1, 2] ∧ ¬ IsLossy r.1 r.2 := by
  refine ⟨by decide, by decide, by decide, by decide, fun hlossy => ?_⟩
  exact absurd hlossy.popped (by decide)

end Ring

end MarketMaker
