import Mathlib.Data.Nat.Bitwise
import Mathlib.Logic.Function.Basic
import MarketMaker.Lib.Mealy
import MarketMaker.Lib.Register

/-!
# The single-producer single-consumer rings

`SpscTelemetryRing` and `ShmRing`, one atomic access at a time. Each thread is a program counter
that holds the locals it has loaded; an action starts a call or lets one thread make its next
access, so that a list of actions is an interleaving. The loads of the other side's index take a
lag, which makes them stale (`Register`).

An index is kept unwrapped: its 64-bit cell holds the residue, and every test and every slot
address below is computed on the residue, as the code computes it.
-/

namespace MarketMaker

/-- The two rings, whose space checks are spelled differently. -/
inductive RingKind where
  | spscTelemetryRing
  | shmRing
deriving DecidableEq, Repr

/-- A capacity that `std::bit_ceil` can return. -/
structure Capacity where
  /-- `slots_.size()`, `header_->capacity`. -/
  size : UInt64
  isPow : ∃ k, size.toNat = 2 ^ k

namespace Capacity

variable (c : Capacity)

/-- `slots_.size() - 1`, `header_->capacity_mask`. -/
def mask : UInt64 := c.size - 1

theorem toNat_pos : 0 < c.size.toNat := by
  obtain ⟨k, hk⟩ := c.isPow
  rw [hk]
  exact Nat.two_pow_pos k

/-- Masking an index is reducing it. -/
theorem toNat_and_mask (index : ℕ) :
    (UInt64.ofNat index &&& c.mask).toNat = index % c.size.toNat := by
  have hpos := c.toNat_pos
  obtain ⟨k, hk⟩ := c.isPow
  have hmask : c.mask.toNat = 2 ^ k - 1 := by
    have hone : (1 : UInt64) ≤ c.size := UInt64.le_iff_toNat_le.mpr hpos
    rw [mask, UInt64.toNat_sub_of_le _ _ hone, hk]
    rfl
  have hdvd : 2 ^ k ∣ 2 ^ 64 := by
    refine Nat.pow_dvd_pow 2 (Nat.le_of_lt ?_)
    rw [← Nat.pow_lt_pow_iff_right Nat.one_lt_two, ← hk]
    exact c.size.toNat_lt
  rw [UInt64.toNat_and, hmask, Nat.and_two_pow_sub_one_eq_mod, hk, UInt64.toNat_ofNat',
    Nat.mod_mod_of_dvd _ hdvd]

/-- The slot of an index, `slots_[index & mask]`. -/
def slotOf (index : ℕ) : Fin c.size.toNat :=
  ⟨(UInt64.ofNat index &&& c.mask).toNat, by
    rw [toNat_and_mask]
    exact Nat.mod_lt _ c.toNat_pos⟩

theorem slotOf_eq_iff (i j : ℕ) :
    c.slotOf i = c.slotOf j ↔ i % c.size.toNat = j % c.size.toNat := by
  rw [slotOf, slotOf, Fin.mk.injEq, toNat_and_mask, toNat_and_mask]

/-- Two indices less than a lap apart have different slots. -/
theorem slotOf_ne {i j : ℕ} (hlt : i < j) (hlap : j < i + c.size.toNat) :
    c.slotOf j ≠ c.slotOf i := by
  rw [ne_eq, slotOf_eq_iff]
  intro hmod
  have hlap' : j - i < c.size.toNat := by omega
  have hzero : (j - i) % c.size.toNat = 0 := Nat.sub_mod_eq_zero_of_mod_eq hmod
  rw [Nat.mod_eq_of_lt hlap'] at hzero
  omega

end Capacity

namespace Ring

/-- The code that runs. -/
structure Config where
  kind : RingKind
  capacity : Capacity

/-- `tail - head` on the cells. -/
def distance (tail head : ℕ) : UInt64 := UInt64.ofNat tail - UInt64.ofNat head

/-- The space check: `tail - head == slots_.size()` or `tail - head >= header_->capacity`. -/
def Config.isFull (cfg : Config) (tail head : ℕ) : Bool :=
  match cfg.kind with
  | .spscTelemetryRing => distance tail head == cfg.capacity.size
  | .shmRing => decide (cfg.capacity.size ≤ distance tail head)

/-- The producer's two ways to push. -/
inductive Push where
  /-- `try_push(slot, count_drop)`; the telemetry ring always counts. -/
  | tryPush (countDrop : Bool)
  /-- `push_overwrite(slot)`. -/
  | pushOverwrite
deriving DecidableEq, Repr

/-- Where the producer is in its call, with what it has loaded. -/
inductive Producer (α : Type*) where
  | idle
  /-- `tail` is loaded; the load of `head` is next. -/
  | loadedTail (push : Push) (slot : α) (tail : ℕ)
  /-- `push_overwrite` found the ring full; the store of `head + 1` is next. -/
  | evicting (slot : α) (tail head : ℕ)
  /-- The load of `dropped` is next. -/
  | dropping (push : Push) (slot : α) (tail : ℕ)
  /-- The store of `dropped + 1` is next. -/
  | counting (push : Push) (slot : α) (tail dropped : ℕ)
  /-- There is room; the copy into the slot is next. -/
  | writing (slot : α) (tail : ℕ)
  /-- The slot is written; the store of `tail + 1` is next. -/
  | publishing (slot : α) (tail : ℕ)
  /-- `pending()` has loaded `head`; the load of `tail` is next. -/
  | pending (head : ℕ)
deriving Repr

/-- Where the consumer is in its call, with what it has loaded. -/
inductive Consumer (α : Type*) where
  | idle
  /-- `head` is loaded; the load of `tail` is next. -/
  | loadedHead (head : ℕ)
  /-- The ring is not empty; the copy out of the slot is next. -/
  | reading (head : ℕ)
  /-- The slot is read; the store of `head + 1` is next. -/
  | releasing (head : ℕ) (slot : α)
  /-- `pending()` has loaded `head`; the load of `tail` is next. -/
  | pending (head : ℕ)
deriving Repr

/-- The `head` that the producer holds for a store or a reading. -/
def Producer.head? {α : Type*} : Producer α → Option ℕ
  | .evicting _ _ head | .pending head => some head
  | _ => none

/-- The `head` that the consumer holds. -/
def Consumer.head? {α : Type*} : Consumer α → Option ℕ
  | .idle => none
  | .loadedHead head | .reading head | .releasing head _ | .pending head => some head

/-- The shared memory and the two threads. -/
structure State (cfg : Config) (α : Type*) where
  head : Register ℕ
  tail : Register ℕ
  dropped : ℕ
  slots : Fin cfg.capacity.size.toNat → α
  producer : Producer α
  /-- How much of the history of `head` the producer has seen. -/
  headSeen : ℕ
  consumer : Consumer α
  /-- How much of the history of `tail` the consumer has seen. -/
  tailSeen : ℕ

/-- A new ring over storage with any contents. -/
def State.init (cfg : Config) {α : Type*} (slots : Fin cfg.capacity.size.toNat → α) :
    State cfg α where
  head := .init 0
  tail := .init 0
  dropped := 0
  slots := slots
  producer := .idle
  headSeen := 0
  consumer := .idle
  tailSeen := 0

/-- What an interleaving is made of. A call makes its first access at once. -/
inductive Act (α : Type*) where
  | push (push : Push) (slot : α)
  /-- `pending()` on the producer's thread. -/
  | producerPending (lag : ℕ)
  /-- The producer's next access. -/
  | producer (lag : ℕ)
  | tryPop
  /-- `pending()` on the consumer's thread. -/
  | consumerPending
  /-- The consumer's next access. -/
  | consumer (lag : ℕ)
deriving Repr

/-- What a call returned. -/
inductive Event (α : Type*) where
  /-- A push that wrote its slot. -/
  | accepted (slot : α)
  /-- A `try_push` that returned `false`. -/
  | refused (countDrop : Bool) (slot : α)
  | popped (slot : α)
  /-- A `try_pop` that returned `false`. -/
  | empty
  | producerPending (count : UInt64)
  | consumerPending (count : UInt64)
deriving DecidableEq, Repr

variable {cfg : Config} {α : Type*}

/-- The test after the producer's load of `head`, and where the call goes from there. -/
def afterHead (cfg : Config) (push : Push) (slot : α) (tail head : ℕ) :
    Producer α × List (Event α) :=
  match cfg.isFull tail head, push with
  | false, _ => (.writing slot tail, [])
  | true, .pushOverwrite => (.evicting slot tail head, [])
  | true, .tryPush true => (.dropping push slot tail, [])
  | true, .tryPush false => (.idle, [.refused false slot])

/-- What follows the count of a drop: `try_push` returns, `push_overwrite` goes on to write. -/
def afterDrop (push : Push) (slot : α) (tail : ℕ) : Producer α × List (Event α) :=
  match push with
  | .tryPush countDrop => (.idle, [.refused countDrop slot])
  | .pushOverwrite => (.writing slot tail, [])

/-- The producer's next access. -/
def producerStep (s : State cfg α) (lag : ℕ) : State cfg α × List (Event α) :=
  match s.producer with
  | .idle => (s, [])
  | .loadedTail push slot tail =>
    let head := s.head.load s.headSeen lag
    let next := afterHead cfg push slot tail head.2
    ({ s with headSeen := head.1, producer := next.1 }, next.2)
  | .evicting slot tail head =>
    -- a thread has seen its own stores
    ({ s with
        head := s.head.store (head + 1)
        headSeen := s.head.held.length
        producer := .dropping .pushOverwrite slot tail }, [])
  | .dropping push slot tail =>
    ({ s with producer := .counting push slot tail s.dropped }, [])
  | .counting push slot tail dropped =>
    let next := afterDrop push slot tail
    ({ s with dropped := dropped + 1, producer := next.1 }, next.2)
  | .writing slot tail =>
    ({ s with
        slots := Function.update s.slots (cfg.capacity.slotOf tail) slot
        producer := .publishing slot tail }, [])
  | .publishing slot tail =>
    ({ s with tail := s.tail.store (tail + 1), producer := .idle }, [.accepted slot])
  | .pending head =>
    ({ s with producer := .idle }, [.producerPending (distance s.tail.now head)])

/-- The consumer's next access. -/
def consumerStep (s : State cfg α) (lag : ℕ) : State cfg α × List (Event α) :=
  match s.consumer with
  | .idle => (s, [])
  | .loadedHead head =>
    let tail := s.tail.load s.tailSeen lag
    if UInt64.ofNat tail.2 = UInt64.ofNat head then
      ({ s with tailSeen := tail.1, consumer := .idle }, [.empty])
    else ({ s with tailSeen := tail.1, consumer := .reading head }, [])
  | .reading head =>
    ({ s with consumer := .releasing head (s.slots (cfg.capacity.slotOf head)) }, [])
  | .releasing head slot =>
    ({ s with head := s.head.store (head + 1), consumer := .idle }, [.popped slot])
  | .pending head =>
    let tail := s.tail.load s.tailSeen lag
    ({ s with tailSeen := tail.1, consumer := .idle }, [.consumerPending (distance tail.2 head)])

/-- One action. A thread inside a call starts no other. -/
def step (s : State cfg α) : Act α → State cfg α × List (Event α)
  | .push push slot =>
    match s.producer with
    | .idle => ({ s with producer := .loadedTail push slot s.tail.now }, [])
    | _ => (s, [])
  | .producerPending lag =>
    match s.producer with
    | .idle =>
      let head := s.head.load s.headSeen lag
      ({ s with headSeen := head.1, producer := .pending head.2 }, [])
    | _ => (s, [])
  | .producer lag => producerStep s lag
  | .tryPop =>
    match s.consumer with
    | .idle => ({ s with consumer := .loadedHead s.head.now }, [])
    | _ => (s, [])
  | .consumerPending =>
    match s.consumer with
    | .idle => ({ s with consumer := .pending s.head.now }, [])
    | _ => (s, [])
  | .consumer lag => consumerStep s lag

/-- An interleaving on a new ring. -/
abbrev run (cfg : Config) {α : Type*} (slots : Fin cfg.capacity.size.toNat → α)
    (acts : List (Act α)) : State cfg α × List (Act α × List (Event α)) :=
  Mealy.run step (State.init cfg slots) acts

end Ring

end MarketMaker
