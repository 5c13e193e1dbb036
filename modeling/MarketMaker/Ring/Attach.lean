import Mathlib.Data.Nat.Bitwise
import Mathlib.Data.Nat.Log
import Mathlib.Data.Nat.ModEq
import MarketMaker.Lib.Access
import MarketMaker.Lib.Mealy
import MarketMaker.Ring.Memory

/-!
# Attaching to a segment

`ShmRing::attach` and the constructors of `ShmRingReader` and `ShmRingWriter` on a segment that
another process has written: what each of them checks, and which slots the calls on the ring that
it returns access. The calls are written over `Access`, whose only ways to a slot note its offset,
and are the calls of `Ring.Memory` without the notes (`tryPop_eq` and the like). Between two calls
the other process may leave anything in `head` and `tail`. -/

namespace MarketMaker

open Packed

/-! ## What is written and what is checked -/

/-- `ShmRingHeader::kMagic`. -/
def ShmRingHeader.kMagic : UInt32 := 0x53484D52

/-- The four plain fields of the header are written. -/
def ShmRing.writeHeader (mem : Bytes) (capacity capacityMask : UInt32) : Bytes :=
  let mem := putU32 mem ShmRingHeader.magic ShmRingHeader.kMagic
  let mem := putU32 mem ShmRingHeader.capacity capacity
  let mem := putU32 mem ShmRingHeader.capacityMask capacityMask
  putU32 mem ShmRingHeader.slotSize (.ofNat shmSlotSize)

/-- `ShmRing::create`, as far as it is about the contents of the segment. -/
def ShmRing.create (minCapacity : ℕ) : Except String Bytes :=
  if minCapacity = 0 then .error "ShmRing: capacity must be > 0"
  else if 1048576 < minCapacity then .error "ShmRing: capacity exceeds maximum 1048576"
  else
    -- `std::bit_ceil`
    let capacity := 2 ^ Nat.clog 2 minCapacity
    let totalSize := ShmRingHeader.size + capacity * shmSlotSize
    .ok (writeHeader (List.replicate totalSize 0) (.ofNat capacity) (.ofNat capacity - 1))

/-- `ShmRing::attach` on a segment of any size, which it maps whole. -/
def ShmRing.attach (posixName : String) (mem : Bytes) : Except String Unit :=
  if mem.length < ShmRingHeader.size then
    .error ("ShmRing: invalid shm segment size for " ++ posixName)
  else if u32At mem ShmRingHeader.magic ≠ ShmRingHeader.kMagic ∨
      u32At mem ShmRingHeader.capacity = 0 ∨
      (u32At mem ShmRingHeader.slotSize).toNat ≠ shmSlotSize then
    .error ("ShmRing: corrupted header in shm segment " ++ posixName)
  else .ok ()

namespace Client

def headerMagic : ℕ := 0x53484D52

/-- `_U32.unpack_from(self._buf, offset)[0]`. -/
def unpackU32From (offset : ℕ) : Py ℕ := do
  let buf ← get
  if offset + 4 ≤ buf.length then return leNat (slice buf offset 4) else throw .structError

/-- `mmap.mmap` over a file; `none` is its `ValueError` for an empty mapping or one that is longer
than the file. -/
def map (file : Bytes) (totalSize : Option ℕ) : Option Bytes :=
  -- `total_size or os.fstat(self._fd).st_size`
  let size := match totalSize with
    | none | some 0 => file.length
    | some size => size
  if size = 0 ∨ file.length < size then none else some (file.take size)

/-- `ShmRingReader.__init__` and `ShmRingWriter.__init__` on the mapped buffer. -/
def openEnd : Py ShmRingEnd := do
  let magic ← unpackU32From offMagic
  if magic ≠ headerMagic then throw .valueError
  let capacity ← unpackU32From offCapacity
  let capacityMask ← unpackU32From offMask
  let _slotSize ← unpackU32From offSlotSize
  return { capacity, capacityMask }

end Client

/-! ## Calls that note their slots -/

namespace ShmRing

/-- A method of the mapped ring, which raises nothing, with the offsets of the slots it accesses. -/
abbrev Mapped (α : Type) := Access Bytes ℕ Empty α

namespace Mapped

/-- Read from the header. -/
def load {α : Type} (field : Bytes → α) : Mapped α := .silent fun mem => (.ok (field mem), mem)

/-- Write to the header. -/
def store (update : Bytes → Bytes) : Mapped Unit := .silent fun mem => (.ok (), update mem)

/-- `slots_[...]` at an offset is read. -/
def loadSlot (offset : ℕ) : Mapped Bytes :=
  .touching offset fun mem => (.ok (slice mem offset shmSlotSize), mem)

/-- `slots_[...]` at an offset is assigned. -/
def storeSlot (offset : ℕ) (slot : ShmSlot) : Mapped Unit :=
  .touching offset fun mem => (.ok (), splice mem offset slot.toList)

/-- `ShmRing::try_push`. -/
def tryPush (slot : ShmSlot) (countDrop : Bool) : Mapped Bool := do
  let tail ← load (u64At · ShmRingHeader.tail)
  let head ← load (u64At · ShmRingHeader.head)
  let capacity ← load (u32At · ShmRingHeader.capacity)
  if capacity.toUInt64 ≤ tail - head then
    if countDrop then
      let dropped ← load (u64At · ShmRingHeader.dropped)
      store (putU64 · ShmRingHeader.dropped (dropped + 1))
      return false
    else return false
  else
    let offset ← load (slotAt · tail)
    storeSlot offset slot
    store (putU64 · ShmRingHeader.tail (tail + 1))
    return true

/-- `ShmRing::push_overwrite`. -/
def pushOverwrite (slot : ShmSlot) : Mapped Unit := do
  let tail ← load (u64At · ShmRingHeader.tail)
  let head ← load (u64At · ShmRingHeader.head)
  let capacity ← load (u32At · ShmRingHeader.capacity)
  if capacity.toUInt64 ≤ tail - head then
    store (putU64 · ShmRingHeader.head (head + 1))
    let dropped ← load (u64At · ShmRingHeader.dropped)
    store (putU64 · ShmRingHeader.dropped (dropped + 1))
  let offset ← load (slotAt · tail)
  storeSlot offset slot
  store (putU64 · ShmRingHeader.tail (tail + 1))

/-- `ShmRing::try_pop`; `none` is `false`. -/
def tryPop : Mapped (Option Bytes) := do
  let head ← load (u64At · ShmRingHeader.head)
  let tail ← load (u64At · ShmRingHeader.tail)
  if tail = head then return none
  else
    let offset ← load (slotAt · head)
    let slot ← loadSlot offset
    store (putU64 · ShmRingHeader.head (head + 1))
    return some slot

end Mapped

end ShmRing

namespace Client

/-- A call on the mapped buffer, with the offsets of the slots it accesses. -/
abbrev Mapped (α : Type) := Access Bytes ℕ PyError α

namespace Mapped

/-- A step on the header. -/
def header {α : Type} (x : Py α) : Mapped α := .silent fun buf => x.run.run buf

/-- `self._buf[offset : offset + SLOT_SIZE]`. -/
def sliceSlot (offset : ℕ) : Mapped Bytes :=
  .touching offset fun buf => (.ok (slice buf offset slotSize), buf)

/-- `self._buf[offset : offset + SLOT_SIZE] = slot_bytes`. -/
def assignSlot (offset : ℕ) (slotBytes : Bytes) : Mapped Unit :=
  .touching offset fun buf => (assignSlice offset slotBytes).run.run buf

/-- `ShmRingWriter.try_push_raw`. -/
def tryPushRaw (self : ShmRingEnd) (slotBytes : Bytes) (countDrop : Bool) : Mapped Bool :=
  if slotBytes.length ≠ slotSize then .raise .valueError
  else do
    let head ← header (unpackU64From offHead)
    let tail ← header (unpackU64From offTail)
    if (self.capacity : ℤ) ≤ (tail : ℤ) - head then
      if countDrop then do
        let dropped ← header (unpackU64From offDropped)
        header (packU64Into offDropped (dropped + 1))
        return false
      else return false
    else do
      assignSlot (headerSize + (tail &&& self.capacityMask) * slotSize) slotBytes
      header (packU64Into offTail (tail + 1))
      return true

/-- `ShmRingReader.try_pop_raw`. -/
def tryPopRaw (self : ShmRingEnd) : Mapped (Option Bytes) := do
  let head ← header (unpackU64From offHead)
  let tail ← header (unpackU64From offTail)
  if head = tail then return none
  else
    let slot ← sliceSlot (headerSize + (head &&& self.capacityMask) * slotSize)
    header (packU64Into offHead (head + 1))
    return some slot

end Mapped

end Client

/-! ## Runs on an attached ring -/

/-- A ring that was attached to. -/
inductive Attached where
  | shmRing
  | reader (self : Client.ShmRingEnd)
  | writer (self : Client.ShmRingEnd)
deriving DecidableEq

/-- The calls of all three. -/
inductive AttachedCall where
  | tryPush (slot : ShmSlot) (countDrop : Bool)
  | pushOverwrite (slot : ShmSlot)
  | tryPop
  | tryPushRaw (slotBytes : Bytes) (countDrop : Bool)
  | tryPopRaw
deriving DecidableEq

/-- What a call finds in the two counters. -/
structure Found where
  head : UInt64
  tail : UInt64
deriving DecidableEq

/-- The segment as the other process has left it. -/
def Found.put (found : Found) (mem : Bytes) : Bytes :=
  putU64 (putU64 mem ShmRingHeader.head found.head) ShmRingHeader.tail found.tail

/-- The head can be moved on: on a ring that is not empty it is not the last 64-bit value. -/
def Found.CanAdvance (found : Found) : Prop :=
  found.head ≠ found.tail → found.head.toNat + 1 < 2 ^ 64

/-- What there is to see of a call. -/
inductive Touch where
  /-- A slot is read or written. -/
  | slot (offset : ℕ)
  /-- A Python pop of a ring that is not empty ends. -/
  | popped (result : Except Client.PyError (Option Bytes))

/-- The slot lies inside the mapping, or the pop returns the bytes of a slot. -/
def Touch.IsWhole (size : ℕ) : Touch → Prop
  | .slot offset => offset + shmSlotSize ≤ size
  | .popped result => ∃ slot, result = .ok (some slot) ∧ slot.length = shmSlotSize

namespace Attached

/-- The memory after a call and the slots that it accessed. -/
def accessed {ε α : Type} (r : Except ε α × Bytes × List ℕ) : Bytes × List Touch :=
  (r.2.1, r.2.2.map .slot)

/-- The end of a pop, if it found the ring not empty. -/
def popped (found : Found) (result : Except Client.PyError (Option Bytes)) : List Touch :=
  if found.head = found.tail then [] else [.popped result]

/-- One call. A ring has no other methods than its own. -/
def step (ring : Attached) (mem : Bytes) (input : Found × AttachedCall) : Bytes × List Touch :=
  let mem := input.1.put mem
  match ring, input.2 with
  | .shmRing, .tryPush slot countDrop => accessed ((ShmRing.Mapped.tryPush slot countDrop).run mem)
  | .shmRing, .pushOverwrite slot => accessed ((ShmRing.Mapped.pushOverwrite slot).run mem)
  | .shmRing, .tryPop => accessed (ShmRing.Mapped.tryPop.run mem)
  | .reader self, .tryPopRaw =>
    let r := (Client.Mapped.tryPopRaw self).run mem
    (r.2.1, (accessed r).2 ++ popped input.1 r.1)
  | .writer self, .tryPushRaw slotBytes countDrop =>
    accessed ((Client.Mapped.tryPushRaw self slotBytes countDrop).run mem)
  | _, _ => (mem, [])

/-- The capacity that the calls compare with. -/
def capacity (mem : Bytes) : Attached → ℕ
  | .shmRing => (u32At mem ShmRingHeader.capacity).toNat
  | .reader self | .writer self => self.capacity

/-- The offset of the slot of an index. -/
def slotAt (mem : Bytes) (index : ℕ) : Attached → ℕ
  | .shmRing => ShmRing.slotAt mem (.ofNat index)
  | .reader self | .writer self =>
    Client.headerSize + (index &&& self.capacityMask) * Client.slotSize

/-- What validation at attach is for, in a run of calls. -/
structure IsSafe (ring : Attached) (mem : Bytes) (inputs : List (Found × AttachedCall)) : Prop where
  /-- The slots that are accessed lie inside the mapping, and the pops of a ring that is not empty
  return a slot. -/
  inBounds : ∀ touch ∈ (Mealy.run ring.step mem inputs).2.flatMap Prod.snd,
    touch.IsWhole mem.length
  /-- The indices that the ring can hold at a time have slots of their own. -/
  distinct : ∀ head tail i j, tail < 2 ^ 64 → tail - head ≤ ring.capacity mem →
    head ≤ i → i < j → j < tail → ring.slotAt mem i ≠ ring.slotAt mem j

/-- Every pop finds a head that can be moved on. -/
def Advances (inputs : List (Found × AttachedCall)) : Prop :=
  ∀ input ∈ inputs, input.2 = .tryPopRaw → input.1.CanAdvance

end Attached

/-- The relation of the four values that the checks leave open. -/
structure IsConsistent (mem : Bytes) : Prop where
  size : ShmRingHeader.size +
    ((u32At mem ShmRingHeader.capacityMask).toNat + 1) * shmSlotSize ≤ mem.length
  mask : ∀ bit < 32, 2 ^ bit < (u32At mem ShmRingHeader.capacity).toNat →
    (u32At mem ShmRingHeader.capacityMask).toNat.testBit bit = true

/-! ## Masks -/

/-- The bits below `n` of a mask are set, so that masking tells residues modulo `2 ^ n` apart. -/
theorem mod_two_pow_eq_of_and_eq {mask n i j : ℕ} (hmask : ∀ bit < n, mask.testBit bit = true)
    (h : i &&& mask = j &&& mask) : i % 2 ^ n = j % 2 ^ n := by
  apply Nat.eq_of_testBit_eq
  intro bit
  rw [Nat.testBit_mod_two_pow, Nat.testBit_mod_two_pow]
  by_cases hbit : bit < n
  · have hand : (i &&& mask).testBit bit = (j &&& mask).testBit bit := by rw [h]
    rw [Nat.testBit_and, Nat.testBit_and, hmask bit hbit, Bool.and_true, Bool.and_true] at hand
    rw [hand]
  · rw [decide_eq_false hbit, Bool.false_and, Bool.false_and]

/-- A mask keeps the indices of every window of a size apart exactly if it has all the bits that
a distance below that size may need. -/
theorem masked_ne_iff {capacity mask : ℕ} (hcapacity : capacity < 2 ^ 32) :
    (∀ head tail i j, tail < 2 ^ 64 → tail - head ≤ capacity → head ≤ i → i < j → j < tail →
      i &&& mask ≠ j &&& mask) ↔
    ∀ bit < 32, 2 ^ bit < capacity → mask.testBit bit = true := by
  constructor
  · intro h bit hbit hlt
    by_contra hunset
    have hcollide := h 0 capacity 0 (2 ^ bit) (by omega) (by omega) le_rfl (Nat.two_pow_pos bit) hlt
    rw [Nat.zero_and, Nat.two_pow_and, Bool.eq_false_of_not_eq_true hunset] at hcollide
    exact hcollide (Nat.mul_zero _).symm
  · intro h head tail i j _ hwindow hhead hij htail heq
    have hbits : ∀ bit < Nat.clog 2 capacity, mask.testBit bit = true := by
      intro bit hbit
      have hlt : 2 ^ bit < capacity := by
        by_contra hle
        exact absurd (Nat.clog_le_of_le_pow (Nat.le_of_not_lt hle)) (Nat.not_le_of_lt hbit)
      have hexp : 2 ^ bit < 2 ^ 32 := hlt.trans hcapacity
      exact h bit ((Nat.pow_lt_pow_iff_right Nat.one_lt_two).mp hexp) hlt
    have hmod := mod_two_pow_eq_of_and_eq hbits heq
    -- equal residues are at least a window apart
    have hdvd : 2 ^ Nat.clog 2 capacity ∣ j - i :=
      (Nat.modEq_iff_dvd' hij.le).mp hmod
    have hfar := Nat.le_of_dvd (Nat.sub_pos_of_lt hij) hdvd
    have hpow := Nat.le_pow_clog Nat.one_lt_two capacity
    omega

/-! ## The calls without their notes -/

namespace ShmRing

variable (mem : Bytes)

/-- The calls compare the same values to tell whether the ring is full. -/
def isFull : Bool :=
  (u32At mem ShmRingHeader.capacity).toUInt64 ≤
    u64At mem ShmRingHeader.tail - u64At mem ShmRingHeader.head

/-- What `push_overwrite` does to a full ring first: the oldest slot is given up. -/
def madeRoom : Bytes :=
  if isFull mem then
    let mem' := putU64 mem ShmRingHeader.head (u64At mem ShmRingHeader.head + 1)
    putU64 mem' ShmRingHeader.dropped (u64At mem' ShmRingHeader.dropped + 1)
  else mem

/-- A field that is read is the one in memory. -/
theorem Mapped.run_load_bind {α β : Type} {mem : Bytes} {field : Bytes → α} {f : α → Mapped β} :
    (load field >>= f).run mem = (f (field mem)).run mem := Access.run_silent_bind rfl

/-- `try_push` accesses the slot of the tail, unless the ring is full. -/
theorem Mapped.tryPush_eq (slot : ShmSlot) (countDrop : Bool) :
    (Mapped.tryPush slot countDrop).run mem =
      (.ok (ShmRing.tryPush mem slot countDrop).2, (ShmRing.tryPush mem slot countDrop).1,
        if isFull mem then [] else [slotAt mem (u64At mem ShmRingHeader.tail)]) := by
  rw [Mapped.tryPush, run_load_bind, run_load_bind, run_load_bind, ShmRing.tryPush, isFull]
  by_cases hfull : (u32At mem ShmRingHeader.capacity).toUInt64 ≤
      u64At mem ShmRingHeader.tail - u64At mem ShmRingHeader.head
  · simp only [if_pos hfull, decide_eq_true hfull]
    cases countDrop <;> rfl
  · simp only [if_neg hfull, decide_eq_false hfull]
    rfl

/-- `try_pop` accesses the slot of the head, unless the ring is empty. -/
theorem Mapped.tryPop_eq :
    Mapped.tryPop.run mem = (.ok (ShmRing.tryPop mem).2, (ShmRing.tryPop mem).1,
      if u64At mem ShmRingHeader.tail = u64At mem ShmRingHeader.head then []
      else [slotAt mem (u64At mem ShmRingHeader.head)]) := by
  rw [Mapped.tryPop, run_load_bind, run_load_bind, ShmRing.tryPop]
  by_cases hempty : u64At mem ShmRingHeader.tail = u64At mem ShmRingHeader.head
  · simp only [if_pos hempty]
    rfl
  · simp only [if_neg hempty]
    rfl

/-- `push_overwrite` accesses the slot of the tail. -/
theorem Mapped.pushOverwrite_eq (slot : ShmSlot) :
    (Mapped.pushOverwrite slot).run mem =
      (.ok (),
        putU64 (splice (madeRoom mem) (slotAt (madeRoom mem) (u64At mem ShmRingHeader.tail))
          slot.toList) ShmRingHeader.tail (u64At mem ShmRingHeader.tail + 1),
        [slotAt (madeRoom mem) (u64At mem ShmRingHeader.tail)]) := by
  rw [Mapped.pushOverwrite, run_load_bind, run_load_bind, run_load_bind, madeRoom, isFull]
  by_cases hfull : (u32At mem ShmRingHeader.capacity).toUInt64 ≤
      u64At mem ShmRingHeader.tail - u64At mem ShmRingHeader.head
  · simp only [if_pos hfull, decide_eq_true hfull]
    rfl
  · simp only [if_neg hfull, decide_eq_false hfull]
    rfl

end ShmRing

/-! ## The Python calls on any buffer -/

namespace Client

/-- A call that leaves the buffer as long as it was, whether it returns or raises. -/
def KeepsLength {α : Type} (x : Py α) : Prop :=
  ∀ buf : Bytes, (x.run.run buf).2.length = buf.length

/-- A computation without effects. -/
theorem keepsLength_pure {α : Type} (a : α) : KeepsLength (pure a) := fun _ => rfl

/-- An exception keeps the buffer as it is. -/
theorem keepsLength_throw {α : Type} (e : PyError) : KeepsLength (throw e : Py α) := fun _ => rfl

/-- Reading the buffer. -/
theorem keepsLength_get : KeepsLength (get : Py Bytes) := fun _ => rfl

/-- One computation after another. -/
theorem KeepsLength.bind {β γ : Type} {x : Py β} {f : β → Py γ} (hx : KeepsLength x)
    (hf : ∀ b, KeepsLength (f b)) : KeepsLength (x >>= f) := by
  intro buf
  have hlength := hx buf
  rw [ExceptT.run_bind, StateT.run_bind]
  cases hrun : x.run.run buf with
  | mk result buf' =>
    rw [hrun] at hlength
    cases result with
    | ok b => exact (hf b buf').trans hlength
    | error e => exact hlength

/-- `unpack_from` writes nothing. -/
theorem keepsLength_unpackU64From (offset : ℕ) : KeepsLength (unpackU64From offset) := by
  refine keepsLength_get.bind fun buf => ?_
  split
  · exact keepsLength_pure _
  · exact keepsLength_throw _

/-- A write inside the buffer, or an exception. -/
theorem keepsLength_splice (p : Bytes → Prop) [DecidablePred p] {offset : ℕ} {bs : Bytes}
    (hp : ∀ buf, p buf → offset + bs.length ≤ buf.length) (e : PyError) :
    KeepsLength (do
      let buf ← get
      if p buf then set (splice buf offset bs) else throw e : Py Unit) := by
  intro buf
  rw [run_bind (run_get buf)]
  split_ifs with h
  · exact length_splice (hp buf h)
  · rfl

/-- `pack_into` writes eight bytes in place, also when it raises. -/
theorem keepsLength_packU64Into (offset value : ℕ) : KeepsLength (packU64Into offset value) := by
  intro buf
  by_cases hbound : offset + 8 ≤ buf.length
  · have hzeroed : (splice buf offset (List.replicate 8 0)).length = buf.length :=
      length_splice (by rwa [List.length_replicate])
    have hpacked : (splice buf offset (leBytes 8 value)).length = buf.length :=
      length_splice (by rwa [length_leBytes])
    rw [run_packU64Into value hbound]
    split_ifs
    · exact hpacked
    · exact hzeroed
  · rw [packU64Into, run_bind (run_get buf), if_pos (Nat.lt_of_not_le hbound)]
    rfl

/-- An assignment to a slice of a `memoryview` keeps its length. -/
theorem keepsLength_assignSlice (offset : ℕ) (bs : Bytes) : KeepsLength (assignSlice offset bs) :=
  keepsLength_splice _ (fun _ h => h) .indexError

/-- A pop keeps the size of the mapping. -/
theorem keepsLength_tryPopRaw (self : ShmRingEnd) : KeepsLength (tryPopRaw self) := by
  refine (keepsLength_unpackU64From _).bind fun head => ?_
  refine (keepsLength_unpackU64From _).bind fun tail => ?_
  split
  · exact keepsLength_pure _
  · refine keepsLength_get.bind fun buf => ?_
    exact (keepsLength_packU64Into _ _).bind fun _ => keepsLength_pure _

/-- So does a push. -/
theorem keepsLength_tryPushRaw (self : ShmRingEnd) (slotBytes : Bytes) (countDrop : Bool) :
    KeepsLength (tryPushRaw self slotBytes countDrop) := by
  unfold tryPushRaw
  split
  · exact keepsLength_throw _
  refine (keepsLength_unpackU64From _).bind fun head => ?_
  refine (keepsLength_unpackU64From _).bind fun tail => ?_
  split
  · split
    · refine (keepsLength_unpackU64From _).bind fun dropped => ?_
      exact (keepsLength_packU64Into _ _).bind fun _ => keepsLength_pure _
    · exact keepsLength_pure _
  · refine (keepsLength_assignSlice _ _).bind fun _ => ?_
    exact (keepsLength_packU64Into _ _).bind fun _ => keepsLength_pure _

/-- A part that raises ends the call. -/
theorem run_bind_error {β γ : Type} {x : Py β} {f : β → Py γ} {buf buf' : Bytes} {e : PyError}
    (h : x.run.run buf = (.error e, buf')) : (x >>= f).run.run buf = (.error e, buf') := by
  rw [ExceptT.run_bind, StateT.run_bind, h]
  rfl

/-- A pop of a ring that is not empty returns its slot, unless it cannot write the head back. -/
theorem run_tryPopRaw (self : ShmRingEnd) {buf : Bytes} (hbuf : 136 ≤ buf.length)
    (hne : leNat (slice buf offHead 8) ≠ leNat (slice buf offTail 8)) :
    ((tryPopRaw self).run.run buf).1 =
      if leNat (slice buf offHead 8) + 1 < 2 ^ 64 then
        .ok (some (slice buf
          (headerSize + (leNat (slice buf offHead 8) &&& self.capacityMask) * slotSize) slotSize))
      else .error .structError := by
  have hhead : offHead + 8 ≤ buf.length := le_trans (by decide) hbuf
  have htail : offTail + 8 ≤ buf.length := le_trans (by decide) hbuf
  rw [tryPopRaw, run_bind (run_unpackU64From hhead), run_bind (run_unpackU64From htail), if_neg hne,
    run_bind (run_get buf)]
  have hpack := run_packU64Into (leNat (slice buf offHead 8) + 1) hhead
  split_ifs at hpack ⊢
  · rw [run_bind hpack]
    rfl
  · rw [run_bind_error hpack]

/-! ### The calls that note their slots -/

/-- A call with notes is the same call without them. -/
def Mapped.Erases {α : Type} (x : Mapped α) (y : Py α) : Prop := ∀ buf, x.erase buf = y.run.run buf

/-- An access to the header, without its note. -/
theorem Mapped.erases_header {α : Type} (x : Py α) : (header x).Erases x := fun _ => rfl

/-- Notes are erased one access after another. -/
theorem Mapped.Erases.bind {α β : Type} {x : Mapped α} {y : Py α} {f : α → Mapped β} {g : α → Py β}
    (hx : x.Erases y) (hf : ∀ a, (f a).Erases (g a)) : Mapped.Erases (x >>= f) (y >>= g) := by
  intro buf
  rw [Access.erase_bind, hx buf]
  rcases h : y.run.run buf with ⟨result, buf'⟩
  cases result with
  | ok a =>
    rw [run_bind h]
    exact hf a buf'
  | error e => rw [run_bind_error h]

/-- `try_push_raw` with its notes is `try_push_raw`. -/
theorem Mapped.erases_tryPushRaw (self : ShmRingEnd) (slotBytes : Bytes) (countDrop : Bool) :
    (tryPushRaw self slotBytes countDrop).Erases (Client.tryPushRaw self slotBytes countDrop) := by
  unfold tryPushRaw Client.tryPushRaw
  split
  · exact fun _ => rfl
  refine (erases_header _).bind fun head => (erases_header _).bind fun tail => ?_
  split
  · split
    · exact (erases_header _).bind fun dropped => (erases_header _).bind fun _ => fun _ => rfl
    · exact fun _ => rfl
  · exact Erases.bind (fun _ => rfl) fun _ => (erases_header _).bind fun _ => fun _ => rfl

/-- `try_pop_raw` with its notes is `try_pop_raw`. -/
theorem Mapped.erases_tryPopRaw (self : ShmRingEnd) :
    (tryPopRaw self).Erases (Client.tryPopRaw self) := by
  unfold tryPopRaw Client.tryPopRaw
  refine (erases_header _).bind fun head => (erases_header _).bind fun tail => ?_
  split_ifs
  · exact fun _ => rfl
  · -- the slice is taken of the buffer as it is
    intro buf
    have hrest : Erases
        (do header (packU64Into offHead (head + 1)); return some (slice buf
          (headerSize + (head &&& self.capacityMask) * slotSize) slotSize))
        (do packU64Into offHead (head + 1); return some (slice buf
          (headerSize + (head &&& self.capacityMask) * slotSize) slotSize)) :=
      (erases_header _).bind fun _ => fun _ => rfl
    rw [Access.erase_bind, run_bind (run_get buf)]
    exact hrest buf

/-- Any slot that `try_push_raw` accesses is the slot of an index. -/
theorem Mapped.within_tryPushRaw (self : ShmRingEnd) (slotBytes : Bytes) (countDrop : Bool) :
    (tryPushRaw self slotBytes countDrop).Within
      fun offset => ∃ index, offset = headerSize + (index &&& self.capacityMask) * slotSize := by
  unfold tryPushRaw
  split
  · exact Access.within_raise _
  refine (Access.within_silent _).bind fun head => (Access.within_silent _).bind fun tail => ?_
  split
  · split
    · refine (Access.within_silent _).bind fun dropped => (Access.within_silent _).bind fun _ => ?_
      exact Access.within_pure _
    · exact Access.within_pure _
  · refine (Access.within_touching ⟨tail, rfl⟩ _).bind fun _ => ?_
    exact (Access.within_silent _).bind fun _ => Access.within_pure _

/-- Any slot that `try_pop_raw` accesses is the slot of an index. -/
theorem Mapped.within_tryPopRaw (self : ShmRingEnd) :
    (tryPopRaw self).Within
      fun offset => ∃ index, offset = headerSize + (index &&& self.capacityMask) * slotSize := by
  unfold tryPopRaw
  refine (Access.within_silent _).bind fun head => (Access.within_silent _).bind fun tail => ?_
  split_ifs
  · exact Access.within_pure _
  · refine (Access.within_touching ⟨head, rfl⟩ _).bind fun _ => ?_
    exact (Access.within_silent _).bind fun _ => Access.within_pure _

/-- A pop of a ring that is not empty accesses the slot of the head. -/
theorem Mapped.mem_tryPopRaw (self : ShmRingEnd) {buf : Bytes} (hbuf : 136 ≤ buf.length)
    (hne : leNat (slice buf offHead 8) ≠ leNat (slice buf offTail 8)) :
    headerSize + (leNat (slice buf offHead 8) &&& self.capacityMask) * slotSize ∈
      ((tryPopRaw self).run buf).2.2 := by
  have hhead : offHead + 8 ≤ buf.length := le_trans (by decide) hbuf
  have htail : offTail + 8 ≤ buf.length := le_trans (by decide) hbuf
  rw [tryPopRaw, header, Access.run_silent_bind (run_unpackU64From hhead), header,
    Access.run_silent_bind (run_unpackU64From htail), if_neg hne, Access.run_bind_of_ok rfl]
  exact List.mem_append_left _ (List.mem_singleton_self _)

/-- A push of a slot on a ring that is not full accesses the slot of the tail. -/
theorem Mapped.mem_tryPushRaw {self : ShmRingEnd} {buf slotBytes : Bytes} (hbuf : 136 ≤ buf.length)
    (hslot : slotBytes.length = slotSize)
    (hroom : (leNat (slice buf offTail 8) : ℤ) - leNat (slice buf offHead 8) < self.capacity)
    (countDrop : Bool) :
    headerSize + (leNat (slice buf offTail 8) &&& self.capacityMask) * slotSize ∈
      ((tryPushRaw self slotBytes countDrop).run buf).2.2 := by
  have hhead : offHead + 8 ≤ buf.length := le_trans (by decide) hbuf
  have htail : offTail + 8 ≤ buf.length := le_trans (by decide) hbuf
  rw [tryPushRaw, if_neg (not_not_intro hslot), header,
    Access.run_silent_bind (run_unpackU64From hhead), header,
    Access.run_silent_bind (run_unpackU64From htail), if_neg (not_le.mpr hroom)]
  rcases hassign : (assignSlice (headerSize +
    (leNat (slice buf offTail 8) &&& self.capacityMask) * slotSize) slotBytes).run.run buf with
    ⟨result, buf'⟩
  have hrun : (assignSlot (headerSize +
      (leNat (slice buf offTail 8) &&& self.capacityMask) * slotSize) slotBytes).run buf =
      (result, buf', [headerSize +
        (leNat (slice buf offTail 8) &&& self.capacityMask) * slotSize]) := by
    simp only [assignSlot, Access.touching, hassign]
  cases result with
  | ok _ =>
    rw [Access.run_bind_of_ok hrun]
    exact List.mem_append_left _ (List.mem_singleton_self _)
  | error e =>
    rw [Access.run_bind_of_error hrun]
    exact List.mem_singleton_self _

/-- A 32-bit field is read whole, or `struct.error` is raised. -/
theorem run_unpackU32From (buf : Bytes) (offset : ℕ) :
    (unpackU32From offset).run.run buf =
      (if offset + 4 ≤ buf.length then .ok (leNat (slice buf offset 4)) else .error .structError,
        buf) := by
  rw [unpackU32From, run_bind (run_get buf)]
  split_ifs <;> rfl

/-- A computation that starts with a reading of the header and returned has made the reading. -/
theorem ok_of_unpackU32From {γ : Type} {offset : ℕ} {f : ℕ → Py γ} {buf : Bytes} {c : γ}
    (h : ((unpackU32From offset >>= f).run.run buf).1 = .ok c) :
    offset + 4 ≤ buf.length ∧ ((f (leNat (slice buf offset 4))).run.run buf).1 = .ok c := by
  have hrun := run_unpackU32From buf offset
  split_ifs at hrun with hbound
  · rw [run_bind hrun] at h
    exact ⟨hbound, h⟩
  · rw [ExceptT.run_bind, StateT.run_bind, hrun] at h
    cases h

/-- The constructors take any header with the magic number. -/
theorem openEnd_ok {buf : Bytes} {self : ShmRingEnd} (h : (openEnd.run.run buf).1 = .ok self) :
    self = .ofBuf buf ∧ 152 ≤ buf.length := by
  obtain ⟨-, h⟩ := ok_of_unpackU32From h
  split_ifs at h with hmagic
  · cases h
  obtain ⟨-, h⟩ := ok_of_unpackU32From h
  obtain ⟨-, h⟩ := ok_of_unpackU32From h
  obtain ⟨hbound, h⟩ := ok_of_unpackU32From h
  exact ⟨(Except.ok.inj h).symm, hbound⟩

end Client

/-! ## Slots of a consistent segment -/

section Slots

variable {mem : Bytes}

/-- Where the C++ side finds a slot, as a sum of integers. -/
theorem slotAt_shmRing (mem : Bytes) {index : ℕ} (hindex : index < 2 ^ 64) :
    Attached.shmRing.slotAt mem index =
      ShmRingHeader.size +
        (index &&& (u32At mem ShmRingHeader.capacityMask).toNat) * shmSlotSize := by
  rw [Attached.slotAt, ShmRing.slotAt, UInt64.toNat_and, UInt32.toNat_toUInt64,
    UInt64.toNat_ofNat_of_lt' hindex]

/-- Where the Python side finds a slot, with the mask that it read. -/
theorem slotAt_ofBuf (mem : Bytes) (index : ℕ) :
    Client.headerSize + (index &&& (Client.ShmRingEnd.ofBuf mem).capacityMask) * Client.slotSize =
      ShmRingHeader.size +
        (index &&& (u32At mem ShmRingHeader.capacityMask).toNat) * shmSlotSize := by
  have hmask : (Client.ShmRingEnd.ofBuf mem).capacityMask =
      (u32At mem ShmRingHeader.capacityMask).toNat := (toNat_u32At mem _).symm
  rw [hmask]
  rfl

/-- Whatever the index, its slot lies inside the segment. -/
theorem IsConsistent.slot_le (h : IsConsistent mem) (index : ℕ) :
    ShmRingHeader.size + (index &&& (u32At mem ShmRingHeader.capacityMask).toNat) * shmSlotSize +
      shmSlotSize ≤ mem.length := by
  have hand : index &&& (u32At mem ShmRingHeader.capacityMask).toNat ≤
      (u32At mem ShmRingHeader.capacityMask).toNat := Nat.and_le_right
  have hsize := h.size
  have hslot : shmSlotSize = 64 := rfl
  rw [hslot] at hsize ⊢
  omega

/-- Two slots are distinct if their masked indices are. -/
theorem slot_ne_iff (i j mask : ℕ) :
    ShmRingHeader.size + (i &&& mask) * shmSlotSize ≠
        ShmRingHeader.size + (j &&& mask) * shmSlotSize ↔ i &&& mask ≠ j &&& mask := by
  have hslot : shmSlotSize = 64 := rfl
  rw [hslot]
  omega

/-- The slots of the ring are kept apart by the mask. -/
theorem distinct_iff {ring : Attached}
    (hcapacity : ring.capacity mem = (u32At mem ShmRingHeader.capacity).toNat)
    (hslot : ∀ index < 2 ^ 64, ring.slotAt mem index =
      ShmRingHeader.size +
        (index &&& (u32At mem ShmRingHeader.capacityMask).toNat) * shmSlotSize) :
    (∀ head tail i j, tail < 2 ^ 64 → tail - head ≤ ring.capacity mem →
      head ≤ i → i < j → j < tail → ring.slotAt mem i ≠ ring.slotAt mem j) ↔
    ∀ bit < 32, 2 ^ bit < (u32At mem ShmRingHeader.capacity).toNat →
      (u32At mem ShmRingHeader.capacityMask).toNat.testBit bit = true := by
  rw [← masked_ne_iff (u32At mem ShmRingHeader.capacity).toNat_lt, hcapacity]
  refine forall₄_congr fun head tail i j => ?_
  refine forall₅_congr fun htail _ _ hij hj => ?_
  rw [hslot i (by omega), hslot j (by omega), slot_ne_iff]

end Slots

/-! ## Safe and consistent -/

section Safe

variable {mem : Bytes}

/-- Putting the indices in place leaves the rest of the header and the size. -/
theorem Found.put_frame (found : Found) (hheader : 136 ≤ mem.length) :
    SameShape mem (found.put mem) ∧ u64At (found.put mem) ShmRingHeader.head = found.head ∧
      u64At (found.put mem) ShmRingHeader.tail = found.tail := by
  obtain ⟨hshape, hhead, -⟩ :=
    putU64_frame hheader (by decide : ShmRingHeader.head + 8 ≤ 136) found.head
  obtain ⟨hshape', htail, hother⟩ := putU64_frame (hshape.length ▸ hheader)
    (by decide : ShmRingHeader.tail + 8 ≤ 136) found.tail
  exact ⟨hshape.trans hshape', (hother _ (by decide)).trans hhead, htail⟩

/-- A run touches whole slots only, if every step from what it may come to does. -/
theorem inBounds_of_step {ring : Attached} {P : Bytes → Prop} {C : Found × AttachedCall → Prop}
    (init : P mem)
    (keep : ∀ mem', P mem' → ∀ input, C input → P (ring.step mem' input).1 ∧
      ∀ touch ∈ (ring.step mem' input).2, touch.IsWhole mem.length)
    {inputs : List (Found × AttachedCall)} (hinputs : ∀ input ∈ inputs, C input) :
    ∀ touch ∈ (Mealy.run ring.step mem inputs).2.flatMap Prod.snd, touch.IsWhole mem.length := by
  refine (Mealy.run_induct_along ring.step (C := fun _ input => C input) (P := fun mem' h =>
    P mem' ∧ ∀ touch ∈ h.flatMap Prod.snd, touch.IsWhole mem.length) ⟨init, by simp⟩ ?_
    (Mealy.along_of_forall ring.step hinputs mem)).2
  rintro mem' h input hinput ⟨hmem, hall⟩
  obtain ⟨hnext, hwhole⟩ := keep mem' hmem input hinput
  refine ⟨hnext, fun touch htouch => ?_⟩
  rw [List.flatMap_append, List.mem_append] at htouch
  obtain htouch | htouch := htouch
  · exact hall touch htouch
  · rw [List.flatMap_singleton] at htouch
    exact hwhole touch htouch

/-- What a call of a run shows is seen in the run. -/
theorem Attached.IsSafe.step {ring : Attached} (before : List (Found × AttachedCall))
    {input : Found × AttachedCall} {after : List (Found × AttachedCall)}
    (h : ring.IsSafe mem (before ++ input :: after)) :
    ∀ touch ∈ (ring.step (Mealy.run ring.step mem before).1 input).2, touch.IsWhole mem.length := by
  intro touch htouch
  apply h.inBounds
  rw [Mealy.run_append, List.flatMap_append, List.mem_append]
  exact .inr (List.mem_flatMap.mpr ⟨_, List.mem_cons_self, htouch⟩)

namespace Attached

variable (mem : Bytes) (found : Found) (self : Client.ShmRingEnd)

/-- A push of the C++ side, with the slot it accessed. -/
theorem step_tryPush (slot : ShmSlot) (countDrop : Bool) :
    shmRing.step mem (found, .tryPush slot countDrop) =
      accessed ((ShmRing.Mapped.tryPush slot countDrop).run (found.put mem)) := rfl

/-- The same for `push_overwrite`. -/
theorem step_pushOverwrite (slot : ShmSlot) :
    shmRing.step mem (found, .pushOverwrite slot) =
      accessed ((ShmRing.Mapped.pushOverwrite slot).run (found.put mem)) := rfl

/-- The same for a pop. -/
theorem step_tryPop :
    shmRing.step mem (found, .tryPop) = accessed (ShmRing.Mapped.tryPop.run (found.put mem)) := rfl

/-- A pop of the Python side, with the slot it accessed and what it returned. -/
theorem step_tryPopRaw :
    (reader self).step mem (found, .tryPopRaw) =
      (((Client.Mapped.tryPopRaw self).run (found.put mem)).2.1,
        (accessed ((Client.Mapped.tryPopRaw self).run (found.put mem))).2 ++
          popped found ((Client.Mapped.tryPopRaw self).run (found.put mem)).1) := by
  simp only [step]

/-- A push of the Python side, with the slot it accessed. -/
theorem step_tryPushRaw (slotBytes : Bytes) (countDrop : Bool) :
    (writer self).step mem (found, .tryPushRaw slotBytes countDrop) =
      accessed ((Client.Mapped.tryPushRaw self slotBytes countDrop).run (found.put mem)) := rfl

end Attached

/-- Every access that was noted is one to a slot. -/
theorem mem_accessed {ε α : Type} {r : Except ε α × Bytes × List ℕ} {touch : Touch}
    (h : touch ∈ (Attached.accessed r).2) : ∃ offset ∈ r.2.2, touch = .slot offset := by
  obtain ⟨offset, hoffset, rfl⟩ := List.mem_map.mp h
  exact ⟨offset, hoffset, rfl⟩

/-! ### The C++ ring -/

/-- What makes a segment consistent is in its size and its constants. -/
theorem SameShape.isConsistent {mem' : Bytes} (h : SameShape mem mem') (hmem : IsConsistent mem) :
    IsConsistent mem' := by
  have hcapacity : u32At mem' ShmRingHeader.capacity = u32At mem ShmRingHeader.capacity := by
    rw [u32At, h.capacity, u32At]
  have hmask : u32At mem' ShmRingHeader.capacityMask = u32At mem ShmRingHeader.capacityMask := by
    rw [u32At, h.mask, u32At]
  constructor
  case size => rw [hmask, h.length]; exact hmem.size
  case mask => rw [hmask, hcapacity]; exact hmem.mask

/-- A consistent segment has a whole header. -/
theorem IsConsistent.header_le (h : IsConsistent mem) : 136 ≤ mem.length := by
  have hsize := h.size
  have hheader : ShmRingHeader.size = 192 := rfl
  omega

/-- In a consistent segment every slot is whole. -/
theorem IsConsistent.slotAt_le (h : IsConsistent mem) (index : UInt64) :
    ShmRing.slotAt mem index + shmSlotSize ≤ mem.length := by
  have hle := h.slot_le index.toNat
  rwa [ShmRing.slotAt, UInt64.toNat_and, UInt32.toNat_toUInt64]

/-- The write of a slot and of `tail`. -/
theorem IsConsistent.sameShape_push (h : IsConsistent mem) (index : UInt64) (slot : ShmSlot)
    (tail : UInt64) :
    SameShape mem
      (putU64 (splice mem (ShmRing.slotAt mem index) slot.toList) ShmRingHeader.tail tail) := by
  obtain ⟨hslot, -⟩ := splice_frame (h.slotAt_le index) slot
  exact hslot.trans (putU64_frame (hslot.length ▸ h.header_le) (by decide) tail).1

/-- A push changes slots and counters only. -/
theorem sameShape_tryPush (h : IsConsistent mem) (slot : ShmSlot) (countDrop : Bool) :
    SameShape mem (ShmRing.tryPush mem slot countDrop).1 := by
  rw [ShmRing.tryPush]
  dsimp only
  split_ifs
  · exact (putU64_frame h.header_le (by decide) _).1
  · exact .refl mem
  · exact h.sameShape_push _ slot _

/-- A pop changes `head` only. -/
theorem sameShape_tryPop (h : IsConsistent mem) : SameShape mem (ShmRing.tryPop mem).1 := by
  rw [ShmRing.tryPop]
  dsimp only
  split_ifs
  · exact .refl mem
  · exact (putU64_frame h.header_le (by decide) _).1

/-- So does making room. -/
theorem sameShape_madeRoom (h : IsConsistent mem) : SameShape mem (ShmRing.madeRoom mem) := by
  rw [ShmRing.madeRoom]
  dsimp only
  split_ifs
  · have hhead := (putU64_frame h.header_le (by decide : ShmRingHeader.head + 8 ≤ 136)
      (u64At mem ShmRingHeader.head + 1)).1
    exact hhead.trans (putU64_frame (hhead.length ▸ h.header_le)
      (by decide : ShmRingHeader.dropped + 8 ≤ 136) _).1
  · exact .refl mem

/-- One call on the C++ ring keeps the shape of a consistent segment and its slots inside. -/
theorem step_shmRing (h : IsConsistent mem) (input : Found × AttachedCall) :
    SameShape mem (Attached.shmRing.step mem input).1 ∧
      ∀ touch ∈ (Attached.shmRing.step mem input).2, touch.IsWhole mem.length := by
  obtain ⟨found, call⟩ := input
  have hput := (found.put_frame h.header_le).1
  have hmem := hput.isConsistent h
  -- whatever the index, its slot lies inside, as long as the shape is kept
  have hslot : ∀ mem', SameShape (found.put mem) mem' → ∀ index,
      ShmRing.slotAt mem' index + shmSlotSize ≤ mem.length := fun mem' hshape index =>
    (hput.trans hshape).length ▸ (hshape.isConsistent hmem).slotAt_le index
  cases call with
  | tryPush slot countDrop =>
    rw [Attached.step_tryPush, ShmRing.Mapped.tryPush_eq]
    refine ⟨hput.trans (sameShape_tryPush hmem slot countDrop), fun touch htouch => ?_⟩
    obtain ⟨offset, hoffset, rfl⟩ := mem_accessed htouch
    dsimp only at hoffset
    split_ifs at hoffset
    · exact absurd hoffset List.not_mem_nil
    · exact List.mem_singleton.mp hoffset ▸ hslot _ (.refl _) _
  | pushOverwrite slot =>
    rw [Attached.step_pushOverwrite, ShmRing.Mapped.pushOverwrite_eq]
    have hroom := sameShape_madeRoom hmem
    refine ⟨hput.trans (hroom.trans ((hroom.isConsistent hmem).sameShape_push _ slot _)),
      fun touch htouch => ?_⟩
    obtain ⟨offset, hoffset, rfl⟩ := mem_accessed htouch
    exact List.mem_singleton.mp hoffset ▸ hslot _ hroom _
  | tryPop =>
    rw [Attached.step_tryPop, ShmRing.Mapped.tryPop_eq]
    refine ⟨hput.trans (sameShape_tryPop hmem), fun touch htouch => ?_⟩
    obtain ⟨offset, hoffset, rfl⟩ := mem_accessed htouch
    dsimp only at hoffset
    split_ifs at hoffset
    · exact absurd hoffset List.not_mem_nil
    · exact List.mem_singleton.mp hoffset ▸ hslot _ (.refl _) _
  | _ => exact ⟨hput, fun touch htouch => absurd htouch List.not_mem_nil⟩

/-- The largest slot that a mask leaves is the one of the mask itself. -/
theorem size_of_slot {mask size : ℕ}
    (h : ShmRingHeader.size + (mask &&& mask) * shmSlotSize + shmSlotSize ≤ size) :
    ShmRingHeader.size + (mask + 1) * shmSlotSize ≤ size := by
  rwa [Nat.and_self, Nat.add_assoc, ← Nat.succ_mul] at h

/-- The C++ side keeps pending slots apart if and only if the mask covers the capacity. -/
theorem distinct_shmRing_iff (mem : Bytes) :
    (∀ head tail i j, tail < 2 ^ 64 → tail - head ≤ Attached.shmRing.capacity mem →
      head ≤ i → i < j → j < tail →
        Attached.shmRing.slotAt mem i ≠ Attached.shmRing.slotAt mem j) ↔
    ∀ bit < 32, 2 ^ bit < (u32At mem ShmRingHeader.capacity).toNat →
      (u32At mem ShmRingHeader.capacityMask).toNat.testBit bit = true :=
  distinct_iff rfl fun _ hindex => slotAt_shmRing mem hindex

/-- The C++ ring is safe in every run exactly if the segment is consistent. -/
theorem isSafe_shmRing_iff (hheader : 136 ≤ mem.length) :
    (∀ inputs, Attached.shmRing.IsSafe mem inputs) ↔ IsConsistent mem := by
  constructor
  · intro h
    refine ⟨?_, (distinct_shmRing_iff mem).mp (h []).distinct⟩
    -- a pop at the index that is all of the mask
    let head : UInt64 := (u32At mem ShmRingHeader.capacityMask).toUInt64
    let found : Found := { head := head, tail := head + 1 }
    obtain ⟨hshape, hhead, htail⟩ := found.put_frame hheader
    have hne : head + 1 ≠ head := by simp
    have htouch : .slot (ShmRing.slotAt (found.put mem) head) ∈
        (Attached.shmRing.step mem (found, .tryPop)).2 := by
      rw [Attached.step_tryPop, ShmRing.Mapped.tryPop_eq, htail, hhead, if_neg hne]
      exact List.mem_singleton_self _
    have hwhole := Attached.IsSafe.step [] (h [(found, .tryPop)]) _ htouch
    have hmask : u32At (found.put mem) ShmRingHeader.capacityMask =
        u32At mem ShmRingHeader.capacityMask := by rw [u32At, hshape.mask, u32At]
    rw [Touch.IsWhole, ShmRing.slotAt, hmask, UInt64.toNat_and, UInt32.toNat_toUInt64] at hwhole
    exact size_of_slot hwhole
  · intro h inputs
    refine ⟨?_, (distinct_shmRing_iff mem).mpr h.mask⟩
    refine inBounds_of_step (P := SameShape mem) (C := fun _ => True) (.refl mem)
      (fun mem' hmem' input _ => ?_) fun _ _ => trivial
    obtain ⟨hshape, hwhole⟩ := step_shmRing (hmem'.isConsistent h) input
    exact ⟨hmem'.trans hshape, hmem'.length ▸ hwhole⟩

/-! ### The Python ends -/

/-- No call of a Python end changes the length of the mapping. -/
theorem length_step_reader (self : Client.ShmRingEnd) (hheader : 136 ≤ mem.length)
    (input : Found × AttachedCall) :
    ((Attached.reader self).step mem input).1.length = mem.length := by
  obtain ⟨found, call⟩ := input
  have hput := (found.put_frame hheader).1.length
  cases call with
  | tryPopRaw =>
    have herase := congrArg Prod.snd (Client.Mapped.erases_tryPopRaw self (found.put mem))
    have hkept := Client.keepsLength_tryPopRaw self (found.put mem)
    rw [← herase] at hkept
    rw [Attached.step_tryPopRaw]
    exact hkept.trans hput
  | _ => exact hput

/-- A call of the writer keeps the size of the mapping. -/
theorem length_step_writer (self : Client.ShmRingEnd) (hheader : 136 ≤ mem.length)
    (input : Found × AttachedCall) :
    ((Attached.writer self).step mem input).1.length = mem.length := by
  obtain ⟨found, call⟩ := input
  have hput := (found.put_frame hheader).1.length
  cases call with
  | tryPushRaw slotBytes countDrop =>
    have herase := congrArg Prod.snd
      (Client.Mapped.erases_tryPushRaw self slotBytes countDrop (found.put mem))
    have hkept := Client.keepsLength_tryPushRaw self slotBytes countDrop (found.put mem)
    rw [← herase] at hkept
    rw [Attached.step_tryPushRaw]
    exact hkept.trans hput
  | _ => exact hput

/-- What the other process leaves in the counters is what the Python side unpacks. -/
theorem Found.leNat_put (found : Found) (hheader : 136 ≤ mem.length) :
    leNat (slice (found.put mem) Client.offHead 8) = found.head.toNat ∧
      leNat (slice (found.put mem) Client.offTail 8) = found.tail.toNat := by
  obtain ⟨-, hhead, htail⟩ := found.put_frame hheader
  rw [← toNat_u64At, ← toNat_u64At]
  exact ⟨congrArg UInt64.toNat hhead, congrArg UInt64.toNat htail⟩

/-- The same for the Python side, with the capacity that it read. -/
theorem distinct_python_iff {ring : Attached}
    (hring : ring = .reader (.ofBuf mem) ∨ ring = .writer (.ofBuf mem)) :
    (∀ head tail i j, tail < 2 ^ 64 → tail - head ≤ ring.capacity mem →
      head ≤ i → i < j → j < tail → ring.slotAt mem i ≠ ring.slotAt mem j) ↔
    ∀ bit < 32, 2 ^ bit < (u32At mem ShmRingHeader.capacity).toNat →
      (u32At mem ShmRingHeader.capacityMask).toNat.testBit bit = true := by
  have hcapacity : (Client.ShmRingEnd.ofBuf mem).capacity =
      (u32At mem ShmRingHeader.capacity).toNat := (toNat_u32At mem _).symm
  apply distinct_iff
  · obtain rfl | rfl := hring <;> exact hcapacity
  · intro index _
    obtain rfl | rfl := hring <;> exact slotAt_ofBuf mem index

/-- A slot that a Python end accesses lies inside a consistent segment. -/
theorem IsConsistent.access_le (h : IsConsistent mem) {offset : ℕ}
    (hoffset : ∃ index, offset = Client.headerSize +
      (index &&& (Client.ShmRingEnd.ofBuf mem).capacityMask) * Client.slotSize) :
    offset + shmSlotSize ≤ mem.length := by
  obtain ⟨index, rfl⟩ := hoffset
  rw [slotAt_ofBuf]
  exact h.slot_le index

/-- What a pop of a ring that is not empty ends with. -/
theorem Found.result_tryPopRaw (found : Found) {mem' : Bytes} (hheader : 136 ≤ mem'.length)
    (self : Client.ShmRingEnd) (hne : found.head ≠ found.tail) :
    ((Client.Mapped.tryPopRaw self).run (found.put mem')).1 =
      if found.head.toNat + 1 < 2 ^ 64 then
        .ok (some (slice (found.put mem') (Client.headerSize +
          (found.head.toNat &&& self.capacityMask) * Client.slotSize) Client.slotSize))
      else .error .structError := by
  obtain ⟨hhead, htail⟩ := found.leNat_put hheader
  have hput := (found.put_frame hheader).1.length
  have herase := congrArg Prod.fst (Client.Mapped.erases_tryPopRaw self (found.put mem'))
  have hnonempty : leNat (slice (found.put mem') Client.offHead 8) ≠
      leNat (slice (found.put mem') Client.offTail 8) := by
    rw [hhead, htail]
    exact fun heq => hne (UInt64.toNat_inj.mp heq)
  have hresult := Client.run_tryPopRaw self (hput ▸ hheader) hnonempty
  rw [hhead] at hresult
  exact Eq.trans herase hresult

/-- One call of a reader touches whole slots, if its pop can advance. -/
theorem step_reader (h : IsConsistent mem) {mem' : Bytes} (hmem' : mem'.length = mem.length)
    {input : Found × AttachedCall} (hinput : input.2 = .tryPopRaw → input.1.CanAdvance) :
    ∀ touch ∈ ((Attached.reader (.ofBuf mem)).step mem' input).2, touch.IsWhole mem.length := by
  obtain ⟨found, call⟩ := input
  have hheader : 136 ≤ mem'.length := hmem' ▸ h.header_le
  have hput := (found.put_frame hheader).1.length.trans hmem'
  intro touch htouch
  cases call with
  | tryPopRaw =>
    rw [Attached.step_tryPopRaw] at htouch
    obtain htouch | htouch := List.mem_append.mp htouch
    · obtain ⟨offset, hoffset, rfl⟩ := mem_accessed htouch
      exact h.access_le (Client.Mapped.within_tryPopRaw _ _ offset hoffset)
    · rw [Attached.popped] at htouch
      split_ifs at htouch with hempty
      · exact absurd htouch List.not_mem_nil
      · obtain rfl := List.mem_singleton.mp htouch
        have hle := h.access_le ⟨found.head.toNat, rfl⟩
        have hsize : shmSlotSize = Client.slotSize := rfl
        refine ⟨_, (found.result_tryPopRaw hheader _ hempty).trans (if_pos (hinput rfl hempty)), ?_⟩
        rw [slice, List.length_take, List.length_drop, hput]
        omega
  | _ => exact absurd htouch List.not_mem_nil

/-- In a consistent segment the writer accesses whole slots only. -/
theorem step_writer (h : IsConsistent mem) (mem' : Bytes) (input : Found × AttachedCall) :
    ∀ touch ∈ ((Attached.writer (.ofBuf mem)).step mem' input).2, touch.IsWhole mem.length := by
  obtain ⟨found, call⟩ := input
  intro touch htouch
  cases call with
  | tryPushRaw slotBytes countDrop =>
    rw [Attached.step_tryPushRaw] at htouch
    obtain ⟨offset, hoffset, rfl⟩ := mem_accessed htouch
    exact h.access_le (Client.Mapped.within_tryPushRaw _ _ _ _ offset hoffset)
  | _ => exact absurd htouch List.not_mem_nil

/-- One access of the slot that is all of the mask gives the size away. -/
theorem isConsistent_of_touch {ring : Attached}
    (hring : ring = .reader (.ofBuf mem) ∨ ring = .writer (.ofBuf mem))
    {input : Found × AttachedCall} (h : ring.IsSafe mem [input])
    (htouch : .slot (Client.headerSize + ((u32At mem ShmRingHeader.capacityMask).toNat &&&
      (Client.ShmRingEnd.ofBuf mem).capacityMask) * Client.slotSize) ∈ (ring.step mem input).2) :
    IsConsistent mem := by
  have hwhole := Attached.IsSafe.step [] h _ htouch
  rw [Touch.IsWhole, slotAt_ofBuf] at hwhole
  exact ⟨size_of_slot hwhole, (distinct_python_iff hring).mp h.distinct⟩

/-- A reader is safe in every run whose pops can advance exactly if the segment is consistent. -/
theorem isSafe_reader_iff (hheader : 136 ≤ mem.length) :
    (∀ inputs, Attached.Advances inputs → (Attached.reader (.ofBuf mem)).IsSafe mem inputs) ↔
      IsConsistent mem := by
  constructor
  · intro h
    let head : UInt64 := (u32At mem ShmRingHeader.capacityMask).toUInt64
    let found : Found := { head := head, tail := head + 1 }
    obtain ⟨hhead, htail⟩ := found.leNat_put hheader
    have hput := (found.put_frame hheader).1.length
    have hmask : head.toNat < 2 ^ 32 := (u32At mem ShmRingHeader.capacityMask).toNat_lt
    have hsucc : (head + 1).toNat = head.toNat + 1 :=
      toNat_succ (lt_trans (Nat.succ_lt_succ hmask) (by decide))
    have hadvances : Attached.Advances [(found, .tryPopRaw)] := by
      intro input hinput _ _
      obtain rfl := List.mem_singleton.mp hinput
      exact lt_trans (Nat.succ_lt_succ hmask) (by decide)
    refine isConsistent_of_touch (.inl rfl) (h _ hadvances) ?_
    have hne : leNat (slice (found.put mem) Client.offHead 8) ≠
        leNat (slice (found.put mem) Client.offTail 8) := by
      rw [hhead, htail, hsucc]
      exact (Nat.lt_succ_self _).ne
    have hmem := Client.Mapped.mem_tryPopRaw (.ofBuf mem) (hput ▸ hheader) hne
    rw [hhead] at hmem
    rw [Attached.step_tryPopRaw]
    exact List.mem_append_left _ (List.mem_map.mpr ⟨_, hmem, rfl⟩)
  · intro h inputs hinputs
    refine ⟨?_, (distinct_python_iff (.inl rfl)).mpr h.mask⟩
    refine inBounds_of_step (P := fun mem' => mem'.length = mem.length) rfl
      (fun mem' hmem' input hinput => ⟨?_, step_reader h hmem' hinput⟩) hinputs
    exact (length_step_reader _ (hmem' ▸ hheader) input).trans hmem'

/-- Nor is a reader safe in any other run: a pop that cannot write its head back raises. -/
theorem advances_of_isSafe {self : Client.ShmRingEnd} (hheader : 136 ≤ mem.length)
    {inputs : List (Found × AttachedCall)} (h : (Attached.reader self).IsSafe mem inputs) :
    Attached.Advances inputs := by
  rintro ⟨found, call⟩ hinput rfl hne
  obtain ⟨before, after, rfl⟩ := List.append_of_mem hinput
  have hlength : (Mealy.run (Attached.reader self).step mem before).1.length = mem.length :=
    Mealy.run_induct (Attached.reader self).step (P := fun mem' _ => mem'.length = mem.length) rfl
      (fun mem' _ input hmem' => (length_step_reader self (hmem' ▸ hheader) input).trans hmem')
      before
  have hwhole := Attached.IsSafe.step before h
  generalize (Mealy.run (Attached.reader self).step mem before).1 = mem' at hlength hwhole
  have htouch : .popped ((Client.Mapped.tryPopRaw self).run (found.put mem')).1 ∈
      ((Attached.reader self).step mem' (found, .tryPopRaw)).2 := by
    rw [Attached.step_tryPopRaw]
    refine List.mem_append_right _ ?_
    rw [Attached.popped, if_neg hne]
    exact List.mem_singleton_self _
  obtain ⟨slot, hslot, -⟩ := hwhole _ htouch
  rw [found.result_tryPopRaw (hlength ▸ hheader) self hne] at hslot
  split_ifs at hslot with hfits
  exact hfits

/-- A writer is safe in every run exactly if the segment is consistent. -/
theorem isSafe_writer_iff (hheader : 136 ≤ mem.length) :
    (∀ inputs, (Attached.writer (.ofBuf mem)).IsSafe mem inputs) ↔ IsConsistent mem := by
  constructor
  · intro h
    -- a tail behind the head passes the space check of any capacity
    let tail : UInt64 := (u32At mem ShmRingHeader.capacityMask).toUInt64
    let found : Found := { head := tail + 1, tail := tail }
    obtain ⟨hhead, htail⟩ := found.leNat_put hheader
    have hput := (found.put_frame hheader).1.length
    have hlt : (u32At mem ShmRingHeader.capacityMask).toNat < 2 ^ 32 :=
      (u32At mem ShmRingHeader.capacityMask).toNat_lt
    have hbehind : (tail + 1).toNat = tail.toNat + 1 :=
      toNat_succ (lt_trans (Nat.succ_lt_succ hlt) (by decide))
    let slotBytes : Bytes := List.replicate Client.slotSize 0
    have hroom : (leNat (slice (found.put mem) Client.offTail 8) : ℤ) -
        leNat (slice (found.put mem) Client.offHead 8) <
        (Client.ShmRingEnd.ofBuf mem).capacity := by
      have hcount : found.head.toNat = found.tail.toNat + 1 := hbehind
      rw [hhead, htail, hcount]
      push_cast
      omega
    have hslot : slotBytes.length = Client.slotSize := List.length_replicate
    have hbuf : 136 ≤ (found.put mem).length := hput.symm ▸ hheader
    have hmem := Client.Mapped.mem_tryPushRaw hbuf hslot hroom false
    rw [htail] at hmem
    refine isConsistent_of_touch (.inr rfl) (h [(found, .tryPushRaw slotBytes false)]) ?_
    rw [Attached.step_tryPushRaw]
    exact List.mem_map.mpr ⟨_, hmem, rfl⟩
  · intro h inputs
    refine ⟨?_, (distinct_python_iff (.inr rfl)).mpr h.mask⟩
    refine inBounds_of_step (P := fun mem' => mem'.length = mem.length) (C := fun _ => True) rfl
      (fun mem' hmem' input _ => ⟨?_, step_writer h mem' input⟩) fun _ _ => trivial
    exact (length_step_writer _ (hmem' ▸ hheader) input).trans hmem'

end Safe

/-! ## A header that is written -/

section Header

variable {mem : Bytes}

/-- A field is written in place and the others stay. -/
theorem putU32_frame {offset : ℕ} (h : offset + 4 ≤ mem.length) (v : UInt32) :
    (putU32 mem offset v).length = mem.length ∧ u32At (putU32 mem offset v) offset = v ∧
      ∀ other, other + 4 ≤ offset ∨ offset + 4 ≤ other →
        u32At (putU32 mem offset v) other = u32At mem other :=
  ⟨length_putU32 h v, u32At_putU32_self h v, fun _ => u32At_putU32_of_disjoint h v⟩

/-- The fields of the header read as they were written. -/
theorem writeHeader_frame (hmem : ShmRingHeader.size ≤ mem.length)
    (capacity capacityMask : UInt32) :
    let mem' := ShmRing.writeHeader mem capacity capacityMask
    mem'.length = mem.length ∧ u32At mem' ShmRingHeader.magic = ShmRingHeader.kMagic ∧
      u32At mem' ShmRingHeader.capacity = capacity ∧
      u32At mem' ShmRingHeader.capacityMask = capacityMask ∧
      (u32At mem' ShmRingHeader.slotSize).toNat = shmSlotSize := by
  have hfield : ∀ mem' : Bytes, mem'.length = mem.length → ∀ offset, offset + 4 ≤ 192 →
      offset + 4 ≤ mem'.length :=
    fun mem' hlength offset hoffset => hlength ▸ hoffset.trans hmem
  obtain ⟨hlength₁, hmagic, -⟩ := putU32_frame
    (hfield mem rfl ShmRingHeader.magic (by decide)) ShmRingHeader.kMagic
  obtain ⟨hlength₂, hcapacity, hkeep₂⟩ := putU32_frame
    (hfield _ hlength₁ ShmRingHeader.capacity (by decide)) capacity
  obtain ⟨hlength₃, hmask, hkeep₃⟩ := putU32_frame
    (hfield _ (hlength₂.trans hlength₁) ShmRingHeader.capacityMask (by decide)) capacityMask
  obtain ⟨hlength₄, hslotSize, hkeep₄⟩ := putU32_frame
    (hfield _ (hlength₃.trans (hlength₂.trans hlength₁)) ShmRingHeader.slotSize (by decide))
    (.ofNat shmSlotSize)
  dsimp only [ShmRing.writeHeader]
  refine ⟨hlength₄.trans (hlength₃.trans (hlength₂.trans hlength₁)), ?_, ?_, ?_, ?_⟩
  · rw [hkeep₄ _ (by decide), hkeep₃ _ (by decide), hkeep₂ _ (by decide), hmagic]
  · rw [hkeep₄ _ (by decide), hkeep₃ _ (by decide), hcapacity]
  · rw [hkeep₄ _ (by decide), hmask]
  · rw [hslotSize]
    rfl

/-- `attach` accepts the header that `create` writes. -/
theorem attach_writeHeader (hmem : ShmRingHeader.size ≤ mem.length) {capacity : UInt32}
    (hcapacity : capacity ≠ 0) (capacityMask : UInt32) (posixName : String) :
    ShmRing.attach posixName (ShmRing.writeHeader mem capacity capacityMask) = .ok () := by
  obtain ⟨hlength, hmagic, hcap, -, hslotSize⟩ := writeHeader_frame hmem capacity capacityMask
  rw [ShmRing.attach, if_neg (by rw [hlength]; exact Nat.not_lt_of_le hmem), if_neg]
  rw [hmagic, hcap]
  exact fun hbad => hbad.elim (absurd rfl) fun hbad => hbad.elim hcapacity (absurd hslotSize)

/-- The Python constructors take what has the magic number. -/
theorem Client.openEnd_eq {buf : Bytes} (hbuf : 152 ≤ buf.length)
    (hmagic : u32At buf ShmRingHeader.magic = ShmRingHeader.kMagic) :
    (openEnd.run.run buf).1 = .ok (.ofBuf buf) := by
  have hread : ∀ offset, offset + 4 ≤ 152 →
      (unpackU32From offset).run.run buf = (.ok (leNat (slice buf offset 4)), buf) := by
    intro offset hoffset
    rw [run_unpackU32From, if_pos (hoffset.trans hbuf)]
  have hvalue : leNat (slice buf offMagic 4) = headerMagic := by
    rw [← toNat_u32At]
    exact congrArg UInt32.toNat hmagic
  rw [openEnd, run_bind (hread offMagic (by decide)), hvalue, if_neg (not_not_intro rfl),
    run_bind (hread offCapacity (by decide)), run_bind (hread offMask (by decide)),
    run_bind (hread offSlotSize (by decide))]
  rfl

/-- What `create` lays out can be attached to, and is consistent. -/
theorem create_isConsistent {minCapacity : ℕ} (h : ShmRing.create minCapacity = .ok mem) :
    (∀ posixName, ShmRing.attach posixName mem = .ok ()) ∧ IsConsistent mem := by
  rw [ShmRing.create] at h
  split_ifs at h with hzero hlarge
  obtain rfl := Except.ok.inj h
  have hexp : Nat.clog 2 minCapacity ≤ 20 := Nat.clog_le_of_le_pow (Nat.le_of_not_lt hlarge)
  generalize Nat.clog 2 minCapacity = k at hexp
  have hlt : 2 ^ k < 2 ^ 32 := Nat.pow_lt_pow_right Nat.one_lt_two (by omega)
  have hpos : 0 < 2 ^ k := Nat.two_pow_pos k
  have hcapacity : (UInt32.ofNat (2 ^ k)).toNat = 2 ^ k := UInt32.toNat_ofNat_of_lt' hlt
  have hone : (1 : UInt32) ≤ .ofNat (2 ^ k) := by
    rw [UInt32.le_iff_toNat_le, hcapacity]
    exact hpos
  have hmask : (UInt32.ofNat (2 ^ k) - 1).toNat = 2 ^ k - 1 := by
    rw [UInt32.toNat_sub_of_le _ _ hone, hcapacity]
    rfl
  have hmem : ShmRingHeader.size ≤
      (List.replicate (ShmRingHeader.size + 2 ^ k * shmSlotSize) (0 : UInt8)).length := by
    rw [List.length_replicate]
    exact Nat.le_add_right _ _
  have hne : UInt32.ofNat (2 ^ k) ≠ 0 := by
    rw [ne_eq, ← UInt32.toNat_inj, hcapacity]
    exact hpos.ne'
  obtain ⟨hlength, -, hcap, hcapMask, -⟩ :=
    writeHeader_frame hmem (.ofNat (2 ^ k)) (.ofNat (2 ^ k) - 1)
  refine ⟨attach_writeHeader hmem hne _, ?_, fun bit _ hbit => ?_⟩
  · rw [hcapMask, hmask, hlength, List.length_replicate, Nat.sub_add_cancel hpos]
  · rw [hcap, hcapacity, Nat.pow_lt_pow_iff_right Nat.one_lt_two] at hbit
    rw [hcapMask, hmask, Nat.testBit_two_pow_sub_one, decide_eq_true hbit]

end Header

/-! ## What the checks leave open -/

/-- On every segment that is accepted, whichever end is opened, the ring is safe exactly if the
header is consistent with the size of the mapping. For a reader that holds of the runs whose pops
find a head that can be moved on; in no other run is it safe. -/
theorem attached_isSafe_iff (mem : Bytes) :
    (∀ posixName, ShmRing.attach posixName mem = .ok () →
      ((∀ inputs, Attached.shmRing.IsSafe mem inputs) ↔ IsConsistent mem)) ∧
    ∀ file totalSize self, Client.map file totalSize = some mem →
      (Client.openEnd.run.run mem).1 = .ok self →
        ((∀ inputs, Attached.Advances inputs → (Attached.reader self).IsSafe mem inputs) ↔
          IsConsistent mem) ∧
        (∀ inputs, (Attached.reader self).IsSafe mem inputs → Attached.Advances inputs) ∧
        ((∀ inputs, (Attached.writer self).IsSafe mem inputs) ↔ IsConsistent mem) := by
  constructor
  · intro posixName hattach
    rw [ShmRing.attach] at hattach
    split_ifs at hattach with hsize hheader
    exact isSafe_shmRing_iff (le_trans (by decide) (Nat.le_of_not_lt hsize))
  · intro file totalSize self _ hopen
    obtain ⟨rfl, hbuf⟩ := Client.openEnd_ok hopen
    have hheader : 136 ≤ mem.length := le_trans (by decide) hbuf
    exact ⟨isSafe_reader_iff hheader, fun _ => advances_of_isSafe hheader,
      isSafe_writer_iff hheader⟩

section Segments

variable {capacity capacityMask : UInt32} {size : ℕ}

/-- A segment of some size with some header. -/
def segment (size : ℕ) (capacity capacityMask : UInt32) : Bytes :=
  ShmRing.writeHeader (List.replicate size 0) capacity capacityMask

/-- A new segment has its size and its constants. -/
theorem segment_frame (hsize : ShmRingHeader.size ≤ size) (capacity capacityMask : UInt32) :
    let mem := segment size capacity capacityMask
    mem.length = size ∧ u32At mem ShmRingHeader.magic = ShmRingHeader.kMagic ∧
      u32At mem ShmRingHeader.capacity = capacity ∧
      u32At mem ShmRingHeader.capacityMask = capacityMask := by
  have hmem : ShmRingHeader.size ≤ (List.replicate size (0 : UInt8)).length :=
    hsize.trans_eq List.length_replicate.symm
  obtain ⟨hlength, hmagic, hcap, hmask, -⟩ := writeHeader_frame hmem capacity capacityMask
  rw [List.length_replicate] at hlength
  exact ⟨hlength, hmagic, hcap, hmask⟩

/-- Such a segment is accepted by everybody. -/
theorem segment_accepted (hsize : ShmRingHeader.size ≤ size) (hcapacity : capacity ≠ 0)
    (capacityMask : UInt32) :
    let mem := segment size capacity capacityMask
    ShmRing.attach "/ring" mem = .ok () ∧ Client.map mem none = some mem ∧
      (Client.openEnd.run.run mem).1 = .ok ⟨capacity.toNat, capacityMask.toNat⟩ := by
  have hmem : ShmRingHeader.size ≤ (List.replicate size (0 : UInt8)).length :=
    hsize.trans_eq List.length_replicate.symm
  obtain ⟨hlength, hmagic, hcap, hmask⟩ := segment_frame hsize capacity capacityMask
  have hheader : (192 : ℕ) ≤ size := hsize
  refine ⟨attach_writeHeader hmem hcapacity _ _, ?_, ?_⟩
  · have hmapped : ¬ (size = 0 ∨ size < size) := by omega
    simp only [Client.map, hlength]
    rw [if_neg hmapped, List.take_of_length_le hlength.le]
  · have hself : Client.ShmRingEnd.ofBuf (segment size capacity capacityMask) =
        ⟨capacity.toNat, capacityMask.toNat⟩ :=
      congrArg₂ Client.ShmRingEnd.mk
        ((toNat_u32At _ _).symm.trans (congrArg UInt32.toNat hcap))
        ((toNat_u32At _ _).symm.trans (congrArg UInt32.toNat hmask))
    rw [← hself]
    exact Client.openEnd_eq (by rw [hlength]; omega) hmagic

/-- A new segment is consistent if it is long enough and its mask covers its capacity. -/
theorem isConsistent_segment_iff (hsize : ShmRingHeader.size ≤ size) :
    IsConsistent (segment size capacity capacityMask) ↔
      ShmRingHeader.size + (capacityMask.toNat + 1) * shmSlotSize ≤ size ∧
        ∀ bit < 32, 2 ^ bit < capacity.toNat → capacityMask.toNat.testBit bit = true := by
  obtain ⟨hlength, -, hcap, hmask⟩ := segment_frame hsize capacity capacityMask
  constructor
  · rintro ⟨hfits, hbits⟩
    rw [hmask, hlength] at hfits
    rw [hmask, hcap] at hbits
    exact ⟨hfits, hbits⟩
  · rintro ⟨hfits, hbits⟩
    constructor
    case size => rwa [hmask, hlength]
    case mask => rwa [hmask, hcap]

end Segments

/-- A segment as `create` lays it out for two slots: every end is safe on it, a reader until it
finds the last head. -/
theorem attached_isSafe_segment :
    let mem := segment 320 2 1
    (∀ inputs, Attached.shmRing.IsSafe mem inputs) ∧
      (∀ inputs, Attached.Advances inputs → (Attached.reader ⟨2, 1⟩).IsSafe mem inputs) ∧
      (∀ inputs, (Attached.writer ⟨2, 1⟩).IsSafe mem inputs) ∧
      ¬ (Attached.reader ⟨2, 1⟩).IsSafe mem [(⟨18446744073709551615, 0⟩, .tryPopRaw)] := by
  intro mem
  have hconsistent : IsConsistent mem :=
    (isConsistent_segment_iff (by decide)).mpr ⟨by decide, by decide⟩
  obtain ⟨hattach, hmap, hopen⟩ := segment_accepted
    (by decide : ShmRingHeader.size ≤ 320) (by decide : (2 : UInt32) ≠ 0) 1
  obtain ⟨hreader, hother, hwriter⟩ := (attached_isSafe_iff mem).2 mem none ⟨2, 1⟩ hmap hopen
  refine ⟨((attached_isSafe_iff mem).1 "/ring" hattach).mpr hconsistent, hreader.mpr hconsistent,
    hwriter.mpr hconsistent, fun h => ?_⟩
  exact absurd (hother _ h _ (List.mem_singleton_self _) rfl (by decide)) (by decide)

/-- A segment with room for one slot and a mask of one, which everybody accepts: every odd index
leads behind its end, so that no end is safe there, whatever a reader may find. -/
theorem attached_isSafe_short :
    let mem := segment 256 1 1
    ShmRing.attach "/ring" mem = .ok () ∧ Client.map mem none = some mem ∧
      (Client.openEnd.run.run mem).1 = .ok (.ofBuf mem) ∧
      ¬ (∀ inputs, Attached.shmRing.IsSafe mem inputs) ∧
      ¬ (∀ inputs, Attached.Advances inputs → (Attached.reader (.ofBuf mem)).IsSafe mem inputs) ∧
      ¬ (∀ inputs, (Attached.writer (.ofBuf mem)).IsSafe mem inputs) := by
  intro mem
  have hbad : ¬ IsConsistent mem := fun h =>
    absurd ((isConsistent_segment_iff (by decide)).mp h).1 (by decide)
  obtain ⟨hlength, hmagic, -⟩ := segment_frame (by decide : ShmRingHeader.size ≤ 256) 1 1
  obtain ⟨hattach, hmap, -⟩ := segment_accepted
    (by decide : ShmRingHeader.size ≤ 256) (by decide : (1 : UInt32) ≠ 0) 1
  have hheader : 136 ≤ mem.length := by rw [hlength]; decide
  refine ⟨hattach, hmap, Client.openEnd_eq (by rw [hlength]; decide) hmagic, ?_, ?_, ?_⟩
  · exact mt (isSafe_shmRing_iff hheader).mp hbad
  · exact mt (isSafe_reader_iff hheader).mp hbad
  · exact mt (isSafe_writer_iff hheader).mp hbad

end MarketMaker
