import MarketMaker.Ring.Wire

/-!
# One ring, two languages

`ShmRing::try_push`/`try_pop` and `try_push_raw`/`try_pop_raw` on the bytes of the shared segment:
the C++ side with 64-bit arithmetic at the offsets of the laid-out header, the Python side with
unbounded integers at its own constants. While the counters stay below the last 64-bit value each
call does the same to the memory and returns the same, so that the calls of a run may be made by
either side.
-/

namespace MarketMaker

open Packed

/-! ## The header -/

/-- The members of `ShmRingHeader` with their sizes and alignments: three `alignas(64)` atomics
and four `std::uint32_t`. -/
def ShmRingHeader.layout : List (ℕ × ℕ) :=
  [(8, 64), (8, 64), (8, 64), (4, 4), (4, 4), (4, 4), (4, 4)]

namespace ShmRingHeader

/-- `offsetof` of the `i`-th member. -/
def offset (i : ℕ) : ℕ := (offsetsFrom 0 layout).1.getD i 0

def head : ℕ := offset 0
def tail : ℕ := offset 1
def dropped : ℕ := offset 2
def magic : ℕ := offset 3
def capacity : ℕ := offset 4
def capacityMask : ℕ := offset 5
def slotSize : ℕ := offset 6

/-- `sizeof(ShmRingHeader)`, with `alignof(ShmRingHeader) == 64`. -/
def size : ℕ := alignUp (offsetsFrom 0 layout).2 64

end ShmRingHeader

namespace Client

def headerSize : ℕ := 192
def slotSize : ℕ := 64
def offHead : ℕ := 0
def offTail : ℕ := 64
def offDropped : ℕ := 128
def offMagic : ℕ := 136
def offCapacity : ℕ := 140
def offMask : ℕ := 144
def offSlotSize : ℕ := 148

end Client

/-- The constants of the Python side are the layout of the C++ header. -/
theorem ShmRingHeader.layout_eq :
    [ShmRingHeader.head, ShmRingHeader.tail, ShmRingHeader.dropped, ShmRingHeader.magic,
      ShmRingHeader.capacity, ShmRingHeader.capacityMask, ShmRingHeader.slotSize,
      ShmRingHeader.size, shmSlotSize] =
    [Client.offHead, Client.offTail, Client.offDropped, Client.offMagic, Client.offCapacity,
      Client.offMask, Client.offSlotSize, Client.headerSize, Client.slotSize] := by
  decide

/-! ## The C++ side -/

/-- The bytes of a `ShmSlot`. -/
abbrev ShmSlot := Vector UInt8 shmSlotSize

namespace ShmRing

/-- The address of `slots_[index & header_->capacity_mask]`. -/
def slotAt (mem : Bytes) (index : UInt64) : ℕ :=
  ShmRingHeader.size +
    (index &&& (u32At mem ShmRingHeader.capacityMask).toUInt64).toNat * shmSlotSize

/-- `ShmRing::try_push`. -/
def tryPush (mem : Bytes) (slot : ShmSlot) (countDrop : Bool) : Bytes × Bool :=
  let tail := u64At mem ShmRingHeader.tail
  let head := u64At mem ShmRingHeader.head
  if (u32At mem ShmRingHeader.capacity).toUInt64 ≤ tail - head then
    if countDrop then
      (putU64 mem ShmRingHeader.dropped (u64At mem ShmRingHeader.dropped + 1), false)
    else (mem, false)
  else
    let mem := splice mem (slotAt mem tail) slot.toList
    (putU64 mem ShmRingHeader.tail (tail + 1), true)

/-- `ShmRing::try_pop`; `none` is `false`. -/
def tryPop (mem : Bytes) : Bytes × Option Bytes :=
  let head := u64At mem ShmRingHeader.head
  let tail := u64At mem ShmRingHeader.tail
  if tail = head then (mem, none)
  else
    let slot := slice mem (slotAt mem head) shmSlotSize
    (putU64 mem ShmRingHeader.head (head + 1), some slot)

end ShmRing

/-! ## The Python side -/

namespace Client

/-- The exceptions that the calls can raise. -/
inductive PyError where
  | valueError
  | structError
  | indexError
deriving DecidableEq, Repr

/-- A call on the mapped buffer, which keeps what it wrote before it raised. -/
abbrev Py (α : Type) := ExceptT PyError (StateM Bytes) α

/-- `_U64.unpack_from(self._buf, offset)[0]`. -/
def unpackU64From (offset : ℕ) : Py ℕ := do
  let buf ← get
  if offset + 8 ≤ buf.length then return leNat (slice buf offset 8) else throw .structError

/-- `_U64.pack_into(self._buf, offset, value)`. -/
def packU64Into (offset value : ℕ) : Py Unit := do
  let buf ← get
  if buf.length < offset + 8 then throw .structError
  -- the target is zeroed before the value is looked at
  set (splice buf offset (List.replicate 8 0))
  if value < 2 ^ 64 then set (splice buf offset (leBytes 8 value)) else throw .structError

/-- `self._buf[offset : offset + len(bs)] = bs`. -/
def assignSlice (offset : ℕ) (bs : Bytes) : Py Unit := do
  let buf ← get
  if offset + bs.length ≤ buf.length then set (splice buf offset bs) else throw .indexError

/-- What a `ShmRingReader` or `ShmRingWriter` has read from the header when it was opened. -/
structure ShmRingEnd where
  capacity : ℕ
  capacityMask : ℕ
deriving DecidableEq, Repr

/-- The end that is opened on a mapped ring. -/
def ShmRingEnd.ofBuf (buf : Bytes) : ShmRingEnd where
  capacity := leNat (slice buf offCapacity 4)
  capacityMask := leNat (slice buf offMask 4)

/-- `ShmRingWriter.try_push_raw`. -/
def tryPushRaw (self : ShmRingEnd) (slotBytes : Bytes) (countDrop : Bool) : Py Bool :=
  if slotBytes.length ≠ slotSize then throw .valueError
  else do
    let head ← unpackU64From offHead
    let tail ← unpackU64From offTail
    if (self.capacity : ℤ) ≤ (tail : ℤ) - head then
      if countDrop then do
        let dropped ← unpackU64From offDropped
        packU64Into offDropped (dropped + 1)
        return false
      else return false
    else do
      assignSlice (headerSize + (tail &&& self.capacityMask) * slotSize) slotBytes
      packU64Into offTail (tail + 1)
      return true

/-- `ShmRingReader.try_pop_raw`. -/
def tryPopRaw (self : ShmRingEnd) : Py (Option Bytes) := do
  let head ← unpackU64From offHead
  let tail ← unpackU64From offTail
  if head = tail then return none
  let buf ← get
  let slot := slice buf (headerSize + (head &&& self.capacityMask) * slotSize) slotSize
  packU64Into offHead (head + 1)
  return some slot

end Client

/-! ## A ring in memory -/

/-- A segment that holds a ring. -/
structure IsRing (mem : Bytes) : Prop where
  isPow : ∃ k, (u32At mem ShmRingHeader.capacity).toNat = 2 ^ k
  mask : (u32At mem ShmRingHeader.capacityMask).toNat + 1 =
    (u32At mem ShmRingHeader.capacity).toNat
  length : ShmRingHeader.size + (u32At mem ShmRingHeader.capacity).toNat * shmSlotSize ≤ mem.length
  head_le : (u64At mem ShmRingHeader.head).toNat ≤ (u64At mem ShmRingHeader.tail).toNat

/-- The counters stay below `2 ^ 64` for so many calls. -/
structure HasRoom (mem : Bytes) (calls : ℕ) : Prop where
  tail : (u64At mem ShmRingHeader.tail).toNat + calls < 2 ^ 64
  dropped : (u64At mem ShmRingHeader.dropped).toNat + calls < 2 ^ 64

namespace IsRing

variable {mem : Bytes}

/-- A slot lies behind the header and inside the segment. -/
theorem slotAt_le (h : IsRing mem) (index : UInt64) :
    ShmRing.slotAt mem index + shmSlotSize ≤ mem.length := by
  have hand : (index &&& (u32At mem ShmRingHeader.capacityMask).toUInt64).toNat ≤
      (u32At mem ShmRingHeader.capacityMask).toNat := by
    rw [UInt64.toNat_and, UInt32.toNat_toUInt64]
    exact Nat.and_le_right
  have hmask := h.mask
  have hlength := h.length
  have hslot : shmSlotSize = 64 := rfl
  rw [ShmRing.slotAt]
  rw [hslot] at hlength ⊢
  omega

/-- The counters and the header lie in the segment. -/
theorem header_le (h : IsRing mem) : ShmRingHeader.size ≤ mem.length :=
  Nat.le_trans (Nat.le_add_right _ _) h.length

/-- The counters are inside a ring. -/
theorem counters_le (h : IsRing mem) : 136 ≤ mem.length :=
  Nat.le_trans (by decide) h.header_le

end IsRing

section Agree

variable {mem : Bytes}

/-- A counter that does not wrap counts. -/
theorem toNat_succ {v : UInt64} (h : v.toNat + 1 < 2 ^ 64) : (v + 1).toNat = v.toNat + 1 := by
  rw [UInt64.toNat_add]
  have hone : (1 : UInt64).toNat = 1 := rfl
  rw [hone]
  exact Nat.mod_eq_of_lt h

/-- The two space checks. -/
theorem full_iff (h : IsRing mem) :
    (u32At mem ShmRingHeader.capacity).toUInt64 ≤
        u64At mem ShmRingHeader.tail - u64At mem ShmRingHeader.head ↔
      ((Client.ShmRingEnd.ofBuf mem).capacity : ℤ) ≤
        (leNat (slice mem Client.offTail 8) : ℤ) - leNat (slice mem Client.offHead 8) := by
  have hcapacity : (Client.ShmRingEnd.ofBuf mem).capacity =
      (u32At mem ShmRingHeader.capacity).toNat := (toNat_u32At mem _).symm
  have htail : leNat (slice mem Client.offTail 8) = (u64At mem ShmRingHeader.tail).toNat :=
    (toNat_u64At mem _).symm
  have hhead : leNat (slice mem Client.offHead 8) = (u64At mem ShmRingHeader.head).toNat :=
    (toNat_u64At mem _).symm
  have hle := h.head_le
  rw [hcapacity, htail, hhead, UInt64.le_iff_toNat_le, UInt32.toNat_toUInt64,
    UInt64.toNat_sub_of_le _ _ (UInt64.le_iff_toNat_le.mpr hle)]
  omega

/-- The two addresses of a slot. -/
theorem slotAt_eq (mem : Bytes) (offset : ℕ) :
    Client.headerSize + (leNat (slice mem offset 8) &&&
      (Client.ShmRingEnd.ofBuf mem).capacityMask) *
      Client.slotSize = ShmRing.slotAt mem (u64At mem offset) := by
  have hmask : (Client.ShmRingEnd.ofBuf mem).capacityMask =
      (u32At mem ShmRingHeader.capacityMask).toNat := (toNat_u32At mem _).symm
  rw [ShmRing.slotAt, UInt64.toNat_and, UInt32.toNat_toUInt64, toNat_u64At, hmask]
  rfl

/-- A computation goes on from what the one before it left. -/
theorem Client.run_bind {β γ : Type} {x : Client.Py β} {f : β → Client.Py γ} {buf buf' : Bytes}
    {b : β} (h : x.run.run buf = (.ok b, buf')) : (x >>= f).run.run buf = (f b).run.run buf' := by
  rw [ExceptT.run_bind, StateT.run_bind, h]
  rfl

/-- The buffer is read as it is. -/
theorem Client.run_get (buf : Bytes) : (get : Client.Py Bytes).run.run buf = (.ok buf, buf) := rfl

/-- A field inside the buffer is read little-endian. -/
theorem Client.run_unpackU64From {buf : Bytes} {offset : ℕ} (h : offset + 8 ≤ buf.length) :
    (Client.unpackU64From offset).run.run buf = (.ok (leNat (slice buf offset 8)), buf) := by
  rw [Client.unpackU64From, Client.run_bind (Client.run_get buf), if_pos h]
  rfl

/-- A field inside the buffer is written little-endian, if the value fits. -/
theorem Client.run_packU64Into (value : ℕ) {buf : Bytes} {offset : ℕ}
    (h : offset + 8 ≤ buf.length) :
    (Client.packU64Into offset value).run.run buf =
      if value < 2 ^ 64 then (.ok (), splice buf offset (leBytes 8 value))
      else (.error .structError, splice buf offset (List.replicate 8 0)) := by
  rw [Client.packU64Into, Client.run_bind (Client.run_get buf), if_neg (Nat.not_lt.mpr h)]
  by_cases hvalue : value < 2 ^ 64
  · rw [if_pos hvalue, if_pos hvalue]
    rfl
  · rw [if_neg hvalue, if_neg hvalue]
    rfl

/-- So for a value of 64 bits. -/
theorem Client.run_packU64Into_of_lt {buf : Bytes} {offset value : ℕ} (hvalue : value < 2 ^ 64)
    (h : offset + 8 ≤ buf.length) :
    (Client.packU64Into offset value).run.run buf =
      (.ok (), splice buf offset (leBytes 8 value)) := by
  rw [Client.run_packU64Into value h, if_pos hvalue]

/-- A slice inside the buffer is replaced. -/
theorem Client.run_assignSlice {buf bs : Bytes} {offset : ℕ}
    (h : offset + bs.length ≤ buf.length) :
    (Client.assignSlice offset bs).run.run buf = (.ok (), splice buf offset bs) := by
  rw [Client.assignSlice, Client.run_bind (Client.run_get buf), if_pos h]
  rfl

/-- The counter that a side writes back. -/
theorem splice_succ {offset : ℕ} (h : (u64At mem offset).toNat + 1 < 2 ^ 64) (buf : Bytes) :
    splice buf offset (leBytes 8 (leNat (slice mem offset 8) + 1)) =
      putU64 buf offset (u64At mem offset + 1) := by
  rw [putU64, toNat_succ h, toNat_u64At]

/-- The two pushes do the same to a ring with room in its counters. -/
theorem tryPushRaw_eq (h : IsRing mem) (hroom : HasRoom mem 1) (slot : ShmSlot)
    (countDrop : Bool) :
    (Client.tryPushRaw (Client.ShmRingEnd.ofBuf mem) slot.toList countDrop).run.run mem =
      (.ok (ShmRing.tryPush mem slot countDrop).2, (ShmRing.tryPush mem slot countDrop).1) := by
  have hheader := h.header_le
  have hsize : ShmRingHeader.size = 192 := rfl
  have hlength : slot.toList.length = Client.slotSize := slot.length_toList
  have hhead : Client.offHead + 8 ≤ mem.length := by rw [Client.offHead]; omega
  have htail : Client.offTail + 8 ≤ mem.length := by rw [Client.offTail]; omega
  have hdropped : Client.offDropped + 8 ≤ mem.length := by rw [Client.offDropped]; omega
  have hfull := full_iff h
  rw [Client.tryPushRaw, if_neg (not_not_intro hlength),
    Client.run_bind (Client.run_unpackU64From hhead),
    Client.run_bind (Client.run_unpackU64From htail), ShmRing.tryPush]
  dsimp only
  by_cases hcheck : (u32At mem ShmRingHeader.capacity).toUInt64 ≤
      u64At mem ShmRingHeader.tail - u64At mem ShmRingHeader.head
  · rw [if_pos (hfull.mp hcheck), if_pos hcheck]
    cases countDrop with
    | false => rfl
    | true =>
      have hcount : (u64At mem Client.offDropped).toNat + 1 < 2 ^ 64 := hroom.dropped
      have hlt : leNat (slice mem Client.offDropped 8) + 1 < 2 ^ 64 := by
        rwa [toNat_u64At] at hcount
      rw [if_pos rfl, if_pos rfl, Client.run_bind (Client.run_unpackU64From hdropped),
        Client.run_bind (Client.run_packU64Into_of_lt hlt hdropped), splice_succ hcount]
      rfl
  · rw [if_neg (fun hfull' => hcheck (hfull.mpr hfull')), if_neg hcheck, slotAt_eq]
    have hslot : ShmRing.slotAt mem (u64At mem Client.offTail) + slot.toList.length ≤
        mem.length := hlength ▸ h.slotAt_le _
    have htail_lt : (u64At mem Client.offTail).toNat + 1 < 2 ^ 64 := hroom.tail
    have hlt : leNat (slice mem Client.offTail 8) + 1 < 2 ^ 64 := by
      rwa [toNat_u64At] at htail_lt
    rw [Client.run_bind (Client.run_assignSlice hslot),
      Client.run_bind (Client.run_packU64Into_of_lt hlt (by rwa [length_splice hslot])),
      splice_succ htail_lt]
    rfl

/-- So do the two pops. -/
theorem tryPopRaw_eq (h : IsRing mem) (hroom : HasRoom mem 1) :
    (Client.tryPopRaw (Client.ShmRingEnd.ofBuf mem)).run.run mem =
      (.ok (ShmRing.tryPop mem).2, (ShmRing.tryPop mem).1) := by
  have hheader := h.header_le
  have hsize : ShmRingHeader.size = 192 := rfl
  have hhead : Client.offHead + 8 ≤ mem.length := by rw [Client.offHead]; omega
  have htail : Client.offTail + 8 ≤ mem.length := by rw [Client.offTail]; omega
  rw [Client.tryPopRaw, Client.run_bind (Client.run_unpackU64From hhead),
    Client.run_bind (Client.run_unpackU64From htail), ShmRing.tryPop]
  dsimp only
  have hempty : u64At mem ShmRingHeader.tail = u64At mem ShmRingHeader.head ↔
      leNat (slice mem Client.offHead 8) = leNat (slice mem Client.offTail 8) := by
    rw [← UInt64.toNat_inj, toNat_u64At, toNat_u64At, eq_comm]
    rfl
  by_cases hsame : u64At mem ShmRingHeader.tail = u64At mem ShmRingHeader.head
  · rw [if_pos (hempty.mp hsame), if_pos hsame]
    rfl
  · rw [if_neg (fun heq => hsame (hempty.mpr heq)), if_neg hsame, slotAt_eq]
    have hhead_lt : (u64At mem Client.offHead).toNat + 1 < 2 ^ 64 :=
      Nat.lt_of_le_of_lt (Nat.succ_le_succ h.head_le) hroom.tail
    have hlt : leNat (slice mem Client.offHead 8) + 1 < 2 ^ 64 := by
      rwa [toNat_u64At] at hhead_lt
    rw [Client.run_bind (Client.run_get mem),
      Client.run_bind (Client.run_packU64Into_of_lt hlt hhead),
      splice_succ hhead_lt]
    rfl

/-! ## What a call does to the header -/

/-- The fields that no call writes. -/
structure SameShape (mem mem' : Bytes) : Prop where
  length : mem'.length = mem.length
  capacity : slice mem' ShmRingHeader.capacity 4 = slice mem ShmRingHeader.capacity 4
  mask : slice mem' ShmRingHeader.capacityMask 4 = slice mem ShmRingHeader.capacityMask 4

/-- Nothing changed. -/
theorem SameShape.refl (mem : Bytes) : SameShape mem mem := ⟨rfl, rfl, rfl⟩

/-- The shape is kept call by call. -/
theorem SameShape.trans {mem' mem'' : Bytes} (h : SameShape mem mem')
    (h' : SameShape mem' mem'') : SameShape mem mem'' :=
  ⟨h'.length.trans h.length, h'.capacity.trans h.capacity, h'.mask.trans h.mask⟩

/-- The Python end reads the same constants again. -/
theorem SameShape.ofBuf_eq {mem' : Bytes} (h : SameShape mem mem') :
    Client.ShmRingEnd.ofBuf mem' = Client.ShmRingEnd.ofBuf mem :=
  congrArg₂ (fun c m => Client.ShmRingEnd.mk (leNat c) (leNat m)) h.capacity h.mask

/-- A ring of the same shape is one while its counters are in order. -/
theorem SameShape.isRing {mem' : Bytes} (h : SameShape mem mem') (hring : IsRing mem)
    (hle : (u64At mem' ShmRingHeader.head).toNat ≤ (u64At mem' ShmRingHeader.tail).toNat) :
    IsRing mem' := by
  have hcapacity : u32At mem' ShmRingHeader.capacity = u32At mem ShmRingHeader.capacity := by
    rw [u32At, h.capacity, u32At]
  have hmask : u32At mem' ShmRingHeader.capacityMask = u32At mem ShmRingHeader.capacityMask := by
    rw [u32At, h.mask, u32At]
  constructor
  case isPow => rw [hcapacity]; exact hring.isPow
  case mask => rw [hcapacity, hmask]; exact hring.mask
  case length => rw [hcapacity, h.length]; exact hring.length
  case head_le => exact hle

/-- A write to one of the counters. -/
theorem putU64_frame (hheader : 136 ≤ mem.length) {offset : ℕ} (hoffset : offset + 8 ≤ 136)
    (v : UInt64) :
    SameShape mem (putU64 mem offset v) ∧ u64At (putU64 mem offset v) offset = v ∧
      ∀ other, other + 8 ≤ offset ∨ offset + 8 ≤ other →
        u64At (putU64 mem offset v) other = u64At mem other := by
  have hbound : offset + 8 ≤ mem.length := by omega
  have hcapacity : ShmRingHeader.capacity = 140 := rfl
  have hmask : ShmRingHeader.capacityMask = 144 := rfl
  refine ⟨⟨length_putU64 hbound v, ?_, ?_⟩, u64At_putU64_self hbound v, fun other hother => ?_⟩
  · exact slice_putU64_of_disjoint hbound v (by omega)
  · exact slice_putU64_of_disjoint hbound v (by omega)
  · rw [u64At, slice_putU64_of_disjoint hbound v hother, u64At]

/-- A write to a slot that lies inside the segment. -/
theorem splice_frame {index : UInt64} (h : ShmRing.slotAt mem index + shmSlotSize ≤ mem.length)
    (slot : ShmSlot) :
    let mem' := splice mem (ShmRing.slotAt mem index) slot.toList
    SameShape mem mem' ∧ ∀ other, other + 8 ≤ ShmRingHeader.size →
      u64At mem' other = u64At mem other := by
  have hlength : slot.toList.length = shmSlotSize := slot.length_toList
  have hbound : ShmRing.slotAt mem index + slot.toList.length ≤ mem.length := by rwa [hlength]
  have hbehind : ShmRingHeader.size ≤ ShmRing.slotAt mem index := Nat.le_add_right _ _
  have hcapacity : ShmRingHeader.capacity + 4 ≤ ShmRingHeader.size := by decide
  have hmask : ShmRingHeader.capacityMask + 4 ≤ ShmRingHeader.size := by decide
  refine ⟨⟨length_splice hbound, ?_, ?_⟩, fun other hother => ?_⟩
  · exact slice_splice_of_disjoint hbound (.inl (Nat.le_trans hcapacity hbehind))
  · exact slice_splice_of_disjoint hbound (.inl (Nat.le_trans hmask hbehind))
  · rw [u64At, slice_splice_of_disjoint hbound (.inl (Nat.le_trans hother hbehind)), u64At]

/-- What is left of a ring after a call: a ring of the same shape, with room for one call less. -/
structure AfterCall (mem mem' : Bytes) (calls : ℕ) : Prop where
  shape : SameShape mem mem'
  isRing : IsRing mem'
  room : HasRoom mem' calls

/-- A push leaves a ring, with room for the calls still to come. -/
theorem afterCall_tryPush (h : IsRing mem) {calls : ℕ} (hroom : HasRoom mem (calls + 1))
    (slot : ShmSlot) (countDrop : Bool) :
    AfterCall mem (ShmRing.tryPush mem slot countDrop).1 calls := by
  obtain ⟨htail, hdropped⟩ := hroom
  have hsame : AfterCall mem mem calls :=
    ⟨⟨rfl, rfl, rfl⟩, h, ⟨by omega, by omega⟩⟩
  rw [ShmRing.tryPush]
  dsimp only
  split_ifs with hcheck hcount
  · obtain ⟨hshape, hself, hother⟩ :=
      putU64_frame h.counters_le (by decide : ShmRingHeader.dropped + 8 ≤ 136)
      (u64At mem ShmRingHeader.dropped + 1)
    have hhead := hother ShmRingHeader.head (by decide)
    have htail' := hother ShmRingHeader.tail (by decide)
    refine ⟨hshape, hshape.isRing h ?_, ?_, ?_⟩
    · rw [hhead, htail']
      exact h.head_le
    · rw [htail']
      omega
    · rw [hself, toNat_succ (by omega)]
      omega
  · exact hsame
  · obtain ⟨hslot, hkept⟩ := splice_frame (h.slotAt_le (u64At mem ShmRingHeader.tail)) slot
    have hhead₁ := hkept ShmRingHeader.head (by decide)
    have htail₁ := hkept ShmRingHeader.tail (by decide)
    have hdropped₁ := hkept ShmRingHeader.dropped (by decide)
    have hring := hslot.isRing h (by rw [hhead₁, htail₁]; exact h.head_le)
    obtain ⟨hshape, hself, hother⟩ := putU64_frame hring.counters_le
      (by decide : ShmRingHeader.tail + 8 ≤ 136) (u64At mem ShmRingHeader.tail + 1)
    have hhead := hother ShmRingHeader.head (by decide)
    have hdropped' := hother ShmRingHeader.dropped (by decide)
    have hle := h.head_le
    refine ⟨?_, hshape.isRing hring ?_, ?_, ?_⟩
    · exact hslot.trans hshape
    · rw [hhead, hself, hhead₁, toNat_succ (by omega)]
      omega
    · rw [hself, toNat_succ (by omega)]
      omega
    · rw [hdropped', hdropped₁]
      omega

/-- So does a pop. -/
theorem afterCall_tryPop (h : IsRing mem) {calls : ℕ} (hroom : HasRoom mem (calls + 1)) :
    AfterCall mem (ShmRing.tryPop mem).1 calls := by
  obtain ⟨htail, hdropped⟩ := hroom
  have hle := h.head_le
  rw [ShmRing.tryPop]
  dsimp only
  split_ifs with hempty
  · exact ⟨⟨rfl, rfl, rfl⟩, h, ⟨by dsimp only; omega, by dsimp only; omega⟩⟩
  · obtain ⟨hshape, hself, hother⟩ :=
      putU64_frame h.counters_le (by decide : ShmRingHeader.head + 8 ≤ 136)
      (u64At mem ShmRingHeader.head + 1)
    have htail' := hother ShmRingHeader.tail (by decide)
    have hdropped' := hother ShmRingHeader.dropped (by decide)
    have hne : (u64At mem ShmRingHeader.head).toNat ≠ (u64At mem ShmRingHeader.tail).toNat :=
      fun heq => hempty (UInt64.toNat_inj.mp heq).symm
    refine ⟨hshape, hshape.isRing h ?_, ?_, ?_⟩
    · rw [hself, htail', toNat_succ (by omega)]
      omega
    · rw [htail']
      omega
    · rw [hdropped']
      omega

end Agree

/-! ## Runs of calls from either side -/

/-- A call on the ring. -/
inductive RingCall where
  | tryPush (slot : ShmSlot) (countDrop : Bool)
  | tryPop
deriving DecidableEq

/-- What a call returned. -/
inductive RingResult where
  | pushed (ok : Bool)
  | popped (slot : Option Bytes)
deriving DecidableEq

/-- Which side makes a call. -/
inductive RingSide where
  | cpp
  | python
deriving DecidableEq, Repr

/-- A call made by one of the sides; the Python end has been opened before. -/
def ringCall (self : Client.ShmRingEnd) (mem : Bytes) :
    RingSide × RingCall → Bytes × Except Client.PyError RingResult
  | (.cpp, .tryPush slot countDrop) =>
    let r := ShmRing.tryPush mem slot countDrop
    (r.1, .ok (.pushed r.2))
  | (.cpp, .tryPop) =>
    let r := ShmRing.tryPop mem
    (r.1, .ok (.popped r.2))
  | (.python, .tryPush slot countDrop) =>
    let r := (Client.tryPushRaw self slot.toList countDrop).run.run mem
    (r.2, r.1.map .pushed)
  | (.python, .tryPop) =>
    let r := (Client.tryPopRaw self).run.run mem
    (r.2, r.1.map .popped)

/-- The memory and the results after some calls. -/
def ringCalls (self : Client.ShmRingEnd) (mem : Bytes) :
    List (RingSide × RingCall) → Bytes × List (Except Client.PyError RingResult)
  | [] => (mem, [])
  | call :: calls =>
    let r := ringCall self mem call
    let rest := ringCalls self r.1 calls
    (rest.1, r.2 :: rest.2)

/-- Either side makes a call alike. -/
theorem ringCall_eq {mem : Bytes} (h : IsRing mem) (hroom : HasRoom mem 1) (side : RingSide)
    (call : RingCall) :
    ringCall (.ofBuf mem) mem (side, call) = ringCall (.ofBuf mem) mem (.cpp, call) := by
  cases side with
  | cpp => rfl
  | python =>
    cases call with
    | tryPush slot countDrop =>
      simp only [ringCall, tryPushRaw_eq h hroom]
      rfl
    | tryPop =>
      simp only [ringCall, tryPopRaw_eq h hroom]
      rfl

/-- So does a call of either end. -/
theorem afterCall_ringCall {mem : Bytes} (h : IsRing mem) {calls : ℕ}
    (hroom : HasRoom mem (calls + 1)) (self : Client.ShmRingEnd) (call : RingCall) :
    AfterCall mem (ringCall self mem (.cpp, call)).1 calls := by
  cases call with
  | tryPush slot countDrop => exact afterCall_tryPush h hroom slot countDrop
  | tryPop => exact afterCall_tryPop h hroom

/-- The sides can be mixed freely. -/
theorem ringCalls_eq {mem : Bytes} (h : IsRing mem) (calls : List (RingSide × RingCall))
    (hroom : HasRoom mem calls.length) :
    ringCalls (.ofBuf mem) mem calls =
      ringCalls (.ofBuf mem) mem (calls.map fun call => (.cpp, call.2)) := by
  induction calls generalizing mem with
  | nil => rfl
  | cons call calls ih =>
    obtain ⟨side, call⟩ := call
    have hone : HasRoom mem 1 := by
      obtain ⟨htail, hdropped⟩ := hroom
      rw [List.length_cons] at htail hdropped
      exact ⟨by omega, by omega⟩
    have hafter := afterCall_ringCall h hroom (.ofBuf mem) call
    have hrest := ih hafter.isRing hafter.room
    rw [hafter.shape.ofBuf_eq] at hrest
    rw [List.map_cons, ringCalls, ringCalls, ringCall_eq h hone side call]
    dsimp only
    rw [hrest]

/-- The two sides share one wire format and one ring: what Python packs is the C++ struct with the
same values, what C++ writes unpacks to the same values, the header constants are the laid-out
offsets, and on a ring with room in its counters either side makes each call alike. -/
theorem sharedMemory_agree :
    (∀ order : Client.ShmNewOrder, order.InDomain → ∃ slot, Client.packNewOrder order = some slot ∧
      slot.length = shmSlotSize ∧
      (ShmNewOrder.read slot).1.tag = ShmMsgType.newOrder.toUInt16 ∧
      (ShmNewOrder.read slot).1.toTuple = order) ∧
    (∀ cancel : Client.ShmCancelOrder, cancel.InDomain → ∃ slot,
      Client.packCancelOrder cancel = some slot ∧ slot.length = shmSlotSize ∧
      (ShmCancelOrder.read slot).1.tag = ShmMsgType.cancelOrder.toUInt16 ∧
      (ShmCancelOrder.read slot).1.toTuple = cancel) ∧
    ((∀ v : ShmTopOfBook, v.tag = ShmMsgType.topOfBook.toUInt16 →
        Client.readSlot (reprOf v.members) = some (Client.tagTob, .tob v.toTuple)) ∧
      (∀ v : ShmNewOrder, v.tag = ShmMsgType.newOrder.toUInt16 →
        Client.readSlot (reprOf v.members) = some (Client.tagNewOrder, .newOrder v.toTuple)) ∧
      (∀ v : ShmCancelOrder, v.tag = ShmMsgType.cancelOrder.toUInt16 →
        Client.readSlot (reprOf v.members) = some (Client.tagCancelOrder, .cancelOrder v.toTuple)) ∧
      (∀ v : ShmOrderAck, v.tag = ShmMsgType.orderAck.toUInt16 →
        Client.readSlot (reprOf v.members) = some (Client.tagOrderAck, .ack v.toTuple)) ∧
      (∀ v : ShmOrderFill, v.tag = ShmMsgType.orderFill.toUInt16 →
        Client.readSlot (reprOf v.members) = some (Client.tagOrderFill, .fill v.toTuple)) ∧
      (∀ v : ShmOrderReject, v.tag = ShmMsgType.orderReject.toUInt16 →
        Client.readSlot (reprOf v.members) = some (Client.tagOrderReject, .reject v.toTuple))) ∧
    [ShmRingHeader.head, ShmRingHeader.tail, ShmRingHeader.dropped, ShmRingHeader.magic,
      ShmRingHeader.capacity, ShmRingHeader.capacityMask, ShmRingHeader.slotSize,
      ShmRingHeader.size, shmSlotSize] =
    [Client.offHead, Client.offTail, Client.offDropped, Client.offMagic, Client.offCapacity,
      Client.offMask, Client.offSlotSize, Client.headerSize, Client.slotSize] ∧
    ∀ mem : Bytes, IsRing mem →
      (HasRoom mem 1 → ∀ side call,
        ringCall (.ofBuf mem) mem (side, call) = ringCall (.ofBuf mem) mem (.cpp, call)) ∧
      ∀ calls : List (RingSide × RingCall), HasRoom mem calls.length →
        ringCalls (.ofBuf mem) mem calls =
          ringCalls (.ofBuf mem) mem (calls.map fun call => (.cpp, call.2)) := by
  refine ⟨fun order horder => ?_, fun cancel hcancel => ?_, ⟨?_, ?_, ?_, ?_, ?_, ?_⟩,
    ShmRingHeader.layout_eq, fun mem hring => ⟨?_, ?_⟩⟩
  · obtain ⟨v, htag, htuple, hpack⟩ := packNewOrder_eq horder
    have hread := v.read_reprOf []
    rw [List.append_nil] at hread
    refine ⟨_, hpack, length_reprOf v.members, ?_, ?_⟩
    · rw [hread, htag]
    · rw [hread, htuple]
  · obtain ⟨v, htag, htuple, hpack⟩ := packCancelOrder_eq hcancel
    have hread := v.read_reprOf []
    rw [List.append_nil] at hread
    refine ⟨_, hpack, length_reprOf v.members, ?_, ?_⟩
    · rw [hread, htag]
    · rw [hread, htuple]
  · exact fun _ htag => readSlot_topOfBook htag
  · exact fun _ htag => readSlot_newOrder htag
  · exact fun _ htag => readSlot_cancelOrder htag
  · exact fun _ htag => readSlot_orderAck htag
  · exact fun _ htag => readSlot_orderFill htag
  · exact fun _ htag => readSlot_orderReject htag
  · exact fun hroom => ringCall_eq hring hroom
  · exact fun calls hroom => ringCalls_eq hring calls hroom

/-- An empty ring of two slots. -/
def twoSlots : Bytes :=
  putU32 (putU32 (List.replicate 320 0) ShmRingHeader.capacity 2) ShmRingHeader.capacityMask 1

/-- Both sides push and pop in turn, until the ring is full. -/
def mixedCalls : List (RingSide × RingCall) :=
  [(.python, .tryPush (.replicate 64 1) false), (.cpp, .tryPush (.replicate 64 2) false),
    (.python, .tryPush (.replicate 64 3) true), (.cpp, .tryPop), (.python, .tryPop),
    (.python, .tryPop)]

/-- An ask at a negative price with the largest order identifier, and calls of both sides in turn on
one ring. -/
theorem sharedMemory_agree_ask :
    let order : Client.ShmNewOrder :=
      { side := 2, postOnly := 1, seq := 7, epoch := 3, mdSeq := 9, clId := 2 ^ 64 - 1, px := -5
        qty := 10, sendTsNs := 0 }
    (∃ slot, Client.packNewOrder order = some slot ∧ slot.length = shmSlotSize ∧
      (ShmNewOrder.read slot).1.tag = ShmMsgType.newOrder.toUInt16 ∧
      (ShmNewOrder.read slot).1.toTuple = order) ∧
    ringCalls (.ofBuf twoSlots) twoSlots mixedCalls =
      ringCalls (.ofBuf twoSlots) twoSlots (mixedCalls.map fun call => (.cpp, call.2)) := by
  obtain ⟨horders, -, -, -, hrings⟩ := sharedMemory_agree
  refine ⟨horders _ ?_, (hrings twoSlots ?_).2 mixedCalls ?_⟩
  · exact
      { side := ⟨by decide, by decide⟩, postOnly := ⟨by decide, by decide⟩
        seq := ⟨by decide, by decide⟩, epoch := ⟨by decide, by decide⟩
        mdSeq := ⟨by decide, by decide⟩, clId := ⟨by decide, by decide⟩
        px := ⟨by decide, by decide⟩, qty := ⟨by decide, by decide⟩
        sendTsNs := ⟨by decide, by decide⟩ }
  · exact
      { isPow := ⟨1, by decide +kernel⟩, mask := by decide +kernel, length := by decide +kernel
        head_le := by decide +kernel }
  · exact ⟨by decide +kernel, by decide +kernel⟩

end MarketMaker
