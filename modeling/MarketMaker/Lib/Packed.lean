import Mathlib.Algebra.Order.Ring.Int
import Mathlib.Data.List.Basic
import Mathlib.Tactic.Common

/-!
# Packed binary records

Fixed-width little-endian integers, and the two views of a packed record: the members of a struct
that are laid out one directly after the other, and the format strings of a byte-packing module
with standard sizes and no padding. `pack_members` and `unpack_members` say that a format lists
the members of a struct, code by code, exactly when the two views agree on every value.
-/

namespace Packed

/-! ## Little-endian integers -/

/-- The `width` low bytes of a number, least significant first. -/
def leBytes : ℕ → ℕ → List UInt8
  | 0, _ => []
  | width + 1, n => UInt8.ofNat n :: leBytes width (n / 256)

/-- The number with the given bytes. -/
def leNat : List UInt8 → ℕ
  | [] => 0
  | b :: bs => b.toNat + 256 * leNat bs

/-- A field has its width. -/
@[simp]
theorem length_leBytes (width n : ℕ) : (leBytes width n).length = width := by
  induction width generalizing n with
  | zero => rfl
  | succ width ih => rw [leBytes, List.length_cons, ih]

/-- A number is stored modulo its width. -/
theorem leNat_leBytes (width n : ℕ) : leNat (leBytes width n) = n % 256 ^ width := by
  induction width generalizing n with
  | zero => rw [leBytes, leNat, Nat.pow_zero, Nat.mod_one]
  | succ width ih =>
    have hlow : (UInt8.ofNat n).toNat = n % 256 := UInt8.toNat_ofNat'
    rw [leBytes, leNat, ih, hlow, Nat.pow_succ', Nat.mod_mul]

/-- A number that fits is read back. -/
theorem leNat_leBytes_of_lt {width n : ℕ} (h : n < 256 ^ width) : leNat (leBytes width n) = n := by
  rw [leNat_leBytes, Nat.mod_eq_of_lt h]

/-- The two's complement value of a 64-bit pattern. -/
def signed64 (n : ℕ) : ℤ := if n < 2 ^ 63 then n else n - 2 ^ 64

/-- The 64-bit pattern of a number, as its two's complement residue. -/
def pattern64 (z : ℤ) : ℕ := (z % 2 ^ 64).toNat

/-! ## The members of a packed struct -/

/-- A member of a packed struct, with its value. -/
inductive Member where
  | u8 (v : UInt8)
  | u16 (v : UInt16)
  | u32 (v : UInt32)
  | u64 (v : UInt64)
  | i64 (v : Int64)
  /-- An array of bytes. -/
  | bytes (n : ℕ) (v : Vector UInt8 n)
deriving DecidableEq

/-- The object representation of a member on a little-endian host. -/
def Member.repr : Member → List UInt8
  | .u8 v => leBytes 1 v.toNat
  | .u16 v => leBytes 2 v.toNat
  | .u32 v => leBytes 4 v.toNat
  | .u64 v => leBytes 8 v.toNat
  | .i64 v => leBytes 8 v.toUInt64.toNat
  | .bytes _ v => v.toList

/-- The object representation of a packed struct. -/
def reprOf (members : List Member) : List UInt8 := members.flatMap Member.repr

/-- A reader of members that follow one another. -/
abbrev Reader (α : Type) := StateM (List UInt8) α

/-- The next bytes. -/
def next (width : ℕ) : Reader (List UInt8) := fun bs => (bs.take width, bs.drop width)

def readU8 : Reader UInt8 := UInt8.ofNat <$> leNat <$> next 1

def readU16 : Reader UInt16 := UInt16.ofNat <$> leNat <$> next 2

def readU32 : Reader UInt32 := UInt32.ofNat <$> leNat <$> next 4

def readU64 : Reader UInt64 := UInt64.ofNat <$> leNat <$> next 8

def readI64 : Reader Int64 := UInt64.toInt64 <$> readU64

def readBytes (n : ℕ) : Reader (Vector UInt8 n) :=
  (fun bs => Vector.ofFn fun i : Fin n => bs.getD i 0) <$> next n

/-- A field is taken off the front. -/
theorem next_append {width : ℕ} {bs rest : List UInt8} (h : bs.length = width) :
    next width (bs ++ rest) = (bs, rest) := by
  rw [next, List.take_left' h, List.drop_left' h]

section Read

variable (rest : List UInt8)

/-- A `uint8_t` is read back. -/
@[simp]
theorem readU8_repr (v : UInt8) : readU8 ((Member.u8 v).repr ++ rest) = (v, rest) := by
  have hnext : next 1 (leBytes 1 v.toNat ++ rest) = (leBytes 1 v.toNat, rest) :=
    next_append (length_leBytes 1 v.toNat)
  have hv : leNat (leBytes 1 v.toNat) = v.toNat := leNat_leBytes_of_lt v.toNat_lt
  change (UInt8.ofNat (leNat (next 1 (leBytes 1 v.toNat ++ rest)).1),
    (next 1 (leBytes 1 v.toNat ++ rest)).2) = _
  rw [hnext, hv, UInt8.ofNat_toNat]

/-- A `uint16_t` is read back. -/
@[simp]
theorem readU16_repr (v : UInt16) : readU16 ((Member.u16 v).repr ++ rest) = (v, rest) := by
  have hnext : next 2 (leBytes 2 v.toNat ++ rest) = (leBytes 2 v.toNat, rest) :=
    next_append (length_leBytes 2 v.toNat)
  have hv : leNat (leBytes 2 v.toNat) = v.toNat := leNat_leBytes_of_lt v.toNat_lt
  change (UInt16.ofNat (leNat (next 2 (leBytes 2 v.toNat ++ rest)).1),
    (next 2 (leBytes 2 v.toNat ++ rest)).2) = _
  rw [hnext, hv, UInt16.ofNat_toNat]

/-- A `uint32_t` is read back. -/
@[simp]
theorem readU32_repr (v : UInt32) : readU32 ((Member.u32 v).repr ++ rest) = (v, rest) := by
  have hnext : next 4 (leBytes 4 v.toNat ++ rest) = (leBytes 4 v.toNat, rest) :=
    next_append (length_leBytes 4 v.toNat)
  have hv : leNat (leBytes 4 v.toNat) = v.toNat := leNat_leBytes_of_lt v.toNat_lt
  change (UInt32.ofNat (leNat (next 4 (leBytes 4 v.toNat ++ rest)).1),
    (next 4 (leBytes 4 v.toNat ++ rest)).2) = _
  rw [hnext, hv, UInt32.ofNat_toNat]

/-- A `uint64_t` is read back. -/
@[simp]
theorem readU64_repr (v : UInt64) : readU64 ((Member.u64 v).repr ++ rest) = (v, rest) := by
  have hnext : next 8 (leBytes 8 v.toNat ++ rest) = (leBytes 8 v.toNat, rest) :=
    next_append (length_leBytes 8 v.toNat)
  have hv : leNat (leBytes 8 v.toNat) = v.toNat := leNat_leBytes_of_lt v.toNat_lt
  change (UInt64.ofNat (leNat (next 8 (leBytes 8 v.toNat ++ rest)).1),
    (next 8 (leBytes 8 v.toNat ++ rest)).2) = _
  rw [hnext, hv, UInt64.ofNat_toNat]

/-- An `int64_t` is read back. -/
@[simp]
theorem readI64_repr (v : Int64) : readI64 ((Member.i64 v).repr ++ rest) = (v, rest) := by
  have hread := readU64_repr rest v.toUInt64
  change (UInt64.toInt64 (readU64 ((Member.u64 v.toUInt64).repr ++ rest)).1,
    (readU64 ((Member.u64 v.toUInt64).repr ++ rest)).2) = _
  rw [hread]
  rfl

/-- A `char` array is read back. -/
@[simp]
theorem readBytes_repr (n : ℕ) (v : Vector UInt8 n) :
    readBytes n ((Member.bytes n v).repr ++ rest) = (v, rest) := by
  have hnext : next n (v.toList ++ rest) = (v.toList, rest) := next_append v.length_toList
  change (Vector.ofFn fun i : Fin n => (next n (v.toList ++ rest)).1.getD i 0,
    (next n (v.toList ++ rest)).2) = _
  rw [hnext]
  refine Prod.ext (Vector.ext fun i hi => ?_) rfl
  simp

end Read

/-! ## Format strings -/

/-- A format code with its standard size: unsigned and signed integers, and `n` raw bytes. -/
inductive Code where
  | B
  | H
  | I
  | Q
  | q
  | s (n : ℕ)
deriving DecidableEq, Repr

/-- A value that a format packs. -/
inductive Value where
  | int (z : ℤ)
  | raw (bs : List UInt8)
deriving DecidableEq, Repr

def Code.size : Code → ℕ
  | .B => 1
  | .H => 2
  | .I => 4
  | .Q | .q => 8
  | .s n => n

/-- The size of a format. -/
def calcsize (format : List Code) : ℕ := (format.map Code.size).sum

/-- The bytes of an unsigned integer, if it is in range. -/
def packUnsigned (width : ℕ) : Value → Option (List UInt8)
  | .int z => if 0 ≤ z ∧ z < 256 ^ width then some (leBytes width z.toNat) else none
  | .raw _ => none

/-- One value under one code. Raw bytes are cut or padded with zeros. -/
def Code.pack : Code → Value → Option (List UInt8)
  | .B, v => packUnsigned 1 v
  | .H, v => packUnsigned 2 v
  | .I, v => packUnsigned 4 v
  | .Q, v => packUnsigned 8 v
  | .q, .int z => if -2 ^ 63 ≤ z ∧ z < 2 ^ 63 then some (leBytes 8 (pattern64 z)) else none
  | .q, .raw _ => none
  | .s n, .raw bs => some (bs.take n ++ List.replicate (n - bs.length) 0)
  | .s _, .int _ => none

/-- Packing, which fails on a value out of range, of another type, too many or too few. -/
def pack : List Code → List Value → Option (List UInt8)
  | [], [] => some []
  | code :: codes, v :: vs =>
    match code.pack v, pack codes vs with
    | some bs, some rest => some (bs ++ rest)
    | _, _ => none
  | _, _ => none

/-- The value of one code's bytes. -/
def Code.unpack : Code → List UInt8 → Value
  | .B, bs | .H, bs | .I, bs | .Q, bs => .int (leNat bs)
  | .q, bs => .int (signed64 (leNat bs))
  | .s _, bs => .raw bs

/-- The values at the front of the bytes. -/
def unpackAll : List Code → List UInt8 → List Value
  | [], _ => []
  | code :: codes, bs => code.unpack (bs.take code.size) :: unpackAll codes (bs.drop code.size)

/-- Unpacking, which fails on bytes of another size. -/
def unpack (format : List Code) (bs : List UInt8) : Option (List Value) :=
  if bs.length = calcsize format then some (unpackAll format bs) else none

/-- Unpacking the values at the front, which fails on too few bytes. -/
def unpackFrom (format : List Code) (bs : List UInt8) : Option (List Value) :=
  if calcsize format ≤ bs.length then some (unpackAll format bs) else none

/-! ## The two views -/

/-- The format code of a member. -/
def Member.code : Member → Code
  | .u8 _ => .B
  | .u16 _ => .H
  | .u32 _ => .I
  | .u64 _ => .Q
  | .i64 _ => .q
  | .bytes n _ => .s n

/-- The value of a member. -/
def Member.value : Member → Value
  | .u8 v => .int v.toNat
  | .u16 v => .int v.toNat
  | .u32 v => .int v.toNat
  | .u64 v => .int v.toNat
  | .i64 v => .int v.toInt
  | .bytes _ v => .raw v.toList

/-- A member is as long as its code says. -/
theorem Member.length_repr (m : Member) : m.repr.length = m.code.size := by
  cases m with
  | bytes n v => exact v.length_toList
  | _ => exact length_leBytes _ _

/-- So are several. -/
theorem length_reprOf (members : List Member) :
    (reprOf members).length = calcsize (members.map Member.code) := by
  induction members with
  | nil => rfl
  | cons m members ih =>
    rw [reprOf, List.flatMap_cons, List.length_append, m.length_repr, ← reprOf, ih]
    rfl

/-- The pattern of a signed integer stands for it. -/
theorem signed64_toNat (v : Int64) : signed64 v.toUInt64.toNat = v.toInt := by
  rw [signed64, Int64.toInt, BitVec.toInt_eq_toNat_cond]
  have hv : v.toUInt64.toNat = v.toBitVec.toNat := rfl
  rw [hv]
  split_ifs <;> omega

/-- The bit pattern of an `int64_t` is that of its value. -/
theorem pattern64_toInt (v : Int64) : pattern64 v.toInt = v.toUInt64.toNat := by
  have hv : v.toUInt64.toNat = v.toBitVec.toNat := rfl
  have hlt := v.toBitVec.isLt
  rw [pattern64, Int64.toInt, BitVec.toInt_eq_toNat_cond, hv]
  split_ifs <;> omega

/-- `unpack` reads a member back. -/
theorem Member.unpack_repr (m : Member) : m.code.unpack m.repr = m.value := by
  cases m with
  | u8 v => exact congrArg (Value.int ∘ Nat.cast) (leNat_leBytes_of_lt v.toNat_lt)
  | u16 v => exact congrArg (Value.int ∘ Nat.cast) (leNat_leBytes_of_lt v.toNat_lt)
  | u32 v => exact congrArg (Value.int ∘ Nat.cast) (leNat_leBytes_of_lt v.toNat_lt)
  | u64 v => exact congrArg (Value.int ∘ Nat.cast) (leNat_leBytes_of_lt v.toNat_lt)
  | i64 v =>
    have hv : leNat (leBytes 8 v.toUInt64.toNat) = v.toUInt64.toNat :=
      leNat_leBytes_of_lt v.toUInt64.toNat_lt
    rw [Member.code, Member.repr, Code.unpack, hv, signed64_toNat, Member.value]
  | bytes n v => rfl

/-- It reads several back, in their order. -/
theorem unpackAll_members (members : List Member) (rest : List UInt8) :
    unpackAll (members.map Member.code) (reprOf members ++ rest) = members.map Member.value := by
  induction members with
  | nil => rfl
  | cons m members ih =>
    rw [List.map_cons, reprOf, List.flatMap_cons, List.append_assoc, unpackAll,
      List.take_left' m.length_repr, List.drop_left' m.length_repr, m.unpack_repr, ← reprOf, ih,
      List.map_cons]

/-- What the format reads from a struct is its members. -/
theorem unpack_members (members : List Member) :
    unpack (members.map Member.code) (reprOf members) = some (members.map Member.value) := by
  have hvalues := unpackAll_members members []
  rw [List.append_nil] at hvalues
  rw [unpack, if_pos (length_reprOf members), hvalues]

/-- The same, with other bytes after the struct. -/
theorem unpackFrom_members (members : List Member) (rest : List UInt8) :
    unpackFrom (members.map Member.code) (reprOf members ++ rest) =
      some (members.map Member.value) := by
  have hle : calcsize (members.map Member.code) ≤ (reprOf members ++ rest).length := by
    rw [List.length_append, length_reprOf]
    exact Nat.le_add_right _ _
  rw [unpackFrom, if_pos hle, unpackAll_members]

/-- A number that fits is packed. -/
theorem packUnsigned_cast {width n : ℕ} (h : n < 256 ^ width) :
    packUnsigned width (.int n) = some (leBytes width n) := by
  rw [packUnsigned, if_pos ⟨Int.natCast_nonneg n, by exact_mod_cast h⟩, Int.toNat_natCast]

/-- `pack` writes a member as memory has it. -/
theorem Member.pack_value (m : Member) : m.code.pack m.value = some m.repr := by
  cases m with
  | u8 v =>
    have hv : v.toNat < 256 ^ 1 := v.toNat_lt
    rw [Member.code, Member.value, Code.pack, packUnsigned_cast hv, Member.repr]
  | u16 v =>
    have hv : v.toNat < 256 ^ 2 := v.toNat_lt
    rw [Member.code, Member.value, Code.pack, packUnsigned_cast hv, Member.repr]
  | u32 v =>
    have hv : v.toNat < 256 ^ 4 := v.toNat_lt
    rw [Member.code, Member.value, Code.pack, packUnsigned_cast hv, Member.repr]
  | u64 v =>
    have hv : v.toNat < 256 ^ 8 := v.toNat_lt
    rw [Member.code, Member.value, Code.pack, packUnsigned_cast hv, Member.repr]
  | i64 v =>
    have hrange : -2 ^ 63 ≤ v.toInt ∧ v.toInt < 2 ^ 63 := ⟨v.le_toInt, v.toInt_lt⟩
    rw [Member.code, Member.value, Code.pack, if_pos hrange, pattern64_toInt, Member.repr]
  | bytes n v =>
    have hlength := v.length_toList
    rw [Member.code, Member.value, Code.pack, List.take_of_length_le hlength.le, hlength,
      Nat.sub_self, List.replicate_zero, List.append_nil, Member.repr]

/-- What the format writes for the members of a struct is the struct. -/
theorem pack_members (members : List Member) :
    pack (members.map Member.code) (members.map Member.value) = some (reprOf members) := by
  induction members with
  | nil => rfl
  | cons m members ih =>
    rw [List.map_cons, List.map_cons, pack, m.pack_value, ih]
    rfl

/-! ## A region of memory -/

/-- So many bytes from an offset on. -/
def slice (mem : List UInt8) (offset width : ℕ) : List UInt8 := (mem.drop offset).take width

/-- The memory with some bytes written at an offset. -/
def splice (mem : List UInt8) (offset : ℕ) (bs : List UInt8) : List UInt8 :=
  mem.take offset ++ bs ++ mem.drop (offset + bs.length)

/-- The bytes between two others. -/
theorem slice_append {front bs back : List UInt8} {offset width : ℕ}
    (hoffset : front.length = offset)
    (hwidth : bs.length = width) : slice (front ++ (bs ++ back)) offset width = bs := by
  rw [slice, List.drop_left' hoffset, List.take_left' hwidth]

section Splice

variable {mem bs : List UInt8} {offset : ℕ} (h : offset + bs.length ≤ mem.length)

include h

/-- Writing in place keeps the length. -/
theorem length_splice : (splice mem offset bs).length = mem.length := by
  rw [splice, List.length_append, List.length_append, List.length_take, List.length_drop]
  omega

/-- What was written is read. -/
theorem slice_splice_self : slice (splice mem offset bs) offset bs.length = bs := by
  have htake : (mem.take offset).length = offset := by
    rw [List.length_take]
    omega
  rw [splice, List.append_assoc, slice_append htake rfl]

/-- A write elsewhere is not seen. -/
theorem slice_splice_of_disjoint {other width : ℕ}
    (hdisjoint : other + width ≤ offset ∨ offset + bs.length ≤ other) :
    slice (splice mem offset bs) other width = slice mem other width := by
  have htake : (mem.take offset).length = offset := by
    rw [List.length_take]
    omega
  apply List.ext_getElem?
  intro i
  rw [slice, slice, List.getElem?_take, List.getElem?_take]
  split_ifs with hi
  · rw [List.getElem?_drop, List.getElem?_drop, splice]
    obtain hbefore | hafter := hdisjoint
    · rw [List.append_assoc, List.getElem?_append_left (by omega), List.getElem?_take,
        if_pos (by omega)]
    · have hlength : (mem.take offset ++ bs).length = offset + bs.length := by
        rw [List.length_append, htake]
      rw [List.getElem?_append_right (by omega), hlength, List.getElem?_drop]
      congr 1
      omega
  · rfl

end Splice

/-- A little-endian integer in memory. -/
def u64At (mem : List UInt8) (offset : ℕ) : UInt64 := .ofNat (leNat (slice mem offset 8))

def u32At (mem : List UInt8) (offset : ℕ) : UInt32 := .ofNat (leNat (slice mem offset 4))

def putU64 (mem : List UInt8) (offset : ℕ) (v : UInt64) : List UInt8 :=
  splice mem offset (leBytes 8 v.toNat)

def putU32 (mem : List UInt8) (offset : ℕ) (v : UInt32) : List UInt8 :=
  splice mem offset (leBytes 4 v.toNat)

/-- A field holds no more than its width. -/
theorem leNat_lt (bs : List UInt8) : leNat bs < 256 ^ bs.length := by
  induction bs with
  | nil => exact Nat.one_pos
  | cons b bs ih =>
    have hb : b.toNat < 256 := b.toNat_lt
    rw [leNat, List.length_cons, Nat.pow_succ]
    omega

/-- So does a slice. -/
theorem leNat_slice_lt (mem : List UInt8) (offset width : ℕ) :
    leNat (slice mem offset width) < 256 ^ width := by
  have hlength : (slice mem offset width).length ≤ width := by
    rw [slice, List.length_take]
    exact Nat.min_le_left _ _
  exact Nat.lt_of_lt_of_le (leNat_lt _) (Nat.pow_le_pow_right (by decide) hlength)

/-- A 64-bit field is its eight bytes. -/
theorem toNat_u64At (mem : List UInt8) (offset : ℕ) :
    (u64At mem offset).toNat = leNat (slice mem offset 8) := by
  rw [u64At, UInt64.toNat_ofNat']
  exact Nat.mod_eq_of_lt (leNat_slice_lt mem offset 8)

/-- A 32-bit field is its four bytes. -/
theorem toNat_u32At (mem : List UInt8) (offset : ℕ) :
    (u32At mem offset).toNat = leNat (slice mem offset 4) := by
  rw [u32At, UInt32.toNat_ofNat']
  exact Nat.mod_eq_of_lt (leNat_slice_lt mem offset 4)

section Put

variable {mem : List UInt8} {offset : ℕ} (h : offset + 8 ≤ mem.length) (v : UInt64)

include h

/-- Storing a field keeps the length. -/
theorem length_putU64 : (putU64 mem offset v).length = mem.length :=
  length_splice (by rwa [length_leBytes])

/-- A stored field is loaded. -/
theorem u64At_putU64_self : u64At (putU64 mem offset v) offset = v := by
  have hslice : slice (putU64 mem offset v) offset 8 = leBytes 8 v.toNat := by
    have hself : slice (putU64 mem offset v) offset (leBytes 8 v.toNat).length = _ :=
      slice_splice_self (by rwa [length_leBytes])
    rwa [length_leBytes] at hself
  have hv : leNat (leBytes 8 v.toNat) = v.toNat := leNat_leBytes_of_lt v.toNat_lt
  rw [u64At, hslice, hv, UInt64.ofNat_toNat]

/-- What does not overlap a stored field stays. -/
theorem slice_putU64_of_disjoint {other width : ℕ}
    (hdisjoint : other + width ≤ offset ∨ offset + 8 ≤ other) :
    slice (putU64 mem offset v) other width = slice mem other width :=
  slice_splice_of_disjoint (by rwa [length_leBytes]) (by rwa [length_leBytes])

end Put

section PutU32

variable {mem : List UInt8} {offset : ℕ} (h : offset + 4 ≤ mem.length) (v : UInt32)

include h

/-- Storing a field keeps the length. -/
theorem length_putU32 : (putU32 mem offset v).length = mem.length :=
  length_splice (by rwa [length_leBytes])

/-- A stored field is loaded. -/
theorem u32At_putU32_self : u32At (putU32 mem offset v) offset = v := by
  have hslice : slice (putU32 mem offset v) offset 4 = leBytes 4 v.toNat := by
    have hself : slice (putU32 mem offset v) offset (leBytes 4 v.toNat).length = _ :=
      slice_splice_self (by rwa [length_leBytes])
    rwa [length_leBytes] at hself
  have hv : leNat (leBytes 4 v.toNat) = v.toNat := leNat_leBytes_of_lt v.toNat_lt
  rw [u32At, hslice, hv, UInt32.ofNat_toNat]

/-- A field that does not overlap it stays. -/
theorem u32At_putU32_of_disjoint {other : ℕ}
    (hdisjoint : other + 4 ≤ offset ∨ offset + 4 ≤ other) :
    u32At (putU32 mem offset v) other = u32At mem other := by
  rw [u32At, putU32, slice_splice_of_disjoint (by rwa [length_leBytes]) (by rwa [length_leBytes]),
    u32At]

end PutU32

/-! ## Natural alignment -/

/-- The least multiple of `align` from `offset` on. -/
def alignUp (offset align : ℕ) : ℕ := (offset + align - 1) / align * align

/-- The offsets of members with their sizes and alignments, and the end of the last one. -/
def offsetsFrom (offset : ℕ) : List (ℕ × ℕ) → List ℕ × ℕ
  | [] => ([], offset)
  | (size, align) :: rest =>
    let here := alignUp offset align
    let tail := offsetsFrom (here + size) rest
    (here :: tail.1, tail.2)

end Packed
