import Mathlib.Algebra.Group.Nat.Defs
import Mathlib.Data.List.Induction
import MarketMaker.Lib.Json.Grammar

/-!
# Decimal numbers

Natural numbers and the digits that spell them. `decimal` is the shortest spelling, and `natValue`
reads it back; it is an `int` of the grammar.
-/

namespace Json

variable {t : Text} {c : UInt8} {n k : ℕ}

/-- The shortest digits of a number. -/
def decimal (n : ℕ) : Text := (Nat.toDigits 10 n).map fun c => c.toNat.toUInt8

/-- The number that digits spell. -/
def natValue (t : Text) : ℕ := t.foldl (fun n c => 10 * n + (c.toNat - 0x30)) 0

/-! ## One digit -/

/-- The octet of a digit. -/
def digit (d : ℕ) : UInt8 := (0x30 + d).toUInt8

theorem toNat_digit (h : n < 10) : (digit n).toNat = 0x30 + n := by
  rw [digit, Nat.toUInt8_eq, UInt8.toNat_ofNat']
  omega

theorem isDigit_iff : isDigit c = true ↔ 0x30 ≤ c.toNat ∧ c.toNat ≤ 0x39 := by
  rw [isDigit, Bool.and_eq_true, decide_eq_true_eq, decide_eq_true_eq, UInt8.le_iff_toNat_le,
    UInt8.le_iff_toNat_le]
  rfl

theorem isDigit_digit (h : n < 10) : isDigit (digit n) = true := by
  rw [isDigit_iff, toNat_digit h]
  omega

theorem toUInt8_digitChar (h : n < 10) : n.digitChar.toNat.toUInt8 = digit n := by
  have hchar := Nat.toNat_digitChar_of_lt_ten h
  rw [hchar, digit]

/-! ## The digits of a number -/

theorem decimal_of_lt (h : n < 10) : decimal n = [digit n] := by
  rw [decimal, Nat.toDigits_of_lt_base h, List.map_singleton, toUInt8_digitChar h]

theorem decimal_of_le (h : 10 ≤ n) : decimal n = decimal (n / 10) ++ [digit (n % 10)] := by
  rw [decimal, Nat.toDigits_of_base_le (by decide) h, List.map_append, List.map_singleton,
    toUInt8_digitChar (Nat.mod_lt n (by decide))]
  rfl

theorem decimal_ne_nil (n : ℕ) : decimal n ≠ [] := by
  rw [decimal, ne_eq, List.map_eq_nil_iff]
  exact Nat.toDigits_ne_nil

/-- The digits come one by one, from the most significant. -/
theorem decimal_induction {P : ℕ → Prop} (small : ∀ n < 10, P n)
    (more : ∀ n, 10 ≤ n → P (n / 10) → P n) (n : ℕ) : P n := by
  induction n using Nat.strongRecOn with
  | ind n ih =>
    by_cases h : n < 10
    · exact small n h
    · exact more n (Nat.not_lt.mp h) (ih _ (Nat.div_lt_self (by omega) (by decide)))

theorem digits_decimal (n : ℕ) : Digits (decimal n) := by
  intro c h
  induction n using decimal_induction with
  | small n hn =>
    rw [decimal_of_lt hn, List.mem_singleton] at h
    rw [h]
    exact isDigit_digit hn
  | more n hn ih =>
    rw [decimal_of_le hn, List.mem_append, List.mem_singleton] at h
    rcases h with h | rfl
    · exact ih h
    · exact isDigit_digit (Nat.mod_lt n (by decide))

/-- Only zero starts with a zero. -/
theorem head_decimal (h : 0 < n) : ∃ c ds, decimal n = c :: ds ∧ c ≠ 0x30 := by
  induction n using decimal_induction with
  | small n hn =>
    refine ⟨digit n, [], decimal_of_lt hn, fun heq => ?_⟩
    have hnat := toNat_digit hn
    rw [heq] at hnat
    change 0x30 = 0x30 + n at hnat
    omega
  | more n hn ih =>
    obtain ⟨c, ds, hdigits, hc⟩ := ih (Nat.div_pos hn (by decide))
    exact ⟨c, ds ++ [digit (n % 10)], by rw [decimal_of_le hn, hdigits]; rfl, hc⟩

theorem natValue_append_digit (t : List UInt8) (h : n < 10) :
    natValue (t ++ [digit n]) = 10 * natValue t + n := by
  rw [natValue, List.foldl_append, List.foldl_cons, List.foldl_nil, toNat_digit h,
    Nat.add_sub_cancel_left]
  rfl

theorem natValue_append_singleton (t : Text) (c : UInt8) :
    natValue (t ++ [c]) = 10 * natValue t + (c.toNat - 0x30) :=
  List.foldl_append

/-- Digits spell a number below the next power of ten. -/
theorem natValue_lt (h : Digits t) : natValue t < 10 ^ t.length := by
  induction t using List.reverseRecOn with
  | nil => exact Nat.one_pos
  | append_singleton t c ih =>
    have hlt := ih fun d hd => h d (List.mem_append_left _ hd)
    have hc := isDigit_iff.mp (h c (List.mem_append_right _ (List.mem_singleton_self c)))
    rw [natValue_append_singleton, List.length_append, List.length_singleton, Nat.pow_succ]
    omega

/-- Without a zero at the start they spell no less than the power of ten before it. -/
theorem le_natValue (hc : c ≠ 0x30) (h : Digits (c :: t)) : 10 ^ t.length ≤ natValue (c :: t) := by
  induction t using List.reverseRecOn with
  | nil =>
    have hdigit := isDigit_iff.mp (h c List.mem_cons_self)
    have hne : c.toNat ≠ 0x30 := fun heq => hc (UInt8.toNat_inj.mp heq)
    change 1 ≤ 10 * 0 + (c.toNat - 0x30)
    omega
  | append_singleton t e ih =>
    have hle := ih fun d hd => h d (by
      rw [← List.cons_append]
      exact List.mem_append_left _ hd)
    rw [← List.cons_append, natValue_append_singleton, List.length_append, List.length_singleton,
      Nat.pow_succ]
    omega

theorem natValue_decimal (n : ℕ) : natValue (decimal n) = n := by
  induction n using decimal_induction with
  | small n hn =>
    rw [decimal_of_lt hn]
    have happend := natValue_append_digit [] hn
    rw [List.nil_append] at happend
    rw [happend]
    exact Nat.zero_add n
  | more n hn ih =>
    rw [decimal_of_le hn, natValue_append_digit _ (Nat.mod_lt n (by decide)), ih, Nat.div_add_mod]

theorem length_decimal_le (h : n < 10 ^ k) (hk : 0 < k) : (decimal n).length ≤ k := by
  rw [decimal, List.length_map]
  exact (Nat.length_toDigits_le_iff (by decide) hk).mpr h

theorem isInt_decimal (n : ℕ) : IsInt (decimal n) := by
  rcases Nat.eq_zero_or_pos n with rfl | hn
  · exact Or.inl (decimal_of_lt (by decide))
  · obtain ⟨c, ds, hdecimal, hc⟩ := head_decimal hn
    have hdigits := digits_decimal n
    rw [hdecimal] at hdigits
    exact Or.inr ⟨c, ds, hdecimal, hc, hdigits c List.mem_cons_self,
      fun d hd => hdigits d (List.mem_cons_of_mem c hd)⟩

end Json
