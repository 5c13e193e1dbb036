import MarketMaker.Codec.Scan
import MarketMaker.Lib.Utf8

/-!
# What the preflight accepts

`frame_preflight` returns a scan exactly on the frames that are valid UTF-8 without a byte-order
mark, hold one object text within the bounds on nesting and members, and whose top-level keys are
free of escapes and distinct. On every other frame it refuses; it never reads past the frame and its
loops end.
-/

namespace MarketMaker

open Cursor (At)

variable {f : Bytes} {i : ℕ} {c : UInt8} {t : Json.Text}

/-! ## UTF-8 -/

/-- The octets after the first, within the bounds of its row. -/
def Follows : Option (ℕ × UInt8 × UInt8) → List UInt8 → Prop
  | some (len, lo, hi), d :: ds =>
    ds.length + 2 = len ∧ (lo ≤ d ∧ d ≤ hi) ∧ ∀ e ∈ ds, 0x80 ≤ e ∧ e ≤ 0xBF
  | _, _ => False

/-- The rows of `utf8_valid` are those of the table. -/
theorem isChar_cons_iff (hc : ¬c < 0x80) {g : List UInt8} :
    Utf8.IsChar (c :: g) ↔ Follows (utf8Lead c) g := by
  have hlow : 0x80 ≤ c.toNat := by
    simpa [UInt8.lt_iff_toNat_lt] using hc
  match g with
  | [] =>
    rw [utf8Lead]
    split_ifs <;> exact iff_of_false hc id
  | [d] =>
    rw [utf8Lead]
    split_ifs <;> simp_all [Utf8.IsChar, Utf8.IsTail, Follows]
  | [d, e] =>
    simp only [Utf8.IsChar, Utf8.IsTail]
    rw [utf8Lead]
    split_ifs <;>
      simp only [Follows, List.length_cons, List.length_nil, List.forall_mem_cons, List.not_mem_nil,
        IsEmpty.forall_iff, implies_true, and_true, true_and, iff_false, UInt8.le_iff_toNat_le,
        ← UInt8.toNat_inj, UInt8.reduceToNat] at * <;>
      omega
  | [d, e, e'] =>
    simp only [Utf8.IsChar, Utf8.IsTail]
    rw [utf8Lead]
    split_ifs <;>
      simp only [Follows, List.length_cons, List.length_nil, List.forall_mem_cons, List.not_mem_nil,
        IsEmpty.forall_iff, implies_true, and_true, true_and, iff_false, UInt8.le_iff_toNat_le,
        ← UInt8.toNat_inj, UInt8.reduceToNat] at * <;>
      omega
  | _ :: _ :: _ :: _ :: _ =>
    rw [utf8Lead]
    split_ifs <;> simp [Utf8.IsChar, Follows]

/-- The octets from the third on. -/
theorem utf8Tail_cases {ds : List UInt8} (h : At f i (ds ++ t)) :
    utf8Tail f ds.length i = .ok (ds.all fun e => 0x80 ≤ e ∧ e ≤ 0xBF) := by
  induction ds generalizing i with
  | nil => rfl
  | cons e ds ih =>
    rw [List.length_cons, utf8Tail, h.charAt]
    dsimp only [bind, Except.bind, pure, Except.pure]
    by_cases he : e < 0x80 ∨ e > 0xBF
    · have hout : ¬(0x80 ≤ e ∧ e ≤ 0xBF) := by
        rintro ⟨hlo, hhi⟩
        rcases he with he | he
        · exact UInt8.not_lt.mpr hlo he
        · exact UInt8.not_lt.mpr hhi he
      rw [if_pos he, List.all_cons, decide_eq_false hout]
      rfl
    · have hin : 0x80 ≤ e ∧ e ≤ 0xBF :=
        ⟨UInt8.not_lt.mp (not_or.mp he).1, UInt8.not_lt.mp (not_or.mp he).2⟩
      rw [if_neg he, ih h.tail, List.all_cons, decide_eq_true hin]
      rfl

theorem utf8Lead_le {len : ℕ} {lo hi : UInt8} (h : utf8Lead c = some (len, lo, hi)) : 2 ≤ len := by
  rw [utf8Lead] at h
  split_ifs at h <;> cases h <;> decide

/-- The loop of `utf8_valid` decides validity. -/
theorem utf8ValidLoop_eq {fuel : ℕ} (h : At f i t) (hfuel : t.length < fuel) :
    ∃ b, utf8ValidLoop f fuel i = .ok b ∧ (b = true ↔ Utf8.Valid t) := by
  induction fuel generalizing i t with
  | zero => exact absurd hfuel (Nat.not_lt_zero _)
  | succ fuel ih =>
    rw [utf8ValidLoop, h.getElem?]
    cases t with
    | nil => exact ⟨true, rfl, iff_of_true rfl Utf8.valid_nil⟩
    | cons c t =>
      rw [List.length_cons] at hfuel
      dsimp only [List.head?_cons]
      by_cases hascii : c < 0x80
      · obtain ⟨b, hb, hiff⟩ := ih h.tail (by omega)
        have hchar : Utf8.IsChar [c] := hascii
        rw [if_pos hascii]
        exact ⟨b, hb, hiff.trans (Utf8.valid_append_iff hchar).symm⟩
      rw [if_neg hascii]
      -- without a character at its start the text is not valid
      have hfail : (∀ g rest, t = g ++ rest → ¬Follows (utf8Lead c) g) → ¬Utf8.Valid (c :: t) := by
        intro hno hvalid
        obtain ⟨g, rest, hg, heq, -⟩ := Utf8.valid_cons_iff.mp hvalid
        cases g with
        | nil => exact Utf8.not_isChar_nil hg
        | cons a g =>
          obtain ⟨rfl, rfl⟩ := List.cons.inj heq
          exact hno g rest rfl ((isChar_cons_iff hascii).mp hg)
      cases hlead : utf8Lead c with
      | none =>
        rw [hlead] at hfail
        exact ⟨false, rfl, iff_of_false Bool.false_ne_true (hfail fun _ _ _ => id)⟩
      | some row =>
        obtain ⟨len, lo, hi⟩ := row
        rw [hlead] at hfail
        have htwo := utf8Lead_le hlead
        have hleft : f.length - i = t.length + 1 := by
          have hlength := h.length_eq
          rw [List.length_cons] at hlength
          omega
        dsimp only
        rw [hleft]
        by_cases hshort : t.length + 1 < len
        · rw [if_pos hshort]
          refine ⟨false, rfl, iff_of_false Bool.false_ne_true (hfail fun g rest ht hg => ?_)⟩
          cases g with
          | nil => exact hg
          | cons d ds =>
            have hlen : ds.length + 2 = len := hg.1
            rw [ht, List.length_append, List.length_cons] at hshort
            omega
        rw [if_neg hshort]
        obtain ⟨d, ds, rest, rfl, hds⟩ : ∃ d ds rest, t = d :: (ds ++ rest) ∧
            ds.length = len - 2 := by
          cases t with
          | nil =>
            rw [List.length_nil] at hshort
            omega
          | cons d t =>
            refine ⟨d, t.take (len - 2), t.drop (len - 2), by rw [List.take_append_drop], ?_⟩
            rw [List.length_cons] at hshort
            rw [List.length_take]
            omega
        have hrest : At f (i + len) rest := by
          have hat : At f (i + 2 + ds.length) rest := h.tail.tail.append
          rwa [hds, show i + 2 + (len - 2) = i + len by omega] at hat
        -- the octets of a character at the start are `d` and `ds`
        have hfollows : (∃ g rest', d :: (ds ++ rest) = g ++ rest' ∧
          Follows (some (len, lo, hi)) g) →
            (lo ≤ d ∧ d ≤ hi) ∧ ∀ e ∈ ds, 0x80 ≤ e ∧ e ≤ 0xBF := by
          rintro ⟨g, rest', heq, hg⟩
          cases g with
          | nil => exact hg.elim
          | cons d' ds' =>
            obtain ⟨hlen, hsecond, htail⟩ := hg
            obtain ⟨rfl, htl⟩ := List.cons.inj heq
            obtain ⟨rfl, -⟩ := List.append_inj htl (by omega)
            exact ⟨hsecond, htail⟩
        rw [h.tail.charAt]
        dsimp only [bind, Except.bind, pure, Except.pure]
        by_cases hsecond : d < lo ∨ d > hi
        · rw [if_pos hsecond]
          refine ⟨false, rfl, iff_of_false Bool.false_ne_true (hfail fun g rest' heq hg => ?_)⟩
          obtain ⟨⟨hlo, hhi⟩, -⟩ := hfollows ⟨g, rest', heq, hg⟩
          rcases hsecond with hsecond | hsecond
          · exact UInt8.not_lt.mpr hlo hsecond
          · exact UInt8.not_lt.mpr hhi hsecond
        rw [if_neg hsecond, ← hds, utf8Tail_cases h.tail.tail]
        dsimp only
        by_cases htail : ∀ e ∈ ds, 0x80 ≤ e ∧ e ≤ 0xBF
        · have hall : (ds.all fun e => 0x80 ≤ e ∧ e ≤ 0xBF) = true :=
            List.all_eq_true.mpr fun e he => decide_eq_true (htail e he)
          rw [hall]
          obtain ⟨b, hb, hiff⟩ := ih hrest (by
            rw [List.length_cons, List.length_append] at hfuel
            omega)
          refine ⟨b, hb, hiff.trans ?_⟩
          have hchar : Utf8.IsChar (c :: d :: ds) := by
            rw [isChar_cons_iff hascii, hlead]
            exact ⟨by omega, ⟨UInt8.not_lt.mp (not_or.mp hsecond).1,
              UInt8.not_lt.mp (not_or.mp hsecond).2⟩, htail⟩
          exact (Utf8.valid_append_iff hchar).symm
        · have hall : (ds.all fun e => 0x80 ≤ e ∧ e ≤ 0xBF) = false := by
            refine Bool.eq_false_iff.mpr fun hall => htail fun e he => ?_
            exact of_decide_eq_true (List.all_eq_true.mp hall e he)
          rw [hall]
          refine ⟨false, rfl, iff_of_false Bool.false_ne_true (hfail fun g rest' heq hg => ?_)⟩
          exact htail (hfollows ⟨g, rest', heq, hg⟩).2

/-- `utf8_valid` ends, reads nothing outside the frame, and decides validity. -/
theorem utf8Valid_eq (f : Bytes) : ∃ b, utf8Valid f = .ok b ∧ (b = true ↔ Utf8.Valid f) :=
  utf8ValidLoop_eq (At.start f) (Nat.lt_succ_self _)

/-- It accepts the concatenations of encoded scalar values. -/
theorem utf8Valid_iff_scalars (s : Bytes) :
    ∃ valid, utf8Valid s = .ok valid ∧
      (valid = true ↔
        ∃ vs : List ℕ, (∀ v ∈ vs, Utf8.IsScalar v) ∧ s = vs.flatMap Utf8.encodeScalar) := by
  obtain ⟨valid, hvalid, hiff⟩ := utf8Valid_eq s
  exact ⟨valid, hvalid, hiff.trans Utf8.valid_iff_encodeScalar⟩

/-! ## The preflight -/

theorem hasDuplicate_eq_false_iff (keys : List Bytes) : hasDuplicate keys = false ↔ keys.Nodup := by
  induction keys with
  | nil => simp [hasDuplicate]
  | cons key keys ih => simp [hasDuplicate, ih]

/-- What a frame has to be. -/
structure Acceptable (frame : Bytes) (scan : FrameScan) : Prop where
  noBom : ¬[0xEF, 0xBB, 0xBF] <+: frame
  utf8 : Utf8.Valid frame
  text : Json.ObjectText maxNestingDepth scan frame
  members : scan.length ≤ maxTopLevelKeys
  noEscape : ∀ field ∈ scan, 0x5C ∉ field.1
  distinct : (scan.map Prod.fst).Nodup

/-- A frame has one scan. -/
theorem Acceptable.unique {frame : Bytes} {scan scan' : FrameScan} (h : Acceptable frame scan)
    (h' : Acceptable frame scan') : scan = scan' := by
  have hscan := Json.document_eq_some_iff.mpr h.text
  have hscan' := Json.document_eq_some_iff.mpr h'.text
  rw [hscan] at hscan'
  exact Option.some.inj hscan'

theorem framePreflight_cases (frame : Bytes) :
    (∃ scan, framePreflight frame = .ok scan ∧ Acceptable frame scan) ∨
      (∃ err, framePreflight frame = .error (.reject err)) ∧ ∀ scan, ¬Acceptable frame scan := by
  rw [framePreflight]
  by_cases hbom : [0xEF, 0xBB, 0xBF] <+: frame
  · rw [if_pos hbom]
    exact Or.inr ⟨⟨_, rfl⟩, fun scan h => h.noBom hbom⟩
  rw [if_neg hbom]
  obtain ⟨valid, hvalid, hiff⟩ := utf8Valid_eq frame
  rw [hvalid]
  dsimp only [bind, Except.bind, pure, Except.pure]
  cases valid with
  | false => exact Or.inr ⟨⟨_, rfl⟩, fun scan h => Bool.false_ne_true (hiff.mpr h.utf8)⟩
  | true =>
    rw [if_neg (by decide)]
    rcases FrameScanner.run_cases frame with ⟨ms, hread, hcap, hrun⟩ | ⟨⟨e, hrun⟩, hnone⟩
    · have htext := Json.document_eq_some_iff.mp hread
      have hscan : ∀ scan, Acceptable frame scan → scan = ms := by
        intro scan h
        rw [Json.document_eq_some_iff.mpr h.text] at hread
        exact Option.some.inj hread
      rw [hrun]
      dsimp only
      by_cases hescape : (ms.any fun field => 0x5C ∈ field.1) = true
      · rw [if_pos hescape]
        refine Or.inr ⟨⟨_, rfl⟩, fun scan h => ?_⟩
        obtain ⟨field, hfield, hmem⟩ := List.any_eq_true.mp hescape
        rw [← hscan scan h] at hfield
        exact h.noEscape field hfield (of_decide_eq_true hmem)
      rw [if_neg hescape]
      by_cases hdup : hasDuplicate (ms.map Prod.fst) = true
      · rw [if_pos hdup]
        refine Or.inr ⟨⟨_, rfl⟩, fun scan h => ?_⟩
        have hnodup := (hasDuplicate_eq_false_iff _).mpr h.distinct
        rw [hscan scan h, hdup] at hnodup
        cases hnodup
      · rw [if_neg hdup]
        refine Or.inl ⟨ms, rfl, hbom, hiff.mp rfl, htext, hcap, fun field hfield hmem => ?_, ?_⟩
        · exact hescape (List.any_eq_true.mpr ⟨field, hfield, decide_eq_true hmem⟩)
        · exact (hasDuplicate_eq_false_iff _).mp (Bool.not_eq_true _ |>.mp hdup)
    · rw [hrun]
      refine Or.inr ⟨⟨e, rfl⟩, fun scan h => ?_⟩
      have hlt := hnone scan (Json.document_eq_some_iff.mpr h.text)
      exact absurd h.members (Nat.not_le.mpr hlt)

theorem framePreflight_eq_ok_iff {frame : Bytes} {scan : FrameScan} :
    framePreflight frame = .ok scan ↔ Acceptable frame scan := by
  rcases framePreflight_cases frame with ⟨scan', hok, haccept⟩ | ⟨⟨err, herror⟩, hnone⟩
  · rw [hok]
    constructor
    · rintro ⟨⟩
      exact haccept
    · intro h
      rw [haccept.unique h]
  · rw [herror]
    exact iff_of_false (fun h => (by contradiction)) (hnone scan)

/-- The preflight accepts what is acceptable, with the members of its object, and refuses every
other frame: no frame makes it read past its end, fail an assertion or run on. -/
theorem framePreflight_correct (frame : Bytes) :
    (∀ scan, framePreflight frame = .ok scan ↔ Acceptable frame scan) ∧
      ∀ halt, framePreflight frame = .error halt → ∃ err, halt = .reject err := by
  refine ⟨fun scan => framePreflight_eq_ok_iff, fun halt hhalt => ?_⟩
  rcases framePreflight_cases frame with ⟨scan, hok, -⟩ | ⟨⟨err, herror⟩, -⟩
  · rw [hok] at hhalt
    cases hhalt
  · rw [herror] at hhalt
    cases hhalt
    exact ⟨err, rfl⟩

end MarketMaker
