import MarketMaker.Codec.Round

/-!
# The scanner against the reader

The loop of `FrameScanner` keeps a counter and a mask where the reader recurses. From a state in
which a value starts, it comes to the call of `value_done` that ends the value exactly when
`Json.readValue` takes the value off, with the index where the reader stops, the depth as it was and
the bits of the containers still open unchanged (`Settles`). The root object is taken apart in the
same way, with its members recorded as they end (`Records`).
-/

namespace MarketMaker

namespace FrameScanner

open Cursor (At)
open Json (Text)

variable {f : Bytes} {s u : FrameScanner} {c : UInt8} {t : Text}

/-! ## The mask -/

/-- Bit `n` of the mask tells whether the container opened at depth `n` is an object. -/
theorem inObject_iff (mask : BitVec 64) (n : ℕ) :
    mask >>> n &&& 1#64 = 1#64 ↔ mask.getLsbD n = true := by
  rw [BitVec.and_one_eq_setWidth_ofBool_getLsbD, BitVec.getLsbD_ushiftRight, Nat.add_zero]
  cases mask.getLsbD n <;> decide

/-- Opening a level keeps the kinds of those outside. -/
theorem opened_mask_lt {k : ℕ} (h : k < s.depth) :
    (s.opened c).objectMask.getLsbD k = s.objectMask.getLsbD k := by
  simp only [opened]
  split_ifs
  · simp [h]
  · simp only [BitVec.getLsbD_and, BitVec.getLsbD_not, BitVec.getLsbD_shiftLeft, h]
    simpa using BitVec.lt_of_getLsbD

/-- Its own kind is noted. -/
theorem opened_mask_self (h : s.depth < 64) :
    (s.opened c).objectMask.getLsbD s.depth = decide (c = 0x7B) := by
  simp only [opened]
  split_ifs with hc <;> simp [h, hc]

/-! ## Settling -/

/-- What a value leaves as it was, at depth `n`. -/
structure Keeps (n : ℕ) (s u : FrameScanner) : Prop where
  depth : u.depth = n
  mask : ∀ k < n, u.objectMask.getLsbD k = s.objectMask.getLsbD k
  pendingKey : u.pendingKey = s.pendingKey
  havePendingKey : u.havePendingKey = s.havePendingKey
  valueStart : u.valueStart = s.valueStart
  rootIsObject : u.rootIsObject = s.rootIsObject
  done : u.done = s.done
  out : u.out = s.out

/-- What is kept twice is kept. -/
theorem Keeps.trans {m n : ℕ} {w : FrameScanner} (h : Keeps m s u) (hle : n ≤ m)
    (h' : Keeps n u w) : Keeps n s w :=
  ⟨h'.depth, fun k hk => (h'.mask k hk).trans (h.mask k (by omega)),
    h'.pendingKey.trans h.pendingKey, h'.havePendingKey.trans h.havePendingKey,
    h'.valueStart.trans h.valueStart, h'.rootIsObject.trans h.rootIsObject,
    h'.done.trans h.done, h'.out.trans h.out⟩

/-- The index and the state are not among them. -/
theorem Keeps.at {n : ℕ} (h : Keeps n s u) (i j : ℕ) (st : St) :
    Keeps n { s with i := j } { u with i := i, st := st } :=
  ⟨h.depth, h.mask, h.pendingKey, h.havePendingKey, h.valueStart, h.rootIsObject, h.done, h.out⟩

/-- The scan comes to the end of the value at depth `n` where the reader does, or it is refused
where the reader fails. -/
def Settles (f : Bytes) (n : ℕ) (s : FrameScanner) (res : Except Halt FrameScanner) :
    Option Text → Prop
  | some rest => ∃ u, res = valueDone f u >>= finish f ∧ At f u.i rest ∧ Keeps n s u
  | none => ∃ e, res = .error (.reject e)

/-- A scan that settles after moves that keep. -/
theorem Settles.trans {m n : ℕ} {res : Except Halt FrameScanner} {o : Option Text}
    (hkeeps : Keeps m s u) (hle : n ≤ m) (h : Settles f n u res o) : Settles f n s res o := by
  cases o with
  | none => exact h
  | some rest =>
    obtain ⟨w, hres, hat, hw⟩ := h
    exact ⟨w, hres, hat, hkeeps.trans hle hw⟩

/-- The value at which the scan stands settles as the reader of depth `d` says. -/
def ValueSettles (f : Bytes) (d : ℕ) : Prop :=
  ∀ (s : FrameScanner) (c : UInt8) (t : Text), At f s.i (c :: t) → s.depth + d = maxNestingDepth →
    s.done = false → (s.depth = 0 → s.havePendingKey = false ∧ s.rootIsObject = false) →
    Settles f s.depth s.started (valueCase f s c >>= finish f) (Json.readValue d (c :: t))

/-- No value starts with a control octet. -/
theorem readValue_control {d : ℕ} (h : c < 0x20) : Json.readValue d (c :: t) = none := by
  have hne : ∀ e : UInt8, ¬e < 0x20 → c ≠ e := by
    rintro e he rfl
    exact he h
  have hdigit : Json.isDigit c = false := by
    rw [← Bool.not_eq_true]
    intro hdigit
    simp only [Json.isDigit, Bool.and_eq_true, decide_eq_true_eq] at hdigit
    exact absurd (lt_of_le_of_lt hdigit.1 h) (by decide)
  have hscalar : Json.readScalar (c :: t) = none := by
    rw [Json.readScalar, if_neg (hne _ (by decide)), if_neg (hne _ (by decide)),
      if_neg (hne _ (by decide)), if_neg (hne _ (by decide)), if_neg]
    simp [hne 0x2D (by decide), hdigit]
  cases d with
  | zero => exact hscalar
  | succ d => rw [Json.readValue, if_neg (hne _ (by decide)), if_neg (hne _ (by decide)), hscalar]

/-- A value, from the state before it. -/
theorem settles_value {d : ℕ} (hvalue : ValueSettles f d) (hat : At f s.i t)
    (hst : s.st = .value ∨ s.st = .arrValueOrClose ∧ (Json.skipWs t).head? ≠ some 0x5D)
    (hdepth : s.depth + d = maxNestingDepth) (hdone : s.done = false)
    (hroot : s.depth = 0 → s.havePendingKey = false ∧ s.rootIsObject = false) :
    Settles f s.depth { s with i := skipWs f s.i }.started (finish f s)
      (Json.readValue d (Json.skipWs t)) := by
  have hskip := at_skipWs hat
  rw [finish_eq hat.1 hdone, round_eq hat]
  cases ht : Json.skipWs t with
  | nil =>
    have hnone : Json.readValue d [] = none := by cases d <;> rfl
    rw [hnone]
    exact ⟨_, rfl⟩
  | cons c u =>
    rw [ht] at hskip hst
    dsimp only
    by_cases hraw : c < 0x20
    · rw [if_pos hraw, readValue_control hraw]
      exact ⟨_, rfl⟩
    · have hdispatch : dispatch f { s with i := skipWs f s.i } c =
          valueCase f { s with i := skipWs f s.i } c := by
        rw [dispatch]
        dsimp only
        rcases hst with hst | ⟨hst, hc⟩
        · rw [hst]
        · rw [hst]
          refine if_neg fun heq => hc ?_
          rw [heq]
          rfl
      rw [if_neg hraw, hdispatch]
      exact hvalue { s with i := skipWs f s.i } c u hskip hdepth hdone hroot

/-- The octet that closes the container. -/
def closer (object : Bool) : UInt8 := if object then 0x7D else 0x5D

/-- After a value the container goes on, closes, or the frame is refused. -/
theorem finish_after {n : ℕ} {object : Bool} (hat : At f s.i t) (hst : s.st = .afterValue)
    (hn : s.depth = n + 1) (hdone : s.done = false) (hbit : s.objectMask.getLsbD n = object) :
    (∃ rest j, Json.skipWs t = 0x2C :: rest ∧ At f j rest ∧
      finish f s = finish f { s with i := j, st := if object then .objKey else .value }) ∨
    (∃ rest j, Json.skipWs t = closer object :: rest ∧ At f j rest ∧
      finish f s = valueDone f { s with i := j, depth := n } >>= finish f) ∨
    (∃ e, finish f s = .error (.reject e)) ∧
      ∀ c rest, Json.skipWs t = c :: rest → c ≠ 0x2C ∧ c ≠ closer object := by
  have hskip := at_skipWs hat
  rw [finish_eq hat.1 hdone, round_eq hat]
  cases ht : Json.skipWs t with
  | nil => exact Or.inr (Or.inr ⟨⟨_, rfl⟩, fun c rest h => by cases h⟩)
  | cons c rest =>
    rw [ht] at hskip
    dsimp only
    by_cases hraw : c < 0x20
    · rw [if_pos hraw]
      refine Or.inr (Or.inr ⟨⟨_, rfl⟩, ?_⟩)
      rintro _ _ ⟨⟩
      constructor
      · rintro rfl
        exact absurd hraw (by decide)
      · rintro rfl
        cases object <;> exact absurd hraw (by decide)
    have hin : s.objectMask >>> (n + 1 - 1) &&& 1#64 = 1#64 ↔ object = true := by
      rw [← hbit]
      exact inObject_iff s.objectMask n
    rw [if_neg hraw, dispatch]
    dsimp only
    rw [hst, afterCase]
    dsimp only
    rw [hn]
    simp only [hin]
    by_cases hcomma : c = 0x2C
    · subst hcomma
      rw [if_pos rfl]
      exact Or.inl ⟨rest, _, rfl, hskip.tail, rfl⟩
    · rw [if_neg hcomma]
      by_cases hclose : c = closer object
      · refine Or.inr (Or.inl ⟨rest, skipWs f s.i + 1, by rw [hclose], hskip.tail, ?_⟩)
        rw [if_pos (show c = (if object = true then 0x7D else 0x5D) from hclose)]
        rfl
      · rw [if_neg (show ¬c = (if object = true then 0x7D else 0x5D) from hclose)]
        refine Or.inr (Or.inr ⟨⟨_, rfl⟩, ?_⟩)
        rintro _ _ ⟨⟩
        exact ⟨hcomma, hclose⟩

/-- The scan stands in a container opened at depth `n` that is not the root object, and `d` more
may be opened. -/
structure Inner (n d : ℕ) (object : Bool) (s : FrameScanner) : Prop where
  depth : s.depth = n + 1
  bound : s.depth + d = maxNestingDepth
  done : s.done = false
  bit : s.objectMask.getLsbD n = object
  nested : s.depth = 1 → s.havePendingKey = false ∧ s.rootIsObject = false

/-- Inside a container the scanner stays inside. -/
theorem Inner.of_keeps {n d : ℕ} {object : Bool} (h : Inner n d object s)
    (hkeeps : Keeps s.depth s u) (i : ℕ) (st : St) :
    Inner n d object { u with i := i, st := st } := by
  refine ⟨hkeeps.depth.trans h.depth, ?_, hkeeps.done.trans h.done,
    (hkeeps.mask n (by rw [h.depth]; exact Nat.lt_succ_self n)).trans h.bit, ?_⟩
  · show u.depth + d = maxNestingDepth
    rw [hkeeps.depth]
    exact h.bound
  · show u.depth = 1 → u.havePendingKey = false ∧ u.rootIsObject = false
    rw [hkeeps.depth, hkeeps.havePendingKey, hkeeps.rootIsObject]
    exact h.nested

/-- There it is not at the root. -/
theorem Inner.not_root {n d : ℕ} {object : Bool} (h : Inner n d object s) :
    ¬(s.depth = 1 ∧ s.rootIsObject = true) := by
  rintro ⟨hone, hroot⟩
  rw [(h.nested hone).2] at hroot
  cases hroot

/-- So no key is pending. -/
theorem Inner.not_pending {n d : ℕ} {object : Bool} (h : Inner n d object s) :
    ¬(s.depth = 1 ∧ s.havePendingKey = true) := by
  rintro ⟨hone, hhave⟩
  rw [(h.nested hone).1] at hhave
  cases hhave

/-- A value of an inner container, and what follows it: `more` is read after a comma. -/
theorem settles_inner {n d : ℕ} {object : Bool} (more : Text → Option Text)
    (hvalue : ValueSettles f d) (hinner : Inner n d object s) (hat : At f s.i t)
    (hst : s.st = .value ∨ s.st = .arrValueOrClose ∧ (Json.skipWs t).head? ≠ some 0x5D)
    (hmore : ∀ u t₁ rest j, Json.readValue d (Json.skipWs t) = some t₁ →
      Json.skipWs t₁ = 0x2C :: rest → At f j rest → Keeps s.depth s u →
      Settles f n u (finish f { u with i := j, st := if object then .objKey else .value })
        (more rest)) :
    Settles f n s (finish f s)
      ((Json.readValue d (Json.skipWs t)).bind fun t =>
        match Json.skipWs t with
        | [] => none
        | c :: t => if c = 0x2C then more t else if c = closer object then some t else none) := by
  have hstarted : { s with i := skipWs f s.i }.started = { s with i := skipWs f s.i } :=
    started_of_not hinner.not_root
  have hsettles := settles_value hvalue hat hst hinner.bound hinner.done
    (by rw [hinner.depth]; exact fun h => absurd h (Nat.succ_ne_zero n))
  rw [hstarted] at hsettles
  cases hread : Json.readValue d (Json.skipWs t) with
  | none =>
    rw [hread] at hsettles
    exact hsettles
  | some t₁ =>
    rw [hread] at hsettles
    obtain ⟨u, hu, hat₁, hkeeps'⟩ := hsettles
    have hkeeps : Keeps s.depth s u := hkeeps'.at u.i s.i u.st
    have hin : Inner n d object { u with st := .afterValue } :=
      hinner.of_keeps hkeeps u.i .afterValue
    rw [Option.bind_some, hu, valueDone_plain (s := u) hin.not_pending,
      if_neg (by rw [show u.depth = n + 1 from hin.depth]; exact Nat.succ_ne_zero n)]
    dsimp only [bind, Except.bind]
    rcases finish_after (s := { u with st := .afterValue }) hat₁ rfl hin.depth hin.done hin.bit with
      ⟨rest, j, ht₁, hj, heq⟩ | ⟨rest, j, ht₁, hj, heq⟩ | ⟨⟨e, heq⟩, hne⟩
    · rw [ht₁, heq]
      dsimp only
      rw [if_pos rfl]
      refine Settles.trans hkeeps ?_ (hmore u t₁ rest j hread ht₁ hj hkeeps)
      rw [hinner.depth]
      exact Nat.le_succ n
    · rw [ht₁, heq]
      dsimp only
      rw [if_neg (by cases object <;> decide), if_pos rfl]
      refine ⟨{ u with i := j, st := .afterValue, depth := n }, rfl, hj, rfl, ?_,
        hkeeps.pendingKey, hkeeps.havePendingKey, hkeeps.valueStart, hkeeps.rootIsObject,
        hkeeps.done, hkeeps.out⟩
      intro k hk
      exact hkeeps.mask k (by rw [hinner.depth]; omega)
    · rw [heq]
      cases ht₁ : Json.skipWs t₁ with
      | nil => exact ⟨e, rfl⟩
      | cons c rest =>
        obtain ⟨hcomma, hclose⟩ := hne c rest ht₁
        dsimp only
        rw [if_neg hcomma, if_neg hclose]
        exact ⟨e, rfl⟩

/-- The elements of an array. -/
theorem settles_elements {d n fuel : ℕ} (hvalue : ValueSettles f d) (hinner : Inner n d false s)
    (hat : At f s.i t)
    (hst : s.st = .value ∨ s.st = .arrValueOrClose ∧ (Json.skipWs t).head? ≠ some 0x5D)
    (hfuel : t.length < fuel) :
    Settles f n s (finish f s) (Json.readElements (Json.readValue d) fuel t) := by
  induction fuel generalizing s t with
  | zero => exact absurd hfuel (Nat.not_lt_zero _)
  | succ fuel ih =>
    refine settles_inner _ hvalue hinner hat hst fun u t₁ rest j hread hcomma hj hkeeps => ?_
    have hless := Json.length_after_comma hread hcomma
    have hin := hinner.of_keeps hkeeps j .value
    have hself : Keeps u.depth u { u with i := j, st := .value } :=
      ⟨rfl, fun _ _ => rfl, rfl, rfl, rfl, rfl, rfl, rfl⟩
    refine Settles.trans hself ?_ (ih hin hj (Or.inl rfl) (by omega))
    rw [show u.depth = n + 1 from hin.depth]
    exact Nat.le_succ n

/-- A key is kept where the scanner stands. -/
theorem keyed_at (s : FrameScanner) (key : Bytes) (i j : ℕ) (st : St) :
    { { s with i := i }.keyed key with i := j, st := st } =
      { s.keyed key with i := j, st := st } := by
  rw [keyed, keyed]
  split_ifs <;> rfl

/-- A key ends nothing. -/
@[simp]
theorem keyed_done (s : FrameScanner) (key : Bytes) : (s.keyed key).done = s.done := by
  rw [keyed]
  split_ifs <;> rfl

/-- After a key comes a colon. -/
theorem finish_colon (hat : At f s.i t) (hst : s.st = .objColon) (hdone : s.done = false) :
    (∃ after j, Json.skipWs t = 0x3A :: after ∧ At f j after ∧
      finish f s = finish f { s with i := j, st := .value }) ∨
    (∀ c after, Json.skipWs t = c :: after → c ≠ 0x3A) ∧ ∃ e, finish f s = .error (.reject e) := by
  have hskip := at_skipWs hat
  rw [finish_eq hat.1 hdone, round_eq hat]
  cases ht : Json.skipWs t with
  | nil => exact Or.inr ⟨fun _ _ h => (by contradiction), _, rfl⟩
  | cons c after =>
    rw [ht] at hskip
    dsimp only
    by_cases hcolon : c = 0x3A
    · subst hcolon
      rw [if_neg (by decide), dispatch]
      dsimp only
      rw [hst]
      exact Or.inl ⟨after, _, rfl, hskip.tail, rfl⟩
    · refine Or.inr ⟨?_, ?_⟩
      · rintro _ _ ⟨⟩
        exact hcolon
      · split_ifs
        · exact ⟨_, rfl⟩
        · rw [dispatch]
          dsimp only
          rw [hst]
          dsimp only
          rw [if_pos hcolon]
          exact ⟨_, rfl⟩

/-- A key and its colon. -/
theorem finish_key (hat : At f s.i t)
    (hst : s.st = .objKey ∨ s.st = .objKeyOrClose ∧ (Json.skipWs t).head? ≠ some 0x7D)
    (hdone : s.done = false) :
    (∃ key after j, Json.readKey t = some (key, after) ∧ At f j after ∧
      finish f s = finish f { s.keyed key with i := j, st := .value }) ∨
    Json.readKey t = none ∧ ∃ e, finish f s = .error (.reject e) := by
  have hskip := at_skipWs hat
  rw [finish_eq hat.1 hdone, round_eq hat, Json.readKey]
  cases ht : Json.skipWs t with
  | nil => exact Or.inr ⟨rfl, _, rfl⟩
  | cons c t₁ =>
    rw [ht] at hskip hst
    dsimp only
    by_cases hraw : c < 0x20
    · have hquote : c ≠ 0x22 := by
        rintro rfl
        exact absurd hraw (by decide)
      rw [if_pos hraw, if_neg hquote]
      exact Or.inr ⟨rfl, _, rfl⟩
    have hdispatch : dispatch f { s with i := skipWs f s.i } c =
        objKey f { s with i := skipWs f s.i } c := by
      rw [dispatch]
      dsimp only
      rcases hst with hst | ⟨hst, hc⟩
      · rw [hst]
      · rw [hst]
        refine if_neg fun heq => hc ?_
        rw [heq]
        rfl
    rw [if_neg hraw, hdispatch]
    by_cases hquote : c = 0x22
    · subst hquote
      rw [if_pos rfl]
      rcases objKey_cases (s := { s with i := skipWs f s.i }) hskip with
        ⟨key, rest, j, hread, rfl, hj, heq⟩ | ⟨hread, e, heq⟩
      · rw [heq, hread, keyed_at, Option.bind_some]
        rcases finish_colon (s := { s.keyed key with i := j, st := .objColon }) hj rfl
          (by rw [← hdone]; exact keyed_done s key) with
          ⟨after, k, hcolon, hk, hfinish⟩ | ⟨hne, e, hfinish⟩
        · refine Or.inl ⟨key, after, k, ?_, hk, hfinish⟩
          rw [hcolon]
          dsimp only
          rw [if_pos rfl, show key ++ 0x22 :: rest = key ++ [0x22] ++ rest by simp,
            Json.taken_append, List.dropLast_concat]
        · refine Or.inr ⟨?_, e, hfinish⟩
          cases hafter : Json.skipWs rest with
          | nil => rfl
          | cons c after => exact if_neg (hne c after hafter)
      · rw [heq, hread]
        exact Or.inr ⟨rfl, e, rfl⟩
    · rw [if_neg hquote, objKey, if_pos hquote]
      exact Or.inr ⟨rfl, _, rfl⟩

/-- The members of an object that is not the root. -/
theorem settles_members {d n fuel : ℕ} (hvalue : ValueSettles f d) (hinner : Inner n d true s)
    (hat : At f s.i t)
    (hst : s.st = .objKey ∨ s.st = .objKeyOrClose ∧ (Json.skipWs t).head? ≠ some 0x7D)
    (hfuel : t.length < fuel) :
    Settles f n s (finish f s) ((Json.readMembers (Json.readValue d) fuel t).map Prod.snd) := by
  induction fuel generalizing s t with
  | zero => exact absurd hfuel (Nat.not_lt_zero _)
  | succ fuel ih =>
    rw [Json.readMembers]
    rcases finish_key hat hst hinner.done with ⟨key, after, j, hkey, hj, heq⟩ | ⟨hkey, e, heq⟩
    · have hself : ∀ (u : FrameScanner) (i : ℕ) (st : St),
          Keeps u.depth u { u with i := i, st := st } := fun u i st =>
        ⟨rfl, fun _ _ => rfl, rfl, rfl, rfl, rfl, rfl, rfl⟩
      rw [heq, hkey, keyed_of_not hinner.not_root, Option.bind_some]
      have hin : Inner n d true { s with i := j, st := .value } :=
        hinner.of_keeps (hself s s.i s.st) j .value
      have hsettles := settles_inner
        (fun t => (Json.readMembers (Json.readValue d) fuel t).map Prod.snd) hvalue hin hj
          (Or.inl rfl)
        fun u t₁ rest k hread hcomma hk hkeeps => by
          have hless := Json.length_after_comma hread hcomma
          have hless' := Json.length_readKey_lt hkey
          have hin' := hin.of_keeps hkeeps k .objKey
          refine Settles.trans (hself u k .objKey) ?_ (ih hin' hk (Or.inl rfl) (by omega))
          rw [show u.depth = n + 1 from hin'.depth]
          exact Nat.le_succ n
      refine Eq.subst (motive := Settles f n s _) ?_ (Settles.trans (hself s j .value) ?_ hsettles)
      · cases Json.readValue d (Json.skipWs after) with
        | none => rfl
        | some t₁ =>
          rw [Option.bind_some, Option.bind_some]
          cases Json.skipWs t₁ with
          | nil => rfl
          | cons c rest =>
            dsimp only
            by_cases hcomma : c = 0x2C
            · rw [if_pos hcomma, if_pos hcomma, Option.map_map]
              rfl
            · rw [if_neg hcomma, if_neg hcomma]
              by_cases hclose : c = 0x7D
              · rw [if_pos hclose, if_pos (show c = closer true from hclose)]
                rfl
              · rw [if_neg hclose, if_neg (show ¬c = closer true from hclose)]
                rfl
      · rw [hinner.depth]
        exact Nat.le_succ n
    · rw [heq, hkey]
      exact ⟨e, rfl⟩

/-- The state after an opening bracket is one of an inner container. -/
theorem inner_opened {d : ℕ} (hdepth : s.depth + (d + 1) = maxNestingDepth) (hdone : s.done = false)
    (hroot : s.depth = 0 → s.havePendingKey = false ∧ s.rootIsObject = false) :
    Inner s.depth d (decide (c = 0x7B)) (s.started.opened c) := by
  have hbound : s.depth < 64 := by
    rw [maxNestingDepth] at hdepth
    omega
  have hstarted : s.depth = 0 → s.started = s := fun h => started_of_not fun hone => by
    rw [h] at hone
    cases hone.1
  have hbit : (s.started.opened c).objectMask.getLsbD s.started.depth = decide (c = 0x7B) :=
    opened_mask_self (by rwa [started_depth])
  rw [started_depth] at hbit
  refine ⟨congrArg (· + 1) (started_depth s), ?_, ?_, hbit, ?_⟩
  · show s.started.depth + 1 + d = maxNestingDepth
    rw [started_depth, ← hdepth]
    omega
  · show s.started.done = false
    rw [started]
    split_ifs <;> exact hdone
  · intro hone
    have hzero : s.depth = 0 := by
      have hsucc : s.started.depth + 1 = 1 := hone
      rw [started_depth] at hsucc
      omega
    show s.started.havePendingKey = false ∧ s.started.rootIsObject = false
    rw [hstarted hzero]
    exact hroot hzero

/-- Opening a container leaves the rest as it was. -/
theorem settles_opened {n : ℕ} {res : Except Halt FrameScanner} {o : Option Text} (hn : s.depth = n)
    (h : Settles f n (s.opened c) res o) : Settles f n s res o := by
  cases o with
  | none => exact h
  | some rest =>
    obtain ⟨u, hres, hat, hkeeps⟩ := h
    refine ⟨u, hres, hat, hkeeps.depth, fun k hk => (hkeeps.mask k hk).trans ?_, hkeeps.pendingKey,
      hkeeps.havePendingKey, hkeeps.valueStart, hkeeps.rootIsObject, hkeeps.done, hkeeps.out⟩
    exact opened_mask_lt (by rwa [hn])

/-- The container is closed at once. -/
theorem settles_close {n d : ℕ} {object : Bool} (hinner : Inner n d object s) (hat : At f s.i t)
    (hst : s.st = if object then .objKeyOrClose else .arrValueOrClose) {rest : Text}
    (hclose : Json.skipWs t = closer object :: rest) :
    Settles f n s (finish f s) (some rest) := by
  have hskip := at_skipWs hat
  rw [hclose] at hskip
  have hround : round f s = close f { s with i := skipWs f s.i } := by
    rw [round_eq hat, hclose]
    dsimp only
    rw [if_neg (by cases object <;> decide), dispatch]
    dsimp only
    rw [hst]
    cases object <;> rfl
  refine ⟨{ s with i := skipWs f s.i + 1, depth := n }, ?_, hskip.tail, rfl, fun _ _ => rfl, rfl,
    rfl,
    rfl, rfl, rfl, rfl⟩
  rw [finish_eq hat.1 hinner.done, hround, close, hinner.depth]
  rfl

/-- A scalar settles as the reader reads it. -/
theorem settles_scalar (hat : At f s.i (c :: t)) (hbrace : c ≠ 0x7B) (hbracket : c ≠ 0x5B) :
    Settles f s.depth s.started (valueCase f s c >>= finish f) (Json.readScalar (c :: t)) := by
  rcases valueCase_scalar hat hbrace hbracket with ⟨rest, j, hread, hj, heq⟩ | ⟨hread, e, heq⟩
  · rw [hread, heq]
    exact ⟨_, rfl, hj, started_depth s, fun _ _ => rfl, rfl, rfl, rfl, rfl, rfl, rfl⟩
  · rw [hread, heq]
    exact ⟨e, rfl⟩

/-- An array, after its opening bracket. -/
theorem settles_array {n d : ℕ} (hvalue : ValueSettles f d) (hinner : Inner n d false s)
    (hat : At f s.i t) (hst : s.st = .arrValueOrClose) :
    Settles f n s (finish f s) (Json.readArray (Json.readValue d) t) := by
  have helements : (Json.skipWs t).head? ≠ some 0x5D →
      Settles f n s (finish f s) (Json.readElements (Json.readValue d) (t.length + 1) t) :=
    fun hne => settles_elements hvalue hinner hat (Or.inr ⟨hst, hne⟩) (Nat.lt_succ_self _)
  rw [Json.readArray]
  cases ht : Json.skipWs t with
  | nil =>
    have hnone : Json.readValue d [] = none := by cases d <;> rfl
    rw [ht, Json.readElements, ht, hnone] at helements
    exact helements (by simp)
  | cons c rest =>
    dsimp only
    split_ifs with hclose
    · rw [hclose] at ht
      exact settles_close hinner hat hst ht
    · exact helements (by rw [ht]; simpa using hclose)

/-- An object that is not the root, after its opening brace. -/
theorem settles_object {n d : ℕ} (hvalue : ValueSettles f d) (hinner : Inner n d true s)
    (hat : At f s.i t) (hst : s.st = .objKeyOrClose) :
    Settles f n s (finish f s) ((Json.readObject (Json.readValue d) t).map Prod.snd) := by
  have hmembers : (Json.skipWs t).head? ≠ some 0x7D →
      Settles f n s (finish f s)
        ((Json.readMembers (Json.readValue d) (t.length + 1) t).map Prod.snd) :=
    fun hne => settles_members hvalue hinner hat (Or.inr ⟨hst, hne⟩) (Nat.lt_succ_self _)
  rw [Json.readObject]
  cases ht : Json.skipWs t with
  | nil =>
    rw [ht, Json.readMembers, Json.readKey, ht] at hmembers
    exact hmembers (by simp)
  | cons c rest =>
    dsimp only
    split_ifs with hclose
    · rw [hclose] at ht
      exact settles_close hinner hat hst ht
    · exact hmembers (by rw [ht]; simpa using hclose)

/-- Every value settles as the reader says, by induction on the containers that may be opened. -/
theorem valueSettles (d : ℕ) : ValueSettles f d := by
  induction d with
  | zero =>
    intro s c t hat hdepth hdone hroot
    by_cases hopen : c = 0x7B ∨ c = 0x5B
    · have hnone : Json.readValue 0 (c :: t) = none := by
        rcases hopen with rfl | rfl <;> rfl
      rw [valueCase_open hopen, if_pos (show s.depth = maxNestingDepth from hdepth), hnone]
      exact ⟨_, rfl⟩
    · obtain ⟨hbrace, hbracket⟩ := not_or.mp hopen
      exact settles_scalar hat hbrace hbracket
  | succ d ih =>
    intro s c t hat hdepth hdone hroot
    have hmax : s.depth ≠ maxNestingDepth := by omega
    have hinner : Inner s.depth d (decide (c = 0x7B)) (s.started.opened c) :=
      inner_opened hdepth hdone hroot
    have hinside : At f (s.started.opened c).i t := by
      rw [show (s.started.opened c).i = s.started.i + 1 from rfl, started_i]
      exact hat.tail
    rw [Json.readValue]
    by_cases hbracket : c = 0x5B
    · subst hbracket
      rw [if_pos rfl, valueCase_open (Or.inr rfl), if_neg hmax]
      exact settles_opened (started_depth s) (settles_array ih hinner hinside rfl)
    rw [if_neg hbracket]
    by_cases hbrace : c = 0x7B
    · subst hbrace
      rw [if_pos rfl, valueCase_open (Or.inl rfl), if_neg hmax]
      exact settles_opened (started_depth s) (settles_object ih hinner hinside rfl)
    · rw [if_neg hbrace]
      exact settles_scalar hat hbrace hbracket

/-! ## The root object -/

/-- The scan stands in the root object. -/
structure InRoot (s : FrameScanner) : Prop where
  depth : s.depth = 1
  bit : s.objectMask.getLsbD 0 = true
  havePendingKey : s.havePendingKey = false
  rootIsObject : s.rootIsObject = true
  done : s.done = false

/-- The members are recorded up to the cap, after those that are there. -/
def Records (f : Bytes) (acc : FrameScan) (res : Except Halt FrameScanner) :
    Option (FrameScan × Text) → Prop
  | some (ms, rest) =>
    if (acc ++ ms).length ≤ maxTopLevelKeys then
      ∃ u, res = .ok u ∧ At f u.i rest ∧ u.rootIsObject = true ∧ u.out = acc ++ ms
    else ∃ e, res = .error (.reject e)
  | none => ∃ e, res = .error (.reject e)

/-- A refusal records nothing. -/
theorem Records.reject {acc : FrameScan} {o : Option (FrameScan × Text)} (e : DecodeError)
    (h : ∀ ms rest, o = some (ms, rest) → maxTopLevelKeys < (acc ++ ms).length) :
    Records f acc (.error (.reject e)) o := by
  cases o with
  | none => exact ⟨e, rfl⟩
  | some r =>
    obtain ⟨ms, rest⟩ := r
    rw [Records, if_neg (Nat.not_le.mpr (h ms rest rfl))]
    exact ⟨e, rfl⟩

/-- A field more in front. -/
theorem Records.cons {acc : FrameScan} {field : Bytes × Bytes} {res : Except Halt FrameScanner}
    {o : Option (FrameScan × Text)} (h : Records f (acc ++ [field]) res o) :
    Records f acc res (o.map fun r => (field :: r.1, r.2)) := by
  cases o with
  | none => exact h
  | some r =>
    obtain ⟨ms, rest⟩ := r
    rw [Records, List.append_assoc] at h
    exact h

/-- A scanner that is done stops. -/
theorem finish_done (hle : s.i ≤ f.length) (hdone : s.done = true) : finish f s = .ok s := by
  obtain ⟨n, hn⟩ : ∃ n, f.length + 1 - s.i = n + 1 := ⟨f.length - s.i, by omega⟩
  rw [finish, hn, loop, if_pos hdone]

/-- The value of a member, recorded under its key. -/
theorem finish_member (key : Text) {after : Text} {j : ℕ} (hroot : InRoot s) (hj : At f j after) :
    (∃ t₁ i, Json.readValue 31 (Json.skipWs after) = some t₁ ∧ At f i t₁ ∧
      ∃ w, InRoot w ∧ w.i = i ∧ w.st = .afterValue ∧
        w.out = s.out ++ [(key, Json.taken (Json.skipWs after) t₁)] ∧
        finish f { s.keyed key with i := j, st := .value } =
          if s.out.length = maxTopLevelKeys then
            .error ({ w with out := s.out }.reject "too many top-level keys")
          else finish f w) ∨
    Json.readValue 31 (Json.skipWs after) = none ∧
      ∃ e, finish f { s.keyed key with i := j, st := .value } = .error (.reject e) := by
  have hkeyed : s.keyed key = { s with pendingKey := key, havePendingKey := true } :=
    if_pos ⟨hroot.depth, hroot.rootIsObject⟩
  have hdepth : s.depth + 31 = maxNestingDepth := by
    rw [hroot.depth]
    rfl
  rw [hkeyed]
  have hsettles := settles_value
    (s := { s with pendingKey := key, havePendingKey := true, i := j, st := .value })
    (valueSettles 31) hj (Or.inl rfl) hdepth hroot.done fun hzero => by
      rw [show s.depth = 0 from hzero] at hdepth
      cases hdepth
  rw [started_root (by exact hroot.depth) (by exact hroot.rootIsObject)] at hsettles
  cases hread : Json.readValue 31 (Json.skipWs after) with
  | none =>
    rw [hread] at hsettles
    exact Or.inr ⟨rfl, hsettles⟩
  | some t₁ =>
    rw [hread] at hsettles
    obtain ⟨u, hu, hat, hkeeps⟩ := hsettles
    obtain ⟨v, hv, hsplit⟩ := (Json.reads_readValue 31).sound hread
    have hstart := at_skipWs hj
    rw [hsplit] at hstart
    have hspan : substr f u.valueStart (u.i - u.valueStart) =
        Json.taken (Json.skipWs after) t₁ := by
      rw [hkeeps.valueStart, hsplit, Json.taken_append]
      exact hstart.take_eq hat
    have hlt : u.valueStart < u.i := by
      obtain ⟨c, v, rfl, -⟩ := hv.head
      rw [hkeeps.valueStart]
      exact hstart.index_lt hat (by simp only [List.length_append, List.length_cons]; omega)
    have hudepth : u.depth = 1 := hkeeps.depth.trans hroot.depth
    have hpending : u.pendingKey = key := hkeeps.pendingKey
    have hout : u.out = s.out := hkeeps.out
    refine Or.inl ⟨t₁, u.i, rfl, hat,
      { u with
        out := u.out ++ [(u.pendingKey, substr f u.valueStart (u.i - u.valueStart))]
        havePendingKey := false
        st := .afterValue }, ?_, rfl, rfl, ?_, ?_⟩
    · exact ⟨hudepth, (hkeeps.mask 0 (by rw [show _ = 1 from hroot.depth]; decide)).trans hroot.bit,
        rfl, hkeeps.rootIsObject.trans hroot.rootIsObject, hkeeps.done.trans hroot.done⟩
    · rw [hspan, hpending, hout]
    · rw [hu, valueDone_member hudepth hkeeps.havePendingKey hlt, hout]
      split_ifs <;> rfl

/-- The members of the root object. -/
theorem records_members {fuel : ℕ} (hroot : InRoot s) (hat : At f s.i t)
    (hst : s.st = .objKey ∨ s.st = .objKeyOrClose ∧ (Json.skipWs t).head? ≠ some 0x7D)
    (hout : s.out.length ≤ maxTopLevelKeys) (hfuel : t.length < fuel) :
    Records f s.out (finish f s) (Json.readMembers (Json.readValue 31) fuel t) := by
  -- on the fuel of the reader; the scanner has its own, which `finish` has spent
  induction fuel generalizing s t with
  | zero => exact absurd hfuel (Nat.not_lt_zero _)
  | succ fuel ih =>
    rw [Json.readMembers]
    rcases finish_key hat hst hroot.done with ⟨key, after, j, hkey, hj, heq⟩ | ⟨hkey, e, heq⟩
    · rw [heq, hkey, Option.bind_some]
      dsimp only
      rcases finish_member key hroot hj with
        ⟨t₁, i, hread, hi, w, hw, rfl, hwst, hwout, hfinish⟩ | ⟨hread, hfinish⟩
      · rw [hread, Option.bind_some, hfinish]
        -- one key too many is refused where its value ends, whatever follows
        by_cases hcap : s.out.length = maxTopLevelKeys
        · rw [if_pos hcap]
          refine Records.reject _ fun ms rest hms => ?_
          have hpos : 0 < ms.length := by
            cases hskip : Json.skipWs t₁ with
            | nil =>
              rw [hskip] at hms
              cases hms
            | cons c after' =>
              rw [hskip] at hms
              dsimp only at hms
              split_ifs at hms
              · obtain ⟨r, -, hr⟩ := Option.map_eq_some_iff.mp hms
                cases hr
                exact Nat.succ_pos _
              · cases hms
                exact Nat.succ_pos _
          rw [List.length_append, hcap]
          omega
        rw [if_neg hcap]
        have hwlength : w.out.length ≤ maxTopLevelKeys := by
          rw [hwout, List.length_append, List.length_singleton]
          omega
        rcases finish_after hi hwst hw.depth hw.done hw.bit with
          ⟨rest, k, hcomma, hk, hafter⟩ | ⟨rest, k, hclose, hk, hafter⟩ | ⟨⟨e, hafter⟩, hne⟩
        -- a comma: the next key, on a shorter text
        · have hless := Json.length_after_comma hread hcomma
          have hless' := Json.length_readKey_lt hkey
          have hnext : InRoot { w with i := k, st := .objKey } :=
            ⟨hw.depth, hw.bit, hw.havePendingKey, hw.rootIsObject, hw.done⟩
          have hrecords := ih hnext hk (Or.inl rfl) hwlength (by omega)
          rw [hcomma, hafter]
          dsimp only
          rw [if_pos rfl]
          exact Records.cons (hwout ▸ hrecords)
        -- a brace: the object is done
        · rw [hclose, hafter, valueDone_plain (by rintro ⟨h, -⟩; cases h)]
          dsimp only
          rw [if_pos rfl, if_neg (show closer true ≠ 0x2C by decide),
            if_pos (show closer true = 0x7D from rfl)]
          rw [hwout] at hwlength
          show Records f s.out (finish f { w with i := k, depth := 0, done := true }) _
          rw [finish_done (by exact hk.1) rfl, Records, if_pos hwlength]
          exact ⟨_, rfl, hk, hw.rootIsObject, hwout⟩
        · rw [hafter]
          cases hskip : Json.skipWs t₁ with
          | nil => exact ⟨e, rfl⟩
          | cons c rest =>
            obtain ⟨hcomma, hclose⟩ := hne c rest hskip
            dsimp only
            rw [if_neg hcomma, if_neg (by exact hclose)]
            exact ⟨e, rfl⟩
      · rw [hread]
        exact hfinish
    · rw [heq, hkey]
      exact ⟨e, rfl⟩

/-- The root object, after its opening brace. -/
theorem records_object (hroot : InRoot s) (hat : At f s.i t) (hst : s.st = .objKeyOrClose)
    (hout : s.out = []) : Records f [] (finish f s) (Json.readObject (Json.readValue 31) t) := by
  have hmembers : (Json.skipWs t).head? ≠ some 0x7D →
      Records f [] (finish f s) (Json.readMembers (Json.readValue 31) (t.length + 1) t) := by
    intro hne
    rw [← hout]
    exact records_members hroot hat (Or.inr ⟨hst, hne⟩) (by rw [hout]; exact Nat.zero_le _)
      (Nat.lt_succ_self _)
  have hskip := at_skipWs hat
  rw [Json.readObject]
  cases ht : Json.skipWs t with
  | nil =>
    rw [ht, Json.readMembers, Json.readKey, ht] at hmembers
    exact hmembers (by simp)
  | cons c rest =>
    rw [ht] at hskip
    dsimp only
    split_ifs with hclose
    · have hround : round f s = close f { s with i := skipWs f s.i } := by
        rw [round_eq hat, ht, hclose]
        dsimp only
        rw [if_neg (by decide), dispatch]
        dsimp only
        rw [hst]
        rfl
      rw [finish_eq hat.1 hroot.done, hround, close, hroot.depth,
        valueDone_plain (by rintro ⟨h, -⟩; cases h), if_pos rfl]
      show Records f [] (finish f { s with i := skipWs f s.i + 1, depth := 0, done := true }) _
      rw [finish_done (by exact hskip.tail.1) rfl]
      exact ⟨_, rfl, hskip.tail, hroot.rootIsObject, hout⟩
    · exact hmembers (by rw [ht]; simpa using hclose)

/-- The loop on a text whose root is an object. -/
theorem records_root (hat : At f s.i (0x7B :: t)) (hs : s = { i := s.i, rootIsObject := true }) :
    Records f [] (finish f s) (Json.readObject (Json.readValue 31) t) := by
  have hws : Json.skipWs (0x7B :: t) = 0x7B :: t := Json.skipWs_cons rfl t
  have hskip : skipWs f s.i = s.i := by
    have h := at_skipWs hat
    rw [hws] at h
    exact h.index_eq hat
  have hround : round f s = .ok (s.opened 0x7B) := by
    rw [round_eq hat, hws]
    dsimp only
    rw [if_neg (by decide), hskip, dispatch, hs]
    dsimp only
    rw [valueCase_open (Or.inl rfl), if_neg (by show ¬(0 = 32); decide),
      started_of_not (by rintro ⟨h, -⟩; cases h)]
  have hroot : InRoot (s.opened 0x7B) := by
    rw [hs]
    refine ⟨rfl, ?_, rfl, rfl, rfl⟩
    rw [opened_mask_self (s := { i := s.i, rootIsObject := true }) (by show 0 < 64; decide)]
    rfl
  have hdone : s.done = false := by rw [hs]
  rw [finish_eq hat.1 hdone, hround]
  refine records_object hroot hat.tail rfl ?_
  show s.out = []
  rw [hs]

/-- The loop on a text whose root is something else ends outside an object, or refuses it. -/
theorem finish_other (hat : At f s.i t) (hs : s = { i := s.i }) :
    (∃ e, finish f s = .error (.reject e)) ∨
      ∃ u rest, finish f s = .ok u ∧ At f u.i rest ∧ u.rootIsObject = false := by
  have hsettles := settles_value (valueSettles maxNestingDepth) hat (Or.inl (by rw [hs]))
    (by rw [hs]; rfl) (by rw [hs]) (fun _ => by rw [hs]; exact ⟨rfl, rfl⟩)
  rw [started_of_not (by rw [hs]; rintro ⟨h, -⟩; cases h)] at hsettles
  cases hread : Json.readValue maxNestingDepth (Json.skipWs t) with
  | none =>
    rw [hread] at hsettles
    exact Or.inl hsettles
  | some rest =>
    rw [hread] at hsettles
    obtain ⟨u, hu, hat, hkeeps⟩ := hsettles
    have hdepth : u.depth = 0 := by
      rw [hkeeps.depth, hs]
    have hroot : u.rootIsObject = false := by
      rw [hkeeps.rootIsObject]
      show s.rootIsObject = false
      rw [hs]
    refine Or.inr ⟨{ u with done := true }, rest, ?_, hat, hroot⟩
    rw [hu, valueDone_plain (by rw [hdepth]; rintro ⟨h, -⟩; cases h), if_pos hdepth]
    exact finish_done hat.1 rfl

/-- The scanner accepts the object texts that nest within the bound and have no more members than
the cap, with their members, and refuses every other frame. -/
theorem run_cases (f : Bytes) :
    (∃ ms, Json.document maxNestingDepth f = some ms ∧ ms.length ≤ maxTopLevelKeys ∧
      run f = .ok ms) ∨
    (∃ e, run f = .error (.reject e)) ∧
      ∀ ms, Json.document maxNestingDepth f = some ms → maxTopLevelKeys < ms.length := by
  have hskip := at_skipWs (At.start f)
  rw [show maxNestingDepth = 31 + 1 from rfl, Json.document, run]
  dsimp only
  rw [hskip.getElem?]
  cases ht : Json.skipWs f with
  | nil => exact Or.inr ⟨⟨_, rfl⟩, fun ms h => by cases h⟩
  | cons c t =>
    rw [ht] at hskip
    -- the fuel suffices, since every round of the loop moves on
    have hloop : ∀ root : Bool, loop f (f.length + 1) { i := skipWs f 0, rootIsObject := root } =
        finish f { i := skipWs f 0, rootIsObject := root } := fun root =>
      loop_eq_finish hskip.1 (by show f.length < f.length + 1 + _; omega)
    dsimp only [List.head?_cons]
    rw [hloop]
    by_cases hbrace : c = 0x7B
    · subst hbrace
      have hrecords := records_root
        (s := { i := skipWs f 0, rootIsObject := decide ((0x7B : UInt8) = 0x7B) }) hskip rfl
      rw [if_pos rfl]
      cases hread : Json.readObject (Json.readValue 31) t with
      | none =>
        rw [hread] at hrecords
        obtain ⟨e, he⟩ := hrecords
        rw [he]
        exact Or.inr ⟨⟨e, rfl⟩, fun ms h => by cases h⟩
      | some r =>
        obtain ⟨ms, rest⟩ := r
        rw [hread, Records, List.nil_append] at hrecords
        rw [Option.bind_some]
        dsimp only
        -- an object with too many keys is a document as well, and it is the cap that refuses it
        split_ifs at hrecords with hcap
        · obtain ⟨u, hu, hat, hroot, hout⟩ := hrecords
          have htail := at_skipWs hat
          rw [hu]
          dsimp only [bind, Except.bind]
          rw [htail.getElem?]
          cases hrest : Json.skipWs rest with
          | nil =>
            refine Or.inl ⟨ms, if_pos rfl, hcap, ?_⟩
            dsimp only [List.head?_nil]
            rw [hroot, hout]
            rfl
          | cons c rest' =>
            refine Or.inr ⟨⟨_, rfl⟩, fun ms' h => ?_⟩
            rw [if_neg (List.cons_ne_nil c rest')] at h
            cases h
        · obtain ⟨e, he⟩ := hrecords
          rw [he]
          refine Or.inr ⟨⟨e, rfl⟩, fun ms' h => ?_⟩
          split_ifs at h
          cases h
          omega
    · rw [if_neg hbrace, show decide (c = 0x7B) = false from decide_eq_false hbrace]
      -- a root that is no object is scanned to its end before it is refused
      refine Or.inr ⟨?_, fun ms h => by cases h⟩
      rcases finish_other (s := { i := skipWs f 0 }) hskip rfl with ⟨e, he⟩ |
        ⟨u, rest, hu, hat, hroot⟩
      · rw [he]
        exact ⟨e, rfl⟩
      · rw [hu]
        dsimp only [bind, Except.bind]
        rw [(at_skipWs hat).getElem?]
        cases Json.skipWs rest with
        | nil =>
          dsimp only [List.head?_nil]
          rw [hroot]
          exact ⟨_, rfl⟩
        | cons c rest => exact ⟨_, rfl⟩

end FrameScanner

end MarketMaker
