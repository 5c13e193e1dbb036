import MarketMaker.Client.FastPath
import MarketMaker.Codec.Recognizer

/-!
# Engine and client accept the same frames

Within the cap on a frame, which the engine leaves to its transport, the preflight of the client
returns a scan exactly where the one of the engine does, and it is the same scan.
-/

namespace MarketMaker

namespace Client

variable {decodeError : Bytes → Bytes} {frame : Bytes}

/-- The first two steps of `_prepare`. -/
def preflight (decodeError : Bytes → Bytes) (data : Bytes) : Except Raise Fields := do
  checkFrameBytes decodeError data
  scan decodeError data

theorem take_three_eq_iff (frame : Bytes) :
    frame.take 3 = [0xEF, 0xBB, 0xBF] ↔ [0xEF, 0xBB, 0xBF] <+: frame := by
  rw [List.prefix_iff_eq_take]
  exact eq_comm

/-- The byte policy of the client is that of the engine and the cap. -/
theorem checkFrameBytes_cases (decodeError : Bytes → Bytes) (frame : Bytes) :
    (checkFrameBytes decodeError frame = .ok () ∧ frame.length ≤ MAX_FRAME_BYTES ∧
      ¬[0xEF, 0xBB, 0xBF] <+: frame ∧ Utf8.Valid frame) ∨
    (∃ e, checkFrameBytes decodeError frame = .error (.valueError e)) ∧
      (frame.length ≤ MAX_FRAME_BYTES → [0xEF, 0xBB, 0xBF] <+: frame ∨ ¬Utf8.Valid frame) := by
  rw [checkFrameBytes]
  by_cases hlength : frame.length > MAX_FRAME_BYTES
  · rw [if_pos hlength]
    exact Or.inr ⟨⟨_, rfl⟩, fun hle => absurd hle (Nat.not_le.mpr hlength)⟩
  rw [if_neg hlength]
  by_cases hbom : frame.take 3 = [0xEF, 0xBB, 0xBF]
  · rw [if_pos hbom]
    exact Or.inr ⟨⟨_, rfl⟩, fun _ => Or.inl ((take_three_eq_iff frame).mp hbom)⟩
  rw [if_neg hbom]
  by_cases hutf8 : Utf8.Valid frame
  · rw [if_pos hutf8]
    exact Or.inl ⟨rfl, Nat.not_lt.mp hlength, mt (take_three_eq_iff frame).mpr hbom, hutf8⟩
  · rw [if_neg hutf8]
    exact Or.inr ⟨⟨_, rfl⟩, fun _ => Or.inr hutf8⟩

/-- The preflight of the client returns the scan of a frame that is acceptable to the engine and
within the cap, and raises `ValueError` on every other. -/
theorem preflight_cases (decodeError : Bytes → Bytes) (frame : Bytes) :
    (∃ fields, preflight decodeError frame = .ok fields ∧ Acceptable frame fields ∧
      frame.length ≤ MAX_FRAME_BYTES) ∨
    (∃ e, preflight decodeError frame = .error (.valueError e)) ∧
      (frame.length ≤ MAX_FRAME_BYTES → ∀ fields, ¬Acceptable frame fields) := by
  rw [preflight]
  rcases checkFrameBytes_cases decodeError frame with
    ⟨hok, hlength, hbom, hutf8⟩ | ⟨⟨e, he⟩, hbad⟩
  · rw [hok]
    change (∃ fields, scan decodeError frame = .ok fields ∧ _ ∧ _) ∨
      (∃ e, scan decodeError frame = .error _) ∧ _
    rcases scan_cases frame with ⟨fields, hread, hpolicy, hscan⟩ | ⟨⟨e, he⟩, hnone⟩
    · exact Or.inl ⟨fields, hscan, ⟨hbom, hutf8, Json.document_eq_some_iff.mp hread, hpolicy.count,
        hpolicy.noEscape, hpolicy.distinct⟩, hlength⟩
    · refine Or.inr ⟨⟨e, he⟩, fun _ fields h => ?_⟩
      exact hnone fields (Json.document_eq_some_iff.mpr h.text) ⟨h.noEscape, h.distinct, h.members⟩
  · rw [he]
    refine Or.inr ⟨⟨e, rfl⟩, fun hlength fields h => ?_⟩
    rcases hbad hlength with hbom | hutf8
    · exact h.noBom hbom
    · exact hutf8 h.utf8

theorem preflight_eq_ok_iff (hlength : frame.length ≤ MAX_FRAME_BYTES) (fields : Fields) :
    preflight decodeError frame = .ok fields ↔ Acceptable frame fields := by
  rcases preflight_cases decodeError frame with ⟨fields', hok, haccept, -⟩ | ⟨⟨e, he⟩, hnone⟩
  · rw [hok]
    constructor
    · rintro ⟨⟩
      exact haccept
    · intro h
      rw [haccept.unique h]
  · rw [he]
    exact iff_of_false (fun h => (by contradiction)) (hnone hlength fields)

/-- The engine and the client accept the same frames of at most the cap, and record the same
members of them in the same order. -/
theorem framePreflight_iff_preflight (hlength : frame.length ≤ MAX_FRAME_BYTES)
    (decodeError : Bytes → Bytes) :
    ((∃ scan, framePreflight frame = .ok scan) ↔
      ∃ fields, preflight decodeError frame = .ok fields) ∧
    ∀ scan fields, framePreflight frame = .ok scan → preflight decodeError frame = .ok fields →
      scan = fields := by
  refine ⟨exists_congr fun scan => ?_, fun scan fields hscan hfields => ?_⟩
  · rw [framePreflight_eq_ok_iff, preflight_eq_ok_iff hlength]
  · have haccept := framePreflight_eq_ok_iff.mp hscan
    exact haccept.unique ((preflight_eq_ok_iff hlength fields).mp hfields)

/-- An object with an array in it. -/
theorem framePreflight_iff_preflight_array :
    ∃ fields, preflight (fun _ => []) [0x7B, 0x22, 0x74, 0x22, 0x3A, 0x5B, 0x30, 0x5D, 0x7D] =
      .ok fields ∧ [([0x74], [0x5B, 0x30, 0x5D])] = fields := by
  have hengine : framePreflight [0x7B, 0x22, 0x74, 0x22, 0x3A, 0x5B, 0x30, 0x5D, 0x7D] =
      .ok [([0x74], [0x5B, 0x30, 0x5D])] := by
    decide +kernel
  have hlength : ([0x7B, 0x22, 0x74, 0x22, 0x3A, 0x5B, 0x30, 0x5D, 0x7D] : Bytes).length ≤
      MAX_FRAME_BYTES := by
    decide
  obtain ⟨haccept, hsame⟩ := framePreflight_iff_preflight hlength fun _ => []
  obtain ⟨fields, hfields⟩ := haccept.mp ⟨_, hengine⟩
  exact ⟨fields, hfields, hsame _ _ hengine hfields⟩

end Client

end MarketMaker
