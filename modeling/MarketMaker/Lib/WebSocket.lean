import Mathlib.Data.List.Basic
import Mathlib.Data.Nat.Notation
import Mathlib.Tactic.SplitIfs

/-!
# WebSocket messages

The frames of one direction of a connection without extensions, and how they make up messages
(RFC 6455, sections 5.2 to 5.4): no frame has a reserved bit, control frames may stand anywhere, and
the data frames are whole messages, one after the other, followed by the start of another. This is
the reading of an endpoint that takes text messages only.

A sequence of frames is read in one way (`Reads.unique`), and one more frame either is a control
frame, or is the next frame of the message that is open (`Reads.concat`, `Reads.of_concat`).
-/

namespace WebSocket

inductive Opcode
  | continuation
  | text
  | binary
  | close
  | ping
  | pong
  deriving DecidableEq, Repr

def Opcode.isControl : Opcode → Bool
  | .close => true
  | .ping => true
  | .pong => true
  | _ => false

structure Frame where
  fin : Bool
  rsv1 : Bool := false
  rsv2 : Bool := false
  rsv3 : Bool := false
  opcode : Opcode
  payload : List UInt8
  deriving DecidableEq, Repr

/-- A reserved bit is set. -/
def Frame.reserved (f : Frame) : Bool := f.rsv1 || f.rsv2 || f.rsv3

/-- The payload of a message, or of the start of one. -/
def contentOf (fs : List Frame) : List UInt8 := fs.flatMap Frame.payload

/-! ## Messages -/

/-- A text frame, and continuations of it. -/
def Ordered : List Frame → Prop
  | [] => True
  | f :: fs => f.opcode = .text ∧ ∀ g ∈ fs, g.opcode = .continuation

/-- The start of a message, or nothing. -/
structure IsOpening (fs : List Frame) : Prop where
  ordered : Ordered fs
  unfinished : ∀ f ∈ fs, f.fin = false

/-- A whole message. -/
structure IsMessage (fs : List Frame) : Prop where
  ordered : Ordered fs
  finished : ∃ p f, fs = p ++ [f] ∧ (∀ g ∈ p, g.fin = false) ∧ f.fin = true

/-- The frames are read as these messages, and the start of another. -/
structure Reads (fs : List Frame) (messages : List (List Frame)) (start : List Frame) : Prop where
  plain : ∀ f ∈ fs, f.reserved = false
  data : fs.filter (fun f => !f.opcode.isControl) = messages.flatten ++ start
  messages : ∀ m ∈ messages, IsMessage m
  start : IsOpening start

/-- What the next data frame of a message has to be. -/
def expected (start : List Frame) : Opcode := if start = [] then .text else .continuation

theorem contentOf_append (fs gs : List Frame) :
    contentOf (fs ++ gs) = contentOf fs ++ contentOf gs :=
  List.flatMap_append

theorem ordered_concat {fs : List Frame} {f : Frame} :
    Ordered (fs ++ [f]) ↔ Ordered fs ∧ f.opcode = expected fs := by
  cases fs with
  | nil =>
    rw [expected, if_pos rfl]
    exact ⟨fun h => ⟨trivial, h.1⟩, fun h => ⟨h.2, fun g hg => by contradiction⟩⟩
  | cons g gs =>
    rw [expected, if_neg (List.cons_ne_nil g gs), List.cons_append, Ordered, Ordered, and_assoc]
    refine and_congr_right fun _ => ?_
    rw [List.forall_mem_append, List.forall_mem_singleton]

theorem isOpening_nil : IsOpening [] := ⟨trivial, fun _ h => by contradiction⟩

theorem isOpening_concat {p : List Frame} {f : Frame} :
    IsOpening (p ++ [f]) ↔ IsOpening p ∧ f.opcode = expected p ∧ f.fin = false := by
  constructor
  · intro h
    obtain ⟨hp, hop⟩ := ordered_concat.mp h.ordered
    obtain ⟨hbefore, hlast⟩ := List.forall_mem_append.mp h.unfinished
    exact ⟨⟨hp, hbefore⟩, hop, hlast f List.mem_cons_self⟩
  · rintro ⟨h, hop, hfin⟩
    refine ⟨ordered_concat.mpr ⟨h.ordered, hop⟩, List.forall_mem_append.mpr ⟨h.unfinished, ?_⟩⟩
    exact (List.forall_mem_singleton).mpr hfin

theorem isMessage_concat {p : List Frame} {f : Frame} :
    IsMessage (p ++ [f]) ↔ IsOpening p ∧ f.opcode = expected p ∧ f.fin = true := by
  constructor
  · intro h
    obtain ⟨hp, hop⟩ := ordered_concat.mp h.ordered
    obtain ⟨q, g, heq, hbefore, hlast⟩ := h.finished
    obtain ⟨rfl, hsame⟩ := List.append_inj' heq rfl
    obtain rfl := List.singleton_inj.mp hsame
    exact ⟨⟨hp, hbefore⟩, hop, hlast⟩
  · rintro ⟨h, hop, hfin⟩
    exact ⟨ordered_concat.mpr ⟨h.ordered, hop⟩, p, f, rfl, h.unfinished, hfin⟩

theorem IsMessage.exists_concat {m : List Frame} (h : IsMessage m) :
    ∃ p f, m = p ++ [f] ∧ IsOpening p ∧ f.opcode = expected p ∧ f.fin = true := by
  obtain ⟨p, f, rfl, -⟩ := h.finished
  exact ⟨p, f, rfl, isMessage_concat.mp h⟩

/-! ## One reading -/

/-- The first message is where the first final frame is. -/
theorem message_append_inj {p q rest rest' : List Frame} {f g : Frame}
    (hp : ∀ e ∈ p, e.fin = false) (hf : f.fin = true) (hq : ∀ e ∈ q, e.fin = false)
    (hg : g.fin = true) (h : p ++ f :: rest = q ++ g :: rest') : p = q ∧ f = g ∧ rest = rest' := by
  induction p generalizing q with
  | nil =>
    cases q with
    | nil => exact ⟨rfl, (List.cons.inj h).1, (List.cons.inj h).2⟩
    | cons e q =>
      obtain ⟨rfl, -⟩ := List.cons.inj h
      rw [hq f List.mem_cons_self] at hf
      cases hf
  | cons d p ih =>
    cases q with
    | nil =>
      obtain ⟨rfl, -⟩ := List.cons.inj h
      rw [hp d List.mem_cons_self] at hg
      cases hg
    | cons e q =>
      obtain ⟨rfl, htail⟩ := List.cons.inj h
      obtain ⟨rfl, hrest⟩ := ih (fun x hx => hp x (List.mem_cons_of_mem d hx))
        (fun x hx => hq x (List.mem_cons_of_mem d hx)) htail
      exact ⟨rfl, hrest⟩

theorem flatten_append_inj {ms ms' : List (List Frame)} {o o' : List Frame}
    (hms : ∀ m ∈ ms, IsMessage m) (ho : IsOpening o) (hms' : ∀ m ∈ ms', IsMessage m)
    (ho' : IsOpening o') (h : ms.flatten ++ o = ms'.flatten ++ o') : ms = ms' ∧ o = o' := by
  -- nothing unfinished contains a message
  have hnone : ∀ {ms : List (List Frame)} {m o o' : List Frame}, IsMessage m → IsOpening o →
      o ≠ (m :: ms).flatten ++ o' := by
    rintro ms m o o' hm ho rfl
    obtain ⟨p, f, rfl, -, -, hfin⟩ := hm.exists_concat
    have hmem : f ∈ ((p ++ [f]) :: ms).flatten ++ o' := by simp
    rw [ho.unfinished f hmem] at hfin
    cases hfin
  induction ms generalizing ms' with
  | nil =>
    cases ms' with
    | nil => exact ⟨rfl, h⟩
    | cons m' ms' => exact absurd h (hnone (hms' m' List.mem_cons_self) ho)
  | cons m ms ih =>
    cases ms' with
    | nil => exact absurd h.symm (hnone (hms m List.mem_cons_self) ho')
    | cons m' ms' =>
      obtain ⟨p, f, rfl, hp, -, hf⟩ := (hms m List.mem_cons_self).exists_concat
      obtain ⟨q, g, rfl, hq, -, hg⟩ := (hms' m' List.mem_cons_self).exists_concat
      rw [List.flatten_cons, List.flatten_cons, List.append_assoc, List.append_assoc,
        List.append_assoc, List.append_assoc, List.singleton_append, List.singleton_append] at h
      obtain ⟨rfl, rfl, hrest⟩ := message_append_inj hp.unfinished hf hq.unfinished hg h
      obtain ⟨rfl, rfl⟩ := ih (fun m hm => hms m (List.mem_cons_of_mem _ hm))
        (fun m hm => hms' m (List.mem_cons_of_mem _ hm)) hrest
      exact ⟨rfl, rfl⟩

namespace Reads

variable {fs : List Frame} {ms ms' : List (List Frame)} {o o' : List Frame} {f : Frame}

theorem nil : Reads [] [] [] :=
  ⟨fun _ h => (by contradiction), rfl, fun _ h => (by contradiction), isOpening_nil⟩

theorem unique (h : Reads fs ms o) (h' : Reads fs ms' o') : ms = ms' ∧ o = o' :=
  flatten_append_inj h.messages h.start h'.messages h'.start (h.data.symm.trans h'.data)

/-! ## One more frame -/

/-- A control frame is no part of a message. -/
theorem control (h : Reads fs ms o) (hplain : f.reserved = false)
    (hcontrol : f.opcode.isControl = true) : Reads (fs ++ [f]) ms o where
  plain := List.forall_mem_append.mpr ⟨h.plain, List.forall_mem_singleton.mpr hplain⟩
  data := by
    rw [List.filter_append, h.data]
    simp [hcontrol]
  messages := h.messages
  start := h.start

theorem filter_concat (hdata : f.opcode.isControl = false) :
    (fs ++ [f]).filter (fun f => !f.opcode.isControl) =
      fs.filter (fun f => !f.opcode.isControl) ++ [f] := by
  rw [List.filter_append]
  simp [hdata]

theorem isControl_expected (o : List Frame) : (expected o).isControl = false := by
  rw [expected]
  split_ifs <;> rfl

/-- The frame that is expected next goes on with the message, or ends it. -/
theorem concat (h : Reads fs ms o) (hplain : f.reserved = false) (hop : f.opcode = expected o) :
    f.fin = false ∧ Reads (fs ++ [f]) ms (o ++ [f]) ∨
      f.fin = true ∧ Reads (fs ++ [f]) (ms ++ [o ++ [f]]) [] := by
  have hplains : ∀ g ∈ fs ++ [f], g.reserved = false :=
    List.forall_mem_append.mpr ⟨h.plain, List.forall_mem_singleton.mpr hplain⟩
  have hdata : (fs ++ [f]).filter (fun f => !f.opcode.isControl) = ms.flatten ++ o ++ [f] := by
    rw [filter_concat (hop ▸ isControl_expected o), h.data]
  cases hfin : f.fin with
  | false =>
    refine Or.inl ⟨rfl, hplains, ?_, h.messages, isOpening_concat.mpr ⟨h.start, hop, hfin⟩⟩
    rw [hdata, List.append_assoc]
  | true =>
    refine Or.inr ⟨rfl, hplains, ?_, ?_, isOpening_nil⟩
    · rw [hdata]
      simp
    · refine List.forall_mem_append.mpr ⟨h.messages, List.forall_mem_singleton.mpr ?_⟩
      exact isMessage_concat.mpr ⟨h.start, hop, hfin⟩

/-- A data frame that may follow is the one that is expected. -/
theorem of_concat (h : Reads (fs ++ [f]) ms' o') : f.reserved = false ∧
    (f.opcode.isControl = true ∨ ∃ ms o, Reads fs ms o ∧ f.opcode = expected o) := by
  obtain ⟨hplains, hlast⟩ := List.forall_mem_append.mp h.plain
  refine ⟨hlast f List.mem_cons_self, ?_⟩
  cases hcontrol : f.opcode.isControl with
  | true => exact Or.inl rfl
  | false =>
    have hdata := h.data
    rw [filter_concat hcontrol] at hdata
    refine Or.inr ?_
    rcases List.eq_nil_or_concat' o' with rfl | ⟨p, g, rfl⟩
    · rw [List.append_nil] at hdata
      rcases List.eq_nil_or_concat' ms' with rfl | ⟨ms, m, rfl⟩
      · exact absurd hdata (List.append_ne_nil_of_right_ne_nil _ (List.cons_ne_nil f []))
      · obtain ⟨hms, hm⟩ := List.forall_mem_append.mp h.messages
        obtain ⟨p, g, rfl, hp, hop, -⟩ := (hm m List.mem_cons_self).exists_concat
        rw [List.flatten_append, List.flatten_singleton, ← List.append_assoc] at hdata
        obtain ⟨hbefore, hsame⟩ := List.append_inj' hdata rfl
        obtain rfl := List.singleton_inj.mp hsame
        exact ⟨ms, p, ⟨hplains, hbefore, hms, hp⟩, hop⟩
    · rw [← List.append_assoc] at hdata
      obtain ⟨hbefore, hsame⟩ := List.append_inj' hdata rfl
      obtain rfl := List.singleton_inj.mp hsame
      obtain ⟨hp, hop, -⟩ := isOpening_concat.mp h.start
      exact ⟨ms', p, ⟨hplains, hbefore, h.messages, hp⟩, hop⟩

end Reads

end WebSocket
