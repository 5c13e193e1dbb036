import MarketMaker.Client.Contiguity
import MarketMaker.Client.Reception
import MarketMaker.Link.Frames
import MarketMaker.Server.Turns

/-!
# What the server puts on the wire

In every run of the server with the nlohmann codec, whatever the peers send, every frame that a
session hands to `async_write` is decoded by the client's own decoders to the message it was encoded
from. What is assumed is the configuration (an instrument and a feed in the domains of their C++
types) and, of a frame, its counters and its service time: these are `uint64`s and an `int64` that a
run long enough leaves.
-/

namespace MarketMaker

open Client (FitsIdentifier FitsFields FitsMachine FitsOutMsg)
open OrderEngine (Call)

/-- The books of a feed are `int64`s. -/
def FitsFeed (feed : List FeedEvent) : Prop :=
  ∀ bidPx bidQty askPx askQty, .set bidPx bidQty askPx askQty ∈ feed →
    InInt64 bidPx ∧ InInt64 bidQty ∧ InInt64 askPx ∧ InInt64 askQty

namespace World

/-- The engine stores what was decoded, and every line is wired. -/
structure Wired (cfg : ServerConfig) (w : World) : Prop where
  engine : OrderEngine.Fits cfg.engine w.srv.engine
  lines : ∀ x ∈ w.heap, x.line.Wired cfg w.srv.calls

variable {cfg : ServerConfig} {codec : Codec} {w : World}

theorem wired_init (cfg : ServerConfig) (clock : ℕ → ℤ) : (init clock).Wired cfg :=
  ⟨OrderEngine.fits_init cfg.engine, fun _ hx => by cases hx⟩

/-- A session's code that keeps its view wired keeps the world wired. -/
theorem Wired.on {i : ℕ} {f : Turn → Turn} (h : w.Wired cfg)
    (hcalls : w.srv.calls <+: (w.on i f).srv.calls)
    (hf : ∀ x, w.heap[i]? = some x → (Turn.view ⟨w.srv, x⟩).Wired cfg →
      (f ⟨w.srv, x⟩).view.Wired cfg) :
    (w.on i f).Wired cfg := by
  cases hx : w.heap[i]? with
  | none =>
    rw [World.on, hx]
    exact h
  | some x =>
    rw [heap_on hx] at hcalls ⊢
    have hview := hf x hx ⟨h.engine, h.lines x (List.mem_of_getElem? hx)⟩
    refine ⟨hview.engine, fun y hy => ?_⟩
    rcases List.mem_or_eq_of_mem_set hy with hold | rfl
    · exact (h.lines y hold).mono hcalls
    · exact hview.line

/-- Code that only drains adds to the calls. -/
theorem calls_on (w : World) (i : ℕ) {f : Turn → Turn}
    (hf : ∀ t : Turn, t.srv.calls <+: (f t).srv.calls) : w.srv.calls <+: (w.on i f).srv.calls := by
  cases hx : w.heap[i]? with
  | none =>
    simp only [World.on, hx, List.prefix_refl]
  | some x =>
    rw [heap_on hx]
    exact hf ⟨w.srv, x⟩

theorem calls_beginClose (cfg : ServerConfig) (codec : Codec) (code : CloseCode) (t : Turn) :
    t.srv.calls <+: (Session.beginClose cfg codec code t).srv.calls :=
  calls_drains (Session.drains_beginClose cfg codec code t)

theorem calls_deliverReport (cfg : ServerConfig) (codec : Codec) (msg : OutMsg) (mdSeq : ℕ)
    (t : Turn) :
    t.srv.calls <+: (Session.deliverReport cfg codec msg mdSeq t).srv.calls := by
  by_cases hdown : t.self.tornDown = true
  · simp only [Session.deliverReport, if_pos hdown, List.prefix_refl]
  · have hup : t.self.tornDown = false := Bool.not_eq_true _ |>.mp hdown
    exact calls_drains (Session.drains_deliverReport cfg codec msg mdSeq hup)

theorem calls_deliverTob (cfg : ServerConfig) (codec : Codec) (tob : Tob) (t : Turn) :
    t.srv.calls <+: (Session.deliverTob cfg codec tob t).srv.calls := by
  by_cases hskip : (t.self.tornDown || t.self.closing) = true
  · simp only [Session.deliverTob, if_pos hskip, List.prefix_refl]
  · obtain ⟨hup, hc⟩ : t.self.tornDown = false ∧ t.self.closing = false := by simpa using hskip
    exact calls_drains (Session.drains_deliverTob cfg codec tob hup hc)

theorem wired_foldl {α : Type} {f : World → α → World} {as : List α} (P : World → Prop)
    (hf : ∀ w, ∀ a ∈ as, w.Wired cfg → P w → (f w a).Wired cfg ∧ P (f w a)) (h : w.Wired cfg)
    (hP : P w) : (as.foldl f w).Wired cfg ∧ P (as.foldl f w) := by
  induction as generalizing w with
  | nil => exact ⟨h, hP⟩
  | cons a as ih =>
    obtain ⟨hnext, hkept⟩ := hf w a List.mem_cons_self h hP
    exact ih (fun w b hb => hf w b (List.mem_cons_of_mem a hb)) hnext hkept

theorem Wired.closeAll (h : w.Wired cfg) (codec : Codec) : (w.closeAll cfg codec).Wired cfg := by
  refine (wired_foldl (fun _ => True) (fun w p _ hw _ => ⟨hw.on ?_ fun x _ hx => ?_, trivial⟩) h
    trivial).1
  · exact calls_on w p.2 (calls_beginClose cfg codec .goingAway)
  · exact Session.wired_beginClose .goingAway hx

theorem Wired.beginStop (h : w.Wired cfg) (codec : Codec) : (w.beginStop cfg codec).Wired cfg := by
  cases hstopping : w.srv.stopping with
  | true =>
    rw [World.beginStop, if_pos hstopping]
    exact h
  | false =>
    rw [beginStop_of_running hstopping]
    split_ifs
    · have hhub : w.halted.srv.finalize.hub = w.srv.hub := Session.hub_finalize _
      refine ⟨?_, fun x hx => ?_⟩
      · show OrderEngine.Fits cfg.engine w.halted.srv.finalize.hub.engine
        rw [hhub]
        exact h.engine
      · show x.line.Wired cfg w.halted.srv.finalize.hub.calls
        rw [hhub]
        exact h.lines x hx
    · exact Wired.closeAll (w := w.halted) ⟨h.engine, h.lines⟩ codec

theorem Wired.route (h : w.Wired cfg) (codec : Codec) (mdSeq : ℕ) {r : Routed}
    (hr : FitsFields r.msg) :
    (w.route cfg codec mdSeq r).Wired cfg ∧
      w.srv.calls <+: (w.route cfg codec mdSeq r).srv.calls := by
  obtain ⟨counted, hcount, hroute⟩ := route_cases cfg codec mdSeq w r
  have hcounted : counted.Wired cfg ∧ counted.srv.calls = w.srv.calls := by
    rcases hcount with rfl | rfl
    · exact ⟨h, rfl⟩
    · exact ⟨⟨h.engine, h.lines⟩, rfl⟩
  obtain ⟨hwired, hsame⟩ := hcounted
  rw [← hsame]
  rcases hroute with hroute | ⟨i, hroute⟩
  · rw [hroute]
    exact ⟨hwired, List.prefix_refl _⟩
  · rw [hroute]
    have hcalls := calls_on counted i (calls_deliverReport cfg codec r.msg mdSeq)
    exact ⟨hwired.on hcalls fun _ _ => Session.wired_deliverReport mdSeq hr, hcalls⟩

theorem Wired.fanOut (h : w.Wired cfg) (codec : Codec) {tob : Tob}
    (htob : Genuine cfg w.srv.calls (.tob tob)) : (w.fanOut cfg codec tob).Wired cfg := by
  refine (wired_foldl (fun w => Genuine cfg w.srv.calls (.tob tob)) (fun w p _ hw hgenuine => ?_) h
    htob).1
  have hcalls := calls_on w p.2 (calls_deliverTob cfg codec tob)
  exact ⟨hw.on hcalls fun _ _ => Session.wired_deliverTob hgenuine, hgenuine.mono hcalls⟩

/-- A book of the feed reaches the sessions as fills and a tick that are genuine. -/
theorem Wired.publishBook (hinst : FitsInstrument cfg.engine.inst) (h : w.Wired cfg) (codec : Codec)
    {bidPx bidQty askPx askQty : ℤ} (hbook : InInt64 bidPx ∧ InInt64 bidQty ∧ InInt64 askPx ∧
      InInt64 askQty) :
    (w.publishBook cfg codec bidPx bidQty askPx askQty).Wired cfg := by
  obtain ⟨hbidPx, hbidQty, haskPx, haskQty⟩ := hbook
  let book := w.bookOf bidPx bidQty askPx askQty
  have hcall : OrderEngine.FitsCall (.onBook book) := trivial
  -- the engine has processed the book before anything of it is sent
  have hprocessed : (w.processed cfg book).Wired cfg :=
    ⟨h.engine.step hcall,
      fun x hx => (h.lines x hx).mono (List.prefix_append _ _)⟩
  have hlisted : book ∈ booksIn (w.processed cfg book).srv.calls := by
    refine List.mem_filterMap.mpr ⟨_, List.mem_append_right _ (List.mem_singleton_self _), rfl⟩
  have hgenuine : Genuine cfg (w.processed cfg book).srv.calls (.tob (tobOf cfg book)) :=
    ⟨⟨rfl, hinst.symbol, hbidPx, hbidQty, haskPx, haskQty⟩,
      fun tob htob => ⟨book, hlisted, 0, 0, (OutMsg.tob.inj htob).symm⟩⟩
  -- the fills go out first, which keeps the tick genuine
  obtain ⟨hrouted, hkept⟩ := wired_foldl (fun w => Genuine cfg w.srv.calls (.tob (tobOf cfg book)))
    (fun w r hr hw hw' => by
      obtain ⟨hnext, hcalls⟩ := hw.route codec book.mdSeq
        (OrderEngine.fits_reply hinst h.engine hcall r hr)
      exact ⟨hnext, hw'.mono hcalls⟩) hprocessed hgenuine
  exact Wired.fanOut hrouted codec hkept

theorem Wired.onFeedEvent (hinst : FitsInstrument cfg.engine.inst) (hfeed : FitsFeed cfg.feed)
    (h : w.Wired cfg) (codec : Codec) : (w.onFeedEvent cfg codec).Wired cfg := by
  have hmoved : ∀ index, (w.fed index).Wired cfg := fun _ => ⟨h.engine, h.lines⟩
  unfold World.onFeedEvent
  dsimp only
  split_ifs with _ _ hexhausted
  · exact h
  · exact h.beginStop codec
  all_goals
    split
    · next hentry =>
      exact (hmoved _).publishBook hinst codec (hfeed _ _ _ _ (List.mem_of_getElem? hentry))
    · exact hmoved _
    · exact (hmoved _).closeAll codec
    · exact (hmoved _).beginStop codec
    · exact hmoved _

/-- A turn keeps the world wired. -/
theorem Wired.step (hinst : FitsInstrument cfg.engine.inst) (hfeed : FitsFeed cfg.feed)
    (hcodec : codec.Telling) (hinv : w.Inv cfg) (h : w.Wired cfg) (event : Event) :
    (w.step cfg codec event).Wired cfg := by
  have hcreated : ∀ calls, (Session.create cfg).line.Wired cfg calls := fun calls =>
    Line.wired_fresh cfg calls 0
  have hgrows := (grows_netSteps (hinv.step_netSteps codec event).1).1
  have hturned := turned_step cfg codec w event
  generalize hnext : w.step cfg codec event = w' at hturned ⊢
  cases hturned with
  | ignored => exact h
  | @completed _ i x f hfound hcompletes =>
    -- the calls only grow, so the other sessions stay wired
    refine h.on ?_ fun y hy hview => ?_
    · exact hnext ▸ hgrows
    cases hfound.symm.trans hy
    exact Session.wired_completes hinst hcodec hcompletes hview
  | fed index _ => exact ⟨h.engine, h.lines⟩
  | dropped index _ => exact Wired.closeAll (w := w.fed index) ⟨h.engine, h.lines⟩ codec
  | published index _ _ _ _ _ => exact hnext ▸ h.onFeedEvent hinst hfeed codec
  | stopped _ index _ => exact Wired.beginStop (w := w.fed index) ⟨h.engine, h.lines⟩ codec
  | snapshot conflatedOf _ => exact ⟨h.engine, h.lines⟩
  | accepted ok =>
    unfold onAccept
    dsimp only
    split_ifs <;> exact ⟨h.engine, h.lines⟩
  | @requested i request _ =>
    unfold onUpgradeRequest
    cases request with
    | none => exact ⟨h.engine, h.lines⟩
    | some req =>
      dsimp only
      split_ifs
      · exact ⟨h.engine, h.lines⟩
      · exact ⟨h.engine, h.lines⟩
      · exact ⟨h.engine, h.lines⟩
      · exact ⟨h.engine, h.lines⟩
      · refine ⟨h.engine, fun x hx => ?_⟩
        rcases List.mem_append.mp hx with hold | hnew
        · exact h.lines x hold
        · rw [List.mem_singleton.mp hnew]
          exact hcreated _
  | refused _ => exact ⟨h.engine, h.lines⟩
  | @shaken i j ok hfound =>
    rw [(hinv.onHandshake_eq hfound ok).2]
    split_ifs
    · exact ⟨h.engine, h.lines⟩
    · refine ⟨h.engine, fun x hx => ?_⟩
      rcases List.mem_or_eq_of_mem_set hx with hold | rfl
      · exact h.lines x hold
      · exact Line.wired_fresh cfg _ _

/-- Every state of a run is wired. -/
theorem run_wired (hinst : FitsInstrument cfg.engine.inst) (hfeed : FitsFeed cfg.feed)
    (hcodec : codec.Telling) (clock : ℕ → ℤ) (events : List Event) :
    (run cfg codec clock events).Wired cfg := by
  induction events using List.reverseRecOn with
  | nil => exact wired_init cfg clock
  | append_singleton events event ih =>
    rw [run_concat]
    exact ih.step hinst hfeed hcodec (run_steps cfg codec clock events).2 event

/-- Whatever the peers send, the client decodes every frame of every session to the message that the
session wrote, as long as its counters fit; a tick among them is that of a book the engine has
processed. -/
theorem run_framesDecoded {parse : Nlohmann.Parse} (hparse : Nlohmann.Correct parse)
    {platform : Client.Platform} (hplatform : platform.Documented) {arm : Client.Codec}
    (harm : platform.IsArm arm) (cfg : ServerConfig) (hinst : FitsInstrument cfg.engine.inst)
    (hfeed : FitsFeed cfg.feed) (clock : ℕ → ℤ) (events : List Event) :
    let w := run cfg (Nlohmann.codec parse) clock events
    ∀ x ∈ w.heap, ∀ frame, .wrote frame ∈ x.log → FitsMachine frame →
      (∃ msg, arm.decode (Nlohmann.encode frame) = .ok msg ∧ msg.toOutMsg = frame) ∧
        ∀ tob, frame = .tob tob → Published cfg w.srv.calls tob := by
  intro w x hx frame hframe hmachine
  have hgenuine := ((run_wired hinst hfeed (Nlohmann.telling_codec hparse) clock events).lines x
    hx).wrote frame hframe
  exact ⟨Client.decode_encode hplatform harm ⟨hmachine, hgenuine.fits⟩, hgenuine.published⟩

/-- The codec over a library that is correct. -/
abbrev plainCodec : Codec := Nlohmann.codec fun span => Nlohmann.domOf (Json.valueOf span)

/-- A client connects, and the first book of the feed is published. -/
def bookEvents : List Event :=
  [.accept true, .upgradeRequest 0 (some ⟨true, true, false⟩), .handshake 0 true, .feed]

/-- The frame of that book. -/
def bookTick : OutMsg :=
  .tob
    { v := 1, seq := 1, epoch := 1, mdSeq := 1, symbol := ascii "MOCKUSDT"
      bidPx := 95, bidQty := 10, askPx := 100, askQty := 10 }

theorem fits_dropInstrument : FitsInstrument dropConfig.engine.inst where
  symbol := Link.Plain.fits (by decide +kernel) (by decide +kernel)
  minPrice := ⟨by decide, by decide⟩
  maxPrice := ⟨by decide, by decide⟩
  maxOrderQty := ⟨by decide, by decide⟩

theorem fits_dropFeed : FitsFeed dropConfig.feed := by
  intro bidPx bidQty askPx askQty hmem
  rcases List.mem_cons.mp hmem with hset | hdrop
  · cases hset
    exact ⟨⟨by decide, by decide⟩, ⟨by decide, by decide⟩, ⟨by decide, by decide⟩,
      ⟨by decide, by decide⟩⟩
  · cases List.mem_singleton.mp hdrop

theorem run_framesDecoded_book :
    ∃ msg, Client.Platform.plain.tuned.decode (Nlohmann.encode bookTick) = .ok msg ∧
      msg.toOutMsg = bookTick := by
  have hrun : ∃ x ∈ (run dropConfig plainCodec (fun n => n) bookEvents).heap,
      .wrote bookTick ∈ x.log := ⟨_, List.mem_singleton_self _, by decide +kernel⟩
  obtain ⟨x, hx, hframe⟩ := hrun
  refine (run_framesDecoded Nlohmann.correct_domOf Client.Platform.documented_plain (Or.inl rfl)
    dropConfig fits_dropInstrument fits_dropFeed _ bookEvents x hx bookTick hframe ?_).1
  exact ⟨by decide, fun ack hack => by cases hack⟩

end World

end MarketMaker
