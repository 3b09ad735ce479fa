/-
# The hand-off from the main thread to the worker

The two threads of the receiver, as a system of atomic steps.  The main thread receives
datagrams, tests for a complete next frame and consumes it; where there is a worker, the
frame goes into `shared_queue_` within the mutex-protected section.  The worker empties
`shared_queue_` into its local queue in one such section, and then takes the frames of the
local queue up for decoding, one after the other.

The main result is that what the worker takes up is a prefix of what the main thread
consumed, and that this sequence can be decoded: complete frames in increasing order, which
begins with the first frame or a key frame and has a key frame after every gap
(`takenFrames_prefix`).
-/
import Ringmaster.Library.Run
import Ringmaster.Decoder

open Unsigned

namespace Ringmaster

namespace HandOff

/-! ## The two threads -/

/-- Where the main thread is: in `recv`, before a test of `next_frame_complete`, or before a
call of `consume_next_frame`. -/
inductive MainPc where
  | receive
  | check
  | consume
  deriving DecidableEq, Repr

/-- The state of both threads; `shared_queue_` is a member of the decoder. -/
structure Pipeline where
  decoder : Decoder
  pc : MainPc
  localQueue : List Frame
  deriving DecidableEq

/-- What an observer sees: a datagram arrives, the main thread consumes a frame, the worker
takes a frame up for decoding. -/
inductive Event where
  | received (d : Datagram)
  | consumed (frame : Frame)
  | taken (frame : Frame)
  deriving DecidableEq

/-- The threads at the start. -/
def initial (lazyLevel : LazyLevel) : Pipeline := ⟨Decoder.initial lazyLevel, .receive, []⟩

/-- The atomic steps of the two threads. -/
inductive Step : Pipeline → List Event → Pipeline → Prop
  /-- The main thread receives a datagram and adds it. -/
  | receive {p : Pipeline} {d : Datagram} {s : Decoder} :
      p.pc = .receive → p.decoder.addDatagram d = (.ok (), s) →
      Step p [.received d] { p with decoder := s, pc := .check }
  /-- The main thread tests the condition of its inner loop. -/
  | check {p : Pipeline} {answer : Bool} {s : Decoder} :
      p.pc = .check → p.decoder.nextFrameComplete = .ok (answer, s) →
      Step p [] { p with decoder := s, pc := if answer then .consume else .receive }
  /-- The main thread consumes the next frame, and pushes it to `shared_queue_`. -/
  | consume {p : Pipeline} {frame : Frame} {s : Decoder} {write : Except Exn Unit} :
      p.pc = .consume → p.decoder.consumeNextFrame write = .ok (frame, s) →
      Step p [.consumed frame] { p with decoder := s, pc := .check }
  /-- The worker moves all of `shared_queue_` to its local queue. -/
  | workerFetch {p : Pipeline} :
      p.localQueue = [] → p.decoder.sharedQueue ≠ [] →
      Step p [] { p with
        decoder := { p.decoder with sharedQueue := [] }
        localQueue := p.decoder.sharedQueue }
  /-- The worker takes the first frame of its local queue up for decoding. -/
  | workerTake {p : Pipeline} {frame : Frame} {rest : List Frame} :
      p.localQueue = frame :: rest →
      Step p [.taken frame] { p with localQueue := rest }

/-- The frames that the main thread consumed, in order. -/
def consumedFrames (es : List Event) : List Frame :=
  es.filterMap fun e => match e with
    | .consumed frame => some frame
    | _ => none

/-- The frames that the worker took up for decoding, in order. -/
def takenFrames (es : List Event) : List Frame :=
  es.filterMap fun e => match e with
    | .taken frame => some frame
    | _ => none

@[simp] theorem consumedFrames_append (es es' : List Event) :
    consumedFrames (es ++ es') = consumedFrames es ++ consumedFrames es' :=
  List.filterMap_append

@[simp] theorem takenFrames_append (es es' : List Event) :
    takenFrames (es ++ es') = takenFrames es ++ takenFrames es' :=
  List.filterMap_append

/-! ## Sequences that can be decoded -/

/-- What a decoder needs of a sequence of frames: they are complete and in increasing order,
the first one does not depend on a frame before it, and neither does one after a gap. -/
structure Decodable (frames : List Frame) : Prop where
  complete : ∀ frame ∈ frames, frame.complete ∧ ∀ slot ∈ frame.frags, slot.isSome
  increasing : frames.Pairwise (fun a b => a.id < b.id)
  first : ∀ frame, frames.head? = some frame → frame.id = 0 ∨ frame.type = .key
  successive : frames.IsChain (fun a b => b.id = a.id + 1 ∨ b.type = .key)

theorem decodable_nil : Decodable [] where
  complete := fun _ h => absurd h List.not_mem_nil
  increasing := List.Pairwise.nil
  first := fun _ h => by simp at h
  successive := List.IsChain.nil

/-- The id that continues a sequence without a gap. -/
def continuation (frames : List Frame) : UInt32 :=
  frames.getLast?.elim 0 (fun frame => frame.id + 1)

@[simp] theorem continuation_concat (frames : List Frame) (frame : Frame) :
    continuation (frames ++ [frame]) = frame.id + 1 := by
  unfold continuation
  rw [List.getLast?_concat, Option.elim_some]

/-- A complete frame that continues a sequence, or is a key frame, can be decoded after it. -/
theorem Decodable.concat {frames : List Frame} {frame : Frame} (h : Decodable frames)
    (hc : frame.complete ∧ ∀ slot ∈ frame.frags, slot.isSome)
    (hlt : ∀ fr ∈ frames, fr.id < frame.id)
    (hnext : frame.id = continuation frames ∨ frame.type = .key) :
    Decodable (frames ++ [frame]) := by
  refine ⟨?_, ?_, ?_, ?_⟩
  · intro fr hfr
    rcases List.mem_append.mp hfr with hmem | hmem
    · exact h.complete fr hmem
    · rw [List.mem_singleton.mp hmem]
      exact hc
  · rw [List.pairwise_append]
    refine ⟨h.increasing, List.pairwise_singleton _ _, fun a ha b hb => ?_⟩
    rw [List.mem_singleton.mp hb]
    exact hlt a ha
  · intro fr hfr
    cases frames with
    | nil =>
      rw [List.nil_append, List.head?_cons, Option.some_inj] at hfr
      subst hfr
      exact hnext
    | cons a frames => exact h.first fr hfr
  · rw [List.isChain_append]
    refine ⟨h.successive, List.isChain_singleton _, fun a ha b hb => ?_⟩
    rw [List.head?_cons, Option.mem_some_iff] at hb
    subst hb
    rw [Option.mem_def] at ha
    unfold continuation at hnext
    rwa [ha, Option.elim_some] at hnext

/-! ## The invariant -/

/-- What holds between the steps of the two threads. -/
structure Inv (es : List Event) (p : Pipeline) : Prop where
  decoder : p.decoder.Inv
  buffered : ∀ k frame, p.decoder.frameBuf.find? k = some frame → frame.Valid ∧ k < maxUInt32
  consumed_lt : ∀ frame ∈ consumedFrames es, frame.id < p.decoder.nextFrame
  position : p.decoder.nextFrame = continuation (consumedFrames es) ∨
    p.pc = .consume ∧ p.decoder.IsCompleteKey p.decoder.nextFrame
  queues : if p.decoder.lazyLevel.usesWorker
    then consumedFrames es = takenFrames es ++ (p.localQueue ++ p.decoder.sharedQueue)
    else takenFrames es = [] ∧ p.localQueue = [] ∧ p.decoder.sharedQueue = []
  decodable : Decodable (consumedFrames es)

theorem inv_initial (lazyLevel : LazyLevel) : Inv [] (initial lazyLevel) where
  decoder := Decoder.inv_initial lazyLevel
  buffered := fun k frame h => by simp [initial, Decoder.initial] at h
  consumed_lt := fun _ h => absurd h List.not_mem_nil
  position := Or.inl rfl
  queues := by
    split_ifs
    · rfl
    · exact ⟨rfl, rfl, rfl⟩
  decodable := decodable_nil

variable {es : List Event} {p : Pipeline}

/-- The main thread receives a datagram. -/
theorem Inv.receive (h : Inv es p) {d : Datagram} {s : Decoder} (hpc : p.pc = .receive)
    (hadd : p.decoder.addDatagram d = (.ok (), s)) (hid : d.frameId < maxUInt32) :
    Inv (es ++ [Event.received d]) { p with decoder := s, pc := .check } := by
  have hconsumed : consumedFrames (es ++ [Event.received d]) = consumedFrames es := by
    rw [consumedFrames_append]
    exact List.append_nil _
  have htaken : takenFrames (es ++ [Event.received d]) = takenFrames es := by
    rw [takenFrames_append]
    exact List.append_nil _
  have hposition : p.decoder.nextFrame = continuation (consumedFrames es) := by
    rcases h.position with hpos | ⟨hpc', -⟩
    · exact hpos
    · rw [hpc] at hpc'
      simp at hpc'
  rcases Decoder.addDatagram_cases hadd with ⟨-, rfl⟩ | ⟨-, hnext, hlazy, hshared, frame, frame',
    left, hfor, hins, hfind⟩
  · exact ⟨h.decoder, h.buffered, hconsumed ▸ h.consumed_lt, Or.inl (hconsumed ▸ hposition),
      hconsumed ▸ htaken ▸ h.queues, hconsumed ▸ h.decodable⟩
  · refine ⟨h.decoder.addDatagram hadd, ?_, ?_, Or.inl ?_, ?_, hconsumed ▸ h.decodable⟩
    · intro k fr hk
      rw [hfind] at hk
      split_ifs at hk with hkd
      · rw [Option.some_inj] at hk
        subst hk hkd
        have hvalid : frame.Valid := by
          unfold Decoder.frameFor at hfor
          cases hbuf : p.decoder.frameBuf.find? d.frameId with
          | none =>
            simp only [hbuf] at hfor
            exact Frame.valid_of_new hfor
          | some frame₀ =>
            simp only [hbuf, Except.ok.injEq] at hfor
            exact hfor ▸ (h.buffered _ _ hbuf).1
        exact ⟨hvalid.insertFragMove hins, hid⟩
      · exact h.buffered k fr hk
    · show ∀ fr ∈ consumedFrames (es ++ [Event.received d]), fr.id < s.nextFrame
      rw [hconsumed, hnext]
      exact h.consumed_lt
    · show s.nextFrame = continuation (consumedFrames (es ++ [Event.received d]))
      rw [hconsumed, hnext]
      exact hposition
    · show if s.lazyLevel.usesWorker then _ else _
      rw [hconsumed, htaken, hlazy, hshared]
      exact h.queues

/-- The main thread tests for a complete next frame. -/
theorem Inv.check (h : Inv es p) {answer : Bool} {s : Decoder} (hpc : p.pc = .check)
    (hcheck : p.decoder.nextFrameComplete = .ok (answer, s)) :
    Inv es { p with decoder := s, pc := if answer then .consume else .receive } := by
  have hposition : p.decoder.nextFrame = continuation (consumedFrames es) := by
    rcases h.position with hpos | ⟨hpc', -⟩
    · exact hpos
    · rw [hpc] at hpc'
      simp at hpc'
  rcases Decoder.nextFrameComplete_cases h.decoder with ⟨-, hcase⟩ | ⟨-, k, hlt, hkey, -, hcase⟩ |
    ⟨-, -, hcase⟩
  · rw [hcheck, Except.ok.injEq, Prod.mk.injEq] at hcase
    obtain ⟨rfl, rfl⟩ := hcase
    exact ⟨h.decoder, h.buffered, h.consumed_lt, Or.inl hposition, h.queues, h.decodable⟩
  · -- the decoder skips to a complete key frame, which it is about to consume
    rw [hcheck, Except.ok.injEq, Prod.mk.injEq] at hcase
    obtain ⟨rfl, rfl⟩ := hcase
    refine ⟨h.decoder.eraseBelow k, ?_, ?_, Or.inr ⟨rfl, ?_⟩, h.queues, h.decodable⟩
    · intro k' frame hk'
      apply h.buffered k' frame
      dsimp only at hk'
      rw [OrderedMap.find?_eraseBelow] at hk'
      split_ifs at hk'
      exact hk'
    · intro frame hframe
      exact lt_trans (h.consumed_lt frame hframe) hlt
    · obtain ⟨frame, hfind, htype, hc⟩ := hkey
      refine ⟨frame, ?_, htype, hc⟩
      show (p.decoder.frameBuf.eraseBelow k).find? k = some frame
      rw [OrderedMap.find?_eraseBelow, if_neg (lt_irrefl k), hfind]
  · rw [hcheck, Except.ok.injEq, Prod.mk.injEq] at hcase
    obtain ⟨rfl, rfl⟩ := hcase
    exact ⟨h.decoder, h.buffered, h.consumed_lt, Or.inl hposition, h.queues, h.decodable⟩

/-- The main thread consumes a frame. -/
theorem Inv.consume (h : Inv es p) {frame : Frame} {s : Decoder} {write : Except Exn Unit}
    (hcons : p.decoder.consumeNextFrame write = .ok (frame, s)) :
    Inv (es ++ [Event.consumed frame]) { p with decoder := s, pc := .check } := by
  have hconsumed : consumedFrames (es ++ [Event.consumed frame]) = consumedFrames es ++ [frame] :=
    consumedFrames_append _ _
  have htaken : takenFrames (es ++ [Event.consumed frame]) = takenFrames es := by
    rw [takenFrames_append]
    exact List.append_nil _
  obtain ⟨hfind, hc, hnext, hlazy, hshared, -⟩ := Decoder.consumeNextFrame_cases hcons
  obtain ⟨hvalid, hlt⟩ := h.buffered _ _ hfind
  have hid : frame.id = p.decoder.nextFrame := h.decoder.id_eq _ _ hfind
  have hfull : ∀ slot ∈ frame.frags, slot.isSome := by
    intro slot hslot
    obtain ⟨i, hi, rfl⟩ := List.getElem_of_mem hslot
    obtain ⟨d, hd⟩ := hvalid.complete_iff.mp hc i hi
    rw [List.getElem?_eq_getElem hi, Option.some_inj] at hd
    rw [hd]
    rfl
  refine ⟨h.decoder.consumeNextFrame hcons, ?_, ?_, Or.inl ?_, ?_, ?_⟩
  · intro k fr hk
    dsimp only at hk
    rw [Decoder.find?_consumeNextFrame h.decoder hcons hlt] at hk
    split_ifs at hk
    exact h.buffered k fr hk
  · show ∀ fr ∈ consumedFrames (es ++ [Event.consumed frame]), fr.id < s.nextFrame
    rw [hconsumed, hnext]
    have hsucc : p.decoder.nextFrame < p.decoder.nextFrame + 1 :=
      (lt_iff_add_one_le hlt).mpr le_rfl
    intro fr hfr
    rcases List.mem_append.mp hfr with hmem | hmem
    · exact lt_trans (h.consumed_lt fr hmem) hsucc
    · rw [List.mem_singleton.mp hmem, hid]
      exact hsucc
  · show s.nextFrame = continuation (consumedFrames (es ++ [Event.consumed frame]))
    rw [hconsumed, continuation_concat, hnext, hid]
  · show if s.lazyLevel.usesWorker then _ else _
    have hqueues := h.queues
    rw [hconsumed, htaken, hlazy]
    split_ifs at hqueues ⊢ with hworker
    · rw [hshared, if_pos hworker, hqueues]
      simp only [List.append_assoc]
    · rw [hshared, if_neg hworker]
      exact hqueues
  · rw [hconsumed]
    refine h.decodable.concat ⟨hc, hfull⟩ (fun fr hfr => hid ▸ h.consumed_lt fr hfr) ?_
    rcases h.position with hpos | ⟨-, fr, hfr, htype, -⟩
    · exact Or.inl (hid.trans hpos)
    · rw [hfind, Option.some_inj] at hfr
      exact Or.inr (hfr ▸ htype)

/-- The worker fetches the shared queue. -/
theorem Inv.workerFetch (h : Inv es p) (hlocal : p.localQueue = []) :
    Inv es { p with
      decoder := { p.decoder with sharedQueue := [] }
      localQueue := p.decoder.sharedQueue } := by
  refine ⟨⟨h.decoder.id_eq, h.decoder.nextFrame_le⟩, h.buffered, h.consumed_lt, h.position, ?_,
    h.decodable⟩
  have hqueues := h.queues
  split_ifs at hqueues ⊢
  · rw [hqueues, hlocal, List.nil_append, List.append_nil]
  · exact ⟨hqueues.1, hqueues.2.2, rfl⟩

/-- The worker takes a frame up for decoding. -/
theorem Inv.workerTake (h : Inv es p) {frame : Frame} {rest : List Frame}
    (hlocal : p.localQueue = frame :: rest) :
    Inv (es ++ [Event.taken frame]) { p with localQueue := rest } := by
  have hconsumed : consumedFrames (es ++ [Event.taken frame]) = consumedFrames es := by
    rw [consumedFrames_append]
    exact List.append_nil _
  have htaken : takenFrames (es ++ [Event.taken frame]) = takenFrames es ++ [frame] :=
    takenFrames_append _ _
  refine ⟨h.decoder, h.buffered, hconsumed ▸ h.consumed_lt, hconsumed ▸ h.position, ?_,
    hconsumed ▸ h.decodable⟩
  have hqueues := h.queues
  rw [hconsumed, htaken]
  split_ifs at hqueues ⊢
  · rw [hqueues, hlocal, List.append_assoc]
    rfl
  · rw [hlocal] at hqueues
    simp at hqueues

/-- One step of either thread. -/
theorem Inv.step {es' : List Event} {p' : Pipeline} (h : Inv es p) (hstep : Step p es' p')
    (hids : ∀ d, .received d ∈ es' → d.frameId < maxUInt32) : Inv (es ++ es') p' := by
  cases hstep with
  | receive hpc hadd => exact h.receive hpc hadd (hids _ List.mem_cons_self)
  | check hpc hcheck =>
    rw [List.append_nil]
    exact h.check hpc hcheck
  | consume _ hcons => exact h.consume hcons
  | workerFetch hlocal _ =>
    rw [List.append_nil]
    exact h.workerFetch hlocal
  | workerTake hlocal => exact h.workerTake hlocal

/-- Every run over datagrams with ids below the last one keeps the invariant. -/
theorem inv_of_steps {lazyLevel : LazyLevel} (h : Run.Steps Step (initial lazyLevel) es p)
    (hids : ∀ d, .received d ∈ es → d.frameId < maxUInt32) : Inv es p := by
  refine h.invariant_of_guard (fun es => ∀ d, .received d ∈ es → d.frameId < maxUInt32) Inv ?_
    (inv_initial lazyLevel) ?_ hids
  · exact fun es es' hG d hd => hG d (List.mem_append_left _ hd)
  · exact fun es t es' u hG hI hstep =>
      hI.step hstep (fun d hd => hG d (List.mem_append_right _ hd))

/-! ## The hand-off -/

/-- However the two threads interleave, the frames that the worker takes up for decoding are
a prefix of the frames that the main thread consumed, and these can be decoded: they are
complete, their ids increase, the first one is frame 0 or a key frame, and so is every frame
after a gap. -/
theorem takenFrames_prefix {lazyLevel : LazyLevel}
    (h : Run.Steps Step (initial lazyLevel) es p)
    (hids : ∀ d, .received d ∈ es → d.frameId < maxUInt32) :
    takenFrames es <+: consumedFrames es ∧ Decodable (consumedFrames es) := by
  have hinv := inv_of_steps h hids
  refine ⟨?_, hinv.decodable⟩
  have hqueues := hinv.queues
  split_ifs at hqueues
  · rw [hqueues]
    exact List.prefix_append _ _
  · rw [hqueues.1]
    exact List.nil_prefix

/-- A key frame of one fragment on its way from the network to the worker. -/
theorem takenFrames_prefix_single :
    let d : Datagram := ⟨0, .key, 0, 1, 10, [7], 0, 0⟩
    let frame : Frame := ⟨0, .key, [some d], 0, 1⟩
    ∃ es p, Run.Steps Step (initial .decodeOnly) es p ∧ takenFrames es = [frame] ∧
      takenFrames es <+: consumedFrames es ∧ Decodable (consumedFrames es) := by
  intro d frame
  let s₁ : Decoder := ⟨.decodeOnly, 0, ⟨[(0, frame)], List.pairwise_singleton _ _⟩, []⟩
  let s₂ : Decoder := ⟨.decodeOnly, 1, OrderedMap.empty, [frame]⟩
  have h₁ : Step (initial .decodeOnly) [.received d] ⟨s₁, .check, []⟩ :=
    @Step.receive _ d s₁ rfl (by decide)
  have h₂ : Step ⟨s₁, .check, []⟩ [] ⟨s₁, .consume, []⟩ := @Step.check _ true _ rfl rfl
  have h₃ : Step ⟨s₁, .consume, []⟩ [.consumed frame] ⟨s₂, .check, []⟩ :=
    @Step.consume _ _ _ (.ok ()) rfl rfl
  have h₄ : Step ⟨s₂, .check, []⟩ [] ⟨{ s₂ with sharedQueue := [] }, .check, [frame]⟩ :=
    Step.workerFetch rfl (List.cons_ne_nil _ _)
  have h₅ : Step ⟨{ s₂ with sharedQueue := [] }, .check, [frame]⟩ [.taken frame]
      ⟨{ s₂ with sharedQueue := [] }, .check, []⟩ := Step.workerTake rfl
  have h := ((((Run.Steps.single h₁).tail h₂).tail h₃).tail h₄).tail h₅
  refine ⟨_, _, h, rfl, takenFrames_prefix h ?_⟩
  intro d' hd'
  have heq : d' = d := by simpa using hd'
  rw [heq]
  decide

end HandOff

end Ringmaster
