/-
# What the window shows is what was encoded

The worker of `Playback.lean`, and its codec.  The frames that the worker takes up form a
sequence that can be decoded (`HandOff.Decodable`), each has the bytes of the packet of its id
(`Kept.consumed`), and the codec promises that this is enough.  So in every run the worker's
codec is in step with the last frame taken (`Synced`), no frame makes the worker throw, and
what the window shows are the sender's own pictures of these frames, in order (`plays_back`).
-/
import Ringmaster.Playback

open Unsigned

namespace Ringmaster

open Packetization Encoder HandOff

/-! ## The next frame of a sequence that can be decoded -/

/-- In a sequence that can be decoded, a frame behind others follows the last of them or is a
key frame, and a frame without others in front is frame 0 or a key frame. -/
theorem HandOff.Decodable.next {front back : List Frame} {frame : Frame}
    (h : Decodable (front ++ frame :: back)) :
    (front = [] → frame.id = 0 ∨ frame.type = .key) ∧
      ∀ last, front.getLast? = some last →
        last.id < frame.id ∧ (frame.id = last.id + 1 ∨ frame.type = .key) := by
  constructor
  · rintro rfl
    exact h.first frame rfl
  · intro last hlast
    refine ⟨?_, ?_⟩
    · exact (List.pairwise_append.mp h.increasing).2.2 last (List.mem_of_getLast? hlast) frame
        List.mem_cons_self
    · exact (List.isChain_append.mp h.successive).2.2 last hlast frame rfl

namespace Playback

variable {E σ δ ι : Type} {codec : VpxCodec σ δ ι} {maxPayload : ℕ} {lazyLevel : LazyLevel}
  {es : List (Event ι)} {s : System E σ δ}

/-! ## The frames that are consumed -/

/-- The receiver's datagrams are copies of the fragments of the packets. -/
theorem Kept.isCopy (h : Kept codec maxPayload lazyLevel es s)
    (hlen : (codec.packets (inputs es)).length < 2 ^ 32 - 1) :
    ∀ d ∈ receivedDatagrams (receiverEvents es),
      (Integrity.frameSet maxPayload (codec.packets (inputs es)) hlen).IsCopy d := by
  intro d hd
  obtain ⟨binary, hb, hparse⟩ := h.received d (mem_receivedDatagrams.mp hd)
  exact h.sourced.isCopy hlen hb hparse

/-- Their ids are below the last one. -/
theorem Kept.received_lt (h : Kept codec maxPayload lazyLevel es s)
    (hlen : (codec.packets (inputs es)).length < 2 ^ 32 - 1) :
    ∀ d ∈ receivedDatagrams (receiverEvents es), d.frameId < maxUInt32 :=
  fun d hd => ((FrameSet.consistent_of_forall_isCopy (h.isCopy hlen)).1 d hd).1

/-- The threads keep the invariant of the atomic sections. -/
theorem Kept.inv (h : Kept codec maxPayload lazyLevel es s)
    (hlen : (codec.packets (inputs es)).length < 2 ^ 32 - 1) :
    HandOff.Inv (receiverEvents es) s.threads.atomic :=
  inv_of_steps (Threads.atomic_of_steps h.run)
    fun d hd => h.received_lt hlen d (mem_receivedDatagrams.mpr hd)

/-- A consumed frame has the bytes and the type of the packet of its id. -/
theorem Kept.consumed (h : Kept codec maxPayload lazyLevel es s)
    (hlen : (codec.packets (inputs es)).length < 2 ^ 32 - 1) {frame : Frame}
    (hframe : frame ∈ consumedFrames (receiverEvents es)) :
    frame.Valid ∧ frame.complete ∧ ∃ isKey,
      (codec.packets (inputs es))[frame.id.toNat]? = some (frame.content, isKey) ∧
        (frame.type = .key → isKey = true) := by
  have htracked := tracked_of_steps (Threads.atomic_of_steps h.run) (h.received_lt hlen)
  obtain ⟨hc, ds, hpre, ht⟩ := htracked.consumed frame hframe
  obtain ⟨buf, isKey, hbuf, htype, -, hcontent⟩ := Integrity.consumed_of_tracks hlen
    (fun d hd => h.isCopy hlen d (hpre.subset hd)) ht hc
  refine ⟨ht.valid, hc, isKey, by rw [hbuf, hcontent], fun hkey => ?_⟩
  cases isKey with
  | true => rfl
  | false =>
    rw [hkey] at htype
    exact absurd htype (by decide)

/-- The consumed frames are those that were taken up, and then the local queue of a worker that
processes frames. -/
theorem Kept.consumedFrames_eq (h : Kept codec maxPayload lazyLevel es s)
    (hlen : (codec.packets (inputs es)).length < 2 ^ 32 - 1)
    (hpc : s.threads.worker = .process) : ∃ back, consumedFrames (receiverEvents es)
      = takenFrames (receiverEvents es) ++ (s.threads.localQueue ++ back) := by
  have hguarded := Threads.guarded_of_steps h.run
  have huses : s.threads.decoder.lazyLevel.usesWorker := by
    by_contra hnot
    have := hguarded.absent_iff.mpr hnot
    rw [hpc] at this
    simp at this
  have hqueues := (h.inv hlen).queues
  have hlazy : s.threads.atomic.decoder.lazyLevel = s.threads.decoder.lazyLevel := by
    unfold Threads.atomic WorkerAt.seen
    rw [hpc]
    cases s.threads.main.pushed with
    | true => rfl
    | false => rfl
  have hlocal : s.threads.atomic.localQueue = s.threads.localQueue := by
    unfold Threads.atomic
    rw [hpc]
    rfl
  rw [hlazy, if_pos huses, hlocal] at hqueues
  exact ⟨_, hqueues⟩

/-- The frames that were taken up were consumed, in this order. -/
theorem Kept.taken_prefix (h : Kept codec maxPayload lazyLevel es s)
    (hlen : (codec.packets (inputs es)).length < 2 ^ 32 - 1) :
    takenFrames (receiverEvents es) <+: consumedFrames (receiverEvents es) := by
  have hqueues := (h.inv hlen).queues
  split_ifs at hqueues
  · exact hqueues ▸ List.prefix_append _ _
  · rw [hqueues.1]
    exact List.nil_prefix

/-- A frame that was taken up was encoded. -/
theorem Kept.lt_of_taken (h : Kept codec maxPayload lazyLevel es s)
    (hlen : (codec.packets (inputs es)).length < 2 ^ 32 - 1) {frame : Frame}
    (hframe : frame ∈ takenFrames (receiverEvents es)) :
    frame.id.toNat < (inputs es).length := by
  obtain ⟨-, -, isKey, hpacket, -⟩ := h.consumed hlen ((h.taken_prefix hlen).subset hframe)
  have := (List.getElem?_eq_some_iff.mp hpacket).1
  rwa [Predictive.Codec.length_packets] at this

/-! ## The worker's codec -/

/-- The worker's codec is in step with the last frame that was taken up, what the frames were
decoded to are the sender's pictures of them, and these pictures are in the window, up to the
frame at which it was closed. -/
structure Synced (codec : VpxCodec σ δ ι) (InStep : σ → δ → Prop) (picture : σ → VpxImage)
    (displayWidth displayHeight : UInt16) (es : List (Event ι)) (s : System E σ δ) : Prop where
  display : ∀ display, s.worker.display = some display →
    display.displayWidth = displayWidth ∧ display.displayHeight = displayHeight
  inStep : ∀ frame, (takenFrames (receiverEvents es)).getLast? = some frame →
    InStep (codec.stateAfter ((inputs es).take (frame.id.toNat + 1))) s.worker.context
  decoded : decodedImages (workerEvents es) = (takenFrames (receiverEvents es)).map
    fun frame => (frame.id, [codec.pictureAt picture (inputs es) frame.id.toNat])
  shown : shownImages (workerEvents es) <+: (takenFrames (receiverEvents es)).map
    fun frame => codec.pictureAt picture (inputs es) frame.id.toNat
  whileOpen : s.worker.display.isSome → shownImages (workerEvents es)
    = (takenFrames (receiverEvents es)).map
      fun frame => codec.pictureAt picture (inputs es) frame.id.toNat

variable {InStep : σ → δ → Prop} {picture : σ → VpxImage} {displayWidth displayHeight : UInt16}

theorem decodedImages_eventsOf (w : Worker δ) (frame : Frame) (ts : UInt64) (rawImg : VpxImage) :
    decodedImages (w.eventsOf frame ts rawImg) = [(frame.id, [rawImg])] := by
  unfold Worker.eventsOf decodedImages
  cases w.hasOutput <;> cases w.display.isSome <;> rfl

theorem shownImages_eventsOf (w : Worker δ) (frame : Frame) (ts : UInt64) (rawImg : VpxImage) :
    shownImages (w.eventsOf frame ts rawImg) = if w.display.isSome then [rawImg] else [] := by
  unfold Worker.eventsOf shownImages
  cases w.hasOutput <;> cases w.display.isSome <;> rfl

/-- A step in which no frame is decoded.  Raw images that are encoded in it do not matter for
the frames before. -/
theorem Synced.extend (h : Synced codec InStep picture displayWidth displayHeight es s)
    (hlt : ∀ frame ∈ takenFrames (receiverEvents es), frame.id.toNat < (inputs es).length)
    {es' : List (Event ι)} {s' : System E σ δ}
    (htaken : takenFrames (receiverEvents es') = []) (hworker : workerEvents es' = [])
    (hcontext : s'.worker.context = s.worker.context)
    (hdisplay : ∀ display, s'.worker.display = some display → s.worker.display = some display) :
    Synced codec InStep picture displayWidth displayHeight (es ++ es') s' := by
  have htaken' : takenFrames (receiverEvents (es ++ es')) = takenFrames (receiverEvents es) := by
    rw [receiverEvents_append, takenFrames_append, htaken, List.append_nil]
  have hworker' : workerEvents (es ++ es') = workerEvents es := by
    rw [workerEvents_append, hworker, List.append_nil]
  have hpicture : ∀ frame ∈ takenFrames (receiverEvents es),
      codec.pictureAt picture (inputs (es ++ es')) frame.id.toNat
        = codec.pictureAt picture (inputs es) frame.id.toNat := by
    intro frame hframe
    rw [inputs_append]
    exact codec.pictureAt_append picture _ (hlt frame hframe)
  refine ⟨fun display hd => h.display display (hdisplay display hd), ?_, ?_, ?_, ?_⟩
  · rw [htaken', hcontext, inputs_append]
    intro frame hframe
    rw [List.take_append_of_le_length (hlt frame (List.mem_of_getLast? hframe))]
    exact h.inStep frame hframe
  · rw [htaken', hworker', h.decoded]
    exact List.map_congr_left fun frame hframe => by rw [hpicture frame hframe]
  · rw [htaken', hworker', List.map_congr_left hpicture]
    exact h.shown
  · rw [htaken', hworker', List.map_congr_left hpicture]
    intro hopen
    obtain ⟨display, hd⟩ := Option.isSome_iff_exists.mp hopen
    exact h.whileOpen (by rw [hdisplay display hd]; rfl)

variable (hcodec : codec.Resyncs InStep fun state => [picture state])
  (hfits : ∀ state, Worker.Fits (picture state) displayWidth displayHeight)

include hcodec hfits in
/-- The frame that comes next in the local queue is decoded to the sender's picture of it,
logged and shown, and leaves the codec in step. -/
theorem Synced.processFrame (h : Synced codec InStep picture displayWidth displayHeight es s)
    (hkept : Kept codec maxPayload lazyLevel es s)
    (hlen : (codec.packets (inputs es)).length < 2 ^ 32 - 1)
    (hsmall : ∀ p ∈ codec.packets (inputs es), p.1.length < Decoder.maxDecodingBuf)
    {frame : Frame} {rest : List Frame} (hpc : s.threads.worker = .process)
    (hqueue : s.threads.localQueue = frame :: rest) {inp : WorkerInput}
    (hwrite : s.worker.hasOutput → ∃ n, inp.write = .ok n) :
    ∃ w', s.worker.processFrame codec.decode inp frame = some (.ok (),
        s.worker.eventsOf frame inp.frameDecodedTs
          (codec.pictureAt picture (inputs es) frame.id.toNat), w') ∧
      InStep (codec.stateAfter ((inputs es).take (frame.id.toNat + 1))) w'.context ∧
      w'.display = s.worker.display := by
  obtain ⟨back, hconsumed⟩ := hkept.consumedFrames_eq hlen hpc
  rw [hqueue, List.cons_append] at hconsumed
  have hmem : frame ∈ consumedFrames (receiverEvents es) := by
    rw [hconsumed]
    exact List.mem_append_right _ List.mem_cons_self
  obtain ⟨hvalid, hcomplete, isKey, hpacket, hkey⟩ := hkept.consumed hlen hmem
  have hdecodable := (hkept.inv hlen).decodable
  rw [hconsumed] at hdecodable
  obtain ⟨hfirst, hnext⟩ := hdecodable.next
  -- the codec is in step with the frame before, or does not need it
  have hready : isKey = true ∨ frame.id.toNat = 0 ∨
      InStep (codec.stateAfter ((inputs es).take frame.id.toNat)) s.worker.context := by
    cases hlast : (takenFrames (receiverEvents es)).getLast? with
    | none =>
      rcases hfirst (List.getLast?_eq_none_iff.mp hlast) with hzero | htype
      · exact Or.inr (Or.inl (by rw [hzero]; rfl))
      · exact Or.inl (hkey htype)
    | some last =>
      obtain ⟨hlt, hid | htype⟩ := hnext last hlast
      · have hmax : last.id < maxUInt32 := lt_of_lt_of_le hlt (le_maxUInt32 _)
        have hnat : frame.id.toNat = last.id.toNat + 1 := by rw [hid, toNat_add_one hmax]
        rw [hnat]
        exact Or.inr (Or.inr (h.inStep last hlast))
      · exact Or.inl (hkey htype)
  obtain ⟨context, hdecode, hstep⟩ := hcodec.decode_next hpacket hready
  obtain ⟨w', hprocess, hcontext, -, hdisplay⟩ := Worker.processFrame_of_decodes hvalid hcomplete
    (hsmall _ (List.mem_of_getElem? hpacket)) hdecode hwrite
    (fun display hd => by
      obtain ⟨hw, hh⟩ := h.display display hd
      rw [hw, hh]
      exact hfits _)
  exact ⟨w', hprocess, hcontext ▸ hstep, hdisplay⟩

include hcodec hfits in
/-- Every step keeps the codec in step. -/
theorem Synced.step [RttArith E] (h : Synced codec InStep picture displayWidth displayHeight es s)
    (hkept : Kept codec maxPayload lazyLevel es s) {es' : List (Event ι)} {s' : System E σ δ}
    (hstep : Step codec maxPayload s es' s')
    (hlen : (codec.packets (inputs es)).length < 2 ^ 32 - 1)
    (hsmall : ∀ p ∈ codec.packets (inputs es), p.1.length < Decoder.maxDecodingBuf) :
    Synced codec InStep picture displayWidth displayHeight (es ++ es') s' := by
  have hlt : ∀ frame ∈ takenFrames (receiverEvents es), frame.id.toNat < (inputs es).length :=
    fun _ hframe => hkept.lt_of_taken hlen hframe
  cases hstep with
  | @compress rawImg inp ses encoder _ _ =>
    refine h.extend hlt ?_ ?_ rfl (fun _ hd => hd)
    · show takenFrames (receiverEvents (List.map Event.sender ses)) = []
      rw [receiverEvents_map_sender]
      rfl
    · show workerEvents (List.map Event.sender ses) = []
      exact workerEvents_map_sender ses
  | send _ _ =>
    refine h.extend hlt ?_ (workerEvents_map_sender _) rfl (fun _ hd => hd)
    rw [receiverEvents_map_sender]
    rfl
  | ack _ =>
    refine h.extend hlt ?_ (workerEvents_map_sender _) rfl (fun _ hd => hd)
    rw [receiverEvents_map_sender]
    rfl
  | arrival _ _ _ => exact h.extend hlt rfl rfl rfl (fun _ hd => hd)
  | spurious _ => exact h.extend hlt rfl rfl rfl (fun _ hd => hd)
  | thread _ hnone =>
    refine h.extend hlt ?_ (workerEvents_map_receiver _) rfl (fun _ hd => hd)
    rw [receiverEvents_map_receiver]
    exact hnone
  | quit _ =>
    refine h.extend hlt rfl rfl ?_ ?_
    · show (s.worker.checkDisplay true).context = _
      unfold Worker.checkDisplay
      split_ifs
      · rfl
      · rfl
    · show ∀ display, (s.worker.checkDisplay true).display = some display → _
      unfold Worker.checkDisplay
      intro display hd
      split_ifs at hd
      exact hd
  | @take frame threads inp wes worker hworker hprocess =>
    cases hworker with
    | @process _ rest hpc hqueue =>
      obtain ⟨w', hprocess', hcontext, hdisplay⟩ := h.processFrame hcodec hfits hkept hlen hsmall
        hpc hqueue (Worker.exists_write_of_processFrame hprocess)
      rw [hprocess, Option.some_inj, Prod.mk.injEq, Prod.mk.injEq] at hprocess'
      obtain ⟨-, rfl, rfl⟩ := hprocess'
      have hin : inputs (es ++ Event.receiver (.taken frame) :: (s.worker.eventsOf frame
          inp.frameDecodedTs (codec.pictureAt picture (inputs es) frame.id.toNat)).map .worker)
            = inputs es := by
        rw [inputs_append]
        show inputs es ++ inputs (List.map Event.worker _) = _
        rw [inputs_map_worker, List.append_nil]
      have htaken : takenFrames (receiverEvents (es ++ Event.receiver (.taken frame) ::
          (s.worker.eventsOf frame inp.frameDecodedTs
            (codec.pictureAt picture (inputs es) frame.id.toNat)).map .worker))
              = takenFrames (receiverEvents es) ++ [frame] := by
        rw [receiverEvents_append, takenFrames_append]
        show _ ++ frame :: takenFrames (receiverEvents (List.map Event.worker _)) = _
        rw [receiverEvents_map_worker]
        rfl
      have hworker : workerEvents (es ++ Event.receiver (.taken frame) ::
          (s.worker.eventsOf frame inp.frameDecodedTs
            (codec.pictureAt picture (inputs es) frame.id.toNat)).map .worker)
              = workerEvents es ++ s.worker.eventsOf frame inp.frameDecodedTs
                (codec.pictureAt picture (inputs es) frame.id.toNat) := by
        rw [workerEvents_append]
        show _ ++ workerEvents (List.map Event.worker _) = _
        rw [workerEvents_map_worker]
      refine ⟨fun display hd => h.display display (hdisplay ▸ hd), ?_, ?_, ?_, ?_⟩
      · rw [htaken, hin, List.getLast?_concat]
        intro frame' hframe'
        rw [← Option.some_inj.mp hframe']
        exact hcontext
      · rw [htaken, hin, hworker, decodedImages_append, h.decoded, decodedImages_eventsOf,
          List.map_append]
        rfl
      · rw [htaken, hin, hworker, shownImages_append, List.map_append]
        rw [shownImages_eventsOf]
        split_ifs with hopen
        · rw [h.whileOpen hopen]
          exact List.prefix_rfl
        · rw [List.append_nil]
          exact h.shown.trans (List.prefix_append _ _)
      · rw [htaken, hin, hworker, shownImages_append, List.map_append, hdisplay,
          shownImages_eventsOf]
        intro hopen
        rw [if_pos hopen, h.whileOpen hopen]
        rfl

variable {worker : Worker δ} {hasOutput : Bool}

theorem synced_initial (hdisplay : ∀ display, worker.display = some display →
      display.displayWidth = displayWidth ∧ display.displayHeight = displayHeight) :
    Synced codec InStep picture displayWidth displayHeight []
      (initial codec displayWidth displayHeight hasOutput lazyLevel worker : System E σ δ) where
  display := hdisplay
  inStep := fun _ h => by simp [receiverEvents, takenFrames] at h
  decoded := rfl
  shown := List.prefix_rfl
  whileOpen := fun _ => rfl

/-- Fewer than 2^32 - 1 raw images, and packets that fit into the buffer of the worker. -/
def Bounded (codec : VpxCodec σ δ ι) (es : List (Event ι)) : Prop :=
  (inputs es).length < 2 ^ 32 - 1 ∧
    ∀ p ∈ codec.packets (inputs es), p.1.length < Decoder.maxDecodingBuf

theorem Bounded.of_append {es' : List (Event ι)} (h : Bounded codec (es ++ es')) :
    Bounded codec es := by
  obtain ⟨hlen, hsmall⟩ := h
  rw [inputs_append] at hlen hsmall
  rw [List.length_append] at hlen
  refine ⟨by omega, fun p hp => hsmall p ?_⟩
  unfold Predictive.Codec.packets
  rw [Predictive.Codec.packetsFrom_append]
  exact List.mem_append_left _ hp

include hcodec hfits in
/-- In every bounded run the worker is in step. -/
theorem synced_of_steps [RttArith E] (hdisplay : ∀ display, worker.display = some display →
      display.displayWidth = displayWidth ∧ display.displayHeight = displayHeight)
    (h : Run.Steps (Step codec maxPayload)
      (initial codec displayWidth displayHeight hasOutput lazyLevel worker) es s)
    (hbounded : Bounded codec es) :
    Kept codec maxPayload lazyLevel es s ∧
      Synced codec InStep picture displayWidth displayHeight es s := by
  refine h.invariant_of_guard (Bounded codec)
    (fun es s => Kept codec maxPayload lazyLevel es s ∧
      Synced codec InStep picture displayWidth displayHeight es s) ?_
    ⟨kept_initial displayWidth displayHeight hasOutput worker, synced_initial hdisplay⟩ ?_ hbounded
  · exact fun es es' hG => hG.of_append
  · rintro es t es' u hG ⟨hkept, hsynced⟩ hstep
    obtain ⟨hlen, hsmall⟩ := hG.of_append
    rw [← codec.length_packets] at hlen
    exact ⟨hkept.step hstep, hsynced.step hcodec hfits hkept hstep hlen hsmall⟩

/-! ## What is played back -/

/-- Whatever the network loses, duplicates and reorders, and however the threads of the
receiver are scheduled: each frame that the worker takes up is decoded to the picture that the
encoder had for the raw image of its number; these numbers increase; the window shows exactly
these pictures, up to the frame at which it was closed; and a frame that the worker is about to
take up never makes it throw. -/
theorem plays_back [RttArith E] {codec : VpxCodec σ δ ι} {maxPayload : ℕ}
    {InStep : σ → δ → Prop} {picture : σ → VpxImage} {displayWidth displayHeight : UInt16}
    (hcodec : codec.Resyncs InStep fun state => [picture state])
    (hfits : ∀ state, Worker.Fits (picture state) displayWidth displayHeight)
    {hasOutput : Bool} {lazyLevel : LazyLevel} {worker : Worker δ}
    (hdisplay : ∀ display, worker.display = some display →
      display.displayWidth = displayWidth ∧ display.displayHeight = displayHeight)
    {es : List (Event ι)} {s : System E σ δ}
    (h : Run.Steps (Step codec maxPayload)
      (initial codec displayWidth displayHeight hasOutput lazyLevel worker) es s)
    (hbounded : Bounded codec es) :
    let pictureOf := fun frame : Frame => codec.pictureAt picture (inputs es) frame.id.toNat
    let taken := takenFrames (receiverEvents es)
    taken.Pairwise (fun front back => front.id < back.id) ∧
    decodedImages (workerEvents es) = taken.map (fun frame => (frame.id, [pictureOf frame])) ∧
    shownImages (workerEvents es) <+: taken.map pictureOf ∧
    (s.worker.display.isSome → shownImages (workerEvents es) = taken.map pictureOf) ∧
    ∀ frame rest inp, s.threads.worker = .process → s.threads.localQueue = frame :: rest →
      (s.worker.hasOutput → ∃ n, inp.write = .ok n) →
      ∃ worker', s.worker.processFrame codec.decode inp frame = some (.ok (),
        s.worker.eventsOf frame inp.frameDecodedTs (pictureOf frame), worker') := by
  obtain ⟨hkept, hsynced⟩ := synced_of_steps hcodec hfits hdisplay h hbounded
  obtain ⟨hlen, hsmall⟩ := hbounded
  rw [← codec.length_packets] at hlen
  refine ⟨?_, hsynced.decoded, hsynced.shown, hsynced.whileOpen, ?_⟩
  · exact (hkept.inv hlen).decodable.increasing.sublist (hkept.taken_prefix hlen).sublist
  · intro frame rest inp hpc hqueue hwrite
    obtain ⟨worker', hprocess, -, -⟩ := hsynced.processFrame hcodec hfits hkept hlen hsmall hpc
      hqueue hwrite
    exact ⟨worker', hprocess⟩

/-! ## A codec of single bytes -/

/-- The picture of a state: the last byte, if there was one. -/
def bytePicture (state : Option UInt8) : VpxImage := ⟨true, 2, 2, [state.toList]⟩

/-- A codec of single bytes.  A key packet has the byte, any other one the difference to the
byte before. -/
def byteCodec : VpxCodec (Option UInt8) (Option UInt8) UInt8 where
  start := none
  encode := fun state byte force => match state, force with
    | some last, false => (some byte, [0, byte - last], false)
    | _, _ => (some byte, [1, byte], true)
  decode := fun state data => match state, data with
    | some last, [0, diff] => some (some (last + diff), [bytePicture (some (last + diff))])
    | _, [1, byte] => some (some byte, [bytePicture (some byte)])
    | _, _ => none

theorem resyncs_byteCodec : byteCodec.Resyncs (fun state context => state.isSome ∧ state = context)
    fun state => [bytePicture state] where
  first := fun _ _ => rfl
  forced := fun state _ => by
    cases state with
    | none => rfl
    | some last => rfl
  decode := fun state context byte force h => by
    have hkey : byteCodec.decode context [1, byte]
        = some (some byte, [bytePicture (some byte)]) := by
      cases context with
      | none => rfl
      | some last => rfl
    cases state with
    | none => exact ⟨_, hkey, rfl, rfl⟩
    | some last =>
      cases force with
      | true => exact ⟨_, hkey, rfl, rfl⟩
      | false =>
        rcases h with h | ⟨-, rfl⟩
        · simp [byteCodec] at h
        · refine ⟨some byte, ?_, rfl, rfl⟩
          show some (some (last + (byte - last)), [bytePicture (some (last + (byte - last)))]) = _
          rw [add_sub_cancel]
          rfl

theorem fits_bytePicture (state : Option UInt8) : Worker.Fits (bytePicture state) 2 2 :=
  ⟨rfl, rfl, rfl⟩

/-- A byte is compressed, sent, received, pushed and moved to the local queue. -/
theorem plays_back_byte : ∃ es s, Run.Steps (Step byteCodec 2000)
      (initial byteCodec 2 2 true .decodeDisplay
        ⟨none, Memory.Region.replicate _ 0, true, some ⟨2, 2⟩⟩ : System ℚ _ _) es s ∧
    s.threads.worker = .process ∧ ∃ frame, s.threads.localQueue = [frame] ∧
      ∃ worker', s.worker.processFrame byteCodec.decode ⟨50, .ok 8⟩ frame = some (.ok (),
        s.worker.eventsOf frame 50 (bytePicture (some 7)), worker') := by
  let inp : CompressInput := { smallFrame 5 with
    vpx := fun force => .ok [.frame (byteCodec.encode none 7 force).2.1
      (byteCodec.encode none 7 force).2.2] }
  have h₁ : Step byteCodec 2000 (initial byteCodec 2 2 true .decodeDisplay
      ⟨none, Memory.Region.replicate _ 0, true, some ⟨2, 2⟩⟩ : System ℚ _ _) _ _ :=
    @Step.compress _ _ _ _ _ _ _ _ 7 inp _ _ (fun _ => rfl) rfl
  have h₂ := (Run.Steps.single h₁).tail (@Step.send _ _ _ _ _ _ _ _ _ _ 10 .accepted _ _ _ rfl rfl)
  have h₃ := h₂.tail (Step.arrival (List.mem_singleton_self _) rfl (.arrival rfl rfl))
  have h₄ := h₃.tail (Step.thread (Or.inl (@Threads.MainStep.check _ true _ rfl rfl)) rfl)
  have h₅ := h₄.tail (Step.thread (Or.inl (Threads.MainStep.begin rfl rfl rfl)) rfl)
  have h₆ := h₅.tail (Step.thread (Or.inl (Threads.MainStep.lock rfl rfl)) rfl)
  have h₇ := h₆.tail (Step.thread (Or.inl (Threads.MainStep.push rfl rfl)) rfl)
  have h₈ := h₇.tail (Step.thread (Or.inl (Threads.MainStep.unlock rfl)) rfl)
  have h₉ := h₈.tail (Step.thread (Or.inr (Threads.WorkerStep.lock rfl rfl)) rfl)
  have h₁₀ := h₉.tail (Step.thread (Or.inr (Threads.WorkerStep.proceed rfl (List.cons_ne_nil _ _)))
    rfl)
  have h₁₁ := h₁₀.tail (Step.thread (Or.inr (Threads.WorkerStep.move rfl rfl)) rfl)
  have h₁₂ := h₁₁.tail (Step.thread (Or.inr (Threads.WorkerStep.unlock rfl rfl)) rfl)
  refine ⟨_, _, h₁₂, rfl, _, rfl, ?_⟩
  have hdisplay : ∀ display, some (⟨2, 2⟩ : VideoDisplay) = some display →
      display.displayWidth = 2 ∧ display.displayHeight = 2 := by
    intro display hd
    rw [← Option.some_inj.mp hd]
    exact ⟨rfl, rfl⟩
  refine (plays_back resyncs_byteCodec fits_bytePicture hdisplay h₁₂ ⟨?_, ?_⟩).2.2.2.2 _ _
    ⟨50, .ok 8⟩ rfl rfl (fun _ => ⟨8, rfl⟩)
  · show 1 < 2 ^ 32 - 1
    norm_num
  · intro p hp
    have hpacket : p = ([1, 7], true) := List.mem_singleton.mp hp
    rw [hpacket]
    show 2 < 1000000
    norm_num

end Playback

end Ringmaster
