/-
# From the video file to the window

The whole way of a frame: the callback of the frame timer reads it from the file into an image and
compresses the image, the network carries the datagrams, and the worker of the receiver decodes the
frame and shows it.  The system is that of `Playback.lean` with the video input of
`FrameTimer.lean` in front, and the raw images of the one are those of the other.

In every run the window shows frames of the file, in the order of the file and each at most once,
until the file begins again; and the number of a frame is the number of expirations of the timer
before it, so that the receiver watches the video in real time (`screens_file`).
-/
import Ringmaster.FrameTimer
import Ringmaster.Fidelity

namespace Ringmaster

open Encoder HandOff Playback VideoSender Yuv4mpeg
open OpenFile (Ready newline)

namespace Screening

/-! ## The composed system -/

/-- The video input and the image of the sender, and all other parts. -/
structure System (E σ δ : Type) where
  capture : Capture
  parts : Playback.System E σ δ

/-- What an observer sees: how often the frame timer has expired in a callback, and the events of
the parts. -/
inductive Event where
  | expired (numExp : ℕ)
  | part (e : Playback.Event RawImage)

variable {E σ δ : Type}

/-- The steps of the system. -/
inductive Step [RttArith E] (codec : VpxCodec σ δ RawImage) (maxPayload : ℕ) :
    System E σ δ → List Event → System E σ δ → Prop
  /-- The callback of the frame timer: frames are read, and what the image shows is compressed. -/
  | tick {s : System E σ δ} {read : Except Exn (ℕ × UInt64)} {numExp : ℕ}
      {ready : ℕ → ℕ → ℕ → Ready} {c : Capture} {inp : CompressInput} {es : List SenderEvent}
      {encoder : Encoder E} :
      readExpirations read = .ok numExp → 0 < numExp →
      fetchFrames ready 0 numExp s.capture.videoInput s.capture.rawImg
        = some (.ok (), c.videoInput, c.rawImg) →
      inp.imgWidth = c.rawImg.displayWidth → inp.imgHeight = c.rawImg.displayHeight →
      (∀ force, inp.vpx force = .ok [.frame (codec.encode s.parts.context c.rawImg force).2.1
        (codec.encode s.parts.context c.rawImg force).2.2]) →
      s.parts.encoder.compressFrame maxPayload inp = (.ok (), es, encoder) →
      Step codec maxPayload s
        (.expired numExp :: (.compressed c.rawImg (s.parts.encoder.givesUp inp.encodeTs) ::
          es.map .sender).map .part)
        ⟨c, { s.parts with
          encoder := encoder
          context := (codec.encode s.parts.context c.rawImg
            (s.parts.encoder.givesUp inp.encodeTs)).1 }⟩
  /-- Any other step of the parts. -/
  | other {s : System E σ δ} {es : List (Playback.Event RawImage)}
      {parts : Playback.System E σ δ} :
      Playback.Step codec maxPayload s.parts es parts → inputs es = [] →
      Step codec maxPayload s (es.map .part) { s with parts := parts }

/-- The numbers of expirations, callback by callback. -/
def expirations (es : List Event) : List ℕ :=
  es.filterMap fun e => match e with
    | .expired numExp => some numExp
    | .part _ => none

/-- The events of the parts. -/
def partEvents (es : List Event) : List (Playback.Event RawImage) :=
  es.filterMap fun e => match e with
    | .expired _ => none
    | .part e => some e

section Traces

variable (es es' : List Event) (pes : List (Playback.Event RawImage))

@[simp] theorem expirations_append : expirations (es ++ es') = expirations es ++ expirations es' :=
  List.filterMap_append

@[simp] theorem partEvents_append : partEvents (es ++ es') = partEvents es ++ partEvents es' :=
  List.filterMap_append

@[simp] theorem expirations_map_part : expirations (pes.map .part) = [] := by
  simp [expirations]

@[simp] theorem partEvents_map_part : partEvents (pes.map .part) = pes := by
  unfold partEvents
  rw [List.filterMap_map]
  exact List.filterMap_some

end Traces

/-! ## The raw images are the frames of the file -/

variable {codec : VpxCodec σ δ RawImage} {maxPayload : ℕ} {displayWidth displayHeight : UInt16}
  {frames : List (Y4mFrame (payloadSize displayWidth displayHeight))} {headerLine : Bytes}
  {loop : Bool} {img : RawImage} {es : List Event} {s : System E σ δ}

/-- The number of the frame that callback `j` compresses. -/
def turn (numExps : List ℕ) (j : ℕ) : ℕ := (numExps.take (j + 1)).sum - 1

theorem turn_append {numExps : List ℕ} (numExps' : List ℕ) {j : ℕ} (h : j < numExps.length) :
    turn (numExps ++ numExps') j = turn numExps j := by
  unfold turn
  rw [List.take_append_of_le_length h]

theorem turn_last (numExps : List ℕ) (n : ℕ) :
    turn (numExps ++ [n]) numExps.length = (numExps ++ [n]).sum - 1 := by
  unfold turn
  rw [List.take_of_length_le (by simp)]

/-- Later callbacks compress later frames. -/
theorem turn_lt {numExps : List ℕ} (hpos : ∀ n ∈ numExps, 0 < n) {i j : ℕ} (hij : i < j)
    (hj : j < numExps.length) : turn numExps i < turn numExps j := by
  unfold turn
  induction j, hij using Nat.le_induction with
  | base =>
    have hi := hpos _ (List.getElem_mem (Nat.lt_of_succ_lt hj))
    have hnext : 0 < numExps[i + 1] := hpos _ (List.getElem_mem hj)
    rw [List.sum_take_succ _ (i + 1) hj, List.sum_take_succ _ i (Nat.lt_of_succ_lt hj)]
    omega
  | succ j hle ih =>
    have hnext := hpos _ (List.getElem_mem hj)
    have := ih (Nat.lt_of_succ_lt hj)
    rw [List.sum_take_succ _ (j + 1) hj]
    omega

/-- The timer has expired by then. -/
theorem turn_lt_sum {numExps : List ℕ} (hpos : ∀ n ∈ numExps, 0 < n) {j : ℕ}
    (hj : j < numExps.length) : turn numExps j < numExps.sum := by
  have hsplit := List.sum_take_add_sum_drop numExps (j + 1)
  have hturn : 0 < numExps[j] := hpos _ (List.getElem_mem hj)
  rw [List.sum_take_succ _ j hj] at hsplit
  unfold turn
  rw [List.sum_take_succ _ j hj]
  omega

/-- The trace of the parts is one of theirs; the image shows the frame of the last callback; and
each raw image that was compressed shows the frame of its callback. -/
structure Follows (codec : VpxCodec σ δ RawImage) (maxPayload : ℕ) (headerLine : Bytes)
    (loop : Bool) (frames : List (Y4mFrame (payloadSize displayWidth displayHeight)))
    (img : RawImage) [RttArith E] (parts : Playback.System E σ δ) (es : List Event)
    (s : System E σ δ) : Prop where
  run : Run.Steps (Playback.Step codec maxPayload) parts (partEvents es) s.parts
  inTime : InTime headerLine loop frames img (expirations es).sum s.capture
  positive : ∀ n ∈ expirations es, 0 < n
  length : (inputs (partEvents es)).length = (expirations es).length
  shows : ∀ j input, (inputs (partEvents es))[j]? = some input →
    ShowsNumber frames img input.1 (turn (expirations es) j)

variable [RttArith E] {parts : Playback.System E σ δ}

/-- A callback of the frame timer adds a raw image. -/
theorem Follows.tick (h : Follows codec maxPayload headerLine loop frames img parts es s)
    {n : ℕ} (hn : 0 < n) {c : Capture} {parts' : Playback.System E σ δ} {force : Bool}
    {pes : List (Playback.Event RawImage)}
    (hin : InTime headerLine loop frames img ((expirations es).sum + n) c)
    (hstep : Playback.Step codec maxPayload s.parts (.compressed c.rawImg force :: pes) parts')
    (hnone : inputs pes = []) {es' : List Event} (hexp : expirations es' = [n])
    (hpart : partEvents es' = .compressed c.rawImg force :: pes) :
    Follows codec maxPayload headerLine loop frames img parts (es ++ es') ⟨c, parts'⟩ := by
  have hexp' : expirations (es ++ es') = expirations es ++ [n] := by
    rw [expirations_append, hexp]
  have hpart' : partEvents (es ++ es')
      = partEvents es ++ .compressed c.rawImg force :: pes := by
    rw [partEvents_append, hpart]
  have hin' : inputs (partEvents (es ++ es')) = inputs (partEvents es) ++ [(c.rawImg, force)] := by
    rw [hpart', inputs_append]
    show _ ++ (c.rawImg, force) :: inputs pes = _
    rw [hnone]
  refine ⟨?_, ?_, ?_, ?_, ?_⟩
  · rw [hpart']
    exact h.run.tail hstep
  · rw [hexp', List.sum_append, List.sum_singleton]
    exact hin
  · rw [hexp']
    intro m hm
    rcases List.mem_append.mp hm with hmem | hmem
    · exact h.positive m hmem
    · rw [List.mem_singleton.mp hmem]
      exact hn
  · rw [hin', hexp', List.length_append, List.length_append, h.length]
    rfl
  · rw [hin', hexp']
    intro j input hj
    rcases Nat.lt_or_ge j (inputs (partEvents es)).length with hlt | hge
    · rw [List.getElem?_append_left hlt] at hj
      rw [turn_append _ (h.length ▸ hlt)]
      exact h.shows j input hj
    · have hlast : j = (expirations es).length := by
        have := (List.getElem?_eq_some_iff.mp hj).1
        rw [List.length_append, List.length_singleton] at this
        rw [← h.length]
        omega
      rw [hlast, ← h.length, List.getElem?_concat_length, Option.some_inj] at hj
      rw [hlast, turn_last, ← hj, List.sum_append, List.sum_singleton]
      exact (hin.shows.resolve_left (fun hzero => by omega)).2

/-- A step of the other parts adds none. -/
theorem Follows.other (h : Follows codec maxPayload headerLine loop frames img parts es s)
    {pes : List (Playback.Event RawImage)} {parts' : Playback.System E σ δ}
    (hstep : Playback.Step codec maxPayload s.parts pes parts') (hnone : inputs pes = []) :
    Follows codec maxPayload headerLine loop frames img parts (es ++ pes.map .part)
      { s with parts := parts' } := by
  have hexp : expirations (es ++ pes.map .part) = expirations es := by simp
  have hpart : partEvents (es ++ pes.map .part) = partEvents es ++ pes := by simp
  have hin : inputs (partEvents (es ++ pes.map .part)) = inputs (partEvents es) := by
    rw [hpart, inputs_append, hnone, List.append_nil]
  refine ⟨?_, ?_, ?_, ?_, ?_⟩
  · rw [hpart]
    exact h.run.tail hstep
  · rw [hexp]
    exact h.inTime
  · rw [hexp]
    exact h.positive
  · rw [hin, hexp]
    exact h.length
  · rw [hin, hexp]
    exact h.shows

/-- Every step keeps this. -/
theorem Follows.step (hread : Yuv4mpeg.Readable displayWidth displayHeight)
    (hheaderLine : newline ∉ headerLine) (hpos : 0 < frames.length)
    (hsuits : Suits displayWidth displayHeight img)
    (h : Follows codec maxPayload headerLine loop frames img parts es s) {es' : List Event}
    {s' : System E σ δ} (hstep : Step codec maxPayload s es' s') :
    Follows codec maxPayload headerLine loop frames img parts (es ++ es') s' := by
  cases hstep with
  | @tick read numExp ready c inp ses encoder hexp hn hfetch _ _ hvpx hcompress =>
    refine h.tick hn (h.inTime.tick hread hheaderLine hpos hsuits hn hfetch)
      (Playback.Step.compress hvpx hcompress) (inputs_map_sender ses) ?_ ?_
    · show numExp :: expirations (List.map Event.part _) = _
      rw [expirations_map_part]
    · show partEvents (List.map Event.part _) = _
      rw [partEvents_map_part]
  | other hstep hnone => exact h.other hstep hnone

/-- It holds in every run. -/
theorem follows_of_steps (hread : Yuv4mpeg.Readable displayWidth displayHeight)
    (hheaderLine : newline ∉ headerLine) (hpos : 0 < frames.length) {ready : ℕ → Ready}
    {videoInput : Yuv4mpeg} (hconstruct : construct (some (fileContent headerLine frames))
      displayWidth displayHeight loop ready = .ok videoInput)
    (hsuits : Suits displayWidth displayHeight img)
    (h : Run.Steps (Step codec maxPayload) ⟨⟨videoInput, img⟩, parts⟩ es s) :
    Follows codec maxPayload headerLine loop frames img parts es s :=
  h.invariant (Follows codec maxPayload headerLine loop frames img parts)
    ⟨Run.Steps.refl _, inTime_of_construct hheaderLine hconstruct,
      fun _ hn => absurd hn List.not_mem_nil, rfl, fun _ _ hj => by simp [inputs, partEvents] at hj⟩
    (fun _ _ _ _ hI hstep => hI.step hread hheaderLine hpos hsuits hstep)

/-- A run of the other parts is one of the system. -/
theorem steps_other {pes : List (Playback.Event RawImage)}
    {parts' : Playback.System E σ δ} (c : Capture)
    (h : Run.Steps (Playback.Step codec maxPayload) parts pes parts') (hnone : inputs pes = []) :
    Run.Steps (Step codec maxPayload) ⟨c, parts⟩ (pes.map .part) ⟨c, parts'⟩ := by
  induction h with
  | refl => exact Run.Steps.refl _
  | @tail t u pes pes' _ hstep ih =>
    rw [inputs_append, List.append_eq_nil_iff] at hnone
    rw [List.map_append]
    exact (ih hnone.1).tail (Step.other hstep hnone.2)

/-! ## What the window shows -/

/-- An image in the window is the picture that the encoder had of the raw image it encoded as
number `k` of the run, and this raw image shows the frame of its callback. -/
def Renders (codec : VpxCodec σ δ RawImage) (picture : σ → VpxImage)
    (frames : List (Y4mFrame (payloadSize displayWidth displayHeight))) (img : RawImage)
    (es : List Event) (shown : VpxImage) (k : ℕ) : Prop :=
  shown = codec.pictureAt picture (inputs (partEvents es)) k ∧
    ∃ input, (inputs (partEvents es))[k]? = some input ∧
      ShowsNumber frames img input.1 (turn (expirations es) k)

/-- The picture that the encoder had of a raw image, with the place of this image in the file. -/
theorem Follows.renders (h : Follows codec maxPayload headerLine loop frames img parts es s)
    (picture : σ → VpxImage) {k : ℕ} (hk : k < (inputs (partEvents es)).length) :
    Renders codec picture frames img es (codec.pictureAt picture (inputs (partEvents es)) k) k := by
  have hinput := List.getElem?_eq_getElem hk
  exact ⟨rfl, _, hinput, h.shows k _ hinput⟩

/-- The window of the receiver plays the file of the sender, in real time.  For every file of
frames that the constructor accepts, whatever the network loses, duplicates and reorders, however
late the callbacks are and however the threads of the receiver are scheduled: the window shows the
frames that the worker took up, each as the picture that the encoder had of it, and each with the
number in the file that its callback gave it (the frames after the last one are the first ones
again).  These numbers increase, and each is below the number of expirations of the frame timer so
far.  As long as the window is open it has shown every frame that the worker took up. -/
theorem screens_file (hread : Yuv4mpeg.Readable displayWidth displayHeight)
    (hheaderLine : newline ∉ headerLine) (hframes : frames ≠ []) {ready : ℕ → Ready}
    {videoInput : Yuv4mpeg} (hconstruct : construct (some (fileContent headerLine frames))
      displayWidth displayHeight loop ready = .ok videoInput)
    (hsuits : Suits displayWidth displayHeight img) {InStep : σ → δ → Prop}
    {picture : σ → VpxImage} (hcodec : codec.Resyncs InStep fun state => [picture state])
    (hfits : ∀ state, Worker.Fits (picture state) displayWidth displayHeight) {hasOutput : Bool}
    {lazyLevel : LazyLevel} {worker : Worker δ}
    (hdisplay : ∀ display, worker.display = some display →
      display.displayWidth = displayWidth ∧ display.displayHeight = displayHeight)
    (h : Run.Steps (Step codec maxPayload) ⟨⟨videoInput, img⟩,
      Playback.initial codec displayWidth displayHeight hasOutput lazyLevel worker⟩ es s)
    (hbounded : Bounded codec (partEvents es)) :
    ∃ ids : List ℕ,
      ids <+: (takenFrames (receiverEvents (partEvents es))).map (fun frame => frame.id.toNat) ∧
      (ids.map (turn (expirations es))).Pairwise (· < ·) ∧
      (∀ k ∈ ids, turn (expirations es) k < (expirations es).sum) ∧
      List.Forall₂ (Renders codec picture frames img es)
        (shownImages (workerEvents (partEvents es))) ids ∧
      (s.parts.worker.display.isSome → ids
        = (takenFrames (receiverEvents (partEvents es))).map fun frame => frame.id.toNat) := by
  have hpos : 0 < frames.length := List.length_pos_of_ne_nil hframes
  have hfollows := follows_of_steps hread hheaderLine hpos hconstruct hsuits h
  obtain ⟨hkept, hsynced⟩ := synced_of_steps hcodec hfits hdisplay hfollows.run hbounded
  have hlen := hbounded.1
  rw [← codec.length_packets] at hlen
  have hincreasing : (takenFrames (receiverEvents (partEvents es))).Pairwise
      (fun front back => front.id < back.id) :=
    (hkept.inv hlen).decodable.increasing.sublist (hkept.taken_prefix hlen).sublist
  -- the frames that were shown are the first ones of those that were taken up
  have hshown := List.prefix_iff_eq_take.mp hsynced.shown
  rw [← List.map_take] at hshown
  have hmem : ∀ frame ∈ (takenFrames (receiverEvents (partEvents es))).take
      (shownImages (workerEvents (partEvents es))).length,
      frame.id.toNat < (inputs (partEvents es)).length :=
    fun frame hframe => hkept.lt_of_taken hlen (List.mem_of_mem_take hframe)
  refine ⟨((takenFrames (receiverEvents (partEvents es))).take
      (shownImages (workerEvents (partEvents es))).length).map fun frame => frame.id.toNat,
    (List.take_prefix _ _).map _, ?_, ?_, ?_, ?_⟩
  · rw [List.map_map, List.pairwise_map]
    refine (hincreasing.sublist (List.take_sublist _ _)).imp_of_mem ?_
    intro front back _ hback hlt
    refine turn_lt hfollows.positive (UInt32.lt_iff_toNat_lt.mp hlt) ?_
    rw [← hfollows.length]
    exact hmem back hback
  · intro k hk
    obtain ⟨frame, hframe, rfl⟩ := List.mem_map.mp hk
    have hlt := hmem frame hframe
    rw [hfollows.length] at hlt
    exact turn_lt_sum hfollows.positive hlt
  · conv => enter [2]; rw [hshown]
    rw [List.forall₂_map_left_iff, List.forall₂_map_right_iff, List.forall₂_same]
    exact fun frame hframe => hfollows.renders picture (hmem frame hframe)
  · intro hopen
    rw [hsynced.whileOpen hopen, List.length_map, List.take_length]

/-! ## A file of one frame -/

/-- The codec of single bytes, on the first luma sample of an image. -/
def lumaCodec : VpxCodec (Option UInt8) (Option UInt8) RawImage :=
  byteCodec.comap fun rawImg => rawImg.yPlane.mem.cells.headD 0

theorem resyncs_lumaCodec : lumaCodec.Resyncs
    (fun state context => state.isSome ∧ state = context) fun state => [bytePicture state] :=
  resyncs_byteCodec.comap _

/-- The first luma sample, once an image shows the frame of the file. -/
theorem headD_of_showsNumber {rawImg : RawImage}
    (h : ShowsNumber [tinyFrame] RawImage.smallImage rawImg 0) :
    rawImg.yPlane.mem.cells.headD 0 = 1 := by
  obtain ⟨frame, hframe, hshows⟩ := h
  have htiny : frame = tinyFrame := (Option.some_inj.mp hframe).symm
  rw [htiny] at hshows
  have hsample := hshows.y.sample 0 (by decide) 0 (by decide)
  unfold Plane.sample at hsample
  rw [Nat.zero_mul] at hsample
  rw [List.headD_eq_head?_getD, List.head?_eq_getElem?, hsample]
  rfl

/-- What libvpx makes of the frame. -/
def lumaInput : CompressInput := { smallFrame 5 with vpx := fun _ => .ok [.frame [1, 1] true] }

/-- The other parts at the start. -/
def lumaParts : Playback.System ℚ (Option UInt8) (Option UInt8) :=
  Playback.initial lumaCodec 2 2 true .decodeDisplay
    ⟨none, Memory.Region.replicate _ 0, true, some ⟨2, 2⟩⟩

/-- The other parts when the frame was compressed. -/
def compressedParts : Playback.System ℚ (Option UInt8) (Option UInt8) :=
  { lumaParts with
    encoder := (lumaParts.encoder.compressFrame 2000 lumaInput).2.2
    context := some 1 }

/-- The frame is sent, received, pushed and moved to the local queue. -/
theorem steps_compressed : ∃ pes parts,
    Run.Steps (Playback.Step lumaCodec 2000) compressedParts pes parts ∧ inputs pes = [] ∧
      workerEvents pes = [] ∧ parts.worker = lumaParts.worker ∧
      parts.threads.worker = .process ∧ ∃ frame, parts.threads.localQueue = [frame] := by
  have h₁ : Playback.Step lumaCodec 2000 compressedParts _ _ :=
    @Playback.Step.send _ _ _ _ _ _ _ _ _ _ 10 .accepted _ _ _ rfl rfl
  have h₂ := (Run.Steps.single h₁).tail
    (Playback.Step.arrival (List.mem_singleton_self _) rfl (.arrival rfl rfl))
  have h₃ := h₂.tail (Playback.Step.thread (Or.inl (@Threads.MainStep.check _ true _ rfl rfl)) rfl)
  have h₄ := h₃.tail (Playback.Step.thread (Or.inl (Threads.MainStep.begin rfl rfl rfl)) rfl)
  have h₅ := h₄.tail (Playback.Step.thread (Or.inl (Threads.MainStep.lock rfl rfl)) rfl)
  have h₆ := h₅.tail (Playback.Step.thread (Or.inl (Threads.MainStep.push rfl rfl)) rfl)
  have h₇ := h₆.tail (Playback.Step.thread (Or.inl (Threads.MainStep.unlock rfl)) rfl)
  have h₈ := h₇.tail (Playback.Step.thread (Or.inr (Threads.WorkerStep.lock rfl rfl)) rfl)
  have h₉ := h₈.tail (Playback.Step.thread
    (Or.inr (Threads.WorkerStep.proceed rfl (List.cons_ne_nil _ _))) rfl)
  have h₁₀ := h₉.tail (Playback.Step.thread (Or.inr (Threads.WorkerStep.move rfl rfl)) rfl)
  have h₁₁ := h₁₀.tail (Playback.Step.thread (Or.inr (Threads.WorkerStep.unlock rfl rfl)) rfl)
  exact ⟨_, _, h₁₁, rfl, rfl, rfl, rfl, _, rfl⟩

/-- The frame of the file is read, and gets as far as the local queue of the worker. -/
theorem steps_tiny : ∃ videoInput c parts pes,
    construct (some (fileContent tinyHeaderLine [tinyFrame])) 2 2 true (fun _ => .one)
      = .ok videoInput ∧
    Run.Steps (Step lumaCodec 2000) ⟨⟨videoInput, RawImage.smallImage⟩, lumaParts⟩
      (.expired 1 :: (pes.map .part)) ⟨c, parts⟩ ∧
    inputs pes = [(c.rawImg, false)] ∧ workerEvents pes = [] ∧
    parts.worker = lumaParts.worker ∧ parts.threads.worker = .process ∧
    ∃ frame, parts.threads.localQueue = [frame] := by
  obtain ⟨videoInput, hconstruct⟩ := exists_construct_tiny
  have hread : Yuv4mpeg.Readable 2 2 := ⟨by decide, by decide, by decide, by decide, by decide⟩
  have hpos : 0 < [tinyFrame].length := Nat.one_pos
  have hin := @inTime_of_construct _ _ _ _ _ RawImage.smallImage
    (by decide : newline ∉ tinyHeaderLine) _ _ hconstruct
  obtain ⟨c, hfetch, hin'⟩ := @InTime.fetch _ _ _ _ _ _ hread (by decide) hpos suits_smallImage _ _
    hin (fun _ _ _ => .one) 1 Nat.one_pos (Or.inl rfl)
  have hsuits := suits_smallImage.of_layout hin'.layout
  have hluma := headD_of_showsNumber (hin'.shows.resolve_left (by simp)).2
  have hvpx : ∀ force, lumaInput.vpx force
      = .ok [.frame (lumaCodec.encode none c.rawImg force).2.1
        (lumaCodec.encode none c.rawImg force).2.2] := by
    intro force
    show _ = Except.ok [CxPkt.frame [1, c.rawImg.yPlane.mem.cells.headD 0] true]
    rw [hluma]
    rfl
  have hcontext : (lumaCodec.encode lumaParts.context c.rawImg false).1 = some 1 := by
    show some (c.rawImg.yPlane.mem.cells.headD 0) = _
    rw [hluma]
  obtain ⟨ses, htick⟩ : ∃ ses : List SenderEvent,
      Step lumaCodec 2000 ⟨⟨videoInput, RawImage.smallImage⟩, lumaParts⟩
        (.expired 1 :: (.compressed c.rawImg false :: ses.map .sender).map .part)
        ⟨c, compressedParts⟩ := by
    have htick := @Step.tick _ _ _ _ lumaCodec 2000
      (⟨⟨videoInput, RawImage.smallImage⟩, lumaParts⟩ : System ℚ _ _) (.ok (8, 1)) 1
      (fun _ _ _ => .one) c lumaInput _ _ rfl Nat.one_pos hfetch hsuits.width.symm
      hsuits.height.symm hvpx rfl
    have hforce : lumaParts.encoder.givesUp lumaInput.encodeTs = false := rfl
    rw [hforce, hcontext] at htick
    exact ⟨_, htick⟩
  obtain ⟨pes, parts, hrun, hnone, hworker, hsame, hpc, hqueue⟩ := steps_compressed
  have hsteps := (Run.Steps.single htick).trans (steps_other c hrun hnone)
  rw [List.cons_append, ← List.map_append] at hsteps
  refine ⟨videoInput, c, parts, _, hconstruct, hsteps, ?_, ?_, hsame, hpc, hqueue⟩
  · rw [inputs_append, hnone, List.append_nil]
    show (c.rawImg, false) :: inputs (ses.map .sender) = _
    rw [inputs_map_sender]
  · rw [workerEvents_append, hworker, List.append_nil]
    exact workerEvents_map_sender ses

/-- The worker takes the frame up, and the window shows it. -/
theorem screens_file_tiny : ∃ videoInput es shown, ∃ s : System ℚ (Option UInt8) (Option UInt8),
    Run.Steps (Step lumaCodec 2000) ⟨⟨videoInput, RawImage.smallImage⟩, lumaParts⟩ es s ∧
      shownImages (workerEvents (partEvents es)) = [shown] ∧
      Renders lumaCodec bytePicture [tinyFrame] RawImage.smallImage es shown 0 := by
  obtain ⟨videoInput, c, parts, pes, hconstruct, hrun, hinputs, hworker, hsame, hpc, frame,
    hqueue⟩ := steps_tiny
  have hread : Yuv4mpeg.Readable 2 2 := ⟨by decide, by decide, by decide, by decide, by decide⟩
  have hline : newline ∉ tinyHeaderLine := by decide
  have hdisplay : ∀ display, lumaParts.worker.display = some display →
      display.displayWidth = 2 ∧ display.displayHeight = 2 := by
    intro display hd
    rw [← Option.some_inj.mp hd]
    exact ⟨rfl, rfl⟩
  have hpart : partEvents (.expired 1 :: pes.map .part) = pes := partEvents_map_part pes
  have hbounded : Bounded lumaCodec pes := by
    unfold Bounded
    rw [hinputs]
    refine ⟨by norm_num, fun p hp => ?_⟩
    rw [List.mem_singleton.mp hp]
    show 2 < 1000000
    norm_num
  have hpos : 0 < [tinyFrame].length := Nat.one_pos
  have hfollows := follows_of_steps hread hline hpos hconstruct suits_smallImage hrun
  have hparts := hfollows.run
  rw [hpart] at hparts
  obtain ⟨hkept, hsynced⟩ := synced_of_steps resyncs_lumaCodec fits_bytePicture hdisplay hparts
    hbounded
  have hlen : (lumaCodec.packets (inputs pes)).length < 2 ^ 32 - 1 := by
    rw [lumaCodec.length_packets]
    exact hbounded.1
  obtain ⟨worker', hprocess, -⟩ := @Synced.processFrame _ _ _ _ _ _ _ _ _ _ _ _ _
    resyncs_lumaCodec fits_bytePicture hsynced hkept hlen hbounded.2 _ _ hpc hqueue ⟨50, .ok 8⟩
    (fun _ => ⟨8, rfl⟩)
  obtain ⟨pes', parts', hstep, hnone, hshown⟩ : ∃ pes' parts',
      Playback.Step lumaCodec 2000 parts pes' parts' ∧ inputs pes' = [] ∧
        shownImages (workerEvents pes')
          = [lumaCodec.pictureAt bytePicture (inputs pes) frame.id.toNat] := by
    refine ⟨_, _, Playback.Step.take (Threads.WorkerStep.process hpc hqueue) hprocess,
      inputs_map_worker _, ?_⟩
    show shownImages (workerEvents (List.map Playback.Event.worker _)) = _
    rw [workerEvents_map_worker, shownImages_eventsOf]
    show (if parts.worker.display.isSome then _ else _) = _
    rw [hsame]
    rfl
  have hrun' := hrun.tail (Step.other hstep hnone)
  have hpart' : partEvents (.expired 1 :: pes.map .part ++ pes'.map .part) = pes ++ pes' := by
    rw [partEvents_append, hpart, partEvents_map_part]
  have hbounded' : Bounded lumaCodec (pes ++ pes') := by
    unfold Bounded
    rw [inputs_append, hnone, List.append_nil]
    exact hbounded
  obtain ⟨ids, -, -, -, hrenders, -⟩ := screens_file hread hline (List.cons_ne_nil tinyFrame [])
    hconstruct suits_smallImage resyncs_lumaCodec fits_bytePicture hdisplay hrun'
    (hpart' ▸ hbounded')
  have hone : shownImages (workerEvents (partEvents
      (.expired 1 :: pes.map .part ++ pes'.map .part)))
        = [lumaCodec.pictureAt bytePicture (inputs pes) frame.id.toNat] := by
    rw [hpart', workerEvents_append, hworker]
    exact hshown
  refine ⟨videoInput, _, _, _, hrun', hone, ?_⟩
  -- one raw image was encoded
  rw [hone] at hrenders
  cases hrenders with
  | @cons _ k _ _ hrender _ =>
    obtain ⟨input, hinput, -⟩ := hrender.2
    have hk := (List.getElem?_eq_some_iff.mp hinput).1
    rw [hpart', inputs_append, hnone, hinputs] at hk
    have hzero : k = 0 := Nat.lt_one_iff.mp hk
    exact hzero ▸ hrender

end Screening

end Ringmaster
