/-
# What the worker does with a frame

The loop of `Decoder::worker_main` over its local queue: `decode_frame`, the line for the
output file, and `display_decoded_frame`.  The VP9 decoder of libvpx is a parameter: a state
and what it makes of a compressed frame, either a failure or a new state and the images that
`vpx_codec_get_frame` then returns.  The window of SDL is known by its size.

A frame that fits into the buffer, and that the codec turns into one image of the size of the
window, is decoded, logged and shown, in this order (`processFrame_of_decodes`).
-/
import Ringmaster.DecodeBuffer
import Ringmaster.StrictParsing

namespace Ringmaster

/-! ## Images and the window -/

/-- An image of libvpx: whether its format is I420, its displayed size, and its planes. -/
structure VpxImage where
  isI420 : Bool
  dW : UInt32
  dH : UInt32
  planes : List Bytes
  deriving DecidableEq

/-- The size of a `VideoDisplay`. -/
structure VideoDisplay where
  displayWidth : UInt16
  displayHeight : UInt16
  deriving DecidableEq

/-- The method `show_frame`, for a `RawImage` that wraps the image of libvpx. -/
def VideoDisplay.showFrame (display : VideoDisplay) (rawImg : VpxImage) : Except Exn Unit :=
  if ¬ rawImg.isI420 then
    .error (.runtimeError "RawImage: only supports I420")
  else if rawImg.dW.toUInt16 ≠ display.displayWidth ∨
      rawImg.dH.toUInt16 ≠ display.displayHeight then
    .error (.runtimeError "VideoDisplay: image dimensions don't match")
  else
    .ok ()

/-! ## The worker -/

/-- What the worker keeps from frame to frame: the context of the codec, the buffer of
`decode_frame`, whether there is an output file, and the window while it is open. -/
structure Worker (δ : Type) where
  context : δ
  decodeBuf : Decoder.DecodeBuf
  hasOutput : Bool
  display : Option VideoDisplay

/-- What an observer sees of the worker: the images that a frame was decoded to, a line given
to the output file, an image in the window. -/
inductive WorkerEvent where
  | decoded (frameId : UInt32) (images : List VpxImage)
  | logged (line : Bytes)
  | shown (rawImg : VpxImage)
  deriving DecidableEq

/-- What the worker gets from outside for a frame: the reading of the clock for the line, and
the result of writing it. -/
structure WorkerInput where
  frameDecodedTs : UInt64
  write : Except Exn ℕ

namespace Worker

variable {δ : Type}

/-- The line for the output file. -/
def line (frameId : UInt32) (frameSize : ℕ) (ts : UInt64) : Bytes :=
  decimalText frameId.toNat ++ [44] ++ decimalText frameSize ++ [44] ++ decimalText ts.toNat ++ [10]

/-- The loop of `display_decoded_frame`, with the number of frames decoded so far. -/
def displayLoop (display : VideoDisplay) :
    List VpxImage → ℕ → Except Exn Unit × List WorkerEvent
  | [], _ => (.ok (), [])
  | rawImg :: rest, frameDecoded =>
    -- there should be exactly one frame decoded
    if frameDecoded + 1 > 1 then
      (.error (.runtimeError "Multiple frames were decoded at once"), [])
    else
      match display.showFrame rawImg with
      | .error e => (.error e, [])
      | .ok () =>
        match displayLoop display rest (frameDecoded + 1) with
        | (result, es) => (result, .shown rawImg :: es)

/-- The method `display_decoded_frame`. -/
def displayDecodedFrame (display : VideoDisplay) (images : List VpxImage) :
    Except Exn Unit × List WorkerEvent :=
  displayLoop display images 0

/-- The body of the loop over the local queue, up to the statistics; `none` stands for a write
outside of the buffer. -/
def processFrame (vpx : δ → Bytes → Option (δ × List VpxImage)) (w : Worker δ)
    (inp : WorkerInput) (frame : Frame) :
    Option (Except Exn Unit × List WorkerEvent × Worker δ) :=
  match Decoder.decodeFrame (fun data => (vpx w.context data).isSome) w.decodeBuf frame with
  | none => none
  | some ⟨.error e, _, buf⟩ => some (.error e, [], { w with decodeBuf := buf })
  | some ⟨.ok (), handed, buf⟩ =>
    match handed.bind (vpx w.context), frame.frameSize? with
    | some (context, images), some frameSize =>
      let w := { w with context := context, decodeBuf := buf }
      let written : Except Exn Unit × List WorkerEvent :=
        if w.hasOutput then
          match inp.write with
          | .error e => (.error e, [])
          | .ok _ => (.ok (), [.logged (line frame.id frameSize inp.frameDecodedTs)])
        else (.ok (), [])
      match written with
      | (.error e, es) => some (.error e, .decoded frame.id images :: es, w)
      | (.ok (), es) =>
        match w.display with
        | none => some (.ok (), .decoded frame.id images :: es, w)
        | some display =>
          match displayDecodedFrame display images with
          | (result, es') => some (result, .decoded frame.id images :: (es ++ es'), w)
    | _, _ => some (.error .badOptionalAccess, [], { w with decodeBuf := buf })

/-- The beginning of a round of `worker_main`: a window that was told to quit is closed. -/
def checkDisplay (w : Worker δ) (signalQuit : Bool) : Worker δ :=
  if w.display.isSome && signalQuit then { w with display := none } else w

/-! ## A frame that decodes -/

/-- An image that a window of the given size can show. -/
structure Fits (rawImg : VpxImage) (displayWidth displayHeight : UInt16) : Prop where
  isI420 : rawImg.isI420
  width : rawImg.dW.toUInt16 = displayWidth
  height : rawImg.dH.toUInt16 = displayHeight

/-- A single image that fits is shown. -/
theorem displayDecodedFrame_of_fits {display : VideoDisplay} {rawImg : VpxImage}
    (h : Fits rawImg display.displayWidth display.displayHeight) :
    displayDecodedFrame display [rawImg] = (.ok (), [.shown rawImg]) := by
  have hshow : display.showFrame rawImg = .ok () := by
    unfold VideoDisplay.showFrame
    rw [if_neg (not_not.mpr h.isI420), if_neg (by rw [h.width, h.height]; simp)]
  unfold displayDecodedFrame displayLoop
  rw [if_neg (by decide), hshow]
  rfl

/-- What a frame leaves in the trace, when it is decoded to one image. -/
def eventsOf (w : Worker δ) (frame : Frame) (ts : UInt64) (rawImg : VpxImage) :
    List WorkerEvent :=
  [.decoded frame.id [rawImg]] ++
    (if w.hasOutput then [.logged (line frame.id frame.content.length ts)] else []) ++
    if w.display.isSome then [.shown rawImg] else []

/-- A complete frame that fits into the buffer, and that the codec decodes to one image of the
size of the window, is decoded, logged and shown. -/
theorem processFrame_of_decodes {vpx : δ → Bytes → Option (δ × List VpxImage)} {w : Worker δ}
    {inp : WorkerInput} {frame : Frame} {context : δ} {rawImg : VpxImage}
    (hvalid : frame.Valid) (hcomplete : frame.complete)
    (hlt : frame.content.length < Decoder.maxDecodingBuf)
    (hvpx : vpx w.context frame.content = some (context, [rawImg]))
    (hwrite : w.hasOutput → ∃ n, inp.write = .ok n)
    (hfits : ∀ display, w.display = some display →
      Fits rawImg display.displayWidth display.displayHeight) :
    ∃ w', w.processFrame vpx inp frame
        = some (.ok (), w.eventsOf frame inp.frameDecodedTs rawImg, w') ∧
      w'.context = context ∧ w'.hasOutput = w.hasOutput ∧ w'.display = w.display := by
  obtain ⟨⟨result, handed, buf⟩, hdecode, hhanded, hresult⟩ :=
    Decoder.decodeFrame_of_lt hvalid hcomplete (fun data => (vpx w.context data).isSome)
      w.decodeBuf hlt
  dsimp only at hhanded hresult
  rw [hvpx, Option.isSome_some, if_pos rfl] at hresult
  subst hhanded hresult
  have hsize : frame.frameSize? = some frame.content.length := by
    unfold Frame.frameSize?
    rw [if_pos hcomplete, hvalid.frameSize_eq_length]
  refine ⟨{ w with context := context, decodeBuf := buf }, ?_, rfl, rfl, rfl⟩
  unfold processFrame eventsOf
  rw [hdecode]
  dsimp only [Option.bind_some]
  rw [hvpx, hsize]
  dsimp only
  have hwritten : (if w.hasOutput then
      match inp.write with
      | .error e => ((.error e, []) : Except Exn Unit × List WorkerEvent)
      | .ok _ => (.ok (), [.logged (line frame.id frame.content.length inp.frameDecodedTs)])
    else (.ok (), [])) = (.ok (), if w.hasOutput then
      [.logged (line frame.id frame.content.length inp.frameDecodedTs)] else []) := by
    split_ifs with hout
    · obtain ⟨n, hn⟩ := hwrite hout
      rw [hn]
    · rfl
  rw [hwritten]
  cases hdisplay : w.display with
  | none => simp
  | some display => simp [displayDecodedFrame_of_fits (hfits display hdisplay)]

/-- A frame that is processed without an exception has its line written. -/
theorem exists_write_of_processFrame {vpx : δ → Bytes → Option (δ × List VpxImage)}
    {w w' : Worker δ} {inp : WorkerInput} {frame : Frame} {es : List WorkerEvent}
    (h : w.processFrame vpx inp frame = some (.ok (), es, w')) (hout : w.hasOutput) :
    ∃ n, inp.write = .ok n := by
  unfold processFrame at h
  split at h
  · simp at h
  · simp at h
  · split at h
    · cases hwrite : inp.write with
      | ok n => exact ⟨n, rfl⟩
      | error e => simp [hwrite, hout] at h
    · simp at h

end Worker

end Ringmaster
