/-
# The camera

The class `VideoDevice` of `src/video/v4l2.hh` and `v4l2.cc`, and the buffers that it shares with
the driver.

The driver has two queues of buffers.  Those in the incoming queue belong to it, and it may write
to them at any time; when a frame is complete, it moves the first of them to the end of the
outgoing queue.  The call `VIDIOC_DQBUF` takes the first buffer out of the outgoing queue, and
`VIDIOC_QBUF` puts a buffer at the end of the incoming queue.  Between the two, `read_frame`
converts the frame where it lies, and the driver goes on.

In every run the images that `read_frame` returns show the captured frames in order, none of them
is left out, and no image shows parts of two frames (`reads_captured`); the steps of a call may be
taken as a single one (`read_atomic`).
-/
import Ringmaster.Descriptors
import Ringmaster.FrameTimer
import Ringmaster.YuyvConversion

namespace Ringmaster

open RawImage (Conversion ConvertsExactly)
open Yuv4mpeg (Suits)

/-- The class `VideoDevice`: the size of the frames, and the mappings of the buffers. -/
structure VideoDevice where
  displayWidth : UInt16
  displayHeight : UInt16
  bufMem : List MMap

namespace VideoDevice

/-! ## The constructor -/

/-- The constant `V4L2_CAP_VIDEO_CAPTURE`. -/
def capVideoCapture : UInt32 := 0x00000001

/-- The constant `V4L2_CAP_STREAMING`. -/
def capStreaming : UInt32 := 0x04000000

/-- The constant `V4L2_PIX_FMT_YUYV`: the four characters of its name, the first one lowest. -/
def pixelFormat : UInt32 := 0x56595559

/-- What the system calls of the constructor return, the one of `fcntl` in the constructor of
`FileDescriptor` among them, and what the driver writes into their arguments.  Those about a buffer
are given its index. -/
structure Answers where
  opened : Int32
  fcntl : Int32
  querycap : Int32
  capabilities : UInt32
  sFmt : Int32
  pixelformat : UInt32
  width : UInt32
  height : UInt32
  reqbufs : Int32
  count : UInt32
  querybuf : ℕ → Int32
  length : ℕ → UInt32
  mmap : ℕ → ℕ
  qbuf : ℕ → Int32
  streamon : Int32

/-- A check that throws. -/
def refuse (condition : Bool) (what : String) : Except SysExn Unit :=
  if condition then .error (.exn (.runtimeError what)) else .ok ()

/-- The loop over the buffers, with the number of rounds that are left: `buf_mem_`, and the
incoming queue of the driver. -/
def enqueueLoop (a : Answers) :
    ℕ → ℕ → List MMap → List ℕ → Except SysExn (List MMap × List ℕ)
  | 0, _, bufMem, incoming => .ok (bufMem, incoming)
  | rounds + 1, i, bufMem, incoming =>
    match checkSyscall (a.querybuf i) with
    | .error e => .error e
    | .ok _ =>
      match MMap.construct (a.mmap i) (a.length i).toNat with
      | .error e => .error (.exn e)
      | .ok mem =>
        match checkSyscall (a.qbuf i) with
        | .error e => .error e
        | .ok _ => enqueueLoop a rounds (i + 1) (bufMem ++ [mem]) (incoming ++ [i])

/-- The constructor.  A number of buffers other than the one asked for only leads to a warning. -/
def construct (displayWidth displayHeight : UInt16) (a : Answers) :
    Except SysExn (VideoDevice × List ℕ) := do
  let opened ← checkSyscall a.opened
  let _ ← Descriptor.construct opened.toInt a.fcntl
  let _ ← checkSyscall a.querycap
  refuse (a.capabilities &&& capVideoCapture == 0) "this device does not handle video capture"
  refuse (a.capabilities &&& capStreaming == 0) "this device does not support streaming"
  let _ ← checkSyscall a.sFmt
  refuse (a.pixelformat != pixelFormat) "cannot set pixel format to be YUYV"
  refuse (a.width != displayWidth.toUInt32 || a.height != displayHeight.toUInt32)
    "cannot set video resolution as specified"
  let _ ← checkSyscall a.reqbufs
  let buffers ← enqueueLoop a a.count.toNat 0 [] []
  let _ ← checkSyscall a.streamon
  return (⟨displayWidth, displayHeight, buffers.1⟩, buffers.2)

/-- What goes on behind a computation that returned. -/
theorem exists_of_bind_eq_ok {α β : Type} {x : Except SysExn α} {f : α → Except SysExn β} {b : β}
    (h : x >>= f = .ok b) : ∃ a, x = .ok a ∧ f a = .ok b := by
  cases x with
  | error e => cases h
  | ok a => exact ⟨a, rfl, h⟩

/-- The loop maps the buffers and enqueues them in the order of their indices. -/
theorem enqueueLoop_eq {a : Answers} {size : ℕ} (rounds i : ℕ)
    (hlength : ∀ j < i + rounds, size ≤ (a.length j).toNat) {bufMem : List MMap}
    (hbufMem : bufMem.length = i) (hsize : ∀ mem ∈ bufMem, size ≤ mem.length)
    {buffers : List MMap × List ℕ}
    (h : enqueueLoop a rounds i bufMem (List.range i) = .ok buffers) :
    buffers.1.length = i + rounds ∧ (∀ mem ∈ buffers.1, size ≤ mem.length) ∧
      buffers.2 = List.range (i + rounds) := by
  induction rounds generalizing i bufMem with
  | zero =>
    rw [enqueueLoop, Except.ok.injEq] at h
    rw [← h]
    exact ⟨hbufMem, hsize, rfl⟩
  | succ rounds ih =>
    rw [enqueueLoop] at h
    cases hquery : checkSyscall (a.querybuf i) with
    | error e => rw [hquery] at h; cases h
    | ok answer =>
      rw [hquery] at h
      dsimp only at h
      unfold MMap.construct at h
      -- a failed mapping throws
      split_ifs at h with hmap
      dsimp only at h
      cases hqbuf : checkSyscall (a.qbuf i) with
      | error e => rw [hqbuf] at h; cases h
      | ok answer' =>
        rw [hqbuf] at h
        dsimp only at h
        rw [← List.range_succ] at h
        have hnext := ih (i + 1) (fun j hj => hlength j (by omega))
          (by rw [List.length_append, hbufMem]; rfl) ?_ h
        · rw [Nat.add_right_comm] at hnext
          exact hnext
        · intro mem hmem
          rcases List.mem_append.mp hmem with hmem | hmem
          · exact hsize mem hmem
          · rw [List.mem_singleton.mp hmem]
            exact hlength i (by omega)

/-- A device that was constructed has its buffers mapped, and all of them are with the driver. -/
theorem buffers_of_construct {displayWidth displayHeight : UInt16} {a : Answers} {size : ℕ}
    (hlength : ∀ j < a.count.toNat, size ≤ (a.length j).toNat) {device : VideoDevice}
    {incoming : List ℕ} (h : construct displayWidth displayHeight a = .ok (device, incoming)) :
    device.displayWidth = displayWidth ∧ device.displayHeight = displayHeight ∧
      device.bufMem.length = a.count.toNat ∧ (∀ mem ∈ device.bufMem, size ≤ mem.length) ∧
      incoming = List.range a.count.toNat := by
  unfold construct at h
  obtain ⟨_, -, h⟩ := exists_of_bind_eq_ok h
  obtain ⟨_, -, h⟩ := exists_of_bind_eq_ok h
  obtain ⟨_, -, h⟩ := exists_of_bind_eq_ok h
  obtain ⟨_, -, h⟩ := exists_of_bind_eq_ok h
  obtain ⟨_, -, h⟩ := exists_of_bind_eq_ok h
  obtain ⟨_, -, h⟩ := exists_of_bind_eq_ok h
  obtain ⟨_, -, h⟩ := exists_of_bind_eq_ok h
  obtain ⟨_, -, h⟩ := exists_of_bind_eq_ok h
  obtain ⟨_, -, h⟩ := exists_of_bind_eq_ok h
  obtain ⟨buffers, hloop, h⟩ := exists_of_bind_eq_ok h
  obtain ⟨_, -, h⟩ := exists_of_bind_eq_ok h
  have hbuffers := enqueueLoop_eq a.count.toNat 0 (by simpa using hlength) rfl (by simp) hloop
  rw [Nat.zero_add] at hbuffers
  obtain ⟨hdevice, hincoming⟩ := Prod.mk.inj (Except.ok.inj h)
  rw [← hdevice, ← hincoming]
  exact ⟨rfl, rfl, hbuffers⟩

/-! ## Reading a frame -/

/-- The number of bytes of a frame. -/
def frameSize (displayWidth displayHeight : UInt16) : ℕ :=
  2 * displayWidth.toNat * displayHeight.toNat

/-- The call of `copy_from_yuyv` in `read_frame`, with the contents of the buffer. -/
def convert (device : VideoDevice) (rawImg : RawImage) (frameBuf : Bytes) : Option Conversion :=
  match asInt (device.displayWidth.toNat * device.displayHeight.toNat * 2) with
  | none => none
  | some size => if frameBuf.length < size then none else rawImg.copyFromYuyv (frameBuf.take size)

/-- The method `read_frame`, when the driver does nothing in between: `dqbuf` is what
`VIDIOC_DQBUF` returns, with the index of a buffer, and `qbuf` is what `VIDIOC_QBUF` returns. -/
def readFrame (device : VideoDevice) (memory : ℕ → Bytes) (rawImg : RawImage) (dqbuf : Int32)
    (index : ℕ) (qbuf : Int32) : Option (Except SysExn Bool × RawImage) :=
  if rawImg.displayWidth ≠ device.displayWidth ∨ rawImg.displayHeight ≠ device.displayHeight then
    some (.error (.exn (.runtimeError "VideoDevice: image dimensions don't match")), rawImg)
  else if dqbuf < 0 then
    some (.ok false, rawImg)
  else
    match device.bufMem[index]? with
    | none => some (.error (.exn (.outOfRange "vector::at")), rawImg)
    | some _ =>
      match device.convert rawImg (memory index) with
      | none => none
      | some conversion =>
        match conversion.result with
        | .error e => some (.error (.exn e), conversion.img)
        | .ok () =>
          match checkSyscall qbuf with
          | .error e => some (.error e, conversion.img)
          | .ok _ => some (.ok true, conversion.img)

/-- An image shows a frame of the camera. -/
def ShowsFrame (displayWidth displayHeight : UInt16) (rawImg : RawImage) (frame : Bytes) : Prop :=
  ∃ img conversion, img.displayWidth = displayWidth ∧ img.displayHeight = displayHeight ∧
    ConvertsExactly img (frame.take (frameSize displayWidth displayHeight)) conversion ∧
    conversion.img = rawImg

/-- The conversion keeps the layout of the image. -/
theorem layout_copyFromYuyv {img : RawImage} {src : Bytes} {r : Conversion}
    (h : img.copyFromYuyv src = some r) : r.img.layout = img.layout := by
  unfold RawImage.copyFromYuyv at h
  cases hsize : img.ySize with
  | none => rw [hsize] at h; cases h
  | some ySize =>
    rw [hsize] at h
    dsimp only at h
    split_ifs at h
    · rw [← Option.some_inj.mp h]
    · cases hy : copyYLoop src ySize 0 (Dst.start img.yPlane.mem) with
      | none => rw [hy] at h; cases h
      | some dstY =>
        rw [hy] at h
        dsimp only at h
        cases huv : copyUvLoop src img.displayWidth.toNat (img.displayHeight.toNat / 2) 0
            (Dst.start img.uPlane.mem) (Dst.start img.vPlane.mem) with
        | none => rw [huv] at h; cases h
        | some dst =>
          rw [huv] at h
          rw [← Option.some_inj.mp h]
          rfl

section Conversion

variable {displayWidth displayHeight : UInt16} {device : VideoDevice} {rawImg : RawImage}
  {frameBuf : Bytes}

/-- The sizes of a camera for which the conversion is defined. -/
structure Readable (displayWidth displayHeight : UInt16) : Prop where
  width : Even displayWidth.toNat
  height : Even displayHeight.toNat
  size_lt : frameSize displayWidth displayHeight < 2 ^ 31

/-- A buffer that is long enough is converted. -/
theorem exists_convert (hread : Readable displayWidth displayHeight)
    (hwidth : device.displayWidth = displayWidth) (hheight : device.displayHeight = displayHeight)
    (hsuits : Suits displayWidth displayHeight rawImg)
    (hroom : frameSize displayWidth displayHeight ≤ frameBuf.length) :
    ∃ r, device.convert rawImg frameBuf = some r ∧ r.result = .ok () ∧
      Suits displayWidth displayHeight r.img ∧
      ShowsFrame displayWidth displayHeight r.img frameBuf := by
  have hsize := hread.size_lt
  have hcomm : displayWidth.toNat * displayHeight.toNat * 2
      = frameSize displayWidth displayHeight := by
    unfold frameSize
    ring
  have hint : asInt (device.displayWidth.toNat * device.displayHeight.toNat * 2)
      = some (frameSize displayWidth displayHeight) := by
    rw [hwidth, hheight, hcomm]
    exact asInt_eq_some_iff.mpr ⟨hsize, rfl⟩
  have hlength : (frameBuf.take (frameSize displayWidth displayHeight)).length
      = 2 * rawImg.displayWidth.toNat * rawImg.displayHeight.toNat := by
    rw [List.length_take, Nat.min_eq_left hroom, hsuits.width, hsuits.height]
    rfl
  have hlt : rawImg.displayWidth.toNat * rawImg.displayHeight.toNat < 2 ^ 31 := by
    rw [hsuits.width, hsuits.height]
    omega
  obtain ⟨r, hcopy, hexact⟩ := RawImage.exists_copyFromYuyv (hsuits.width ▸ hread.width)
    (hsuits.height ▸ hread.height) hlt (hsuits.width ▸ hsuits.height ▸ hsuits.y)
    (hsuits.width ▸ hsuits.height ▸ hsuits.u) (hsuits.width ▸ hsuits.height ▸ hsuits.v) hlength
  refine ⟨r, ?_, hexact.result, hsuits.of_layout (layout_copyFromYuyv hcopy),
    rawImg, r, hsuits.width, hsuits.height, hexact, rfl⟩
  unfold convert
  rw [hint]
  dsimp only
  rw [if_neg (Nat.not_lt.mpr hroom)]
  exact hcopy

end Conversion

end VideoDevice

/-! ## Sharing the buffers with the driver -/

/-- How far a call of `read_frame` has come. -/
inductive Reading where
  /-- No call is under way. -/
  | outside
  /-- The buffer was taken out of the outgoing queue. -/
  | dequeued (index : ℕ)
  /-- Its frame was converted. -/
  | converted (index : ℕ)

/-- The buffer that the program has. -/
def Reading.held : Reading → List ℕ
  | .outside => []
  | .dequeued index => [index]
  | .converted index => [index]

/-- The device and the image of the program, the memory of the buffers, and the queues of the
driver. -/
structure Camera where
  device : VideoDevice
  rawImg : RawImage
  memory : ℕ → Bytes
  incoming : List ℕ
  outgoing : List ℕ
  reading : Reading

namespace Camera

/-- What an observer sees: the frames that the driver captured, and the images of the calls of
`read_frame` that returned `true`. -/
inductive Event where
  | captured (frame : Bytes)
  | returned (rawImg : RawImage)

/-- The steps of the driver. -/
inductive DriverStep : Camera → List Event → Camera → Prop
  /-- It writes to a buffer of its own. -/
  | write {s : Camera} {index : ℕ} {content : Bytes} :
      index ∈ s.incoming → content.length = (s.memory index).length →
      DriverStep s [] { s with memory := Function.update s.memory index content }
  /-- The frame in the first buffer is complete. -/
  | capture {s : Camera} {index : ℕ} {rest : List ℕ} : s.incoming = index :: rest →
      DriverStep s [.captured (s.memory index)]
        { s with incoming := rest, outgoing := s.outgoing ++ [index] }

/-- The steps of `read_frame`, between which the driver may take steps. -/
inductive ReadStep : Camera → List Event → Camera → Prop
  /-- The call `VIDIOC_DQBUF` fails, and `read_frame` returns `false`. -/
  | again {s : Camera} : s.reading = .outside → ReadStep s [] s
  /-- The call `VIDIOC_DQBUF` takes a buffer. -/
  | dequeue {s : Camera} {index : ℕ} {rest : List ℕ} : s.reading = .outside →
      s.rawImg.displayWidth = s.device.displayWidth →
      s.rawImg.displayHeight = s.device.displayHeight → s.outgoing = index :: rest →
      ReadStep s [] { s with outgoing := rest, reading := .dequeued index }
  /-- The frame is converted. -/
  | convert {s : Camera} {index : ℕ} {mem : MMap} {conversion : Conversion} :
      s.reading = .dequeued index → s.device.bufMem[index]? = some mem →
      s.device.convert s.rawImg (s.memory index) = some conversion →
      conversion.result = .ok () →
      ReadStep s [] { s with rawImg := conversion.img, reading := .converted index }
  /-- The call `VIDIOC_QBUF` gives the buffer back, and `read_frame` returns `true`. -/
  | enqueue {s : Camera} {index : ℕ} : s.reading = .converted index →
      ReadStep s [.returned s.rawImg]
        { s with incoming := s.incoming ++ [index], reading := .outside }

/-- The steps of both. -/
def Step (s : Camera) (es : List Event) (s' : Camera) : Prop :=
  DriverStep s es s' ∨ ReadStep s es s'

/-- The frames that were captured. -/
def capturedFrames (es : List Event) : List Bytes :=
  es.filterMap fun e => match e with
    | .captured frame => some frame
    | .returned _ => none

/-- The images that were returned. -/
def returnedImages (es : List Event) : List RawImage :=
  es.filterMap fun e => match e with
    | .captured _ => none
    | .returned rawImg => some rawImg

@[simp] theorem capturedFrames_append (es es' : List Event) :
    capturedFrames (es ++ es') = capturedFrames es ++ capturedFrames es' :=
  List.filterMap_append

@[simp] theorem returnedImages_append (es es' : List Event) :
    returnedImages (es ++ es') = returnedImages es ++ returnedImages es' :=
  List.filterMap_append

/-! ## No buffer is lost, and no frame -/

/-- The buffers that wait for the program or are with it. -/
def pending (s : Camera) : List ℕ := s.reading.held ++ s.outgoing

theorem pending_of_dequeued {s : Camera} {index : ℕ} (h : s.reading = .dequeued index) :
    s.pending = index :: s.outgoing := by
  unfold pending
  rw [h]
  rfl

theorem pending_of_converted {s : Camera} {index : ℕ} (h : s.reading = .converted index) :
    s.pending = index :: s.outgoing := by
  unfold pending
  rw [h]
  rfl

/-- Each buffer is with one of the two sides; the frames that were captured are those that were
returned, followed by those in the pending buffers; and a frame that was converted is in the
image. -/
structure Inv (displayWidth displayHeight : UInt16) (n : ℕ) (es : List Event) (s : Camera) :
    Prop where
  width : s.device.displayWidth = displayWidth
  height : s.device.displayHeight = displayHeight
  bufMem : s.device.bufMem.length = n
  room : ∀ index < n, VideoDevice.frameSize displayWidth displayHeight ≤ (s.memory index).length
  suits : Suits displayWidth displayHeight s.rawImg
  buffers : (s.incoming ++ s.pending).Perm (List.range n)
  frames : ∃ shown, capturedFrames es = shown ++ s.pending.map s.memory ∧
    List.Forall₂ (VideoDevice.ShowsFrame displayWidth displayHeight) (returnedImages es) shown
  current : ∀ index, s.reading = .converted index →
    VideoDevice.ShowsFrame displayWidth displayHeight s.rawImg (s.memory index)

variable {displayWidth displayHeight : UInt16} {n : ℕ} {es es' : List Event} {s s' : Camera}

/-- The two sides do not share a buffer. -/
theorem Inv.disjoint (h : Inv displayWidth displayHeight n es s) :
    List.Disjoint s.incoming s.pending :=
  List.disjoint_of_nodup_append (h.buffers.nodup_iff.mpr List.nodup_range)

theorem Inv.lt_of_mem_pending (h : Inv displayWidth displayHeight n es s) {index : ℕ}
    (hmem : index ∈ s.pending) : index < n :=
  List.mem_range.mp (h.buffers.subset (List.mem_append_right _ hmem))

/-- The driver keeps the invariant. -/
theorem Inv.driver (h : Inv displayWidth displayHeight n es s) (hstep : DriverStep s es' s') :
    Inv displayWidth displayHeight n (es ++ es') s' := by
  obtain ⟨shown, hcaptured, hshown⟩ := h.frames
  cases hstep with
  | @write index content hmem hlength =>
    have hother : ∀ other ∈ s.pending, Function.update s.memory index content other
        = s.memory other := by
      intro other hpending
      refine Function.update_of_ne ?_ _ _
      rintro rfl
      exact h.disjoint hmem hpending
    refine ⟨h.width, h.height, h.bufMem, ?_, h.suits, h.buffers, ⟨shown, ?_, ?_⟩, ?_⟩
    · intro other hlt
      show _ ≤ (Function.update s.memory index content other).length
      by_cases heq : other = index
      · rw [heq, Function.update_self, hlength]
        exact h.room index (heq ▸ hlt)
      · rw [Function.update_of_ne heq]
        exact h.room other hlt
    · rw [List.append_nil, hcaptured]
      exact congrArg _ (List.map_congr_left hother).symm
    · rw [List.append_nil]
      exact hshown
    · intro other hreading
      show VideoDevice.ShowsFrame _ _ _ (Function.update s.memory index content other)
      have hpending : other ∈ s.pending := by
        rw [@pending_of_converted s other hreading]
        exact List.mem_cons_self
      rw [hother other hpending]
      exact h.current other hreading
  | @capture index rest hincoming =>
    refine ⟨h.width, h.height, h.bufMem, h.room, h.suits, ?_, ⟨shown, ?_, ?_⟩, h.current⟩
    · have hbuffers := h.buffers
      rw [hincoming] at hbuffers
      refine List.Perm.trans ?_ hbuffers
      show (rest ++ (s.reading.held ++ (s.outgoing ++ [index]))).Perm (index :: rest ++ s.pending)
      rw [← List.append_assoc s.reading.held, ← List.append_assoc rest]
      exact List.perm_append_singleton _ _
    · rw [capturedFrames_append, hcaptured, List.append_assoc]
      show shown ++ (s.pending.map s.memory ++ [s.memory index])
        = shown ++ (s.reading.held ++ (s.outgoing ++ [index])).map s.memory
      rw [← List.append_assoc s.reading.held, List.map_append]
      rfl
    · rw [returnedImages_append]
      show List.Forall₂ _ (returnedImages es ++ []) _
      rw [List.append_nil]
      exact hshown

/-- The program keeps the invariant. -/
theorem Inv.read (hread : VideoDevice.Readable displayWidth displayHeight)
    (h : Inv displayWidth displayHeight n es s) (hstep : ReadStep s es' s') :
    Inv displayWidth displayHeight n (es ++ es') s' := by
  obtain ⟨shown, hcaptured, hshown⟩ := h.frames
  cases hstep with
  | again _ =>
    rw [List.append_nil]
    exact h
  | @dequeue index rest hreading _ _ houtgoing =>
    have hpending : s.pending = index :: rest := by
      unfold pending
      rw [hreading, houtgoing]
      rfl
    rw [List.append_nil]
    refine ⟨h.width, h.height, h.bufMem, h.room, h.suits, ?_, ⟨shown, ?_, hshown⟩, ?_⟩
    · show (s.incoming ++ index :: rest).Perm _
      rw [← hpending]
      exact h.buffers
    · show capturedFrames es = shown ++ (index :: rest).map s.memory
      rw [← hpending]
      exact hcaptured
    · exact fun _ hconverted => nomatch hconverted
  | @convert index mem conversion hreading _ hconvert _ =>
    have hpending := pending_of_dequeued hreading
    have hlt : index < n := h.lt_of_mem_pending (hpending ▸ List.mem_cons_self)
    obtain ⟨r, hr, -, hsuits, hshows⟩ :=
      VideoDevice.exists_convert hread h.width h.height h.suits (h.room index hlt)
    obtain rfl : r = conversion := Option.some_inj.mp (hr.symm.trans hconvert)
    rw [List.append_nil]
    refine ⟨h.width, h.height, h.bufMem, h.room, hsuits, ?_, ⟨shown, ?_, hshown⟩, ?_⟩
    · show (s.incoming ++ index :: s.outgoing).Perm _
      rw [← hpending]
      exact h.buffers
    · show capturedFrames es = shown ++ (index :: s.outgoing).map s.memory
      rw [← hpending]
      exact hcaptured
    · intro other hconverted
      obtain rfl : index = other := Reading.converted.inj hconverted
      exact hshows
  | @enqueue index hreading =>
    have hpending := pending_of_converted hreading
    rw [hpending] at hcaptured
    refine ⟨h.width, h.height, h.bufMem, h.room, h.suits, ?_,
      ⟨shown ++ [s.memory index], ?_, ?_⟩, ?_⟩
    · have hbuffers := h.buffers
      rw [hpending] at hbuffers
      refine List.Perm.trans ?_ hbuffers
      show (s.incoming ++ [index] ++ s.outgoing).Perm _
      rw [List.append_assoc]
      rfl
    · rw [capturedFrames_append, hcaptured]
      show shown ++ s.memory index :: s.outgoing.map s.memory ++ []
        = shown ++ [s.memory index] ++ s.outgoing.map s.memory
      rw [List.append_nil, List.append_assoc]
      rfl
    · rw [returnedImages_append]
      exact List.rel_append hshown (List.Forall₂.cons (h.current index hreading) List.Forall₂.nil)
    · exact fun _ hconverted => nomatch hconverted

/-- It holds in every run. -/
theorem inv_of_steps (hread : VideoDevice.Readable displayWidth displayHeight)
    (h : Inv displayWidth displayHeight n [] s) (hrun : Run.Steps Step s es s') :
    Inv displayWidth displayHeight n es s' := by
  refine hrun.invariant (Inv displayWidth displayHeight n) h ?_
  rintro es t es' u hI (hstep | hstep)
  · exact hI.driver hstep
  · exact hI.read hread hstep

/-- The state after the constructor, with all buffers in the incoming queue. -/
theorem inv_of_construct {a : VideoDevice.Answers}
    (hlength : ∀ j < a.count.toNat,
      VideoDevice.frameSize displayWidth displayHeight ≤ (a.length j).toNat)
    {device : VideoDevice} {incoming : List ℕ}
    (hconstruct : VideoDevice.construct displayWidth displayHeight a = .ok (device, incoming))
    {rawImg : RawImage} (hsuits : Suits displayWidth displayHeight rawImg) {memory : ℕ → Bytes}
    (hmemory : ∀ index mem, device.bufMem[index]? = some mem →
      (memory index).length = mem.length) :
    Inv displayWidth displayHeight a.count.toNat []
      ⟨device, rawImg, memory, incoming, [], .outside⟩ := by
  obtain ⟨hwidth, hheight, hcount, hsize, rfl⟩ :=
    VideoDevice.buffers_of_construct hlength hconstruct
  refine ⟨hwidth, hheight, hcount, ?_, hsuits, ?_, ⟨[], rfl, List.Forall₂.nil⟩, ?_⟩
  · intro index hlt
    rw [← hcount] at hlt
    show _ ≤ (memory index).length
    rw [hmemory index _ (List.getElem?_eq_getElem hlt)]
    exact hsize _ (List.getElem_mem hlt)
  · show (List.range a.count.toNat ++ []).Perm _
    rw [List.append_nil]
  · exact fun _ hconverted => nomatch hconverted

/-! ## The driver does not disturb `read_frame` -/

/-- What the driver leaves as it is while the program has a buffer. -/
structure Undisturbed (index : ℕ) (s s' : Camera) : Prop where
  device : s'.device = s.device
  rawImg : s'.rawImg = s.rawImg
  reading : s'.reading = s.reading
  memory : s'.memory index = s.memory index
  notMem : index ∉ s'.incoming

/-- The driver writes to its own buffers only. -/
theorem undisturbed_of_steps {index : ℕ} (h : Run.Steps DriverStep s es s')
    (hnotMem : index ∉ s.incoming) : Undisturbed index s s' := by
  induction h with
  | refl => exact ⟨rfl, rfl, rfl, rfl, hnotMem⟩
  | @tail t u es es' _ hstep ih =>
    cases hstep with
    | @write other content hmem _ =>
      refine ⟨ih.device, ih.rawImg, ih.reading, ?_, ih.notMem⟩
      refine Eq.trans (Function.update_of_ne ?_ _ _) ih.memory
      rintro rfl
      exact ih.notMem hmem
    | @capture other rest hincoming =>
      refine ⟨ih.device, ih.rawImg, ih.reading, ih.memory, fun hmem => ih.notMem ?_⟩
      rw [hincoming]
      exact List.mem_cons_of_mem _ hmem

/-- A call of `read_frame` with the driver at work in between returns what it returns when the
driver stands still. -/
theorem readFrame_of_steps (h : Inv displayWidth displayHeight n es s) {index : ℕ}
    {s₁ s₂ s₃ s₄ s₅ : Camera} {es₁ es₃ : List Event} {rawImg : RawImage}
    (hbegin : ReadStep s [] s₁) (hreading : s₁.reading = .dequeued index)
    (hdriver : Run.Steps DriverStep s₁ es₁ s₂) (hconvert : ReadStep s₂ [] s₃)
    (hconverted : s₃.reading = .converted index) (hdriver' : Run.Steps DriverStep s₃ es₃ s₄)
    (hend : ReadStep s₄ [.returned rawImg] s₅) :
    s.device.readFrame s.memory s.rawImg 0 index 0 = some (.ok true, rawImg) := by
  cases hbegin with
  | again houtside =>
    rw [houtside] at hreading
    cases hreading
  | convert _ _ _ _ => cases hreading
  | @dequeue other rest _ hwidth hheight houtgoing =>
    obtain rfl : other = index := Reading.dequeued.inj hreading
    have hmem : other ∈ s.pending := List.mem_append_right _ (houtgoing ▸ List.mem_cons_self)
    have hnotMem : other ∉ s.incoming := fun hincoming => h.disjoint hincoming hmem
    have hsame := undisturbed_of_steps hdriver hnotMem
    cases hconvert with
    | again houtside =>
      rw [houtside] at hconverted
      cases hconverted
    | dequeue _ _ _ _ => cases hconverted
    | @convert index mem conversion hdequeued hbufMem hconversion hresult =>
      obtain rfl : index = other := Reading.converted.inj hconverted
      have hsame' := undisturbed_of_steps hdriver' hsame.notMem
      cases hend with
      | enqueue _ =>
        rw [hsame.device] at hbufMem hconversion
        rw [hsame.rawImg, hsame.memory] at hconversion
        rw [hsame'.rawImg]
        unfold VideoDevice.readFrame
        rw [if_neg (not_or.mpr ⟨not_not.mpr hwidth, not_not.mpr hheight⟩), if_neg (by decide)]
        dsimp only at hbufMem hconversion
        rw [hbufMem]
        dsimp only
        rw [hconversion]
        dsimp only
        rw [hresult]
        rfl

/-- A call of `read_frame` that finds a frame returns it. -/
theorem Inv.exists_readFrame (hread : VideoDevice.Readable displayWidth displayHeight)
    (h : Inv displayWidth displayHeight n es s) {index : ℕ} (hmem : index ∈ s.pending) :
    ∃ rawImg, s.device.readFrame s.memory s.rawImg 0 index 0 = some (.ok true, rawImg) ∧
      VideoDevice.ShowsFrame displayWidth displayHeight rawImg (s.memory index) := by
  have hlt := h.lt_of_mem_pending hmem
  obtain ⟨r, hr, hresult, -, hshows⟩ :=
    VideoDevice.exists_convert hread h.width h.height h.suits (h.room index hlt)
  have hdims : ¬ (s.rawImg.displayWidth ≠ s.device.displayWidth ∨
      s.rawImg.displayHeight ≠ s.device.displayHeight) := by
    rw [h.suits.width, h.suits.height, h.width, h.height]
    simp
  have hbufMem : index < s.device.bufMem.length := by
    rw [h.bufMem]
    exact hlt
  refine ⟨r.img, ?_, hshows⟩
  unfold VideoDevice.readFrame
  rw [if_neg hdims, if_neg (by decide), List.getElem?_eq_getElem hbufMem]
  dsimp only
  rw [hr]
  dsimp only
  rw [hresult]
  rfl

/-- Every captured frame is read once, in order.  However the driver and `read_frame` take turns:
the images that were returned show the frames that were captured first, one after the other; the
frames that were captured since are at most as many as there are buffers, each buffer is with
exactly one of the two sides, and the next call returns the next frame without throwing. -/
theorem reads_captured (hread : VideoDevice.Readable displayWidth displayHeight)
    {a : VideoDevice.Answers} (hlength : ∀ j < a.count.toNat,
      VideoDevice.frameSize displayWidth displayHeight ≤ (a.length j).toNat)
    {device : VideoDevice} {incoming : List ℕ}
    (hconstruct : VideoDevice.construct displayWidth displayHeight a = .ok (device, incoming))
    {rawImg : RawImage} (hsuits : Suits displayWidth displayHeight rawImg) {memory : ℕ → Bytes}
    (hmemory : ∀ index mem, device.bufMem[index]? = some mem →
      (memory index).length = mem.length)
    (h : Run.Steps Step ⟨device, rawImg, memory, incoming, [], .outside⟩ es s) :
    (∃ shown, capturedFrames es = shown ++ s.pending.map s.memory ∧
      List.Forall₂ (VideoDevice.ShowsFrame displayWidth displayHeight) (returnedImages es) shown) ∧
    s.pending.length ≤ a.count.toNat ∧
    (s.incoming ++ s.pending).Perm (List.range a.count.toNat) ∧
    ∀ index rest, s.reading = .outside → s.outgoing = index :: rest →
      ∃ rawImg, s.device.readFrame s.memory s.rawImg 0 index 0 = some (.ok true, rawImg) ∧
        VideoDevice.ShowsFrame displayWidth displayHeight rawImg (s.memory index) := by
  have hinv := inv_of_steps hread (inv_of_construct hlength hconstruct hsuits hmemory) h
  refine ⟨hinv.frames, ?_, hinv.buffers, ?_⟩
  · have hcount := hinv.buffers.length_eq
    rw [List.length_append, List.length_range] at hcount
    omega
  · intro index rest _ houtgoing
    refine hinv.exists_readFrame hread (List.mem_append_right _ ?_)
    rw [houtgoing]
    exact List.mem_cons_self

/-- The driver does not disturb `read_frame`.  In every run, a call between whose steps the driver
goes on returns the image that it returns when the driver stands still. -/
theorem read_atomic (hread : VideoDevice.Readable displayWidth displayHeight)
    {a : VideoDevice.Answers} (hlength : ∀ j < a.count.toNat,
      VideoDevice.frameSize displayWidth displayHeight ≤ (a.length j).toNat)
    {device : VideoDevice} {incoming : List ℕ}
    (hconstruct : VideoDevice.construct displayWidth displayHeight a = .ok (device, incoming))
    {rawImg : RawImage} (hsuits : Suits displayWidth displayHeight rawImg) {memory : ℕ → Bytes}
    (hmemory : ∀ index mem, device.bufMem[index]? = some mem →
      (memory index).length = mem.length)
    (h : Run.Steps Step ⟨device, rawImg, memory, incoming, [], .outside⟩ es s) {index : ℕ}
    {s₁ s₂ s₃ s₄ s₅ : Camera} {es₁ es₃ : List Event} {image : RawImage}
    (hbegin : ReadStep s [] s₁) (hreading : s₁.reading = .dequeued index)
    (hdriver : Run.Steps DriverStep s₁ es₁ s₂) (hconvert : ReadStep s₂ [] s₃)
    (hconverted : s₃.reading = .converted index) (hdriver' : Run.Steps DriverStep s₃ es₃ s₄)
    (hend : ReadStep s₄ [.returned image] s₅) :
    s.device.readFrame s.memory s.rawImg 0 index 0 = some (.ok true, image) := by
  have hinv := inv_of_steps hread (inv_of_construct hlength hconstruct hsuits hmemory) h
  exact readFrame_of_steps hinv hbegin hreading hdriver hconvert hconverted hdriver' hend

/-! ## A camera with two buffers -/

/-- What the driver of the camera answers. -/
def twoBuffers : VideoDevice.Answers where
  opened := 3
  fcntl := 0
  querycap := 0
  capabilities := 0x04000001
  sFmt := 0
  pixelformat := VideoDevice.pixelFormat
  width := 2
  height := 2
  reqbufs := 0
  count := 2
  querybuf := fun _ => 0
  length := fun _ => 8
  mmap := fun index => 4096 * (index + 1)
  qbuf := fun _ => 0
  streamon := 0

/-- A frame of two by two samples. -/
def twoByTwoFrame : Bytes := [1, 2, 3, 4, 5, 6, 7, 8]

/-- The device with these buffers. -/
def twoBufferDevice : VideoDevice := ⟨2, 2, [⟨4096, 8⟩, ⟨8192, 8⟩]⟩

theorem construct_twoBuffers :
    VideoDevice.construct 2 2 twoBuffers = .ok (twoBufferDevice, [0, 1]) := rfl

theorem readable_two : VideoDevice.Readable 2 2 := ⟨by decide, by decide, by decide⟩

theorem length_twoBuffers : ∀ j < twoBuffers.count.toNat,
    VideoDevice.frameSize 2 2 ≤ (twoBuffers.length j).toNat :=
  fun _ _ => (by decide : VideoDevice.frameSize 2 2 ≤ (8 : UInt32).toNat)

theorem memory_twoBuffers (index : ℕ) (mem : MMap)
    (h : twoBufferDevice.bufMem[index]? = some mem) :
    (List.replicate 8 (0 : UInt8)).length = mem.length := by
  have hmem : mem ∈ [(⟨4096, 8⟩ : MMap), ⟨8192, 8⟩] := List.mem_of_getElem? h
  simp only [List.mem_cons, List.not_mem_nil, or_false] at hmem
  rcases hmem with rfl | rfl
  · rfl
  · rfl

/-- The driver writes the frame and captures it. -/
theorem steps_twoBuffers : ∃ memory,
    Run.Steps Step ⟨twoBufferDevice, RawImage.smallImage, fun _ => List.replicate 8 0, [0, 1], [],
      .outside⟩ [.captured twoByTwoFrame]
      ⟨twoBufferDevice, RawImage.smallImage, memory, [1], [0], .outside⟩ ∧
    memory 0 = twoByTwoFrame ∧ (memory 1).length = 8 := by
  have hwrite := Run.Steps.single (R := Step) (Or.inl (@DriverStep.write
    ⟨twoBufferDevice, RawImage.smallImage, fun _ => List.replicate 8 0, [0, 1], [], .outside⟩
    0 twoByTwoFrame List.mem_cons_self rfl))
  have hcapture := hwrite.tail (Or.inl (DriverStep.capture rfl))
  exact ⟨Function.update (fun _ => List.replicate 8 0) 0 twoByTwoFrame, hcapture, rfl, rfl⟩

/-- The image that shows the frame. -/
theorem exists_convert_twoByTwo : ∃ r,
    twoBufferDevice.convert RawImage.smallImage twoByTwoFrame = some r ∧ r.result = .ok () := by
  obtain ⟨r, hr, hresult, -, -⟩ := @VideoDevice.exists_convert 2 2 twoBufferDevice
    RawImage.smallImage twoByTwoFrame readable_two rfl rfl VideoSender.suits_smallImage (by decide)
  exact ⟨r, hr, hresult⟩

/-- The driver writes another frame while the first one is converted. -/
theorem reads_captured_twoBuffers : ∃ device incoming es s rawImg,
    VideoDevice.construct 2 2 twoBuffers = .ok (device, incoming) ∧
    Run.Steps Step ⟨device, RawImage.smallImage, fun _ => List.replicate 8 0, incoming, [],
      .outside⟩ es s ∧
    capturedFrames es = [twoByTwoFrame] ∧ returnedImages es = [rawImg] ∧
    VideoDevice.ShowsFrame 2 2 rawImg twoByTwoFrame := by
  obtain ⟨memory, hsteps, hframe, hlen⟩ := steps_twoBuffers
  obtain ⟨r, hr, hresult⟩ := exists_convert_twoByTwo
  rw [← hframe] at hr
  have h₁ := hsteps.tail (Or.inr (ReadStep.dequeue rfl rfl rfl rfl))
  have h₂ := h₁.tail (Or.inl (@DriverStep.write _ 1 [9, 8, 7, 6, 5, 4, 3, 2]
    (List.mem_singleton_self _) hlen.symm))
  have h₃ := h₂.tail (Or.inr (ReadStep.convert rfl rfl hr hresult))
  have h₄ := h₃.tail (Or.inr (ReadStep.enqueue rfl))
  obtain ⟨⟨shown, hcaptured, hshown⟩, -⟩ := reads_captured readable_two length_twoBuffers
    construct_twoBuffers VideoSender.suits_smallImage memory_twoBuffers h₄
  have hshown' : shown = [twoByTwoFrame] := by
    rw [← List.append_nil shown]
    exact hcaptured.symm
  rw [hshown'] at hshown
  cases hshown with
  | cons hshows _ => exact ⟨_, _, _, _, _, construct_twoBuffers, h₄, rfl, rfl, hshows⟩

/-- The driver writes another frame before the first one is converted, and captures it before its
buffer is given back. -/
theorem read_atomic_twoBuffers : ∃ memory image,
    Run.Steps Step ⟨twoBufferDevice, RawImage.smallImage, fun _ => List.replicate 8 0, [0, 1], [],
      .outside⟩ [.captured twoByTwoFrame]
      ⟨twoBufferDevice, RawImage.smallImage, memory, [1], [0], .outside⟩ ∧
    twoBufferDevice.readFrame memory RawImage.smallImage 0 0 0 = some (.ok true, image) := by
  obtain ⟨memory, hsteps, hframe, hlen⟩ := steps_twoBuffers
  obtain ⟨r, hr, hresult⟩ := exists_convert_twoByTwo
  rw [← hframe] at hr
  refine ⟨memory, r.img, hsteps, ?_⟩
  exact read_atomic readable_two length_twoBuffers construct_twoBuffers
    VideoSender.suits_smallImage memory_twoBuffers hsteps (ReadStep.dequeue rfl rfl rfl rfl) rfl
    (Run.Steps.single (@DriverStep.write _ 1 [9, 8, 7, 6, 5, 4, 3, 2]
      (List.mem_singleton_self _) hlen.symm))
    (ReadStep.convert rfl rfl hr hresult) rfl (Run.Steps.single (DriverStep.capture rfl))
    (ReadStep.enqueue rfl)

end Camera

end Ringmaster
