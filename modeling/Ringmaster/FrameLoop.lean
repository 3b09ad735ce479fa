/-
# Reading the frames of a file

What a sequence of calls of `YUV4MPEG::read_frame` reads from a file that consists of a header
line and frames.  In the `loop` mode it is the frames in order, from the first one again after
the last one, for ever; otherwise it is each frame once, and then nothing
(`readFrames_exact`).

The invariant is the position in the file (`Position`): it is always at the beginning of a
frame or at the end, and the flag of `eof()` is set at the end only, where it does no harm.
The samples of a frame may be any bytes, also such that look like lines.
-/
import Ringmaster.PlaneCopies
import Ringmaster.Yuv4mpeg

namespace Ringmaster

namespace Yuv4mpeg

open OpenFile (Ready newline)

/-! ## Files of frames -/

/-- A frame of a file, with `size` bytes of samples. -/
structure Y4mFrame (size : ℕ) where
  header : Bytes
  payload : Bytes
  tag_eq : header.take 5 = frameTag
  newline_notMem : newline ∉ header
  length_payload : payload.length = size

/-- The bytes of a frame. -/
def Y4mFrame.bytes {size : ℕ} (frame : Y4mFrame size) : Bytes :=
  frame.header ++ newline :: frame.payload

/-- A file of a header line and frames. -/
def fileContent {size : ℕ} (headerLine : Bytes) (frames : List (Y4mFrame size)) : Bytes :=
  headerLine ++ newline :: frames.flatMap Y4mFrame.bytes

/-- The number of bytes of a frame of an image of even width and height. -/
def payloadSize (displayWidth displayHeight : UInt16) : ℕ :=
  displayWidth.toNat * displayHeight.toNat
    + 2 * (displayWidth.toNat * displayHeight.toNat / 4)

/-- An image into which frames can be read, with its planes stored without gaps. -/
structure Suits (displayWidth displayHeight : UInt16) (img : RawImage) : Prop where
  width : img.displayWidth = displayWidth
  height : img.displayHeight = displayHeight
  y : img.yPlane.Contiguous displayWidth.toNat displayHeight.toNat
  u : img.uPlane.Contiguous (displayWidth.toNat / 2) (displayHeight.toNat / 2)
  v : img.vPlane.Contiguous (displayWidth.toNat / 2) (displayHeight.toNat / 2)

/-- The planes of an image show the samples of a frame, and nothing else was changed. -/
structure ShowsFrame (displayWidth displayHeight : UInt16) (img img' : RawImage)
    (payload : Bytes) : Prop where
  y : img.yPlane.Shows img'.yPlane displayWidth.toNat displayHeight.toNat
    (payload.take (displayWidth.toNat * displayHeight.toNat))
  u : img.uPlane.Shows img'.uPlane (displayWidth.toNat / 2) (displayHeight.toNat / 2)
    ((payload.drop (displayWidth.toNat * displayHeight.toNat)).take
      (displayWidth.toNat * displayHeight.toNat / 4))
  v : img.vPlane.Shows img'.vPlane (displayWidth.toNat / 2) (displayHeight.toNat / 2)
    (payload.drop (displayWidth.toNat * displayHeight.toNat
      + displayWidth.toNat * displayHeight.toNat / 4))

/-- A sequence of calls of `read_frame`, each with what the kernel decides and the image that
it is given; the results and the images that the calls leave.  There is no result when a call
throws. -/
def readFrames : Yuv4mpeg → List ((ℕ → ℕ → Ready) × RawImage) →
    Option (List (Bool × RawImage) × Yuv4mpeg)
  | video, [] => some ([], video)
  | video, (ready, img) :: inputs =>
    match video.readFrame ready img with
    | some (.ok result, video, img) =>
      (readFrames video inputs).map fun (outputs, video) => ((result, img) :: outputs, video)
    | _ => none

/-! ## The position in the file -/

section Reading

variable {displayWidth displayHeight : UInt16}

/-- A copy to a plane without gaps shows the source. -/
theorem shows_of_memcpy {plane plane' : Plane} {width height : ℕ} {src : Bytes}
    (hcontiguous : plane.Contiguous width height) (hlen : src.length = width * height)
    (hcopy : plane.memcpy src = some plane') : plane.Shows plane' width height src := by
  obtain ⟨plane'', hcopy', hshows⟩ :=
    Plane.copies_of_stride hcontiguous.fits (Or.inl hcontiguous.stride_eq) src hlen
  rw [hcopy, Option.some_inj] at hcopy'
  rw [hcopy']
  exact hshows

/-- The chroma planes of an image of even width and height. -/
theorem chroma_of_even {w h : ℕ} (hw : Even w) (hh : Even h) :
    w * h / 4 = w / 2 * (h / 2) := by
  have hround : ∀ n : ℕ, Even n → (n + 1) / 2 = n / 2 := by
    rintro n ⟨k, rfl⟩
    omega
  rw [(RawImage.chroma_div_four_iff w h).mpr (Or.inl ⟨hw, hh⟩), hround w hw, hround h hh]

/-- The dimensions for which frames can be read. -/
structure Readable (displayWidth displayHeight : UInt16) : Prop where
  even_width : Even displayWidth.toNat
  even_height : Even displayHeight.toNat
  two_le_width : 2 ≤ displayWidth.toNat
  two_le_height : 2 ≤ displayHeight.toNat
  lt : displayWidth.toNat * displayHeight.toNat < 2 ^ 31

/-- The copied planes show the frame. -/
theorem showsFrame_of_copied (hread : Readable displayWidth displayHeight) {img img' : RawImage}
    (hsuits : Suits displayWidth displayHeight img) {payload : Bytes}
    (hlen : payload.length = payloadSize displayWidth displayHeight)
    (h : PlanesCopied img img' (payload.take (displayWidth.toNat * displayHeight.toNat))
      ((payload.drop (displayWidth.toNat * displayHeight.toNat)).take
        (displayWidth.toNat * displayHeight.toNat / 4))
      (payload.drop (displayWidth.toNat * displayHeight.toNat
        + displayWidth.toNat * displayHeight.toNat / 4))) :
    ShowsFrame displayWidth displayHeight img img' payload := by
  have hchroma := chroma_of_even hread.even_width hread.even_height
  unfold payloadSize at hlen
  refine ⟨shows_of_memcpy hsuits.y ?_ h.y, shows_of_memcpy hsuits.u ?_ h.u,
    shows_of_memcpy hsuits.v ?_ h.v⟩
  · rw [List.length_take]
    omega
  · rw [← hchroma, List.length_take, List.length_drop]
    omega
  · rw [← hchroma, List.length_drop]
    omega

variable {frames : List (Y4mFrame (payloadSize displayWidth displayHeight))} {headerLine : Bytes}
  {loop : Bool}

/-- The file is at the beginning of frame `j`, or at the end, where the flag may be set. -/
structure At (headerLine : Bytes)
    (frames : List (Y4mFrame (payloadSize displayWidth displayHeight))) (loop : Bool) (j : ℕ)
    (video : Yuv4mpeg) : Prop where
  content : video.fd.file.content = fileContent headerLine frames
  ahead : video.fd.file.ahead = (frames.drop j).flatMap Y4mFrame.bytes
  eof : video.fd.eof → frames.length ≤ j
  width : video.displayWidth = displayWidth
  height : video.displayHeight = displayHeight
  loop : video.loop = loop

/-- Once the line in front of frame `j` was read, the planes of the frame are read, and the
next frame lies ahead. -/
theorem readFrame_at (hread : Readable displayWidth displayHeight) {video : Yuv4mpeg}
    (hwidth : video.displayWidth = displayWidth) (hheight : video.displayHeight = displayHeight)
    (hloop : video.loop = loop) {img : RawImage} (hsuits : Suits displayWidth displayHeight img)
    (ready : ℕ → ℕ → Ready) {j : ℕ} (hj : j < frames.length) {file : OpenFile}
    (hcontent : file.content = fileContent headerLine frames)
    (hahead : file.ahead = frames[j].payload ++ (frames.drop (j + 1)).flatMap Y4mFrame.bytes)
    (hheader : video.readFrameHeader = (.ok (some frames[j].header), ⟨file, false⟩)) :
    ∃ video' img', video.readFrame ready img = some (.ok true, video', img') ∧
      At headerLine frames loop (j + 1) video' ∧
      ShowsFrame displayWidth displayHeight img img' frames[j].payload := by
  have hy : video.ySize = some (displayWidth.toNat * displayHeight.toNat) := by
    rw [ySize, hwidth, hheight]
    exact asInt_eq_some_iff.mpr ⟨hread.lt, rfl⟩
  have hu : video.uvSize = some (displayWidth.toNat * displayHeight.toNat / 4) := by
    rw [uvSize, hwidth, hheight, asInt_eq_some_iff.mpr ⟨hread.lt, rfl⟩]
    rfl
  have hchroma := chroma_of_even hread.even_width hread.even_height
  have hfour : 4 ≤ displayWidth.toNat * displayHeight.toNat :=
    Nat.mul_le_mul hread.two_le_width hread.two_le_height
  have hroomY : displayWidth.toNat * displayHeight.toNat ≤ img.yPlane.size := by
    rw [Nat.mul_comm]
    exact hsuits.y.fits
  have hroomU : displayWidth.toNat * displayHeight.toNat / 4 ≤ img.uPlane.size := by
    rw [hchroma, Nat.mul_comm]
    exact hsuits.u.fits
  have hroomV : displayWidth.toNat * displayHeight.toNat / 4 ≤ img.vPlane.size := by
    rw [hchroma, Nat.mul_comm]
    exact hsuits.v.fits
  have hlen : frames[j].payload.length = payloadSize displayWidth displayHeight :=
    frames[j].length_payload
  obtain ⟨img', hplanes, hcopied⟩ := @readPlanes_of_ahead video ready img
    (hsuits.width.trans hwidth.symm) (hsuits.height.trans hheight.symm) _ _ hy hu (by omega)
    (by omega) hroomY hroomU hroomV ⟨file, false⟩ _ _ hahead hlen
  refine ⟨_, img', readFrame_of_header (hsuits.width.trans hwidth.symm)
    (hsuits.height.trans hheight.symm) hheader frames[j].tag_eq hplanes, ?_,
    showsFrame_of_copied hread hsuits hlen hcopied⟩
  refine ⟨hcontent, ?_, fun heof => absurd heof Bool.false_ne_true, hwidth, hheight, hloop⟩
  show (file.advance _).ahead = _
  rw [OpenFile.ahead_advance, hahead, List.drop_left]

/-- What is ahead at the beginning of a frame. -/
theorem flatMap_drop {j : ℕ} (hj : j < frames.length) :
    (frames.drop j).flatMap Y4mFrame.bytes = frames[j].header ++ newline ::
      (frames[j].payload ++ (frames.drop (j + 1)).flatMap Y4mFrame.bytes) := by
  rw [List.drop_eq_getElem_cons hj, List.flatMap_cons, Y4mFrame.bytes, List.append_assoc,
    List.cons_append]

/-- A call at the beginning of a frame reads the frame. -/
theorem At.readFrame_next (hread : Readable displayWidth displayHeight) {video : Yuv4mpeg}
    {j : ℕ} (h : At headerLine frames loop j video) (hj : j < frames.length) {img : RawImage}
    (hsuits : Suits displayWidth displayHeight img) (ready : ℕ → ℕ → Ready) :
    ∃ video' img', video.readFrame ready img = some (.ok true, video', img') ∧
      At headerLine frames loop (j + 1) video' ∧
      ShowsFrame displayWidth displayHeight img img' frames[j].payload := by
  have heof : video.fd.eof = false := by
    by_contra hset
    have hle := h.eof (by simpa using hset)
    omega
  have hahead := h.ahead.trans (flatMap_drop hj)
  have hheader := readFrameHeader_of_line heof hahead frames[j].newline_notMem
  have hfile : (video.fd.file.advance (frames[j].header.length + 1)).content
      = fileContent headerLine frames := h.content
  refine readFrame_at hread h.width h.height h.loop hsuits ready hj hfile ?_ hheader
  rw [OpenFile.ahead_advance, hahead, OpenFile.drop_line]

/-- A call at the end in the `loop` mode reads the first frame. -/
theorem At.readFrame_rewind (hread : Readable displayWidth displayHeight)
    (hheaderLine : newline ∉ headerLine) {video : Yuv4mpeg}
    (h : At headerLine frames true frames.length video) (hpos : 0 < frames.length)
    {img : RawImage} (hsuits : Suits displayWidth displayHeight img) (ready : ℕ → ℕ → Ready) :
    ∃ video' img', video.readFrame ready img = some (.ok true, video', img') ∧
      At headerLine frames true 1 video' ∧
      ShowsFrame displayWidth displayHeight img img' frames[0].payload := by
  have hend : video.fd.file.ahead = [] := by
    rw [h.ahead, List.drop_length, List.flatMap_nil]
  have hcontent : video.fd.file.content = headerLine ++ newline :: (frames[0].header ++
      newline :: (frames[0].payload ++ (frames.drop 1).flatMap Y4mFrame.bytes)) := by
    rw [h.content, fileContent, ← flatMap_drop hpos, List.drop_zero]
  have hheader := readFrameHeader_rewind h.loop hend hcontent hheaderLine
    frames[0].newline_notMem
  have hfile : (⟨video.fd.file.content, headerLine.length + 1 + (frames[0].header.length + 1)⟩ :
      OpenFile).content = fileContent headerLine frames := h.content
  refine readFrame_at hread h.width h.height h.loop hsuits ready hpos hfile ?_ hheader
  show video.fd.file.content.drop _ = _
  rw [hcontent, ← List.drop_drop, OpenFile.drop_line, OpenFile.drop_line]

/-- A call at the end without the `loop` mode reads nothing, and stays at the end. -/
theorem At.readFrame_end {video : Yuv4mpeg} (h : At headerLine frames false frames.length video)
    {img : RawImage} (hsuits : Suits displayWidth displayHeight img) (ready : ℕ → ℕ → Ready) :
    ∃ video', video.readFrame ready img = some (.ok false, video', img) ∧
      At headerLine frames false frames.length video' := by
  have hend : video.fd.file.ahead = [] := by
    rw [h.ahead, List.drop_length, List.flatMap_nil]
  have hdims : ¬ (img.displayWidth ≠ video.displayWidth ∨
      img.displayHeight ≠ video.displayHeight) := by
    rw [not_or, not_not, not_not, h.width, h.height]
    exact ⟨hsuits.width, hsuits.height⟩
  refine ⟨{ video with fd := { video.fd with eof := true } }, ?_, ?_⟩
  · unfold readFrame
    rw [if_neg hdims, readFrameHeader_at_end h.loop hend]
  · exact ⟨h.content, h.ahead, fun _ => le_rfl, h.width, h.height, h.loop⟩

/-! ## Sequences of calls -/

/-- The position in the file before call number `i`. -/
def Position (headerLine : Bytes)
    (frames : List (Y4mFrame (payloadSize displayWidth displayHeight))) (loop : Bool) (i : ℕ)
    (video : Yuv4mpeg) : Prop :=
  ∃ j ≤ frames.length, At headerLine frames loop j video ∧
    if loop then j % frames.length = i % frames.length else j = min i frames.length

/-- What call number `i` should do with an image: in the `loop` mode, and for the first calls,
read the frame whose turn it is, and otherwise report the end and leave the image alone. -/
def Expected (frames : List (Y4mFrame (payloadSize displayWidth displayHeight))) (loop : Bool)
    (i : ℕ) (img : RawImage) (output : Bool × RawImage) : Prop :=
  if loop ∨ i < frames.length then
    output.1 = true ∧ ∃ frame, frames[i % frames.length]? = some frame ∧
      ShowsFrame displayWidth displayHeight img output.2 frame.payload
  else
    output = (false, img)

/-- What one call does. -/
theorem Position.readFrame (hread : Readable displayWidth displayHeight)
    (hheaderLine : newline ∉ headerLine) (hpos : 0 < frames.length) {i : ℕ} {video : Yuv4mpeg}
    (h : Position headerLine frames loop i video) {img : RawImage}
    (hsuits : Suits displayWidth displayHeight img) (ready : ℕ → ℕ → Ready) :
    ∃ video' output, video.readFrame ready img = some (.ok output.1, video', output.2) ∧
      Position headerLine frames loop (i + 1) video' ∧ Expected frames loop i img output := by
  obtain ⟨j, hle, hat, hturn⟩ := h
  rcases hle.lt_or_eq with hj | rfl
  · -- a frame lies ahead
    obtain ⟨video', img', hframe, hat', hshows⟩ := hat.readFrame_next hread hj hsuits ready
    have hjmod : j % frames.length = j := Nat.mod_eq_of_lt hj
    have himod : i % frames.length = j := by
      cases loop with
      | true => rw [← hturn, hjmod]
      | false =>
        have hij : i = j := by
          simp only [Bool.false_eq_true, if_false] at hturn
          omega
        rw [hij, hjmod]
    refine ⟨video', (true, img'), hframe, ⟨j + 1, hj, hat', ?_⟩, ?_⟩
    · cases loop with
      | true =>
        show (j + 1) % frames.length = (i + 1) % frames.length
        rw [← Nat.mod_add_mod i, himod]
      | false =>
        simp only [Bool.false_eq_true, if_false] at hturn ⊢
        omega
    · have hcond : loop = true ∨ i < frames.length := by
        cases loop with
        | true => exact Or.inl rfl
        | false =>
          simp only [Bool.false_eq_true, if_false] at hturn
          exact Or.inr (by omega)
      rw [Expected, if_pos hcond, himod]
      exact ⟨rfl, frames[j], List.getElem?_eq_getElem hj, hshows⟩
  · cases loop with
    | true =>
      -- the end is the beginning
      obtain ⟨video', img', hframe, hat', hshows⟩ :=
        hat.readFrame_rewind hread hheaderLine hpos hsuits ready
      have himod : i % frames.length = 0 := by
        have hturn' : frames.length % frames.length = i % frames.length := hturn
        rw [← hturn', Nat.mod_self]
      refine ⟨video', (true, img'), hframe, ⟨1, hpos, hat', ?_⟩, ?_⟩
      · show 1 % frames.length = (i + 1) % frames.length
        rw [← Nat.mod_add_mod i, himod, Nat.zero_add]
      · rw [Expected, if_pos (Or.inl rfl), himod]
        exact ⟨rfl, frames[0], List.getElem?_eq_getElem hpos, hshows⟩
    | false =>
      obtain ⟨video', hframe, hat'⟩ := hat.readFrame_end hsuits ready
      simp only [Bool.false_eq_true, if_false] at hturn
      refine ⟨video', (false, img), hframe, ⟨frames.length, le_rfl, hat', ?_⟩, ?_⟩
      · simp only [Bool.false_eq_true, if_false]
        omega
      · have hcond : ¬ (false = true ∨ i < frames.length) := by
          rw [not_or]
          exact ⟨Bool.false_ne_true, by omega⟩
        rw [Expected, if_neg hcond]

/-- What a sequence of calls does. -/
theorem Position.readFrames (hread : Readable displayWidth displayHeight)
    (hheaderLine : newline ∉ headerLine) (hpos : 0 < frames.length) {i : ℕ} {video : Yuv4mpeg}
    (h : Position headerLine frames loop i video) (inputs : List ((ℕ → ℕ → Ready) × RawImage))
    (hsuits : ∀ input ∈ inputs, Suits displayWidth displayHeight input.2) :
    ∃ outputs video', video.readFrames inputs = some (outputs, video') ∧
      outputs.length = inputs.length ∧
      ∀ n input, inputs[n]? = some input →
        ∃ output, outputs[n]? = some output ∧ Expected frames loop (i + n) input.2 output := by
  induction inputs generalizing i video with
  | nil => exact ⟨[], video, rfl, rfl, fun n input hn => by simp at hn⟩
  | cons input inputs ih =>
    obtain ⟨ready, img⟩ := input
    obtain ⟨video₁, output, hframe, hposition, hexpected⟩ :=
      h.readFrame hread hheaderLine hpos (hsuits _ List.mem_cons_self) ready
    obtain ⟨outputs, video', hframes, hlen, hrest⟩ :=
      ih hposition (fun input hmem => hsuits input (List.mem_cons_of_mem _ hmem))
    refine ⟨output :: outputs, video', ?_, ?_, ?_⟩
    · rw [Yuv4mpeg.readFrames, hframe]
      dsimp only
      rw [hframes]
      rfl
    · rw [List.length_cons, List.length_cons, hlen]
    · intro n input hn
      cases n with
      | zero =>
        rw [List.getElem?_cons_zero, Option.some_inj] at hn
        subst hn
        exact ⟨output, rfl, hexpected⟩
      | succ n =>
        rw [List.getElem?_cons_succ] at hn
        obtain ⟨output', houtput, hexpected'⟩ := hrest n input hn
        refine ⟨output', houtput, ?_⟩
        rw [← Nat.add_assoc, Nat.add_right_comm]
        exact hexpected'

/-! ## From the constructor on -/

/-- The constructor leaves the file at the first frame. -/
theorem at_of_construct (hheaderLine : newline ∉ headerLine) {ready : ℕ → Ready}
    {video : Yuv4mpeg} (h : construct (some (fileContent headerLine frames)) displayWidth
      displayHeight loop ready = .ok video) : At headerLine frames loop 0 video := by
  obtain ⟨hsignature, -, rfl⟩ := construct_eq_ok_iff.mp h
  -- the signature has no end of a line, so it lies in the header line
  have hline : headerLine <+: fileContent headerLine frames := List.prefix_append _ _
  have hlineEnd : headerLine ++ [newline] <+: fileContent headerLine frames :=
    ⟨frames.flatMap Y4mFrame.bytes, by rw [List.append_assoc]; rfl⟩
  have hshort : y4mSignature.length ≤ headerLine.length := by
    by_contra hlong
    have hlt : (headerLine ++ [newline]).length ≤ y4mSignature.length := by
      rw [List.length_append, List.length_singleton]
      omega
    have hmem : newline ∈ y4mSignature :=
      (List.prefix_of_prefix_length_le hlineEnd hsignature hlt).subset
        (List.mem_append_right _ List.mem_cons_self)
    exact absurd hmem (by decide)
  obtain ⟨tags, htags⟩ := List.prefix_of_prefix_length_le hsignature hline hshort
  have hcontent : fileContent headerLine frames
      = y4mSignature ++ (tags ++ newline :: frames.flatMap Y4mFrame.bytes) := by
    rw [fileContent, ← htags, List.append_assoc]
  have hahead : (afterSignature (fileContent headerLine frames)).ahead
      = tags ++ newline :: frames.flatMap Y4mFrame.bytes := by
    show (fileContent headerLine frames).drop y4mSignature.length = _
    rw [hcontent, List.drop_left]
  have hnotin : newline ∉ tags := by
    intro hmem
    apply hheaderLine
    rw [← htags]
    exact List.mem_append_right _ hmem
  have hgetline := @FileDescriptor.getline_of_line
    ⟨afterSignature (fileContent headerLine frames), false⟩ rfl tags _ hahead hnotin
  rw [FileDescriptor.getline_of_eof_eq_false rfl, Prod.mk.injEq, FileDescriptor.mk.injEq]
    at hgetline
  rw [hgetline.2.1, hgetline.2.2]
  refine ⟨rfl, ?_, fun heof => absurd heof Bool.false_ne_true, rfl, rfl, rfl⟩
  show ((afterSignature (fileContent headerLine frames)).advance _).ahead = _
  rw [OpenFile.ahead_advance, hahead, OpenFile.drop_line, List.drop_zero]

/-- Frames are read in order, and for ever in the `loop` mode.  For every image size that is
even and at least two by two, and whose number of samples an `int` can hold, every file of a
header line that the constructor accepts and at least one frame, and every way in which the
kernel splits the reads, no call of `read_frame` throws.  In the `loop` mode call number `i`
reads frame `i` modulo the number of frames.  Otherwise the first calls read the frames, and
all later calls report the end and leave the image alone. -/
theorem readFrames_exact (hread : Readable displayWidth displayHeight)
    (hheaderLine : newline ∉ headerLine) (hframes : frames ≠ []) {ready : ℕ → Ready}
    {video : Yuv4mpeg} (hconstruct : construct (some (fileContent headerLine frames))
      displayWidth displayHeight loop ready = .ok video)
    (inputs : List ((ℕ → ℕ → Ready) × RawImage))
    (hsuits : ∀ input ∈ inputs, Suits displayWidth displayHeight input.2) :
    ∃ outputs video', video.readFrames inputs = some (outputs, video') ∧
      outputs.length = inputs.length ∧
      ∀ i input, inputs[i]? = some input →
        ∃ output, outputs[i]? = some output ∧ Expected frames loop i input.2 output := by
  have hpos : 0 < frames.length := List.length_pos_of_ne_nil hframes
  have hat := at_of_construct hheaderLine hconstruct
  have hposition : Position headerLine frames loop 0 video := by
    refine ⟨0, Nat.zero_le _, hat, ?_⟩
    cases loop with
    | true => rfl
    | false => exact (Nat.zero_min _).symm
  obtain ⟨outputs, video', hcalls, hlen, hexpected⟩ :=
    hposition.readFrames hread hheaderLine hpos inputs hsuits
  refine ⟨outputs, video', hcalls, hlen, fun i input hi => ?_⟩
  obtain ⟨output, houtput, h⟩ := hexpected i input hi
  rw [Nat.zero_add] at h
  exact ⟨output, houtput, h⟩

end Reading

/-- A frame of two by two samples. -/
def tinyFrame : Y4mFrame (payloadSize 2 2) where
  header := frameTag
  payload := [1, 2, 3, 4, 5, 6]
  tag_eq := rfl
  newline_notMem := by decide
  length_payload := rfl

/-- The header line of a file with frames of two by two samples. -/
def tinyHeaderLine : Bytes := y4mSignature ++ [' ', 'W', '2', ' ', 'H', '2'].map Char.toUInt8

/-- The constructor accepts the header line. -/
theorem exists_construct_tiny : ∃ video, construct (some (fileContent tinyHeaderLine [tinyFrame]))
    2 2 true (fun _ => .one) = .ok video := by
  refine ⟨_, construct_eq_ok_iff.mpr ⟨?_, forall_headerTokens_iff.mpr ?_, rfl⟩⟩
  · exact (List.prefix_append _ _).trans (List.prefix_append _ _)
  · decide

/-- Two calls on a file with a single frame. -/
theorem readFrames_exact_tiny : ∃ video outputs video',
    construct (some (fileContent tinyHeaderLine [tinyFrame])) 2 2 true (fun _ => .one) = .ok video ∧
      video.readFrames [(fun _ _ => .one, RawImage.smallImage),
        (fun _ _ => .one, RawImage.smallImage)] = some (outputs, video') ∧
      outputs.length = 2 := by
  obtain ⟨video, hconstruct⟩ := exists_construct_tiny
  have hsuits : Suits 2 2 RawImage.smallImage :=
    ⟨rfl, rfl, ⟨rfl, by decide⟩, ⟨rfl, by decide⟩, ⟨rfl, by decide⟩⟩
  obtain ⟨outputs, video', hcalls, hlen, -⟩ := readFrames_exact
    ⟨by decide, by decide, by decide, by decide, by decide⟩ (by decide)
    (List.cons_ne_nil tinyFrame []) hconstruct
    [(fun _ _ => .one, RawImage.smallImage), (fun _ _ => .one, RawImage.smallImage)] (by
      intro input hinput
      simp only [List.mem_cons, List.not_mem_nil, or_false, or_self] at hinput
      rw [hinput]
      exact hsuits)
  exact ⟨video, outputs, video', hconstruct, hcalls, hlen⟩

end Yuv4mpeg

end Ringmaster
