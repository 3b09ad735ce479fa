/-
# The frame timer and the video file

The callback of the frame timer in `src/app/video_sender.cc` reads one raw frame for each
expiration of the timer since it last ran, all into the same image, and compresses what the image
shows then.  Here the loop runs over the real `YUV4MPEG::read_frame` (`fetchFrames`).

Over any sequence of callbacks, however late they are and however the kernel splits the reads, the
image shows the frame whose turn it is by the number of all expirations so far (`keeps_pace`): the
sender skips frames when it is late, and never drifts.
-/
import Ringmaster.FrameLoop
import Ringmaster.VideoSender

open Memory

namespace Ringmaster

/-! ## The layout of an image -/

/-- Size and stride of a plane. -/
def Plane.layout (plane : Plane) : ℕ × ℕ := (plane.size, plane.stride)

/-- What reading a frame does not change of an image. -/
def RawImage.layout (img : RawImage) : (UInt16 × UInt16) × (ℕ × ℕ) × (ℕ × ℕ) × (ℕ × ℕ) :=
  ((img.displayWidth, img.displayHeight), img.yPlane.layout, img.uPlane.layout, img.vPlane.layout)

theorem layout_memcpy {plane plane' : Plane} {src : Bytes} (h : plane.memcpy src = some plane') :
    plane'.layout = plane.layout := by
  unfold Plane.memcpy at h
  obtain ⟨mem, -, rfl⟩ := Option.map_eq_some_iff.mp h
  rfl

/-- A copy to a plane keeps its layout, also when it throws. -/
theorem layout_copyPlane {size : Option ℕ} {plane plane' : Plane} {src : Bytes} {what : String}
    {result : Except Exn Unit}
    (h : RawImage.copyPlane size plane src what = some (result, plane')) :
    plane'.layout = plane.layout := by
  unfold RawImage.copyPlane at h
  cases size with
  | none => simp at h
  | some n =>
    dsimp only at h
    split_ifs at h
    · rw [Option.some_inj, Prod.mk.injEq] at h
      rw [h.2]
    · obtain ⟨plane'', hcopy, heq⟩ := Option.map_eq_some_iff.mp h
      rw [Prod.mk.injEq] at heq
      rw [← heq.2]
      exact layout_memcpy hcopy

/-- A method of `RawImage` keeps the layout, whatever it is given. -/
def KeepsLayout (copyFrom : RawImage → Bytes → Option (Except Exn Unit × RawImage)) : Prop :=
  ∀ img src result img', copyFrom img src = some (result, img') → img'.layout = img.layout

/-- A copy to one of the planes. -/
theorem layout_of_copyPlane {size : Option ℕ} {plane : Plane} {src : Bytes} {what : String}
    {img img' : RawImage} {result : Except Exn Unit} {set : Plane → RawImage}
    (hset : ∀ plane', plane'.layout = plane.layout → (set plane').layout = img.layout)
    (h : (RawImage.copyPlane size plane src what).map (fun answer => (answer.1, set answer.2))
      = some (result, img')) : img'.layout = img.layout := by
  obtain ⟨⟨result', plane'⟩, hcopy, heq⟩ := Option.map_eq_some_iff.mp h
  rw [Prod.mk.injEq] at heq
  rw [← heq.2]
  exact hset plane' (layout_copyPlane hcopy)

theorem keepsLayout_copyYFrom : KeepsLayout RawImage.copyYFrom := by
  intro img src result img' h
  apply @layout_of_copyPlane _ img.yPlane _ _ _ _ _ (fun plane => { img with yPlane := plane }) _ h
  intro plane' hplane
  unfold RawImage.layout
  rw [hplane]

theorem keepsLayout_copyUFrom : KeepsLayout RawImage.copyUFrom := by
  intro img src result img' h
  apply @layout_of_copyPlane _ img.uPlane _ _ _ _ _ (fun plane => { img with uPlane := plane }) _ h
  intro plane' hplane
  unfold RawImage.layout
  rw [hplane]

theorem keepsLayout_copyVFrom : KeepsLayout RawImage.copyVFrom := by
  intro img src result img' h
  apply @layout_of_copyPlane _ img.vPlane _ _ _ _ _ (fun plane => { img with vPlane := plane }) _ h
  intro plane' hplane
  unfold RawImage.layout
  rw [hplane]

/-- A plane shows what was copied to it last. -/
theorem Plane.Shows.trans {plane plane' plane'' : Plane} {width height : ℕ}
    {src src' : Bytes} (h : plane.Shows plane' width height src)
    (hlayout : plane'.layout = plane.layout) (h' : plane'.Shows plane'' width height src') :
    plane.Shows plane'' width height src' := by
  refine ⟨h'.sample, fun i hi => ?_⟩
  have hstride : plane'.stride = plane.stride := congrArg Prod.snd hlayout
  rw [h'.rest i (by rw [hstride]; exact hi), h.rest i hi]

namespace Yuv4mpeg

open OpenFile (Ready newline)

/-- Reading a plane keeps the layout. -/
theorem layout_readPlane {fd fd' : FileDescriptor} {size : Option ℕ} {ready : ℕ → Ready}
    {img img' : RawImage} {copyFrom : RawImage → Bytes → Option (Except Exn Unit × RawImage)}
    {result : Except SysExn Unit} (hkeeps : KeepsLayout copyFrom)
    (h : readPlane fd size ready img copyFrom = some (result, fd', img')) :
    img'.layout = img.layout := by
  unfold readPlane at h
  cases size with
  | none => simp at h
  | some n =>
    dsimp only at h
    cases hread : fd.readn n false ready with | mk answer fd₁ =>
    cases answer with
    | error e =>
      simp only [hread, Option.some_inj, Prod.mk.injEq] at h
      rw [h.2.2]
    | ok data =>
      simp only [hread] at h
      cases hcopy : copyFrom img data with
      | none => simp [hcopy] at h
      | some answer' =>
        obtain ⟨outcome, img₁⟩ := answer'
        have hlayout := hkeeps img data outcome img₁ hcopy
        cases outcome with
        | error e =>
          simp only [hcopy, Option.some_inj, Prod.mk.injEq] at h
          rw [← h.2.2, hlayout]
        | ok u =>
          simp only [hcopy, Option.some_inj, Prod.mk.injEq] at h
          rw [← h.2.2, hlayout]

/-- Reading the planes keeps the layout. -/
theorem layout_readPlanes {video : Yuv4mpeg} {fd fd' : FileDescriptor} {ready : ℕ → ℕ → Ready}
    {img img' : RawImage} {result : Except SysExn Unit}
    (h : video.readPlanes fd ready img = some (result, fd', img')) : img'.layout = img.layout := by
  unfold readPlanes at h
  cases hy : readPlane fd video.ySize (ready 0) img RawImage.copyYFrom with
  | none => simp [hy] at h
  | some answer =>
    obtain ⟨outcome, fd₁, img₁⟩ := answer
    have hlayout := layout_readPlane keepsLayout_copyYFrom hy
    cases outcome with
    | error e =>
      simp only [hy, Option.some_inj, Prod.mk.injEq] at h
      rw [← h.2.2, hlayout]
    | ok u =>
      simp only [hy] at h
      cases hu : readPlane fd₁ video.uvSize (ready 1) img₁ RawImage.copyUFrom with
      | none => simp [hu] at h
      | some answer' =>
        obtain ⟨outcome', fd₂, img₂⟩ := answer'
        have hlayout' := layout_readPlane keepsLayout_copyUFrom hu
        cases outcome' with
        | error e =>
          simp only [hu, Option.some_inj, Prod.mk.injEq] at h
          rw [← h.2.2, hlayout', hlayout]
        | ok u' =>
          simp only [hu] at h
          rw [layout_readPlane keepsLayout_copyVFrom h, hlayout', hlayout]

/-- A call of `read_frame` keeps the layout, whatever it returns. -/
theorem layout_readFrame {video video' : Yuv4mpeg} {ready : ℕ → ℕ → Ready} {img img' : RawImage}
    {result : Except SysExn Bool} (h : video.readFrame ready img = some (result, video', img')) :
    img'.layout = img.layout := by
  unfold readFrame at h
  split_ifs at h with hdims
  · rw [Option.some_inj, Prod.mk.injEq, Prod.mk.injEq] at h
    rw [h.2.2]
  · cases hheader : video.readFrameHeader with | mk answer fd =>
    cases answer with
    | error e =>
      simp only [hheader, Option.some_inj, Prod.mk.injEq] at h
      rw [h.2.2]
    | ok header =>
      cases header with
      | none =>
        simp only [hheader, Option.some_inj, Prod.mk.injEq] at h
        rw [h.2.2]
      | some frameHeader =>
        simp only [hheader] at h
        split_ifs at h
        · rw [Option.some_inj, Prod.mk.injEq, Prod.mk.injEq] at h
          rw [h.2.2]
        · cases hplanes : video.readPlanes fd ready img with
          | none => simp [hplanes] at h
          | some answer' =>
            obtain ⟨outcome, fd', img₁⟩ := answer'
            have hlayout := layout_readPlanes hplanes
            cases outcome with
            | error e =>
              simp only [hplanes, Option.some_inj, Prod.mk.injEq] at h
              rw [← h.2.2, hlayout]
            | ok u =>
              simp only [hplanes, Option.some_inj, Prod.mk.injEq] at h
              rw [← h.2.2, hlayout]

variable {displayWidth displayHeight : UInt16} {img img' img'' : RawImage}

/-- Frames can still be read into an image with the same layout. -/
theorem Suits.of_layout (h : Suits displayWidth displayHeight img)
    (hlayout : img'.layout = img.layout) : Suits displayWidth displayHeight img' := by
  simp only [RawImage.layout, Plane.layout, Prod.mk.injEq] at hlayout
  obtain ⟨⟨hwidth, hheight⟩, ⟨hsizeY, hstrideY⟩, ⟨hsizeU, hstrideU⟩, ⟨hsizeV, hstrideV⟩⟩ := hlayout
  exact ⟨hwidth.trans h.width, hheight.trans h.height,
    ⟨hstrideY.trans h.y.stride_eq, hsizeY ▸ h.y.fits⟩,
    ⟨hstrideU.trans h.u.stride_eq, hsizeU ▸ h.u.fits⟩,
    ⟨hstrideV.trans h.v.stride_eq, hsizeV ▸ h.v.fits⟩⟩

/-- An image shows the frame that was read into it last. -/
theorem ShowsFrame.trans {payload payload' : Bytes}
    (h : ShowsFrame displayWidth displayHeight img img' payload)
    (hlayout : img'.layout = img.layout)
    (h' : ShowsFrame displayWidth displayHeight img' img'' payload') :
    ShowsFrame displayWidth displayHeight img img'' payload' := by
  simp only [RawImage.layout, Prod.mk.injEq] at hlayout
  exact ⟨h.y.trans hlayout.2.1 h'.y, h.u.trans hlayout.2.2.1 h'.u, h.v.trans hlayout.2.2.2 h'.v⟩

end Yuv4mpeg

namespace VideoSender

open Yuv4mpeg
open OpenFile (Ready newline)

/-! ## The loop of the callback -/

/-- The loop that reads `n` raw frames into the image.  There is no result when a copy would
leave a plane; `ready i` is what the kernel decides in the call number `i`. -/
def fetchFrames (ready : ℕ → ℕ → ℕ → Ready) (i : ℕ) :
    ℕ → Yuv4mpeg → RawImage → Option (Except SysExn Unit × Yuv4mpeg × RawImage)
  | 0, videoInput, rawImg => some (.ok (), videoInput, rawImg)
  | n + 1, videoInput, rawImg =>
    -- fetch a raw frame into 'raw_img' from the video input
    match videoInput.readFrame (ready i) rawImg with
    | none => none
    | some (.error e, videoInput, rawImg) => some (.error e, videoInput, rawImg)
    | some (.ok false, videoInput, rawImg) =>
      some (.error (.exn (.runtimeError "Reached the end of video input")), videoInput, rawImg)
    | some (.ok true, videoInput, rawImg) => fetchFrames ready (i + 1) n videoInput rawImg

section Fetching

variable {displayWidth displayHeight : UInt16} {headerLine : Bytes} {loop : Bool}
  {frames : List (Y4mFrame (payloadSize displayWidth displayHeight))}

/-- The image shows frame number `i` of the file, in the `loop` mode counted from the beginning
again after the last one. -/
def ShowsNumber (frames : List (Y4mFrame (payloadSize displayWidth displayHeight)))
    (img img' : RawImage) (i : ℕ) : Prop :=
  ∃ frame, frames[i % frames.length]? = some frame ∧
    ShowsFrame displayWidth displayHeight img img' frame.payload

/-- As long as the file has frames, the loop reads the next `n` and leaves the last one of these
in the image. -/
theorem fetchFrames_ok (hread : Yuv4mpeg.Readable displayWidth displayHeight)
    (hheaderLine : newline ∉ headerLine) (hpos : 0 < frames.length) (ready : ℕ → ℕ → ℕ → Ready)
    (i n : ℕ) {j : ℕ} {videoInput : Yuv4mpeg} (h : Position headerLine frames loop j videoInput)
    {rawImg : RawImage} (hsuits : Suits displayWidth displayHeight rawImg)
    (hleft : loop = true ∨ j + n ≤ frames.length) :
    ∃ videoInput' rawImg', fetchFrames ready i n videoInput rawImg
        = some (.ok (), videoInput', rawImg') ∧
      Position headerLine frames loop (j + n) videoInput' ∧ rawImg'.layout = rawImg.layout ∧
      (n = 0 ∧ rawImg' = rawImg ∨ 0 < n ∧ ShowsNumber frames rawImg rawImg' (j + n - 1)) := by
  induction n generalizing i j videoInput rawImg with
  | zero => exact ⟨videoInput, rawImg, rfl, h, rfl, Or.inl ⟨rfl, rfl⟩⟩
  | succ n ih =>
    obtain ⟨videoInput₁, ⟨result, rawImg₁⟩, hframe, hposition, hexpected⟩ :=
      h.readFrame hread hheaderLine hpos hsuits (ready i)
    have hcond : loop = true ∨ j < frames.length := hleft.imp_right (by omega)
    rw [Expected, if_pos hcond] at hexpected
    obtain ⟨rfl, hshows⟩ := hexpected
    have hlayout := layout_readFrame hframe
    obtain ⟨videoInput', rawImg', hfetch, hposition', hlayout', hlast⟩ :=
      ih (i + 1) hposition (hsuits.of_layout hlayout) (hleft.imp_right (by omega))
    refine ⟨videoInput', rawImg', ?_, ?_, hlayout'.trans hlayout, Or.inr ⟨Nat.succ_pos n, ?_⟩⟩
    · unfold fetchFrames
      rw [hframe]
      exact hfetch
    · rw [Nat.add_right_comm] at hposition'
      exact hposition'
    · rcases hlast with ⟨rfl, rfl⟩ | ⟨hn, frame, hframe', hshows'⟩
      · exact hshows
      · obtain ⟨frame₀, -, hshows₀⟩ := hshows
        refine ⟨frame, ?_, hshows₀.trans hlayout hshows'⟩
        rw [← hframe']
        congr 2
        omega

/-- Without the `loop` mode, the loop throws when the frames are used up. -/
theorem fetchFrames_end (hread : Yuv4mpeg.Readable displayWidth displayHeight)
    (hheaderLine : newline ∉ headerLine) (hpos : 0 < frames.length) (ready : ℕ → ℕ → ℕ → Ready)
    (i n : ℕ) {j : ℕ} {videoInput : Yuv4mpeg} (h : Position headerLine frames false j videoInput)
    {rawImg : RawImage} (hsuits : Suits displayWidth displayHeight rawImg)
    (hj : j ≤ frames.length) (hend : frames.length < j + n) :
    ∃ videoInput' rawImg', fetchFrames ready i n videoInput rawImg
      = some (.error (.exn (.runtimeError "Reached the end of video input")), videoInput',
        rawImg') := by
  induction n generalizing i j videoInput rawImg with
  | zero => omega
  | succ n ih =>
    obtain ⟨videoInput₁, ⟨result, rawImg₁⟩, hframe, hposition, hexpected⟩ :=
      h.readFrame hread hheaderLine hpos hsuits (ready i)
    unfold fetchFrames
    rw [hframe]
    rcases hj.lt_or_eq with hlt | rfl
    · rw [Expected, if_pos (Or.inr hlt)] at hexpected
      obtain ⟨rfl, -⟩ := hexpected
      exact ih (i + 1) hposition (hsuits.of_layout (layout_readFrame hframe)) hlt (by omega)
    · rw [Expected, if_neg (by simp)] at hexpected
      obtain ⟨rfl, rfl⟩ := Prod.mk.inj hexpected
      exact ⟨_, _, rfl⟩

/-! ## Callbacks -/

/-- The video input and the image of the sender. -/
structure Capture where
  videoInput : Yuv4mpeg
  rawImg : RawImage

/-- A callback of the frame timer that returns, up to the compression.  The kernel reports the
expirations since the last report, and there is at least one when the timer is readable. -/
inductive Tick : Capture → List ℕ → Capture → Prop
  | mk {c : Capture} {read : Except Exn (ℕ × UInt64)} {numExp : ℕ} {ready : ℕ → ℕ → ℕ → Ready}
      {videoInput : Yuv4mpeg} {rawImg : RawImage} :
      readExpirations read = .ok numExp → 0 < numExp →
      fetchFrames ready 0 numExp c.videoInput c.rawImg = some (.ok (), videoInput, rawImg) →
      Tick c [numExp] ⟨videoInput, rawImg⟩

/-- After `n` expirations: the position in the file, and the frame in the image. -/
structure InTime (headerLine : Bytes) (loop : Bool)
    (frames : List (Y4mFrame (payloadSize displayWidth displayHeight))) (img : RawImage) (n : ℕ)
    (c : Capture) : Prop where
  position : Position headerLine frames loop n c.videoInput
  layout : c.rawImg.layout = img.layout
  shows : n = 0 ∧ c.rawImg = img ∨ 0 < n ∧ ShowsNumber frames img c.rawImg (n - 1)
  left : loop = true ∨ n ≤ frames.length

variable {img : RawImage}

/-- Some more frames are fetched. -/
theorem InTime.fetch (hread : Yuv4mpeg.Readable displayWidth displayHeight)
    (hheaderLine : newline ∉ headerLine) (hpos : 0 < frames.length)
    (hsuits : Suits displayWidth displayHeight img) {j : ℕ} {c : Capture}
    (h : InTime headerLine loop frames img j c) (ready : ℕ → ℕ → ℕ → Ready) {n : ℕ} (hn : 0 < n)
    (hleft : loop = true ∨ j + n ≤ frames.length) :
    ∃ c', fetchFrames ready 0 n c.videoInput c.rawImg = some (.ok (), c'.videoInput, c'.rawImg) ∧
      InTime headerLine loop frames img (j + n) c' := by
  obtain ⟨videoInput', rawImg', hfetch, hposition, hlayout, hlast⟩ :=
    fetchFrames_ok hread hheaderLine hpos ready 0 n h.position (hsuits.of_layout h.layout) hleft
  obtain ⟨-, frame, hframe, hshows⟩ := hlast.resolve_left (fun hnone => by omega)
  refine ⟨⟨videoInput', rawImg'⟩, hfetch, hposition, hlayout.trans h.layout,
    Or.inr ⟨by omega, frame, hframe, ?_⟩, hleft⟩
  rcases h.shows with ⟨-, heq⟩ | ⟨-, frame₀, -, hshows₀⟩
  · rw [← heq]
    exact hshows
  · exact hshows₀.trans h.layout hshows

/-- A callback that returns fetched its frames. -/
theorem InTime.tick (hread : Yuv4mpeg.Readable displayWidth displayHeight)
    (hheaderLine : newline ∉ headerLine) (hpos : 0 < frames.length)
    (hsuits : Suits displayWidth displayHeight img) {j n : ℕ} {c c' : Capture}
    (h : InTime headerLine loop frames img j c) {ready : ℕ → ℕ → ℕ → Ready} (hn : 0 < n)
    (hfetch : fetchFrames ready 0 n c.videoInput c.rawImg
      = some (.ok (), c'.videoInput, c'.rawImg)) :
    InTime headerLine loop frames img (j + n) c' := by
  have hleft : loop = true ∨ j + n ≤ frames.length := by
    by_contra hnot
    rw [not_or, Bool.not_eq_true, not_le] at hnot
    obtain ⟨rfl, hend⟩ := hnot
    have hj : j ≤ frames.length := h.left.resolve_left Bool.false_ne_true
    obtain ⟨_, _, hthrow⟩ := fetchFrames_end hread hheaderLine hpos ready 0 n h.position
      (hsuits.of_layout h.layout) hj hend
    rw [hfetch] at hthrow
    simp at hthrow
  obtain ⟨c'', hfetch', hin⟩ := h.fetch hread hheaderLine hpos hsuits ready hn hleft
  rw [hfetch, Option.some_inj, Prod.mk.injEq, Prod.mk.injEq] at hfetch'
  obtain ⟨-, hvideo, himg⟩ := hfetch'
  have heq : c' = c'' := by
    cases c'
    cases c''
    cases hvideo
    cases himg
    rfl
  rw [heq]
  exact hin

/-- The constructor leaves everything in time. -/
theorem inTime_of_construct (hheaderLine : newline ∉ headerLine) {ready : ℕ → Ready}
    {videoInput : Yuv4mpeg} (h : construct (some (fileContent headerLine frames)) displayWidth
      displayHeight loop ready = .ok videoInput) :
    InTime headerLine loop frames img 0 ⟨videoInput, img⟩ := by
  refine ⟨⟨0, Nat.zero_le _, at_of_construct hheaderLine h, ?_⟩, rfl, Or.inl ⟨rfl, rfl⟩,
    Or.inr (Nat.zero_le _)⟩
  cases loop with
  | true => rfl
  | false => exact (Nat.zero_min _).symm

/-- The sender keeps pace with its timer.  For every file of frames that the constructor accepts,
every image into which they fit, and any sequence of callbacks of the frame timer, with any numbers
of expirations and however the kernel splits the reads: after `n` expirations altogether the image
shows frame number `n - 1`, counted from the beginning again after the last frame in the `loop`
mode, and it still has the dimensions that the encoder expects.  The next callback returns, unless
the file is not read in a loop and the expirations outnumber its frames; then it throws. -/
theorem keeps_pace (hread : Yuv4mpeg.Readable displayWidth displayHeight)
    (hheaderLine : newline ∉ headerLine) (hframes : frames ≠ []) {ready : ℕ → Ready}
    {videoInput : Yuv4mpeg} (hconstruct : construct (some (fileContent headerLine frames))
      displayWidth displayHeight loop ready = .ok videoInput)
    (hsuits : Suits displayWidth displayHeight img) {numExps : List ℕ} {c : Capture}
    (h : Run.Steps Tick ⟨videoInput, img⟩ numExps c) :
    (numExps ≠ [] → ShowsNumber frames img c.rawImg (numExps.sum - 1)) ∧
    c.rawImg.displayWidth = displayWidth ∧ c.rawImg.displayHeight = displayHeight ∧
    ∀ (ready' : ℕ → ℕ → ℕ → Ready) (n : ℕ), 0 < n →
      ((loop = true ∨ numExps.sum + n ≤ frames.length) → ∃ videoInput' rawImg',
        fetchFrames ready' 0 n c.videoInput c.rawImg = some (.ok (), videoInput', rawImg')) ∧
      (loop = false → frames.length < numExps.sum + n → ∃ videoInput' rawImg',
        fetchFrames ready' 0 n c.videoInput c.rawImg
          = some (.error (.exn (.runtimeError "Reached the end of video input")), videoInput',
            rawImg')) := by
  have hpos : 0 < frames.length := List.length_pos_of_ne_nil hframes
  obtain ⟨hin, hsum⟩ := h.invariant
    (fun numExps c => InTime headerLine loop frames img numExps.sum c ∧
      (numExps ≠ [] → 0 < numExps.sum))
    ⟨inTime_of_construct hheaderLine hconstruct, fun hne => absurd rfl hne⟩ (by
      rintro numExps c es c' ⟨hI, -⟩ ⟨-, hn, hfetch⟩
      rw [List.sum_append, List.sum_singleton]
      exact ⟨hI.tick hread hheaderLine hpos hsuits hn hfetch, fun _ => by omega⟩)
  have hsuits' := hsuits.of_layout hin.layout
  refine ⟨fun hne => ?_, hsuits'.width, hsuits'.height, fun ready' n hn => ⟨fun hleft => ?_, ?_⟩⟩
  · have := hsum hne
    exact (hin.shows.resolve_left (fun hzero => by omega)).2
  · obtain ⟨c', hfetch, -⟩ := hin.fetch hread hheaderLine hpos hsuits ready' hn hleft
    exact ⟨_, _, hfetch⟩
  · rintro rfl hend
    exact fetchFrames_end hread hheaderLine hpos ready' 0 n hin.position hsuits'
      (hin.left.resolve_left Bool.false_ne_true) hend

/-- Frames fit into a small image. -/
theorem suits_smallImage : Suits 2 2 RawImage.smallImage :=
  ⟨rfl, rfl, ⟨rfl, by decide⟩, ⟨rfl, by decide⟩, ⟨rfl, by decide⟩⟩

/-- Two callbacks on a file with a single frame, the first one late. -/
theorem keeps_pace_tiny : ∃ videoInput c,
    Run.Steps Tick ⟨videoInput, RawImage.smallImage⟩ [2, 1] c ∧
      ShowsNumber [tinyFrame] RawImage.smallImage c.rawImg 2 := by
  obtain ⟨videoInput, hconstruct⟩ := exists_construct_tiny
  have hread : Yuv4mpeg.Readable 2 2 := ⟨by decide, by decide, by decide, by decide, by decide⟩
  have hline : newline ∉ tinyHeaderLine := by decide
  have hsuits := suits_smallImage
  have hpos : 0 < [tinyFrame].length := Nat.one_pos
  have hin := @inTime_of_construct _ _ _ _ _ RawImage.smallImage hline _ _ hconstruct
  obtain ⟨c₁, hfetch₁, hin₁⟩ := @InTime.fetch _ _ _ _ _ _ hread hline hpos hsuits _ _ hin
    (fun _ _ _ => .one) 2 two_pos (Or.inl rfl)
  obtain ⟨c₂, hfetch₂, -⟩ := hin₁.fetch hread hline hpos hsuits (fun _ _ _ => .one)
    Nat.one_pos (Or.inl rfl)
  have hrun : Run.Steps Tick ⟨videoInput, RawImage.smallImage⟩ [2, 1] c₂ :=
    (Run.Steps.single (@Tick.mk _ (.ok (8, 2)) _ _ _ _ rfl two_pos hfetch₁)).tail
      (@Tick.mk _ (.ok (8, 1)) _ _ _ _ rfl Nat.one_pos hfetch₂)
  obtain ⟨hshows, -⟩ :=
    keeps_pace hread hline (List.cons_ne_nil tinyFrame []) hconstruct hsuits hrun
  exact ⟨videoInput, c₂, hrun, hshows (List.cons_ne_nil _ _)⟩

end Fetching

end VideoSender

end Ringmaster
