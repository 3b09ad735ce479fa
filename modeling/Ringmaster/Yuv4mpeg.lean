/-
# Y4M files

The class `YUV4MPEG` of `src/video/yuv4mpeg.hh` and `yuv4mpeg.cc`, which reads frames from a
file in the format YUV4MPEG2: a header line with a signature and tags, and frames, each of
which is a line that begins with `FRAME` and the samples of the three planes.

The methods work on the file through `FileDescriptor` and on the image through `RawImage`.  A
result of `none` is undefined behaviour: a signed overflow, or a write outside of a plane.
-/
import Ringmaster.Strings
import Ringmaster.RawImage

namespace Ringmaster

/-- The class `YUV4MPEG`. -/
structure Yuv4mpeg where
  fd : FileDescriptor
  displayWidth : UInt16
  displayHeight : UInt16
  loop : Bool

namespace Yuv4mpeg

open OpenFile (Ready newline)

/-! ## The header -/

/-- The constant `y4m_signature`. -/
def y4mSignature : Bytes := ['Y', 'U', 'V', '4', 'M', 'P', 'E', 'G', '2'].map Char.toUInt8

/-- The separator of the tags. -/
def space : UInt8 := ' '.toUInt8

/-- The test of a tag that declares a dimension. -/
def checkDimension (value : Bytes) (dimension : UInt16) (what : String) : Except SysExn Unit :=
  match strictStoi value with
  | .error e => .error e
  | .ok n => if n ≠ dimension.toNat then .error (.exn (.runtimeError what)) else .ok ()

/-- The body of the loop over the tokens of the header. -/
def checkToken (displayWidth displayHeight : UInt16) : Bytes → Except SysExn Unit
  | [] => .ok ()
  | c :: value =>
    if c = 'W'.toUInt8 then
      -- width
      checkDimension value displayWidth "wrong YUV4MPEG2 frame width"
    else if c = 'H'.toUInt8 then
      -- height
      checkDimension value displayHeight "wrong YUV4MPEG2 frame height"
    else if c = 'C'.toUInt8 then
      -- color space
      if (c :: value).take 4 ≠ ['C', '4', '2', '0'].map Char.toUInt8 then
        .error (.exn (.runtimeError "only YUV420 color space is supported"))
      else
        .ok ()
    else
      .ok ()

/-- The loop over the tokens of the header. -/
def checkTokens (displayWidth displayHeight : UInt16) : List Bytes → Except SysExn Unit
  | [] => .ok ()
  | token :: tokens =>
    match checkToken displayWidth displayHeight token with
    | .error e => .error e
    | .ok () => checkTokens displayWidth displayHeight tokens

/-- The constructor, on the file that the call of `open` finds. -/
def construct (file : Option Bytes) (displayWidth displayHeight : UInt16) (loop : Bool)
    (ready : ℕ → Ready) : Except SysExn Yuv4mpeg :=
  match file with
  | none => .error .unixError
  | some content =>
    match (FileDescriptor.ofFile ⟨content, 0⟩).readn y4mSignature.length false ready with
    | (.error e, _) => .error e
    | (.ok signature, fd) =>
      if signature ≠ y4mSignature then
        .error (.exn (.runtimeError "invalid YUV4MPEG2 file signature"))
      else
        match fd.getline with
        | (.error e, _) => .error e
        | (.ok header, fd) =>
          match split header [space] with
          | .error e => .error (.exn e)
          | .ok tokens =>
            match checkTokens displayWidth displayHeight tokens with
            | .error e => .error e
            | .ok () => .ok ⟨fd, displayWidth, displayHeight, loop⟩

/-! ## Sizes -/

/-- The method `y_size`. -/
def ySize (video : Yuv4mpeg) : Option ℕ :=
  asInt (video.displayWidth.toNat * video.displayHeight.toNat)

/-- The method `uv_size`. -/
def uvSize (video : Yuv4mpeg) : Option ℕ :=
  (asInt (video.displayWidth.toNat * video.displayHeight.toNat)).map (· / 4)

/-- The method `frame_size`. -/
def frameSize (video : Yuv4mpeg) : Option ℕ :=
  match asInt (video.displayWidth.toNat * video.displayHeight.toNat) with
  | none => none
  | some n => (asInt (n * 3)).map (· / 2)

/-! ## Frames -/

/-- The first bytes of a frame. -/
def frameTag : Bytes := ['F', 'R', 'A', 'M', 'E'].map Char.toUInt8

/-- The line in front of the next frame, after a rewind at the end of the file in the `loop`
mode; `none` at the end of the file otherwise. -/
def readFrameHeader (video : Yuv4mpeg) : Except SysExn (Option Bytes) × FileDescriptor :=
  match video.fd.getline with
  | (.error e, fd) => (.error e, fd)
  | (.ok frameHeader, fd) =>
    if fd.eof ∧ frameHeader = [] then
      if video.loop then
        -- reset the file offset to the beginning and skip the header line
        match fd.resetOffset with
        | (.error e, fd) => (.error e, fd)
        | (.ok (), fd) =>
          match fd.getline with
          | (.error e, fd) => (.error e, fd)
          | (.ok _, fd) =>
            -- should read "FRAME" again
            match fd.getline with
            | (.error e, fd) => (.error e, fd)
            | (.ok frameHeader, fd) => (.ok (some frameHeader), fd)
      else
        -- cannot read past end of file if not set to the 'loop' mode
        (.ok none, fd)
    else
      (.ok (some frameHeader), fd)

/-- Reading the samples of one plane, and copying them into the image. -/
def readPlane (fd : FileDescriptor) (size : Option ℕ) (ready : ℕ → Ready) (img : RawImage)
    (copyFrom : RawImage → Bytes → Option (Except Exn Unit × RawImage)) :
    Option (Except SysExn Unit × FileDescriptor × RawImage) :=
  match size with
  | none => none
  | some n =>
    match fd.readn n false ready with
    | (.error e, fd) => some (.error e, fd, img)
    | (.ok data, fd) =>
      match copyFrom img data with
      | none => none
      | some (.error e, img) => some (.error (.exn e), fd, img)
      | some (.ok (), img) => some (.ok (), fd, img)

/-- Reading the Y, U and V planes in order; `ready` is what the kernel decides for each
plane. -/
def readPlanes (video : Yuv4mpeg) (fd : FileDescriptor) (ready : ℕ → ℕ → Ready)
    (img : RawImage) : Option (Except SysExn Unit × FileDescriptor × RawImage) :=
  match readPlane fd video.ySize (ready 0) img RawImage.copyYFrom with
  | none => none
  | some (.error e, fd, img) => some (.error e, fd, img)
  | some (.ok (), fd, img) =>
    match readPlane fd video.uvSize (ready 1) img RawImage.copyUFrom with
    | none => none
    | some (.error e, fd, img) => some (.error e, fd, img)
    | some (.ok (), fd, img) => readPlane fd video.uvSize (ready 2) img RawImage.copyVFrom

/-- The method `read_frame`. -/
def readFrame (video : Yuv4mpeg) (ready : ℕ → ℕ → Ready) (img : RawImage) :
    Option (Except SysExn Bool × Yuv4mpeg × RawImage) :=
  if img.displayWidth ≠ video.displayWidth ∨ img.displayHeight ≠ video.displayHeight then
    some (.error (.exn (.runtimeError "YUV4MPEG: image dimensions don't match")), video, img)
  else
    match video.readFrameHeader with
    | (.error e, fd) => some (.error e, { video with fd := fd }, img)
    | (.ok none, fd) => some (.ok false, { video with fd := fd }, img)
    | (.ok (some frameHeader), fd) =>
      if frameHeader.take 5 ≠ frameTag then
        some (.error (.exn (.runtimeError "invalid YUV4MPEG2 input format")),
          { video with fd := fd }, img)
      else
        match video.readPlanes fd ready img with
        | none => none
        | some (.error e, fd, img) => some (.error e, { video with fd := fd }, img)
        | some (.ok (), fd, img) => some (.ok true, { video with fd := fd }, img)

/-! ## What the constructor does -/

section Construct

variable {displayWidth displayHeight : UInt16} {loop : Bool} {ready : ℕ → Ready}

/-- The header passes when each of its tokens does. -/
theorem checkTokens_eq_ok_iff {tokens : List Bytes} :
    checkTokens displayWidth displayHeight tokens = .ok () ↔
      ∀ token ∈ tokens, checkToken displayWidth displayHeight token = .ok () := by
  induction tokens with
  | nil => exact iff_of_true rfl (fun _ h => absurd h List.not_mem_nil)
  | cons token tokens ih =>
    rw [checkTokens, List.forall_mem_cons, ← ih]
    cases checkToken displayWidth displayHeight token with
    | error e => simp
    | ok u => simp

/-- The file behind the signature. -/
def afterSignature (content : Bytes) : OpenFile := ⟨content, y4mSignature.length⟩

/-- The tokens of the header line. -/
def headerTokens (content : Bytes) : List Bytes :=
  splitLoop [space] (List.cons_ne_nil _ _) (afterSignature content).line

/-- When the constructor returns: the file begins with the signature, and the tokens of the
header line pass their tests.  The file is left behind the header line. -/
theorem construct_eq_ok_iff {content : Bytes} {video : Yuv4mpeg} :
    construct (some content) displayWidth displayHeight loop ready = .ok video ↔
      y4mSignature <+: content ∧
      (∀ token ∈ headerTokens content,
        checkToken displayWidth displayHeight token = .ok ()) ∧
      video = ⟨⟨(afterSignature content).advance (afterSignature content).lineSize,
        decide (newline ∉ (afterSignature content).ahead)⟩, displayWidth, displayHeight, loop⟩ := by
  have hlen : y4mSignature.length ≠ 0 := by decide
  have hahead : (FileDescriptor.ofFile ⟨content, 0⟩).file.ahead = content := rfl
  unfold construct
  dsimp only
  rw [FileDescriptor.readn_eq _ hlen, hahead]
  by_cases hlong : y4mSignature.length ≤ content.length
  swap
  · -- the file is too short for a signature
    rw [if_neg hlong]
    refine iff_of_false (by simp) (fun h => hlong h.1.length_le)
  rw [if_pos hlong]
  dsimp only
  by_cases hsignature : content.take y4mSignature.length = y4mSignature
  swap
  · rw [if_pos hsignature]
    exact iff_of_false (by simp) (fun h => hsignature (List.prefix_iff_eq_take.mp h.1).symm)
  have hfile : (FileDescriptor.ofFile ⟨content, 0⟩).file.advance y4mSignature.length
      = afterSignature content := by
    show (⟨content, 0 + y4mSignature.length⟩ : OpenFile) = ⟨content, y4mSignature.length⟩
    rw [Nat.zero_add]
  have hprefix : y4mSignature <+: content := List.prefix_iff_eq_take.mpr hsignature.symm
  have hsplit : split (afterSignature content).line [space] = .ok (headerTokens content) :=
    dif_neg (List.cons_ne_nil _ _)
  rw [if_neg (not_not.mpr hsignature), hfile, FileDescriptor.getline_of_eof_eq_false rfl]
  dsimp only
  rw [hsplit]
  dsimp only
  rw [and_iff_right hprefix, ← checkTokens_eq_ok_iff]
  cases checkTokens displayWidth displayHeight (headerTokens content) with
  | error e => simp
  | ok u =>
    rw [Except.ok.injEq, and_iff_right rfl]
    exact eq_comm

/-- Empty tokens pass, so the strings between the spaces decide. -/
theorem forall_headerTokens_iff {content : Bytes} :
    (∀ token ∈ headerTokens content, checkToken displayWidth displayHeight token = .ok ()) ↔
      ∀ tag ∈ (afterSignature content).line.splitOn space,
        checkToken displayWidth displayHeight tag = .ok () := by
  constructor
  · intro h tag htag
    by_cases hnil : tag = []
    · rw [hnil]
      rfl
    · exact h tag ((mem_splitLoop_iff _ hnil).mpr htag)
  · intro h token htoken
    by_cases hnil : token = []
    · rw [hnil]
      rfl
    · exact h token ((mem_splitLoop_iff _ hnil).mp htoken)

end Construct

/-! ## What the methods do -/

section Methods

variable {video : Yuv4mpeg} {ready : ℕ → ℕ → Ready} {img : RawImage}

/-- The line in front of a frame. -/
theorem readFrameHeader_of_line (heof : video.fd.eof = false) {header rest : Bytes}
    (hahead : video.fd.file.ahead = header ++ newline :: rest) (hheader : newline ∉ header) :
    video.readFrameHeader = (.ok (some header),
      ⟨video.fd.file.advance (header.length + 1), false⟩) := by
  unfold readFrameHeader
  rw [FileDescriptor.getline_of_line heof hahead hheader]
  dsimp only
  rw [if_neg (by rw [heof]; simp), heof]

/-- At the end of the file without the `loop` mode. -/
theorem readFrameHeader_at_end (hloop : video.loop = false) (hahead : video.fd.file.ahead = []) :
    video.readFrameHeader = (.ok none, { video.fd with eof := true }) := by
  unfold readFrameHeader
  rw [FileDescriptor.getline_at_end hahead]
  dsimp only
  rw [if_pos ⟨rfl, rfl⟩, hloop]
  rfl

/-- At the end of the file in the `loop` mode: the header line is skipped, and the line after
it is read. -/
theorem readFrameHeader_rewind (hloop : video.loop = true) (hahead : video.fd.file.ahead = [])
    {headerLine header rest : Bytes}
    (hcontent : video.fd.file.content = headerLine ++ newline :: (header ++ newline :: rest))
    (hheaderLine : newline ∉ headerLine) (hheader : newline ∉ header) :
    video.readFrameHeader = (.ok (some header),
      ⟨⟨video.fd.file.content, headerLine.length + 1 + (header.length + 1)⟩, false⟩) := by
  have hfirst : (⟨video.fd.file.content, 0⟩ : OpenFile).ahead
      = headerLine ++ newline :: (header ++ newline :: rest) := hcontent
  have hsecond : (⟨video.fd.file.content, headerLine.length + 1⟩ : OpenFile).ahead
      = header ++ newline :: rest := by
    unfold OpenFile.ahead
    dsimp only
    rw [hcontent, OpenFile.drop_line]
  unfold readFrameHeader
  rw [FileDescriptor.getline_at_end hahead]
  dsimp only
  rw [if_pos ⟨rfl, rfl⟩, hloop, FileDescriptor.resetOffset_eq]
  dsimp only
  rw [if_pos rfl, FileDescriptor.getline_of_line rfl hfirst hheaderLine]
  dsimp only
  unfold OpenFile.advance
  dsimp only
  rw [Nat.zero_add, FileDescriptor.getline_of_line rfl hsecond hheader]
  rfl

/-- Reading a plane whose samples are `n` bytes at `pos` of the data ahead. -/
theorem readPlane_of_ahead {fd : FileDescriptor} {data rest : Bytes}
    (hahead : fd.file.ahead = data ++ rest) {pos n : ℕ} (hn : n ≠ 0)
    (hle : pos + n ≤ data.length) (ready : ℕ → Ready) {img img' : RawImage}
    {copyFrom : RawImage → Bytes → Option (Except Exn Unit × RawImage)}
    (hcopy : copyFrom img ((data.drop pos).take n) = some (.ok (), img')) :
    readPlane { fd with file := fd.file.advance pos } (some n) ready img copyFrom
      = some (.ok (), { fd with file := fd.file.advance (pos + n) }, img') := by
  have hlen : n ≤ (data.drop pos).length := by
    rw [List.length_drop]
    omega
  have hrest : (fd.file.advance pos).ahead = data.drop pos ++ rest := by
    rw [OpenFile.ahead_advance, hahead, List.drop_append_of_le_length (by omega)]
  have henough : n ≤ (fd.file.advance pos).ahead.length := by
    rw [hrest, List.length_append]
    omega
  have htake : (fd.file.advance pos).ahead.take n = (data.drop pos).take n := by
    rw [hrest, List.take_append_of_le_length hlen]
  unfold readPlane
  dsimp only
  rw [FileDescriptor.readn_eq _ hn]
  dsimp only
  rw [if_pos henough, htake]
  dsimp only
  rw [hcopy, OpenFile.advance_advance]

/-- The planes of an image after sources were copied to their beginnings. -/
structure PlanesCopied (img img' : RawImage) (y u v : Bytes) : Prop where
  y : img.yPlane.memcpy y = some img'.yPlane
  u : img.uPlane.memcpy u = some img'.uPlane
  v : img.vPlane.memcpy v = some img'.vPlane
  width : img'.displayWidth = img.displayWidth
  height : img'.displayHeight = img.displayHeight

/-- Reading the planes of a frame. -/
theorem readPlanes_of_ahead (hwidth : img.displayWidth = video.displayWidth)
    (hheight : img.displayHeight = video.displayHeight) {n m : ℕ}
    (hy : video.ySize = some n) (hu : video.uvSize = some m) (hn : n ≠ 0) (hm : m ≠ 0)
    (hroomY : n ≤ img.yPlane.size) (hroomU : m ≤ img.uPlane.size) (hroomV : m ≤ img.vPlane.size)
    {fd : FileDescriptor} {data rest : Bytes} (hahead : fd.file.ahead = data ++ rest)
    (hdata : data.length = n + 2 * m) :
    ∃ img', video.readPlanes fd ready img
        = some (.ok (), { fd with file := fd.file.advance data.length }, img') ∧
      PlanesCopied img img' (data.take n) ((data.drop n).take m) (data.drop (n + m)) := by
  have hsizeY : img.ySize = some n := by
    rw [RawImage.ySize, hwidth, hheight]
    exact hy
  have hsizeU : img.uvSize = some m := by
    rw [RawImage.uvSize, hwidth, hheight]
    exact hu
  have hlenY : (data.take n).length = n := by
    rw [List.length_take]
    omega
  have hlenU : ((data.drop n).take m).length = m := by
    rw [List.length_take, List.length_drop]
    omega
  have hlenV : (data.drop (n + m)).length = m := by
    rw [List.length_drop]
    omega
  obtain ⟨y, hcopyY⟩ := Plane.exists_memcpy (hlenY.le.trans hroomY)
  obtain ⟨u, hcopyU⟩ := Plane.exists_memcpy (hlenU.le.trans hroomU)
  obtain ⟨v, hcopyV⟩ := Plane.exists_memcpy (hlenV.le.trans hroomV)
  refine ⟨{ img with yPlane := y, uPlane := u, vPlane := v }, ?_,
    ⟨hcopyY, hcopyU, hcopyV, rfl, rfl⟩⟩
  have hstepY : readPlane fd video.ySize (ready 0) img RawImage.copyYFrom
      = some (.ok (), { fd with file := fd.file.advance n }, { img with yPlane := y }) := by
    have hcopy := @RawImage.copyYFrom_of_memcpy img _ _ (hsizeY.trans (by rw [hlenY])) hcopyY
    have hstep := @readPlane_of_ahead fd data rest hahead 0 n hn (by omega) (ready 0) img _ _ hcopy
    rw [OpenFile.advance_zero, Nat.zero_add, ← hy] at hstep
    exact hstep
  have hstepU : readPlane { fd with file := fd.file.advance n } video.uvSize (ready 1)
      { img with yPlane := y } RawImage.copyUFrom
      = some (.ok (), { fd with file := fd.file.advance (n + m) },
        { img with yPlane := y, uPlane := u }) := by
    rw [hu]
    apply readPlane_of_ahead hahead hm (by omega)
    apply @RawImage.copyUFrom_of_memcpy { img with yPlane := y } _ _ ?_ hcopyU
    rw [hlenU]
    exact hsizeU
  have hstepV : readPlane { fd with file := fd.file.advance (n + m) } video.uvSize (ready 2)
      { img with yPlane := y, uPlane := u } RawImage.copyVFrom
      = some (.ok (), { fd with file := fd.file.advance data.length },
        { img with yPlane := y, uPlane := u, vPlane := v }) := by
    have hend : data.length = n + m + m := by omega
    rw [hu, hend]
    apply readPlane_of_ahead hahead hm (by omega)
    rw [List.take_of_length_le hlenV.le]
    apply @RawImage.copyVFrom_of_memcpy { img with yPlane := y, uPlane := u } _ _ ?_ hcopyV
    rw [hlenV]
    exact hsizeU
  unfold readPlanes
  rw [hstepY]
  dsimp only
  rw [hstepU]
  dsimp only
  rw [hstepV]

/-- What `read_frame` does with the planes once the line in front of the frame was read. -/
theorem readFrame_of_header (hwidth : img.displayWidth = video.displayWidth)
    (hheight : img.displayHeight = video.displayHeight) {header : Bytes} {fd : FileDescriptor}
    (hheader : video.readFrameHeader = (.ok (some header), fd)) (htag : header.take 5 = frameTag)
    {img' : RawImage} {fd' : FileDescriptor}
    (hplanes : video.readPlanes fd ready img = some (.ok (), fd', img')) :
    video.readFrame ready img = some (.ok true, { video with fd := fd' }, img') := by
  have hdims : ¬ (img.displayWidth ≠ video.displayWidth ∨
      img.displayHeight ≠ video.displayHeight) := by
    rw [not_or, not_not, not_not]
    exact ⟨hwidth, hheight⟩
  unfold readFrame
  rw [if_neg hdims, hheader]
  dsimp only
  rw [if_neg (not_not.mpr htag), hplanes]

end Methods

end Yuv4mpeg

end Ringmaster
