/-
# Sizes of planes and frames

Whether the sizes that `YUV4MPEG` and `RawImage` compute are those of a 4:2:0 picture, whose
chroma planes have half of the width and half of the height, each rounded up.  The three
formulas multiply the two dimensions in the type `int`, and divide the product; so they are
right if and only if three times the product fits into an `int`, and both dimensions are even
or the picture is empty (`sizesExact_iff`).  Otherwise a call of `read_frame` leaves the file
in the middle of the frame.
-/
import Ringmaster.Yuv4mpeg

namespace Ringmaster

namespace Yuv4mpeg

open OpenFile (Ready newline)

/-! ## What a call leaves ahead -/

section Offset

variable {video video' : Yuv4mpeg} {img img' : RawImage} {fd fd' : FileDescriptor}

/-- A plane that was read moved the offset by its size, which is not zero. -/
theorem advance_of_readPlane {size : Option ℕ} {ready : ℕ → Ready}
    {copyFrom : RawImage → Bytes → Option (Except Exn Unit × RawImage)}
    (h : readPlane fd size ready img copyFrom = some (.ok (), fd', img')) :
    ∃ n, size = some n ∧ n ≠ 0 ∧ fd' = { fd with file := fd.file.advance n } := by
  unfold readPlane at h
  cases size with
  | none => simp at h
  | some n =>
    dsimp only at h
    by_cases hn : n = 0
    · rw [FileDescriptor.readn, if_pos hn] at h
      simp at h
    rw [FileDescriptor.readn_eq fd hn] at h
    by_cases hahead : n ≤ fd.file.ahead.length
    · rw [if_pos hahead] at h
      dsimp only at h
      split at h
      · simp at h
      · simp at h
      · rw [Option.some_inj, Prod.mk.injEq, Prod.mk.injEq] at h
        exact ⟨n, rfl, hn, h.2.1.symm⟩
    · rw [if_neg hahead, if_neg Bool.false_ne_true] at h
      simp at h

/-- The planes that were read moved the offset by their sizes. -/
theorem advance_of_readPlanes {ready : ℕ → ℕ → Ready}
    (h : video.readPlanes fd ready img = some (.ok (), fd', img')) :
    ∃ n m, video.ySize = some n ∧ video.uvSize = some m ∧ n ≠ 0 ∧
      fd' = { fd with file := fd.file.advance (n + 2 * m) } := by
  unfold readPlanes at h
  split at h
  · simp at h
  · simp at h
  next fd₁ img₁ hplaneY =>
    split at h
    · simp at h
    · simp at h
    next fd₂ img₂ hplaneU =>
      obtain ⟨n, hn, hpos, rfl⟩ := advance_of_readPlane hplaneY
      obtain ⟨m, hm, -, rfl⟩ := advance_of_readPlane hplaneU
      obtain ⟨m', hm', -, rfl⟩ := advance_of_readPlane h
      rw [hm, Option.some_inj] at hm'
      subst hm'
      refine ⟨n, m, hn, hm, hpos, ?_⟩
      show _ = (⟨fd.file.advance (n + 2 * m), fd.eof⟩ : FileDescriptor)
      rw [two_mul, ← Nat.add_assoc, ← OpenFile.advance_advance, ← OpenFile.advance_advance]

/-- A frame that was read moved the offset by the sizes of its planes, from behind the line in
front of it on. -/
theorem advance_of_readFrame {ready : ℕ → ℕ → Ready} {header : Bytes}
    (hheader : video.readFrameHeader = (.ok (some header), fd))
    (h : video.readFrame ready img = some (.ok true, video', img')) :
    ∃ n m, video.ySize = some n ∧ video.uvSize = some m ∧ n ≠ 0 ∧
      video'.fd.file = fd.file.advance (n + 2 * m) := by
  unfold readFrame at h
  split_ifs at h
  · simp at h
  rw [hheader] at h
  dsimp only at h
  split_ifs at h
  · simp at h
  split at h
  · simp at h
  · simp at h
  next fd' img'' hplanes =>
    obtain ⟨n, m, hn, hm, hpos, rfl⟩ := advance_of_readPlanes hplanes
    rw [Option.some_inj, Prod.mk.injEq, Prod.mk.injEq] at h
    rw [← h.2.1]
    exact ⟨n, m, hn, hm, hpos, rfl⟩

end Offset

/-! ## The sizes of a 4:2:0 picture -/

/-- The number of samples of a chroma plane. -/
def chromaSamples (w h : ℕ) : ℕ := (w + 1) / 2 * ((h + 1) / 2)

/-- What the sizes of pictures of a given width and height should be, and that a call of
`read_frame` should leave the file behind the frame. -/
structure SizesExact (displayWidth displayHeight : UInt16) : Prop where
  video : ∀ video : Yuv4mpeg, video.displayWidth = displayWidth →
    video.displayHeight = displayHeight →
    video.ySize = some (displayWidth.toNat * displayHeight.toNat) ∧
    video.uvSize = some (chromaSamples displayWidth.toNat displayHeight.toNat) ∧
    video.frameSize = some (displayWidth.toNat * displayHeight.toNat
      + 2 * chromaSamples displayWidth.toNat displayHeight.toNat)
  image : ∀ img : RawImage, img.displayWidth = displayWidth →
    img.displayHeight = displayHeight →
    img.ySize = some (displayWidth.toNat * displayHeight.toNat) ∧
    img.uvSize = some (chromaSamples displayWidth.toNat displayHeight.toNat)
  offset : ∀ (video video' : Yuv4mpeg) (ready : ℕ → ℕ → Ready) (img img' : RawImage)
    (header payload rest : Bytes) (fd : FileDescriptor), video.displayWidth = displayWidth →
    video.displayHeight = displayHeight → video.readFrameHeader = (.ok (some header), fd) →
    fd.file.ahead = payload ++ rest →
    payload.length = displayWidth.toNat * displayHeight.toNat
      + 2 * chromaSamples displayWidth.toNat displayHeight.toNat →
    video.readFrame ready img = some (.ok true, video', img') → video'.fd.file.ahead = rest

/-- The size of a frame that `frame_size` computes. -/
theorem frameSize_eq_some_iff {video : Yuv4mpeg} {n : ℕ} : video.frameSize = some n ↔
    3 * video.displayWidth.toNat * video.displayHeight.toNat < 2 ^ 31 ∧
      n = video.displayWidth.toNat * video.displayHeight.toNat * 3 / 2 := by
  have hassoc : 3 * video.displayWidth.toNat * video.displayHeight.toNat
      = video.displayWidth.toNat * video.displayHeight.toNat * 3 := by ring
  rw [hassoc]
  unfold frameSize
  generalize video.displayWidth.toNat * video.displayHeight.toNat = product
  cases hproduct : asInt product with
  | none =>
    refine iff_of_false (by simp) (fun h => ?_)
    have hsome := asInt_eq_some_iff.mpr ⟨(by omega : product < 2 ^ 31), rfl⟩
    rw [hproduct] at hsome
    simp at hsome
  | some k =>
    obtain ⟨hlt, rfl⟩ := asInt_eq_some_iff.mp hproduct
    dsimp only
    rw [Option.map_eq_some_iff]
    constructor
    · rintro ⟨k', hk', rfl⟩
      obtain ⟨hlt', rfl⟩ := asInt_eq_some_iff.mp hk'
      exact ⟨hlt', rfl⟩
    · rintro ⟨hlt', rfl⟩
      exact ⟨_, asInt_eq_some_iff.mpr ⟨hlt', rfl⟩, rfl⟩

/-- The sizes are exact if and only if no product overflows and no division rounds: three times
the number of samples fits into an `int`, and both dimensions are even or one of them is
zero. -/
theorem sizesExact_iff (displayWidth displayHeight : UInt16) :
    SizesExact displayWidth displayHeight ↔
      3 * displayWidth.toNat * displayHeight.toNat < 2 ^ 31 ∧
        ((Even displayWidth.toNat ∧ Even displayHeight.toNat) ∨
          displayWidth.toNat = 0 ∨ displayHeight.toNat = 0) := by
  have hassoc : 3 * displayWidth.toNat * displayHeight.toNat
      = 3 * (displayWidth.toNat * displayHeight.toNat) := Nat.mul_assoc _ _ _
  constructor
  · intro h
    obtain ⟨-, huv, hframe⟩ := h.video ⟨.ofFile ⟨[], 0⟩, displayWidth, displayHeight, true⟩ rfl rfl
    obtain ⟨hlt, -⟩ := frameSize_eq_some_iff.mp hframe
    refine ⟨hlt, RawImage.chroma_div_four_iff _ _ |>.mp ?_⟩
    obtain ⟨k, hk, hdiv⟩ := Option.map_eq_some_iff.mp huv
    obtain ⟨-, rfl⟩ := asInt_eq_some_iff.mp hk
    exact hdiv
  · rintro ⟨hlt, hparity⟩
    have hchroma : displayWidth.toNat * displayHeight.toNat / 4
        = chromaSamples displayWidth.toNat displayHeight.toNat :=
      (RawImage.chroma_div_four_iff _ _).mpr hparity
    have hproduct : displayWidth.toNat * displayHeight.toNat < 2 ^ 31 := by omega
    have hfour : 4 ∣ displayWidth.toNat * displayHeight.toNat := by
      rcases hparity with ⟨hw, hh⟩ | hzero | hzero
      · exact Nat.mul_dvd_mul hw.two_dvd hh.two_dvd
      · rw [hzero, Nat.zero_mul]
        exact Nat.dvd_zero 4
      · rw [hzero, Nat.mul_zero]
        exact Nat.dvd_zero 4
    have hvideo : ∀ video : Yuv4mpeg, video.displayWidth = displayWidth →
        video.displayHeight = displayHeight →
        video.ySize = some (displayWidth.toNat * displayHeight.toNat) ∧
        video.uvSize = some (chromaSamples displayWidth.toNat displayHeight.toNat) := by
      rintro video rfl rfl
      have hsize := asInt_eq_some_iff.mpr ⟨hproduct, rfl⟩
      refine ⟨hsize, ?_⟩
      rw [uvSize, hsize, ← hchroma]
      rfl
    refine ⟨?_, ?_, ?_⟩
    · rintro video rfl rfl
      obtain ⟨hy, huv⟩ := hvideo video rfl rfl
      refine ⟨hy, huv, frameSize_eq_some_iff.mpr ⟨hlt, ?_⟩⟩
      rw [← hchroma]
      omega
    · rintro img rfl rfl
      refine ⟨RawImage.ySize_eq_some_iff.mpr ⟨hproduct, rfl⟩, ?_⟩
      exact RawImage.uvSize_eq_some_iff.mpr ⟨hproduct, hchroma.symm⟩
    · intro video video' ready img img' header payload rest fd hw hh hheader hahead hlen hframe
      obtain ⟨n, m, hn, hm, -, hfile⟩ := advance_of_readFrame hheader hframe
      obtain ⟨hy, huv⟩ := hvideo video hw hh
      rw [hy, Option.some_inj] at hn
      rw [huv, Option.some_inj] at hm
      rw [hfile, OpenFile.ahead_advance, hahead, ← hn, ← hm, ← hlen, List.drop_left]

/-- A picture of three by two samples has two chroma samples in each plane, of which the sizes
count one; and the number of samples of the largest pictures overflows. -/
theorem exists_not_sizesExact :
    (∃ video : Yuv4mpeg, video.displayWidth = 3 ∧ video.displayHeight = 2 ∧
      video.uvSize = some 1 ∧ chromaSamples 3 2 = 2) ∧
    (∃ video : Yuv4mpeg, video.displayWidth = 65535 ∧ video.displayHeight = 65535 ∧
      video.ySize = none) ∧
    ¬ SizesExact 3 2 := by
  refine ⟨⟨⟨.ofFile ⟨[], 0⟩, 3, 2, true⟩, rfl, rfl, rfl, rfl⟩,
    ⟨⟨.ofFile ⟨[], 0⟩, 65535, 65535, true⟩, rfl, rfl, rfl⟩, ?_⟩
  intro h
  obtain ⟨-, huv, -⟩ := h.video ⟨.ofFile ⟨[], 0⟩, 3, 2, true⟩ rfl rfl
  exact absurd huv (by decide)

end Yuv4mpeg

end Ringmaster
