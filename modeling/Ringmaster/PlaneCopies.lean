/-
# Writers and readers of planes

The methods `copy_y_from`, `copy_u_from` and `copy_v_from` of `RawImage` copy a plane in one
piece, while its readers, such as `VideoDisplay::show_frame`, address its rows by the stride
that the class publishes.  The two agree if and only if the rows of the plane follow each
other without a gap, or there is only one of them; and in addition the size that is computed
for a chroma plane has to be the number of its samples (`copies_iff`).  An image of odd width
that libvpx allocates has gaps.
-/
import Ringmaster.RawImage

open Memory

namespace Ringmaster

namespace Plane

/-- What a copy of `src` should make of a plane of `width` by `height` samples: a reader finds
the samples of the source, and what is not a sample is as before. -/
structure Shows (plane plane' : Plane) (width height : ℕ) (src : Bytes) : Prop where
  sample : ∀ r < height, ∀ c < width, plane'.sample r c = src[r * width + c]?
  rest : ∀ i, (∀ r < height, ∀ c < width, i ≠ r * plane.stride + c) →
    plane'.mem.cells[i]? = plane.mem.cells[i]?

/-- Every source of `n` bytes can be copied into a plane. -/
def Copies (plane : Plane) (width height n : ℕ) : Prop :=
  ∀ src : Bytes, src.length = n →
    ∃ plane', plane.memcpy src = some plane' ∧ plane.Shows plane' width height src

section Copies

variable {plane : Plane} {width height n : ℕ}

/-- The last sample of a plane lies behind all the samples before it. -/
theorem Holds.mul_le_size (h : plane.Holds width height) (hheight : 0 < height) :
    height * width ≤ plane.size := by
  obtain ⟨k, rfl⟩ : ∃ k, height = k + 1 := ⟨height - 1, by omega⟩
  have hfits := h.fits k (Nat.lt_succ_self k)
  have hstride : k * width ≤ k * plane.stride := Nat.mul_le_mul_left k h.width_le_stride
  rw [Nat.add_mul, Nat.one_mul]
  omega

/-- Without gaps between the rows, samples and cells are in the same order. -/
theorem copies_of_stride (hfits : height * width ≤ plane.size)
    (hgap : plane.stride = width ∨ height ≤ 1 ∨ width = 0) :
    plane.Copies width height (width * height) := by
  intro src hlen
  have hle : src.length ≤ plane.size := by rw [hlen, Nat.mul_comm]; exact hfits
  obtain ⟨plane', hcopy⟩ := exists_memcpy hle
  obtain ⟨hstride, hcells⟩ := memcpy_cells hcopy
  refine ⟨plane', hcopy, ?_, ?_⟩
  · intro r hr c hc
    have hrow : r * plane.stride = r * width := by
      rcases hgap with heq | hone | hzero
      · rw [heq]
      · rw [show r = 0 from by omega, Nat.zero_mul, Nat.zero_mul]
      · omega
    have hlt : r * width + c < src.length := by
      rw [hlen, Nat.mul_comm width height, Nat.mul_comm r width]
      exact Nat.mul_add_lt_mul_of_lt_of_lt hr hc
    rw [sample, hstride, hrow, hcells, if_pos hlt]
  · intro i hi
    rw [hcells, if_neg]
    rintro hlt
    rw [hlen] at hlt
    -- a cell that is written is one of the samples
    have hwidth : 0 < width := Nat.pos_of_ne_zero (by rintro rfl; simp at hlt)
    have hrow : i / width < height := Nat.div_lt_of_lt_mul hlt
    refine hi (i / width) hrow (i % width) (Nat.mod_lt i hwidth) ?_
    rcases hgap with heq | hone | hzero
    · rw [heq, Nat.mul_comm, Nat.div_add_mod]
    · have hzero : i / width = 0 := Nat.lt_one_iff.mp (lt_of_lt_of_le hrow hone)
      have hdiv := Nat.div_add_mod i width
      rw [hzero, Nat.mul_zero, Nat.zero_add] at hdiv
      rw [hzero, Nat.zero_mul, Nat.zero_add, hdiv]
    · omega

/-- A source with too few bytes leaves out the last sample. -/
theorem eq_mul_of_copies (hholds : plane.Holds width height) (h : plane.Copies width height n)
    (hn : n ≤ width * height) : n = width * height := by
  by_contra hne
  have hlt : n < width * height := by omega
  have hwidth : 0 < width := Nat.pos_of_ne_zero (by rintro rfl; simp at hlt)
  have hheight : 0 < height := Nat.pos_of_ne_zero (by rintro rfl; simp at hlt)
  obtain ⟨plane', hcopy, hshows⟩ := h (List.replicate n 0) List.length_replicate
  obtain ⟨hstride, hcells⟩ := memcpy_cells hcopy
  have hrow : height - 1 < height := by omega
  have hcol : width - 1 < width := by omega
  have hsample := hshows.sample (height - 1) hrow (width - 1) hcol
  have hlast : (height - 1) * width + (width - 1) + 1 = width * height := by
    obtain ⟨k, rfl⟩ : ∃ k, height = k + 1 := ⟨height - 1, by omega⟩
    rw [Nat.add_sub_cancel, Nat.mul_comm width, Nat.add_mul, Nat.one_mul]
    omega
  have hsrc : (List.replicate n (0 : UInt8))[(height - 1) * width + (width - 1)]? = none := by
    rw [List.getElem?_eq_none_iff, List.length_replicate]
    omega
  have hinside : (height - 1) * plane.stride + (width - 1) < plane'.mem.cells.length := by
    have hsize : plane'.size = plane.size := by
      unfold memcpy at hcopy
      obtain ⟨mem, -, rfl⟩ := Option.map_eq_some_iff.mp hcopy
      rfl
    rw [plane'.mem.length_eq, hsize]
    have hfits := hholds.fits (height - 1) hrow
    omega
  rw [hsrc, sample, hstride, List.getElem?_eq_none_iff] at hsample
  omega

/-- With a gap behind the first row, the second row is looked for behind its beginning. -/
theorem stride_of_copies (hholds : plane.Holds width height)
    (h : plane.Copies width height (width * height)) :
    plane.stride = width ∨ height ≤ 1 ∨ width = 0 := by
  by_contra hgap
  push Not at hgap
  obtain ⟨hstride, hheight, hwidth⟩ := hgap
  have hlt : width < plane.stride := lt_of_le_of_ne hholds.width_le_stride (Ne.symm hstride)
  have hsecond : 1 * width + 0 < width * height := by
    rw [Nat.one_mul, Nat.add_zero]
    exact lt_mul_of_one_lt_right (by omega) hheight
  -- what the reader finds in the second row does not depend on the source there
  have hfound : ∀ b : UInt8,
      (if plane.stride < width * height then some 0 else plane.mem.cells[plane.stride]?)
        = some b := by
    intro b
    let src := (List.replicate (width * height) (0 : UInt8)).set width b
    have hlen : src.length = width * height := by
      rw [List.length_set, List.length_replicate]
    obtain ⟨plane', hcopy, hshows⟩ := h src hlen
    obtain ⟨hstride', hcells⟩ := memcpy_cells hcopy
    have hsample := hshows.sample 1 hheight 0 (by omega)
    rw [sample, hstride', hcells, hlen, Nat.one_mul, Nat.one_mul, Nat.add_zero,
      Nat.add_zero] at hsample
    have hsrc : src[width]? = some b := by
      rw [List.getElem?_set_self]
      rw [List.length_replicate]
      omega
    rw [hsrc] at hsample
    rw [← hsample]
    split_ifs with hin
    · rw [List.getElem?_set_ne (by omega), List.getElem?_replicate, if_pos hin]
    · rfl
  have hzero := hfound 0
  rw [hfound 1] at hzero
  simp at hzero

/-- A plane that holds its samples takes every source if and only if the sources have the
right size and there are no gaps. -/
theorem copies_iff_stride (hholds : plane.Holds width height) (hn : n ≤ width * height) :
    plane.Copies width height n ↔
      n = width * height ∧ (plane.stride = width ∨ height ≤ 1 ∨ width = 0) := by
  constructor
  · intro h
    have heq := eq_mul_of_copies hholds h hn
    rw [heq] at h
    exact ⟨heq, stride_of_copies hholds h⟩
  · rintro ⟨rfl, hgap⟩
    apply copies_of_stride ?_ hgap
    rcases Nat.eq_zero_or_pos height with rfl | hpos
    · rw [Nat.zero_mul]
      exact Nat.zero_le _
    · exact hholds.mul_le_size hpos

end Copies

end Plane

namespace RawImage

/-! ## The writers of an image -/

/-- A writer of one plane of an image agrees with the readers of the plane: it has an accepted
size, and every source of this size shows up in the plane, while the other planes stay. -/
def WriterAgrees (size : Option ℕ) (writer : Bytes → Option (Except Exn Unit × RawImage))
    (plane : Plane) (withPlane : Plane → RawImage) (width height : ℕ) : Prop :=
  ∃ n, size = some n ∧ ∀ src : Bytes, src.length = n →
    ∃ plane', writer src = some (.ok (), withPlane plane') ∧
      plane.Shows plane' width height src

/-- The method `copy_y_from` agrees with the readers of the luma plane. -/
def CopyYAgrees (img : RawImage) : Prop :=
  WriterAgrees img.ySize img.copyYFrom img.yPlane (fun plane => { img with yPlane := plane })
    img.displayWidth.toNat img.displayHeight.toNat

/-- The method `copy_u_from` agrees with the readers of the first chroma plane. -/
def CopyUAgrees (img : RawImage) : Prop :=
  WriterAgrees img.uvSize img.copyUFrom img.uPlane (fun plane => { img with uPlane := plane })
    img.chromaWidth img.chromaHeight

/-- The method `copy_v_from` agrees with the readers of the second chroma plane. -/
def CopyVAgrees (img : RawImage) : Prop :=
  WriterAgrees img.uvSize img.copyVFrom img.vPlane (fun plane => { img with vPlane := plane })
    img.chromaWidth img.chromaHeight

/-- A writer that copies into its plane agrees with the readers if and only if the copies do. -/
theorem writerAgrees_iff {size : Option ℕ} {plane : Plane} {what : String}
    {withPlane : Plane → RawImage} (proj : RawImage → Plane)
    (hproj : ∀ plane, proj (withPlane plane) = plane) {width height : ℕ} :
    WriterAgrees size
        (fun src => (copyPlane size plane src what).map fun (result, plane) =>
          (result, withPlane plane))
        plane withPlane width height ↔
      ∃ n, size = some n ∧ plane.Copies width height n := by
  refine exists_congr fun n => and_congr_right fun hsize => ?_
  subst hsize
  refine forall_congr' fun src => forall_congr' fun hlen => exists_congr fun plane' =>
    and_congr_left fun _ => ?_
  dsimp only
  rw [copyPlane_of_length what hlen, Option.map_map, Option.map_eq_some_iff]
  constructor
  · rintro ⟨plane'', hcopy, heq⟩
    have hplane : withPlane plane'' = withPlane plane' := (Prod.mk.inj heq).2
    have hsame := congrArg proj hplane
    rw [hproj, hproj] at hsame
    rw [hcopy, hsame]
  · intro hcopy
    exact ⟨plane', hcopy, rfl⟩

/-- The size that `uv_size` computes is never too large. -/
theorem chroma_div_four_le (w h : ℕ) : w * h / 4 ≤ (w + 1) / 2 * ((h + 1) / 2) := by
  have hw : w ≤ 2 * ((w + 1) / 2) := by omega
  have hh : h ≤ 2 * ((h + 1) / 2) := by omega
  have hprod : w * h ≤ 4 * ((w + 1) / 2 * ((h + 1) / 2)) := by
    calc w * h ≤ 2 * ((w + 1) / 2) * (2 * ((h + 1) / 2)) := Nat.mul_le_mul hw hh
      _ = 4 * ((w + 1) / 2 * ((h + 1) / 2)) := by ring
  omega

section Agrees

variable {img : RawImage}

/-- When the writer of the luma plane agrees with its readers. -/
theorem copyYAgrees_iff (hholds : img.yPlane.Holds img.displayWidth.toNat
    img.displayHeight.toNat) :
    CopyYAgrees img ↔ img.displayWidth.toNat * img.displayHeight.toNat < 2 ^ 31 ∧
      (img.yPlane.stride = img.displayWidth.toNat ∨ img.displayHeight.toNat ≤ 1 ∨
        img.displayWidth.toNat = 0) := by
  refine (@writerAgrees_iff _ _ _ (fun plane => { img with yPlane := plane })
    RawImage.yPlane (fun _ => rfl) _ _).trans ?_
  constructor
  · rintro ⟨n, hsize, hcopies⟩
    obtain ⟨hlt, rfl⟩ := ySize_eq_some_iff.mp hsize
    exact ⟨hlt, ((Plane.copies_iff_stride hholds le_rfl).mp hcopies).2⟩
  · rintro ⟨hlt, hgap⟩
    exact ⟨_, ySize_eq_some_iff.mpr ⟨hlt, rfl⟩,
      (Plane.copies_iff_stride hholds le_rfl).mpr ⟨rfl, hgap⟩⟩

/-- When a writer of a chroma plane agrees with its readers. -/
theorem exists_copies_chroma_iff {plane : Plane}
    (hholds : plane.Holds img.chromaWidth img.chromaHeight) :
    (∃ n, img.uvSize = some n ∧ plane.Copies img.chromaWidth img.chromaHeight n) ↔
      img.displayWidth.toNat * img.displayHeight.toNat < 2 ^ 31 ∧
      ((Even img.displayWidth.toNat ∧ Even img.displayHeight.toNat) ∨
        img.displayWidth.toNat = 0 ∨ img.displayHeight.toNat = 0) ∧
      (plane.stride = img.chromaWidth ∨ img.chromaHeight ≤ 1 ∨ img.chromaWidth = 0) := by
  have hle : img.displayWidth.toNat * img.displayHeight.toNat / 4
      ≤ img.chromaWidth * img.chromaHeight := chroma_div_four_le _ _
  rw [← chroma_div_four_iff]
  constructor
  · rintro ⟨n, hsize, hcopies⟩
    obtain ⟨hlt, rfl⟩ := uvSize_eq_some_iff.mp hsize
    obtain ⟨heq, hgap⟩ := (Plane.copies_iff_stride hholds hle).mp hcopies
    exact ⟨hlt, heq, hgap⟩
  · rintro ⟨hlt, heq, hgap⟩
    exact ⟨_, uvSize_eq_some_iff.mpr ⟨hlt, rfl⟩,
      (Plane.copies_iff_stride hholds hle).mpr ⟨heq, hgap⟩⟩

/-- The writers of an image against the readers of its planes.  For every image whose planes
hold their samples, with any strides, `copy_y_from` agrees with the readers if and only if
there are no gaps between the rows; and `copy_u_from` and `copy_v_from` do if and only if in
addition both dimensions of the image are even, or it is empty.  The number of samples has to
be one that an `int` can hold. -/
theorem copies_iff
    (hy : img.yPlane.Holds img.displayWidth.toNat img.displayHeight.toNat)
    (hu : img.uPlane.Holds img.chromaWidth img.chromaHeight)
    (hv : img.vPlane.Holds img.chromaWidth img.chromaHeight) :
    (CopyYAgrees img ↔ img.displayWidth.toNat * img.displayHeight.toNat < 2 ^ 31 ∧
      (img.yPlane.stride = img.displayWidth.toNat ∨ img.displayHeight.toNat ≤ 1 ∨
        img.displayWidth.toNat = 0)) ∧
    (CopyUAgrees img ↔ img.displayWidth.toNat * img.displayHeight.toNat < 2 ^ 31 ∧
      ((Even img.displayWidth.toNat ∧ Even img.displayHeight.toNat) ∨
        img.displayWidth.toNat = 0 ∨ img.displayHeight.toNat = 0) ∧
      (img.uPlane.stride = img.chromaWidth ∨ img.chromaHeight ≤ 1 ∨ img.chromaWidth = 0)) ∧
    (CopyVAgrees img ↔ img.displayWidth.toNat * img.displayHeight.toNat < 2 ^ 31 ∧
      ((Even img.displayWidth.toNat ∧ Even img.displayHeight.toNat) ∨
        img.displayWidth.toNat = 0 ∨ img.displayHeight.toNat = 0) ∧
      (img.vPlane.stride = img.chromaWidth ∨ img.chromaHeight ≤ 1 ∨ img.chromaWidth = 0)) := by
  refine ⟨copyYAgrees_iff hy, ?_, ?_⟩
  · exact (@writerAgrees_iff _ _ _ (fun plane => { img with uPlane := plane })
      RawImage.uPlane (fun _ => rfl) _ _).trans (exists_copies_chroma_iff hu)
  · exact (@writerAgrees_iff _ _ _ (fun plane => { img with vPlane := plane })
      RawImage.vPlane (fun _ => rfl) _ _).trans (exists_copies_chroma_iff hv)

end Agrees

/-- An image of three by two samples with a stride of four, as libvpx pads odd widths. -/
def paddedImage : RawImage where
  yPlane := ⟨8, Region.replicate 8 0, 4⟩
  uPlane := ⟨2, Region.replicate 2 0, 2⟩
  vPlane := ⟨2, Region.replicate 2 0, 2⟩
  ownVpxImg := true
  displayWidth := 3
  displayHeight := 2

theorem holds_yPlane_paddedImage : paddedImage.yPlane.Holds 3 2 := ⟨by decide, by decide⟩

/-- An image of two by two samples without gaps. -/
def smallImage : RawImage where
  yPlane := ⟨4, Region.replicate 4 0, 2⟩
  uPlane := ⟨1, Region.replicate 1 0, 1⟩
  vPlane := ⟨1, Region.replicate 1 0, 1⟩
  ownVpxImg := false
  displayWidth := 2
  displayHeight := 2

/-- The three writers of a small image agree with its readers. -/
theorem copies_iff_smallImage :
    CopyYAgrees smallImage ∧ CopyUAgrees smallImage ∧ CopyVAgrees smallImage := by
  have h := @copies_iff smallImage ⟨by decide, by decide⟩ ⟨by decide, by decide⟩
    ⟨by decide, by decide⟩
  exact ⟨h.1.mpr (by decide), h.2.1.mpr (by decide), h.2.2.mpr (by decide)⟩

/-- In an image of odd width, the reader of the second row finds the wrong sample: it is the
second one of the row that was written. -/
theorem exists_not_copyYAgrees :
    (∃ img', paddedImage.copyYFrom [1, 2, 3, 4, 5, 6] = some (.ok (), img') ∧
      img'.yPlane.sample 1 0 = some 5 ∧ ([1, 2, 3, 4, 5, 6] : Bytes)[1 * 3 + 0]? = some 4) ∧
    ¬ CopyYAgrees paddedImage := by
  refine ⟨⟨_, rfl, rfl, rfl⟩, ?_⟩
  rw [copyYAgrees_iff holds_yPlane_paddedImage]
  decide

end RawImage

end Ringmaster
