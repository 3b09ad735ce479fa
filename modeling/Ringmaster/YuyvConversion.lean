/-
# From YUYV to I420

The method `copy_from_yuyv` of `RawImage` takes apart a frame of a camera, in which two samples
of luma and one of each chroma plane alternate.  The pointer to the source is advanced by the
inner and by the outer loop, so that the chroma samples of odd rows are skipped.

Source and destination pointers are distances.  Reading outside of the source, moving the
source pointer behind its end and writing outside of a plane have no result.  The destinations
also keep a trace of what was written, which has no influence on anything.
-/
import Ringmaster.RawImage

open Memory

namespace Ringmaster

/-! ## Pointers -/

/-- A pointer that writes into memory: its distance from the beginning, and the distances to
which it wrote. -/
structure Dst (n : ℕ) where
  mem : Region UInt8 n
  pos : ℕ
  written : List ℕ

namespace Dst

variable {n : ℕ}

/-- A pointer to the beginning of a region. -/
def start (mem : Region UInt8 n) : Dst n := ⟨mem, 0, []⟩

/-- The statement `*dst++ = b`. -/
def put (dst : Dst n) (b : UInt8) : Option (Dst n) :=
  (dst.mem.memcpy dst.pos [b]).map fun mem => ⟨mem, dst.pos + 1, dst.written ++ [dst.pos]⟩

/-- The pointer has written the values `f` into the first `m` cells, each of them once, and
nothing else. -/
structure Filled (mem : Region UInt8 n) (f : ℕ → Option UInt8) (m : ℕ) (dst : Dst n) : Prop where
  pos : dst.pos = m
  written : dst.written = List.range m
  front : ∀ k < m, dst.mem.cells[k]? = f k
  rest : ∀ k, m ≤ k → dst.mem.cells[k]? = mem.cells[k]?

variable {mem : Region UInt8 n} {f : ℕ → Option UInt8} {m : ℕ} {dst : Dst n}

theorem filled_start (mem : Region UInt8 n) (f : ℕ → Option UInt8) :
    Filled mem f 0 (start mem) where
  pos := rfl
  written := rfl
  front := fun _ hk => absurd hk (Nat.not_lt_zero _)
  rest := fun _ _ => rfl

/-- Writing the next value. -/
theorem Filled.put (h : Filled mem f m dst) {b : UInt8} (hb : f m = some b) (hm : m < n) :
    ∃ dst', dst.put b = some dst' ∧ Filled mem f (m + 1) dst' := by
  have hroom : dst.pos + [b].length ≤ n := by
    rw [h.pos]
    exact hm
  obtain ⟨mem', hmem⟩ := (Region.exists_memcpy_iff (m := dst.mem)).mpr hroom
  have hcells := Region.getElem?_memcpy hmem
  refine ⟨⟨mem', dst.pos + 1, dst.written ++ [dst.pos]⟩, ?_, ?_, ?_, ?_, ?_⟩
  · unfold Dst.put
    rw [hmem]
    rfl
  · show dst.pos + 1 = m + 1
    rw [h.pos]
  · show dst.written ++ [dst.pos] = List.range (m + 1)
    rw [h.written, h.pos, List.range_succ]
  · intro k hk
    show mem'.cells[k]? = f k
    rw [hcells, h.pos]
    by_cases heq : k = m
    · subst heq
      simp [hb]
    · rw [if_neg (by simp only [List.length_singleton]; omega)]
      exact h.front k (by omega)
  · intro k hk
    show mem'.cells[k]? = mem.cells[k]?
    rw [hcells, h.pos, if_neg (by simp only [List.length_singleton]; omega)]
    exact h.rest k (by omega)

end Dst

/-- A source pointer that is moved forward; it may point behind the last byte. -/
def advanceSrc (src : Bytes) (p n : ℕ) : Option ℕ :=
  if p + n ≤ src.length then some (p + n) else none

theorem advanceSrc_of_le {src : Bytes} {p n : ℕ} (h : p + n ≤ src.length) :
    advanceSrc src p n = some (p + n) :=
  if_pos h

/-! ## The loops -/

section Loops

variable {k l : ℕ}

/-- The loop over the luma samples, with the number of rounds that are left. -/
def copyYLoop (src : Bytes) : ℕ → ℕ → Dst k → Option (Dst k)
  | 0, _, dstY => some dstY
  | rounds + 1, p, dstY =>
    match src[p]? with
    | none => none
    | some b =>
      match dstY.put b, advanceSrc src p 2 with
      | some dstY, some p => copyYLoop src rounds p dstY
      | _, _ => none

/-- The inner loop over the chroma samples of a row, with the number of rounds that are left. -/
def copyUvRow (src : Bytes) : ℕ → ℕ → Dst k → Dst l → Option (ℕ × Dst k × Dst l)
  | 0, p, dstU, dstV => some (p, dstU, dstV)
  | rounds + 1, p, dstU, dstV =>
    match src[p + 1]?, src[p + 3]? with
    | some b, some b' =>
      match dstU.put b, dstV.put b', advanceSrc src p 4 with
      | some dstU, some dstV, some p => copyUvRow src rounds p dstU dstV
      | _, _, _ => none
    | _, _ => none

/-- The outer loop over the rows, with the number of rounds that are left. -/
def copyUvLoop (src : Bytes) (displayWidth : ℕ) :
    ℕ → ℕ → Dst k → Dst l → Option (Dst k × Dst l)
  | 0, _, dstU, dstV => some (dstU, dstV)
  | rounds + 1, p, dstU, dstV =>
    match copyUvRow src (displayWidth / 2) p dstU dstV with
    | none => none
    | some (p, dstU, dstV) =>
      match advanceSrc src p (2 * displayWidth) with
      | none => none
      | some p => copyUvLoop src displayWidth rounds p dstU dstV

end Loops

namespace RawImage

/-- What `copy_from_yuyv` does: its result, the image that it leaves, and the bytes of each
plane that it wrote, in order. -/
structure Conversion where
  result : Except Exn Unit
  img : RawImage
  writtenY : List ℕ
  writtenU : List ℕ
  writtenV : List ℕ

/-- The method `copy_from_yuyv`. -/
def copyFromYuyv (img : RawImage) (src : Bytes) : Option Conversion :=
  match img.ySize with
  | none => none
  | some ySize =>
    -- expects YUYV to have size of 2 * W * H
    if src.length ≠ ySize * 2 then
      some ⟨.error (.runtimeError "RawImage: invalid YUYV size"), img, [], [], []⟩
    else
      match copyYLoop src ySize 0 (Dst.start img.yPlane.mem) with
      | none => none
      | some dstY =>
        match copyUvLoop src img.displayWidth.toNat (img.displayHeight.toNat / 2) 0
            (Dst.start img.uPlane.mem) (Dst.start img.vPlane.mem) with
        | none => none
        | some (dstU, dstV) =>
          some ⟨.ok (),
            { img with
              yPlane := { img.yPlane with mem := dstY.mem }
              uPlane := { img.uPlane with mem := dstU.mem }
              vPlane := { img.vPlane with mem := dstV.mem } },
            dstY.written, dstU.written, dstV.written⟩

/-! ## What the loops do -/

section LoopLemmas

variable {k l : ℕ} {src : Bytes}

/-- A byte inside of the source. -/
theorem exists_getElem?_eq_some (i : ℕ) (h : i < src.length) : ∃ b, src[i]? = some b :=
  ⟨src[i], List.getElem?_eq_getElem h⟩

/-- The first loop copies every other byte, from the beginning on. -/
theorem copyYLoop_eq {mem : Region UInt8 k} {total : ℕ} (hsrc : src.length = total * 2)
    (hroom : total ≤ k) (rounds m : ℕ) (dstY : Dst k) (hrounds : m + rounds = total)
    (h : dstY.Filled mem (fun i => src[2 * i]?) m) :
    ∃ dstY', copyYLoop src rounds (2 * m) dstY = some dstY' ∧
      dstY'.Filled mem (fun i => src[2 * i]?) total := by
  induction rounds generalizing m dstY with
  | zero =>
    rw [Nat.add_zero] at hrounds
    subst hrounds
    exact ⟨dstY, rfl, h⟩
  | succ rounds ih =>
    obtain ⟨b, hb⟩ := @exists_getElem?_eq_some src (2 * m) (by omega)
    obtain ⟨dstY₁, hput, hfilled⟩ := h.put hb (by omega)
    have hstep : advanceSrc src (2 * m) 2 = some (2 * (m + 1)) :=
      advanceSrc_of_le (by omega)
    obtain ⟨dstY', hloop, hdone⟩ := ih (m + 1) dstY₁ (by omega) hfilled
    refine ⟨dstY', ?_, hdone⟩
    rw [copyYLoop, hb]
    dsimp only
    rw [hput, hstep]
    exact hloop

/-- The byte of the source that becomes the sample `i` of a chroma plane with rows of `cw`
samples; it lies `off` bytes behind the luma sample of the same place. -/
def chromaByte (src : Bytes) (cw off i : ℕ) : Option UInt8 :=
  src[4 * (i / cw) * (2 * cw) + 4 * (i % cw) + off]?

/-- The sample in row `i` and column `j`. -/
theorem chromaByte_eq {cw i j : ℕ} (hj : j < cw) (off : ℕ) :
    chromaByte src cw off (i * cw + j) = src[8 * (i * cw) + 4 * j + off]? := by
  have hdiv : (i * cw + j) / cw = i := by
    rw [Nat.mul_comm, Nat.mul_add_div (by omega), Nat.div_eq_of_lt hj, Nat.add_zero]
  have hmod : (i * cw + j) % cw = j := by
    rw [Nat.mul_comm, Nat.mul_add_mod, Nat.mod_eq_of_lt hj]
  have hrow : 4 * i * (2 * cw) = 8 * (i * cw) := by ring
  rw [chromaByte, hdiv, hmod, hrow]

section Chroma

variable {memU : Region UInt8 k} {memV : Region UInt8 l} {cw ch : ℕ}

/-- The inner loop takes the chroma samples of one row, and ends behind the row. -/
theorem copyUvRow_eq (hsrc : src.length = 8 * (ch * cw)) (hroomU : ch * cw ≤ k)
    (hroomV : ch * cw ≤ l) {i : ℕ} (hi : i < ch) (rounds j : ℕ) (dstU : Dst k) (dstV : Dst l)
    (hrounds : j + rounds = cw)
    (hU : dstU.Filled memU (chromaByte src cw 1) (i * cw + j))
    (hV : dstV.Filled memV (chromaByte src cw 3) (i * cw + j)) :
    ∃ dstU' dstV', copyUvRow src rounds (8 * (i * cw) + 4 * j) dstU dstV
        = some (8 * (i * cw) + 4 * cw, dstU', dstV') ∧
      dstU'.Filled memU (chromaByte src cw 1) ((i + 1) * cw) ∧
      dstV'.Filled memV (chromaByte src cw 3) ((i + 1) * cw) := by
  have hnext : (i + 1) * cw = i * cw + cw := by rw [Nat.add_mul, Nat.one_mul]
  have hle : (i + 1) * cw ≤ ch * cw := Nat.mul_le_mul_right cw hi
  induction rounds generalizing j dstU dstV with
  | zero =>
    rw [Nat.add_zero] at hrounds
    subst hrounds
    rw [hnext]
    exact ⟨dstU, dstV, rfl, hU, hV⟩
  | succ rounds ih =>
    have hj : j < cw := by omega
    obtain ⟨b, hb⟩ := @exists_getElem?_eq_some src (8 * (i * cw) + 4 * j + 1) (by omega)
    obtain ⟨b', hb'⟩ := @exists_getElem?_eq_some src (8 * (i * cw) + 4 * j + 3) (by omega)
    obtain ⟨dstU₁, hputU, hU₁⟩ := hU.put ((chromaByte_eq hj 1).trans hb) (by omega)
    obtain ⟨dstV₁, hputV, hV₁⟩ := hV.put ((chromaByte_eq hj 3).trans hb') (by omega)
    have hstep : advanceSrc src (8 * (i * cw) + 4 * j) 4 = some (8 * (i * cw) + 4 * (j + 1)) :=
      advanceSrc_of_le (by omega)
    obtain ⟨dstU', dstV', hloop, hU', hV'⟩ := ih (j + 1) dstU₁ dstV₁ (by omega) hU₁ hV₁
    refine ⟨dstU', dstV', ?_, hU', hV'⟩
    rw [copyUvRow, hb, hb']
    dsimp only
    rw [hputU, hputV, hstep]
    exact hloop

/-- The outer loop takes the chroma samples of every other row, and ends at the end of the
source. -/
theorem copyUvLoop_eq (hsrc : src.length = 8 * (ch * cw)) (hroomU : ch * cw ≤ k)
    (hroomV : ch * cw ≤ l) (rounds i : ℕ) (dstU : Dst k) (dstV : Dst l)
    (hrounds : i + rounds = ch)
    (hU : dstU.Filled memU (chromaByte src cw 1) (i * cw))
    (hV : dstV.Filled memV (chromaByte src cw 3) (i * cw)) :
    ∃ dstU' dstV', copyUvLoop src (2 * cw) rounds (8 * (i * cw)) dstU dstV
        = some (dstU', dstV') ∧
      dstU'.Filled memU (chromaByte src cw 1) (ch * cw) ∧
      dstV'.Filled memV (chromaByte src cw 3) (ch * cw) := by
  induction rounds generalizing i dstU dstV with
  | zero =>
    rw [Nat.add_zero] at hrounds
    subst hrounds
    exact ⟨dstU, dstV, rfl, hU, hV⟩
  | succ rounds ih =>
    have hi : i < ch := by omega
    have hnext : (i + 1) * cw = i * cw + cw := by rw [Nat.add_mul, Nat.one_mul]
    have hle : (i + 1) * cw ≤ ch * cw := Nat.mul_le_mul_right cw hi
    have hhalf : 2 * cw / 2 = cw := by omega
    obtain ⟨dstU₁, dstV₁, hrow, hU₁, hV₁⟩ :=
      copyUvRow_eq hsrc hroomU hroomV hi cw 0 dstU dstV (Nat.zero_add cw) hU hV
    -- the inner loop has advanced the pointer by a row, the outer one skips the next row
    have hstep : advanceSrc src (8 * (i * cw) + 4 * cw) (2 * (2 * cw))
        = some (8 * ((i + 1) * cw)) := by
      rw [advanceSrc_of_le (by omega)]
      congr 1
      omega
    obtain ⟨dstU', dstV', hloop, hU', hV'⟩ := ih (i + 1) dstU₁ dstV₁ (by omega) hU₁ hV₁
    refine ⟨dstU', dstV', ?_, hU', hV'⟩
    rw [copyUvLoop, hhalf]
    rw [Nat.mul_zero, Nat.add_zero] at hrow
    rw [hrow]
    dsimp only
    rw [hstep]
    exact hloop

end Chroma

end LoopLemmas

/-! ## The conversion -/

/-- What `copy_from_yuyv` should make of a source of the right size: it takes the luma samples
and, of every other row, the chroma samples, and writes every byte of a plane once. -/
structure ConvertsExactly (img : RawImage) (src : Bytes) (r : Conversion) : Prop where
  result : r.result = .ok ()
  dims : r.img.displayWidth = img.displayWidth ∧ r.img.displayHeight = img.displayHeight
  sampleY : ∀ row < img.displayHeight.toNat, ∀ col < img.displayWidth.toNat,
    r.img.yPlane.sample row col = src[2 * (row * img.displayWidth.toNat + col)]?
  sampleU : ∀ i < img.displayHeight.toNat / 2, ∀ j < img.displayWidth.toNat / 2,
    r.img.uPlane.sample i j = src[4 * i * img.displayWidth.toNat + 4 * j + 1]?
  sampleV : ∀ i < img.displayHeight.toNat / 2, ∀ j < img.displayWidth.toNat / 2,
    r.img.vPlane.sample i j = src[4 * i * img.displayWidth.toNat + 4 * j + 3]?
  writtenY : r.writtenY = List.range (img.displayHeight.toNat * img.displayWidth.toNat)
  writtenU : r.writtenU
    = List.range (img.displayHeight.toNat / 2 * (img.displayWidth.toNat / 2))
  writtenV : r.writtenV
    = List.range (img.displayHeight.toNat / 2 * (img.displayWidth.toNat / 2))

section Conversion

variable {img : RawImage}

/-- A source of the wrong size is refused. -/
theorem copyFromYuyv_of_length_ne (hlt : img.displayWidth.toNat * img.displayHeight.toNat < 2 ^ 31)
    {src : Bytes} (hsrc : src.length ≠ 2 * img.displayWidth.toNat * img.displayHeight.toNat) :
    img.copyFromYuyv src
      = some ⟨.error (.runtimeError "RawImage: invalid YUYV size"), img, [], [], []⟩ := by
  have hsize := ySize_eq_some_iff.mpr ⟨hlt, rfl⟩
  have hne : src.length ≠ img.displayWidth.toNat * img.displayHeight.toNat * 2 := by
    rw [Nat.mul_comm _ 2, ← Nat.mul_assoc]
    exact hsrc
  unfold copyFromYuyv
  rw [hsize]
  dsimp only
  rw [if_pos hne]

/-- The sample of a plane without gaps is the cell of its number. -/
theorem sample_of_filled {plane : Plane} {width height : ℕ}
    (hcontiguous : plane.Contiguous width height) {f : ℕ → Option UInt8}
    {dst : Dst plane.size} (h : dst.Filled plane.mem f (height * width)) {r c : ℕ}
    (hr : r < height) (hc : c < width) :
    ({ plane with mem := dst.mem } : Plane).sample r c = f (r * width + c) := by
  have hlt : r * width + c < height * width := by
    rw [Nat.mul_comm r]
    exact Nat.mul_add_lt_mul_of_lt_of_lt hr hc
  show dst.mem.cells[r * plane.stride + c]? = f (r * width + c)
  rw [hcontiguous.stride_eq]
  exact h.front _ hlt

/-- The sample of a chroma plane without gaps is the byte of the source at the even row and the
even column; `off` tells the planes apart. -/
theorem sample_of_filled_chroma {plane : Plane} {cw ch : ℕ} (hcontiguous : plane.Contiguous cw ch)
    {src : Bytes} {off : ℕ} {dst : Dst plane.size}
    (h : dst.Filled plane.mem (chromaByte src cw off) (ch * cw)) {i j : ℕ} (hi : i < ch)
    (hj : j < cw) :
    ({ plane with mem := dst.mem } : Plane).sample i j = src[4 * i * (2 * cw) + 4 * j + off]? := by
  have hrow : 4 * i * (2 * cw) = 8 * (i * cw) := by ring
  rw [sample_of_filled hcontiguous h hi hj, chromaByte_eq hj, hrow]

/-- A source of the right size is converted by the loops. -/
theorem copyFromYuyv_of_loops {src : Bytes} {ySize : ℕ} (hsize : img.ySize = some ySize)
    (hsrc : src.length = ySize * 2) {dstY : Dst img.yPlane.size} {dstU : Dst img.uPlane.size}
    {dstV : Dst img.vPlane.size}
    (hloopY : copyYLoop src ySize 0 (Dst.start img.yPlane.mem) = some dstY)
    (hloopUv : copyUvLoop src img.displayWidth.toNat (img.displayHeight.toNat / 2) 0
      (Dst.start img.uPlane.mem) (Dst.start img.vPlane.mem) = some (dstU, dstV)) :
    img.copyFromYuyv src = some ⟨.ok (),
      { img with
        yPlane := { img.yPlane with mem := dstY.mem }
        uPlane := { img.uPlane with mem := dstU.mem }
        vPlane := { img.vPlane with mem := dstV.mem } },
      dstY.written, dstU.written, dstV.written⟩ := by
  unfold copyFromYuyv
  rw [hsize]
  dsimp only
  rw [if_neg (not_not.mpr hsrc), hloopY]
  dsimp only
  rw [hloopUv]

/-- A source of the right size is converted, without reading or writing outside. -/
theorem exists_copyFromYuyv (hwidth : Even img.displayWidth.toNat)
    (hheight : Even img.displayHeight.toNat)
    (hlt : img.displayWidth.toNat * img.displayHeight.toNat < 2 ^ 31)
    (hy : img.yPlane.Contiguous img.displayWidth.toNat img.displayHeight.toNat)
    (hu : img.uPlane.Contiguous (img.displayWidth.toNat / 2) (img.displayHeight.toNat / 2))
    (hv : img.vPlane.Contiguous (img.displayWidth.toNat / 2) (img.displayHeight.toNat / 2))
    {src : Bytes} (hsrc : src.length = 2 * img.displayWidth.toNat * img.displayHeight.toNat) :
    ∃ r, img.copyFromYuyv src = some r ∧ ConvertsExactly img src r := by
  have hsize := ySize_eq_some_iff.mpr ⟨hlt, rfl⟩
  obtain ⟨cw, hcw⟩ := even_iff_exists_two_mul.mp hwidth
  obtain ⟨ch, hch⟩ := even_iff_exists_two_mul.mp hheight
  have hcw' : img.displayWidth.toNat / 2 = cw := by omega
  have hch' : img.displayHeight.toNat / 2 = ch := by omega
  have htotal : src.length = img.displayWidth.toNat * img.displayHeight.toNat * 2 := by
    rw [hsrc]
    ring
  have hlen : src.length = 8 * (ch * cw) := by
    rw [hsrc, hcw, hch]
    ring
  rw [hcw', hch'] at hu hv
  -- the loops
  obtain ⟨dstY, hloopY, hY⟩ := copyYLoop_eq htotal
    (by rw [Nat.mul_comm]; exact hy.fits) _ 0 (Dst.start img.yPlane.mem) (Nat.zero_add _)
    (Dst.filled_start _ _)
  obtain ⟨dstU, dstV, hloopUv, hU, hV⟩ := copyUvLoop_eq hlen hu.fits hv.fits ch 0
    (Dst.start img.uPlane.mem) (Dst.start img.vPlane.mem) (Nat.zero_add ch)
    (by rw [Nat.zero_mul]; exact Dst.filled_start _ _)
    (by rw [Nat.zero_mul]; exact Dst.filled_start _ _)
  rw [Nat.mul_zero] at hloopY
  rw [Nat.zero_mul, Nat.mul_zero, ← hcw] at hloopUv
  have hloopUv' : copyUvLoop src img.displayWidth.toNat (img.displayHeight.toNat / 2) 0
      (Dst.start img.uPlane.mem) (Dst.start img.vPlane.mem) = some (dstU, dstV) := by
    rw [hch']
    exact hloopUv
  rw [Nat.mul_comm img.displayWidth.toNat] at hY
  refine ⟨_, copyFromYuyv_of_loops hsize htotal hloopY hloopUv', rfl, ⟨rfl, rfl⟩,
    ?_, ?_, ?_, ?_, ?_, ?_⟩
  · intro row hrow col hcol
    exact sample_of_filled hy hY hrow hcol
  · intro i hi j hj
    rw [hch'] at hi
    rw [hcw'] at hj
    rw [hcw]
    exact sample_of_filled_chroma hu hU hi hj
  · intro i hi j hj
    rw [hch'] at hi
    rw [hcw'] at hj
    rw [hcw]
    exact sample_of_filled_chroma hv hV hi hj
  · exact hY.written
  · rw [hcw', hch']
    exact hU.written
  · rw [hcw', hch']
    exact hV.written

/-- The conversion is exact.  For every image of even width and height whose planes have no
gaps, and whose number of samples an `int` can hold, every source of the right size is
converted without reading or writing outside, and a source of any other size is refused and
leaves the image as it is. -/
theorem copyFromYuyv_exact (hwidth : Even img.displayWidth.toNat)
    (hheight : Even img.displayHeight.toNat)
    (hlt : img.displayWidth.toNat * img.displayHeight.toNat < 2 ^ 31)
    (hy : img.yPlane.Contiguous img.displayWidth.toNat img.displayHeight.toNat)
    (hu : img.uPlane.Contiguous (img.displayWidth.toNat / 2) (img.displayHeight.toNat / 2))
    (hv : img.vPlane.Contiguous (img.displayWidth.toNat / 2) (img.displayHeight.toNat / 2)) :
    (∀ src : Bytes, src.length = 2 * img.displayWidth.toNat * img.displayHeight.toNat →
      ∃ r, img.copyFromYuyv src = some r ∧ ConvertsExactly img src r) ∧
    ∀ src : Bytes, src.length ≠ 2 * img.displayWidth.toNat * img.displayHeight.toNat →
      img.copyFromYuyv src
        = some ⟨.error (.runtimeError "RawImage: invalid YUYV size"), img, [], [], []⟩ :=
  ⟨fun _ hsrc => exists_copyFromYuyv hwidth hheight hlt hy hu hv hsrc,
    fun _ hsrc => copyFromYuyv_of_length_ne hlt hsrc⟩

end Conversion

/-- An image of two by two samples. -/
def twoByTwo : RawImage where
  yPlane := ⟨4, Region.replicate 4 0, 2⟩
  uPlane := ⟨1, Region.replicate 1 0, 1⟩
  vPlane := ⟨1, Region.replicate 1 0, 1⟩
  ownVpxImg := true
  displayWidth := 2
  displayHeight := 2

/-- A frame of two by two samples is converted. -/
theorem copyFromYuyv_exact_twoByTwo :
    ∃ r, twoByTwo.copyFromYuyv [1, 2, 3, 4, 5, 6, 7, 8] = some r ∧
      ConvertsExactly twoByTwo [1, 2, 3, 4, 5, 6, 7, 8] r :=
  (@copyFromYuyv_exact twoByTwo (by decide) (by decide) (by decide) ⟨rfl, by decide⟩
    ⟨rfl, by decide⟩ ⟨rfl, by decide⟩).1 _ rfl

end RawImage

end Ringmaster
