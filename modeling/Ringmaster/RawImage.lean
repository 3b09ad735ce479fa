/-
# Raw images

The class `RawImage` of `src/video/image.hh` and `image.cc`, a wrapper of an image of libvpx
in the format I420: one plane of luma samples, and two of chroma samples.  A plane is a region
of memory with the distance between its rows, the stride; readers address the sample in row
`r` and column `c` of a plane at `r * stride + c`.

Sizes of planes are computed in the type `int`, to which both 16-bit dimensions are promoted.
A product outside of that type, and a write outside of a plane, are undefined behaviour, for
which the methods have no result.
-/
import Ringmaster.Library.Memory
import Ringmaster.Serialization

open Memory

namespace Ringmaster

/-! ## Sizes -/

/-- A non-negative value of the type `int`; `none` when it overflows. -/
def asInt (n : ℕ) : Option ℕ := if n < 2 ^ 31 then some n else none

theorem asInt_eq_some_iff {n m : ℕ} : asInt n = some m ↔ n < 2 ^ 31 ∧ m = n := by
  unfold asInt
  split_ifs with h
  · rw [Option.some_inj]
    exact ⟨fun heq => ⟨h, heq.symm⟩, fun heq => heq.2.symm⟩
  · exact iff_of_false (by simp) (fun hlt => h hlt.1)

/-! ## The class -/

/-- A plane of an image: its memory, and the distance between its rows. -/
structure Plane where
  size : ℕ
  mem : Region UInt8 size
  stride : ℕ

namespace Plane

/-- The sample that a reader finds in row `r` and column `c`. -/
def sample (plane : Plane) (r c : ℕ) : Option UInt8 := plane.mem.cells[r * plane.stride + c]?

/-- A plane of `width` by `height` samples lies inside of its memory, and its rows do not
overlap. -/
structure Holds (plane : Plane) (width height : ℕ) : Prop where
  width_le_stride : width ≤ plane.stride
  fits : ∀ r < height, r * plane.stride + width ≤ plane.size

/-- The rows of a plane follow each other without a gap. -/
structure Contiguous (plane : Plane) (width height : ℕ) : Prop where
  stride_eq : plane.stride = width
  fits : height * width ≤ plane.size

/-- A call of `memcpy` to the beginning of a plane. -/
def memcpy (plane : Plane) (src : Bytes) : Option Plane :=
  (plane.mem.memcpy 0 src).map fun mem => { plane with mem := mem }

variable {plane plane' : Plane} {src : Bytes}

/-- A copy to the beginning of a plane, cell by cell. -/
theorem memcpy_cells (h : plane.memcpy src = some plane') :
    plane'.stride = plane.stride ∧ ∀ i, plane'.mem.cells[i]?
      = if i < src.length then src[i]? else plane.mem.cells[i]? := by
  unfold memcpy at h
  obtain ⟨mem, hmem, rfl⟩ := Option.map_eq_some_iff.mp h
  refine ⟨rfl, fun i => ?_⟩
  have hcell := Region.getElem?_memcpy hmem i
  simpa using hcell

/-- A copy that the memory of the plane has room for. -/
theorem exists_memcpy (h : src.length ≤ plane.size) : ∃ plane', plane.memcpy src = some plane' := by
  have hroom : 0 + src.length ≤ plane.size := by omega
  obtain ⟨mem, hmem⟩ := (Region.exists_memcpy_iff (m := plane.mem)).mpr hroom
  exact ⟨_, Option.map_eq_some_iff.mpr ⟨mem, hmem, rfl⟩⟩

end Plane

/-- The class `RawImage`. -/
structure RawImage where
  yPlane : Plane
  uPlane : Plane
  vPlane : Plane
  ownVpxImg : Bool
  displayWidth : UInt16
  displayHeight : UInt16

namespace RawImage

/-- The width of the chroma planes. -/
def chromaWidth (img : RawImage) : ℕ := (img.displayWidth.toNat + 1) / 2

/-- The height of the chroma planes. -/
def chromaHeight (img : RawImage) : ℕ := (img.displayHeight.toNat + 1) / 2

/-- The method `y_size`. -/
def ySize (img : RawImage) : Option ℕ := asInt (img.displayWidth.toNat * img.displayHeight.toNat)

/-- The method `uv_size`. -/
def uvSize (img : RawImage) : Option ℕ :=
  (asInt (img.displayWidth.toNat * img.displayHeight.toNat)).map (· / 4)

/-- What the methods `copy_y_from`, `copy_u_from` and `copy_v_from` do to one plane: they throw
when the source has another size than the plane, and copy it in one piece otherwise. -/
def copyPlane (size : Option ℕ) (plane : Plane) (src : Bytes) (what : String) :
    Option (Except Exn Unit × Plane) :=
  match size with
  | none => none
  | some n =>
    if src.length ≠ n then
      some (.error (.runtimeError what), plane)
    else
      (plane.memcpy src).map fun plane => (.ok (), plane)

/-- The method `copy_y_from`. -/
def copyYFrom (img : RawImage) (src : Bytes) : Option (Except Exn Unit × RawImage) :=
  (copyPlane img.ySize img.yPlane src "RawImage: invalid size for Y plane").map
    fun (result, plane) => (result, { img with yPlane := plane })

/-- The method `copy_u_from`. -/
def copyUFrom (img : RawImage) (src : Bytes) : Option (Except Exn Unit × RawImage) :=
  (copyPlane img.uvSize img.uPlane src "RawImage: invalid size for U plane").map
    fun (result, plane) => (result, { img with uPlane := plane })

/-- The method `copy_v_from`. -/
def copyVFrom (img : RawImage) (src : Bytes) : Option (Except Exn Unit × RawImage) :=
  (copyPlane img.uvSize img.vPlane src "RawImage: invalid size for V plane").map
    fun (result, plane) => (result, { img with vPlane := plane })

/-! ## What the sizes are -/

section Sizes

variable {img : RawImage} {n : ℕ}

theorem ySize_eq_some_iff : img.ySize = some n ↔
    img.displayWidth.toNat * img.displayHeight.toNat < 2 ^ 31 ∧
      n = img.displayWidth.toNat * img.displayHeight.toNat :=
  asInt_eq_some_iff

theorem uvSize_eq_some_iff : img.uvSize = some n ↔
    img.displayWidth.toNat * img.displayHeight.toNat < 2 ^ 31 ∧
      n = img.displayWidth.toNat * img.displayHeight.toNat / 4 := by
  unfold uvSize
  rw [Option.map_eq_some_iff]
  constructor
  · rintro ⟨m, hm, rfl⟩
    obtain ⟨hlt, rfl⟩ := asInt_eq_some_iff.mp hm
    exact ⟨hlt, rfl⟩
  · rintro ⟨hlt, rfl⟩
    exact ⟨_, asInt_eq_some_iff.mpr ⟨hlt, rfl⟩, rfl⟩

end Sizes

/-! ## What the copies do -/

/-- A source of the accepted size is copied. -/
theorem copyPlane_of_length {n : ℕ} {plane : Plane} {src : Bytes} (what : String)
    (h : src.length = n) :
    copyPlane (some n) plane src what = (plane.memcpy src).map fun plane => (.ok (), plane) := by
  unfold copyPlane
  dsimp only
  rw [if_neg (not_not.mpr h)]

section Copies

variable {img : RawImage} {src : Bytes} {plane : Plane}

theorem copyYFrom_of_memcpy (hsize : img.ySize = some src.length)
    (hcopy : img.yPlane.memcpy src = some plane) :
    img.copyYFrom src = some (.ok (), { img with yPlane := plane }) := by
  unfold copyYFrom
  rw [hsize, copyPlane_of_length _ rfl, hcopy]
  rfl

theorem copyUFrom_of_memcpy (hsize : img.uvSize = some src.length)
    (hcopy : img.uPlane.memcpy src = some plane) :
    img.copyUFrom src = some (.ok (), { img with uPlane := plane }) := by
  unfold copyUFrom
  rw [hsize, copyPlane_of_length _ rfl, hcopy]
  rfl

theorem copyVFrom_of_memcpy (hsize : img.uvSize = some src.length)
    (hcopy : img.vPlane.memcpy src = some plane) :
    img.copyVFrom src = some (.ok (), { img with vPlane := plane }) := by
  unfold copyVFrom
  rw [hsize, copyPlane_of_length _ rfl, hcopy]
  rfl

end Copies

/-! ## Odd dimensions -/

/-- The size of a chroma plane that `uv_size` computes is the number of its samples if and
only if both dimensions are even, or there are no samples. -/
theorem chroma_div_four_iff (w h : ℕ) :
    w * h / 4 = (w + 1) / 2 * ((h + 1) / 2) ↔ (Even w ∧ Even h) ∨ w = 0 ∨ h = 0 := by
  rcases Nat.even_or_odd' w with ⟨a, rfl | rfl⟩
  · rcases Nat.even_or_odd' h with ⟨b, rfl | rfl⟩
    · have hprod : 2 * a * (2 * b) = a * b * 4 := by ring
      have ha : (2 * a + 1) / 2 = a := by omega
      have hb : (2 * b + 1) / 2 = b := by omega
      rw [hprod, Nat.mul_div_cancel _ (by decide), ha, hb]
      simp
    · have hprod : 2 * a * (2 * b + 1) = 4 * (a * b) + 2 * a := by ring
      have ha : (2 * a + 1) / 2 = a := by omega
      have hb : (2 * b + 1 + 1) / 2 = b + 1 := by omega
      have hodd : ¬ Even (2 * b + 1) := Nat.not_even_two_mul_add_one b
      rw [hprod, ha, hb, Nat.mul_add, Nat.mul_one]
      simp only [hodd, and_false, false_or]
      omega
  · have hodd : ¬ Even (2 * a + 1) := Nat.not_even_two_mul_add_one a
    have ha : (2 * a + 1 + 1) / 2 = a + 1 := by omega
    simp only [hodd, false_and, false_or, ha]
    rcases Nat.even_or_odd' h with ⟨b, rfl | rfl⟩
    · have hprod : (2 * a + 1) * (2 * b) = 4 * (a * b) + 2 * b := by ring
      have hb : (2 * b + 1) / 2 = b := by omega
      rw [hprod, hb, Nat.add_mul, Nat.one_mul]
      omega
    · have hprod : (2 * a + 1) * (2 * b + 1) = 4 * (a * b) + 2 * a + 2 * b + 1 := by ring
      have hb : (2 * b + 1 + 1) / 2 = b + 1 := by omega
      have hsum : (a + 1) * (b + 1) = a * b + a + b + 1 := by ring
      rw [hprod, hb, hsum]
      omega

end RawImage

end Ringmaster
