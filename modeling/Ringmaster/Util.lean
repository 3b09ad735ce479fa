/-
# Exceptions and integral conversions

The part of `src/util` that every other module uses: the exceptions that the program
throws, and the checked conversion `narrow_cast` of `conversion.hh`.

A computation that may throw is an `Except Exn`.  A failed `assert` aborts the process;
here it is one more kind of exception, so that "no assertion fails" can be stated.
-/
import Mathlib

namespace Ringmaster

/-! ## Exceptions -/

/-- What the program throws, with the text it throws it with. -/
inductive Exn where
  | runtimeError (what : String)
  | outOfRange (what : String)
  | badOptionalAccess
  | assertion (condition : String)
  deriving DecidableEq, Repr

/-! ## Integral types and `narrow_cast` -/

/-- An integral type of the source: its width in bits and whether it is signed. -/
structure IntegralType where
  bits : ℕ
  signed : Bool
  deriving DecidableEq, Repr

namespace IntegralType

/-- The type `uint16_t`. -/
def uint16 : IntegralType := ⟨16, false⟩

/-- The type `unsigned int`. -/
def uint32 : IntegralType := ⟨32, false⟩

/-- The type `uint64_t`. -/
def uint64 : IntegralType := ⟨64, false⟩

/-- The type `size_t` of a 64-bit platform. -/
def sizeT : IntegralType := ⟨64, false⟩

/-- The value that `static_cast` gives: the number reduced to the width of the type. -/
def staticCast (t : IntegralType) (z : ℤ) : ℤ :=
  if t.signed then z.bmod (2 ^ t.bits) else z % 2 ^ t.bits

end IntegralType

/-- The checked cast `narrow_cast<target>(s)` of a value `s` of type `source`. -/
def narrowCast (target source : IntegralType) (s : ℤ) : Except Exn ℤ :=
  let t := target.staticCast s
  if source.staticCast t ≠ s then
    .error (.runtimeError ("narrow_cast: " ++ toString s ++ " != " ++ toString t))
  else
    .ok t

/-- Casting a size to `uint16_t` succeeds exactly below `2 ^ 16`, and then changes nothing. -/
theorem narrowCast_uint16_eq_ok_iff (n : ℕ) (z : ℤ) :
    narrowCast .uint16 .sizeT n = .ok z ↔ n < 2 ^ 16 ∧ z = n := by
  have ht : IntegralType.uint16.staticCast n = ((n % 65536 : ℕ) : ℤ) := by
    simp [IntegralType.staticCast, IntegralType.uint16]
  have hs : IntegralType.sizeT.staticCast ((n % 65536 : ℕ) : ℤ) = ((n % 65536 : ℕ) : ℤ) := by
    simp only [IntegralType.staticCast, IntegralType.sizeT, Bool.false_eq_true, if_false]
    omega
  simp only [narrowCast, ht, hs]
  split_ifs with h
  · constructor
    · intro hz
      cases hz
    · rintro ⟨hlt, -⟩
      exact absurd (by omega : ((n % 65536 : ℕ) : ℤ) = n) h
  · push Not at h
    rw [Except.ok.injEq]
    omega

end Ringmaster
