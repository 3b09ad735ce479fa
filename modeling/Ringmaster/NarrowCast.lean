/-
# When `narrow_cast` is exact

`narrow_cast` of `src/util/conversion.hh` casts a value to the target type, casts the result
back to the source type, and compares.  The static cast to a type of `n` bits is reduction
modulo `2 ^ n` into the range of the type (`staticCast_eq_iff`), so what the comparison sees is
the difference of the two values modulo the width of the source.  It misses two kinds of
conversion, both between types of different signedness: a negative number that goes to an
unsigned type of at least its width, and a number near the top of an unsigned type that comes
out negative.  Every other conversion is exact (`castExact_of_not`), and so are all those that
the program makes, which go to a narrower unsigned type (`castExact_of_narrower`).
-/
import Ringmaster.Util

namespace Ringmaster

namespace IntegralType

/-! ## The range of an integral type -/

/-- The type `int`. -/
def int32 : IntegralType := ⟨32, true⟩

/-- The type `long long`. -/
def int64 : IntegralType := ⟨64, true⟩

/-- The least value of the type. -/
def lowest (t : IntegralType) : ℤ := if t.signed then -2 ^ (t.bits - 1) else 0

/-- The number is a value of the type. -/
def Represents (t : IntegralType) (z : ℤ) : Prop := t.lowest ≤ z ∧ z < t.lowest + 2 ^ t.bits

instance (t : IntegralType) (z : ℤ) : Decidable (t.Represents z) :=
  inferInstanceAs (Decidable (t.lowest ≤ z ∧ z < t.lowest + 2 ^ t.bits))

variable {t source target : IntegralType} {z c : ℤ}

/-- The width of a type as two halves. -/
theorem two_pow_bits (ht : 0 < t.bits) : (2 : ℤ) ^ t.bits = 2 * 2 ^ (t.bits - 1) := by
  rw [← pow_succ', Nat.sub_add_cancel ht]

/-- The values of a signed type. -/
theorem represents_signed (ht : 0 < t.bits) (hs : t.signed = true) :
    t.Represents z ↔ -2 ^ (t.bits - 1) ≤ z ∧ z < 2 ^ (t.bits - 1) := by
  have hhalf := two_pow_bits ht
  unfold Represents lowest
  rw [if_pos hs]
  constructor
  · rintro ⟨hle, hlt⟩
    exact ⟨hle, by omega⟩
  · rintro ⟨hle, hlt⟩
    exact ⟨hle, by omega⟩

/-- The values of an unsigned type. -/
theorem represents_unsigned (hs : t.signed = false) :
    t.Represents z ↔ 0 ≤ z ∧ z < 2 ^ t.bits := by
  unfold Represents lowest
  rw [hs, if_neg Bool.false_ne_true, zero_add]

/-- The values of an `int`. -/
theorem represents_int32 : int32.Represents z ↔ -2 ^ 31 ≤ z ∧ z < 2 ^ 31 :=
  represents_signed (by decide) rfl

/-- The values of a `long long`. -/
theorem represents_int64 : int64.Represents z ↔ -2 ^ 63 ≤ z ∧ z < 2 ^ 63 :=
  represents_signed (by decide) rfl

/-! ## The static cast -/

/-- A static cast gives a value of the type. -/
theorem represents_staticCast (ht : 0 < t.bits) (z : ℤ) : t.Represents (t.staticCast z) := by
  cases hs : t.signed with
  | true =>
    have hhalf := two_pow_bits ht
    have hle := @Int.le_bmod z (2 ^ t.bits) (by positivity)
    have hlt := @Int.bmod_lt z (2 ^ t.bits) (by positivity)
    push_cast at hle hlt
    rw [represents_signed ht hs, staticCast, if_pos hs]
    constructor
    · omega
    · omega
  | false =>
    have hpos : (0 : ℤ) < 2 ^ t.bits := by positivity
    rw [represents_unsigned hs, staticCast, hs, if_neg Bool.false_ne_true]
    exact ⟨Int.emod_nonneg z hpos.ne', Int.emod_lt_of_pos z hpos⟩

/-- A static cast changes a number by a multiple of the number of values. -/
theorem dvd_staticCast_sub (t : IntegralType) (z : ℤ) :
    (2 : ℤ) ^ t.bits ∣ t.staticCast z - z := by
  unfold staticCast
  split_ifs
  · exact_mod_cast @Int.dvd_bmod_sub_self z (2 ^ t.bits)
  · exact Int.dvd_emod_sub_self

/-- Two values of a type that differ by a multiple of the number of its values are equal. -/
theorem Represents.eq_of_dvd (hz : t.Represents z) (hc : t.Represents c)
    (hdvd : (2 : ℤ) ^ t.bits ∣ z - c) : z = c := by
  obtain ⟨hle, hlt⟩ := hz
  obtain ⟨hle', hlt'⟩ := hc
  have habs : |z - c| < 2 ^ t.bits := abs_lt.mpr ⟨by omega, by omega⟩
  exact sub_eq_zero.mp (Int.eq_zero_of_abs_lt_dvd hdvd habs)

/-- The static cast is the value of the type with the same residue. -/
theorem staticCast_eq_iff (ht : 0 < t.bits) :
    t.staticCast z = c ↔ t.Represents c ∧ (2 : ℤ) ^ t.bits ∣ c - z := by
  constructor
  · rintro rfl
    exact ⟨represents_staticCast ht z, dvd_staticCast_sub t z⟩
  · rintro ⟨hc, hdvd⟩
    refine (represents_staticCast ht z).eq_of_dvd hc ?_
    have hsum := dvd_sub (dvd_staticCast_sub t z) hdvd
    rwa [sub_sub_sub_cancel_right] at hsum

/-- A static cast keeps a value of the type. -/
theorem Represents.staticCast_eq (ht : 0 < t.bits) (hz : t.Represents z) :
    t.staticCast z = z :=
  (staticCast_eq_iff ht).mpr ⟨hz, by rw [sub_self]; exact dvd_zero _⟩

/-- A static cast changes nothing exactly on the values of the type. -/
theorem staticCast_eq_self_iff (ht : 0 < t.bits) : t.staticCast z = z ↔ t.Represents z := by
  constructor
  · intro heq
    rw [← heq]
    exact represents_staticCast ht z
  · exact Represents.staticCast_eq ht

/-- A cast through a type of at least the width of the last one is not seen. -/
theorem staticCast_staticCast_of_le (hs : 0 < source.bits) (hle : source.bits ≤ target.bits)
    (z : ℤ) : source.staticCast (target.staticCast z) = source.staticCast z := by
  refine (staticCast_eq_iff hs).mpr ⟨represents_staticCast hs z, ?_⟩
  have hpow : (2 : ℤ) ^ source.bits ∣ 2 ^ target.bits := pow_dvd_pow 2 hle
  have hsub := dvd_sub (dvd_staticCast_sub source z)
    (hpow.trans (dvd_staticCast_sub target z))
  rwa [sub_sub_sub_cancel_right] at hsub

/-- A type represents the values of every type of its signedness that is not wider. -/
theorem Represents.mono (ht : 0 < t.bits) (hz : t.Represents z) (hle : t.bits ≤ target.bits)
    (hsigned : t.signed = target.signed) : target.Represents z := by
  cases hs : t.signed with
  | true =>
    have hpow : (2 : ℤ) ^ (t.bits - 1) ≤ 2 ^ (target.bits - 1) :=
      pow_le_pow_right₀ one_le_two (Nat.sub_le_sub_right hle 1)
    have ht' : 0 < target.bits := by omega
    rw [represents_signed ht hs] at hz
    rw [represents_signed ht' (hsigned.symm.trans hs)]
    constructor
    · omega
    · omega
  | false =>
    have hpow : (2 : ℤ) ^ t.bits ≤ 2 ^ target.bits := pow_le_pow_right₀ one_le_two hle
    rw [represents_unsigned hs] at hz
    rw [represents_unsigned (hsigned.symm.trans hs)]
    exact ⟨hz.1, hz.2.trans_le hpow⟩

/-- A signed type represents the values of every narrower type that is unsigned. -/
theorem Represents.of_unsigned (hz : t.Represents z) (hs : t.signed = false)
    (hs' : target.signed = true) (hlt : t.bits < target.bits) : target.Represents z := by
  have hpow : (2 : ℤ) ^ t.bits ≤ 2 ^ (target.bits - 1) :=
    pow_le_pow_right₀ one_le_two (Nat.le_sub_one_of_lt hlt)
  rw [represents_unsigned hs] at hz
  rw [represents_signed (Nat.zero_lt_of_lt hlt) hs']
  constructor
  · omega
  · omega

/-- An unsigned type represents the values of a signed type that are not negative, when it is
not narrower. -/
theorem Represents.of_signed (ht : 0 < t.bits) (hz : t.Represents z) (hs : t.signed = true)
    (hs' : target.signed = false) (hle : t.bits ≤ target.bits) (hnonneg : 0 ≤ z) :
    target.Represents z := by
  have hpow : (2 : ℤ) ^ t.bits ≤ 2 ^ target.bits := pow_le_pow_right₀ one_le_two hle
  have hhalf := two_pow_bits ht
  rw [represents_signed ht hs] at hz
  rw [represents_unsigned hs']
  constructor
  · exact hnonneg
  · omega

end IntegralType

/-! ## The checked cast -/

section NarrowCast

variable {target source : IntegralType} {s : ℤ}

/-- The cast of a value of the source type loses nothing: what the target type represents is
returned as it is, and everything else is refused. -/
def CastExact (target source : IntegralType) (s : ℤ) : Prop :=
  (target.Represents s → narrowCast target source s = .ok s) ∧
    (¬ target.Represents s → ∃ what, narrowCast target source s = .error (.runtimeError what))

/-- A negative number is cast to an unsigned type that is not narrower. -/
def LosesSign (target source : IntegralType) (s : ℤ) : Prop :=
  source.signed = true ∧ target.signed = false ∧ source.bits ≤ target.bits ∧ s < 0

/-- A number is cast from an unsigned type to a signed type that is not wider, and its residue
is that of a negative number. -/
def GainsSign (target source : IntegralType) (s : ℤ) : Prop :=
  source.signed = false ∧ target.signed = true ∧ target.bits ≤ source.bits ∧
    2 ^ source.bits - 2 ^ (target.bits - 1) ≤ s

instance : Decidable (LosesSign target source s) :=
  inferInstanceAs (Decidable (_ ∧ _ ∧ _ ∧ _))

instance : Decidable (GainsSign target source s) :=
  inferInstanceAs (Decidable (_ ∧ _ ∧ _ ∧ _))

/-- A cast that passes the check returns what the static cast gives. -/
theorem narrowCast_of_eq (h : source.staticCast (target.staticCast s) = s) :
    narrowCast target source s = .ok (target.staticCast s) := by
  unfold narrowCast
  dsimp only
  rw [if_neg (not_not.mpr h)]

/-- The cast is exact unless the value comes back from a type that does not represent it. -/
theorem castExact_iff_of_represents (ht : 0 < target.bits) (hs : 0 < source.bits)
    (hrep : source.Represents s) : CastExact target source s ↔
      (source.staticCast (target.staticCast s) = s → target.Represents s) := by
  constructor
  · rintro ⟨-, hrefused⟩ hback
    by_contra hnot
    obtain ⟨what, herror⟩ := hrefused hnot
    rw [narrowCast_of_eq hback] at herror
    cases herror
  · intro hback
    refine ⟨?_, ?_⟩
    · intro htarget
      have hsame := htarget.staticCast_eq ht
      have hpass : source.staticCast (target.staticCast s) = s := by
        rw [hsame, hrep.staticCast_eq hs]
      rw [narrowCast_of_eq hpass, hsame]
    · intro hnot
      unfold narrowCast
      dsimp only
      rw [if_pos (mt hback hnot)]
      exact ⟨_, rfl⟩

/-- A negative number comes back from every type that is not narrower. -/
theorem LosesSign.not_castExact (ht : 0 < target.bits) (hs : 0 < source.bits)
    (hrep : source.Represents s) (h : LosesSign target source s) :
    ¬ CastExact target source s := by
  obtain ⟨-, htarget, hle, hneg⟩ := h
  rw [castExact_iff_of_represents ht hs hrep]
  intro hback
  have hsame : source.staticCast (target.staticCast s) = s := by
    rw [IntegralType.staticCast_staticCast_of_le hs hle, hrep.staticCast_eq hs]
  have hnonneg := ((IntegralType.represents_unsigned htarget).mp (hback hsame)).1
  omega

/-- A number whose residue is negative in the target type comes back from there. -/
theorem GainsSign.not_castExact (ht : 0 < target.bits) (hs : 0 < source.bits)
    (hrep : source.Represents s) (h : GainsSign target source s) :
    ¬ CastExact target source s := by
  obtain ⟨hsource, htarget, hle, htop⟩ := h
  have hrange := (IntegralType.represents_unsigned hsource).mp hrep
  have hhalf := IntegralType.two_pow_bits ht
  have hpow : (2 : ℤ) ^ target.bits ≤ 2 ^ source.bits := pow_le_pow_right₀ one_le_two hle
  have hpos : (0 : ℤ) < 2 ^ (target.bits - 1) := by positivity
  -- what the target holds is the number less the number of values of the source
  have hcast : target.staticCast s = s - 2 ^ source.bits := by
    rw [IntegralType.staticCast_eq_iff ht, IntegralType.represents_signed ht htarget]
    refine ⟨⟨by omega, by omega⟩, ?_⟩
    rw [sub_sub_cancel_left, dvd_neg]
    exact pow_dvd_pow 2 hle
  have hsame : source.staticCast (target.staticCast s) = s := by
    rw [IntegralType.staticCast_eq_iff hs, hcast, sub_sub_cancel]
    exact ⟨hrep, dvd_refl _⟩
  rw [castExact_iff_of_represents ht hs hrep]
  intro hback
  have hlt := ((IntegralType.represents_signed ht htarget).mp (hback hsame)).2
  omega

/-- What comes back from a negative number is near the top of the unsigned type. -/
theorem top_le_of_neg (ht : 0 < target.bits) (hsource : source.signed = false)
    (htarget : target.signed = true) (hle : target.bits ≤ source.bits)
    (hback : source.staticCast (target.staticCast s) = s) (hneg : target.staticCast s < 0) :
    2 ^ source.bits - 2 ^ (target.bits - 1) ≤ s := by
  have hs : 0 < source.bits := ht.trans_le hle
  have hhalf := IntegralType.two_pow_bits ht
  have hpow : (2 : ℤ) ^ target.bits ≤ 2 ^ source.bits := pow_le_pow_right₀ one_le_two hle
  have hpos : (0 : ℤ) < 2 ^ (target.bits - 1) := by positivity
  have hcast := (IntegralType.represents_signed ht htarget).mp
    (IntegralType.represents_staticCast ht s)
  have hup : source.staticCast (target.staticCast s) = target.staticCast s + 2 ^ source.bits := by
    rw [IntegralType.staticCast_eq_iff hs, IntegralType.represents_unsigned hsource,
      add_sub_cancel_left]
    exact ⟨⟨by omega, by omega⟩, dvd_refl _⟩
  rw [hback] at hup
  omega

/-- Every other cast is exact. -/
theorem castExact_of_not (ht : 0 < target.bits) (hs : 0 < source.bits)
    (hrep : source.Represents s) (hlose : ¬ LosesSign target source s)
    (hgain : ¬ GainsSign target source s) : CastExact target source s := by
  rw [castExact_iff_of_represents ht hs hrep]
  intro hback
  have hcast := IntegralType.represents_staticCast ht s
  -- a value that both types represent comes back as it is
  have hboth : source.Represents (target.staticCast s) → target.Represents s := by
    intro hsource
    rw [hsource.staticCast_eq hs] at hback
    exact (IntegralType.staticCast_eq_self_iff ht).mp hback
  by_cases hsame : source.signed = target.signed
  · rcases le_total source.bits target.bits with hle | hle
    · exact hrep.mono hs hle hsame
    · exact hboth (hcast.mono ht hle hsame.symm)
  · cases hsource : source.signed with
    | true =>
      have htarget : target.signed = false := by
        rw [hsource] at hsame
        exact Bool.eq_false_iff.mpr (Ne.symm hsame)
      rcases Nat.lt_or_ge target.bits source.bits with hlt | hle
      · exact hboth (hcast.of_unsigned htarget hsource hlt)
      · have hnonneg : 0 ≤ s := not_lt.mp fun hneg => hlose ⟨hsource, htarget, hle, hneg⟩
        exact hrep.of_signed hs hsource htarget hle hnonneg
    | false =>
      have htarget : target.signed = true := by
        rw [hsource] at hsame
        exact Bool.ne_false_iff.mp (Ne.symm hsame)
      rcases Nat.lt_or_ge source.bits target.bits with hlt | hle
      · exact hrep.of_unsigned hsource htarget hlt
      · rcases lt_or_ge (target.staticCast s) 0 with hneg | hnonneg
        · exact absurd ⟨hsource, htarget, hle, top_le_of_neg ht hsource htarget hle hback hneg⟩
            hgain
        · exact hboth (hcast.of_signed ht htarget hsource hle hnonneg)

/-- A cast to a narrower unsigned type is exact. -/
theorem castExact_of_narrower (ht : 0 < target.bits) (hrep : source.Represents s)
    (htarget : target.signed = false) (hlt : target.bits < source.bits) :
    CastExact target source s := by
  refine castExact_of_not ht (ht.trans hlt) hrep ?_ ?_
  · rintro ⟨-, -, hle, -⟩
    exact absurd hle hlt.not_ge
  · rintro ⟨-, hsigned, -, -⟩
    rw [htarget] at hsigned
    cases hsigned

/-- A cast is exact except when it loses the sign of a negative number or makes a number
negative. -/
theorem castExact_iff (ht : 0 < target.bits) (hs : 0 < source.bits)
    (hrep : source.Represents s) : CastExact target source s ↔
      ¬ LosesSign target source s ∧ ¬ GainsSign target source s := by
  constructor
  · intro hexact
    exact ⟨fun h => h.not_castExact ht hs hrep hexact, fun h => h.not_castExact ht hs hrep hexact⟩
  · rintro ⟨hlose, hgain⟩
    exact castExact_of_not ht hs hrep hlose hgain

/-- A size above the range of `uint16_t` is refused. -/
theorem castExact_uint16_sizeT : CastExact .uint16 .sizeT 65536 :=
  (castExact_iff (by decide) (by decide) (by decide)).mpr ⟨by decide, by decide⟩

/-- Minus one is cast to the greatest `unsigned int`. -/
theorem narrowCast_uint32_neg_one : IntegralType.int32.Represents (-1) ∧
    narrowCast .uint32 .int32 (-1) = .ok 4294967295 ∧ ¬ CastExact .uint32 .int32 (-1) := by
  have hcast : narrowCast .uint32 .int32 (-1) = .ok 4294967295 := by decide
  refine ⟨by decide, hcast, ?_⟩
  rintro ⟨-, hrefused⟩
  obtain ⟨what, herror⟩ := hrefused (by decide)
  rw [hcast] at herror
  cases herror

end NarrowCast

end Ringmaster
