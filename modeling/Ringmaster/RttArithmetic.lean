/-
# The arithmetic of the RTT estimate

What the results on the RTT estimate need of the arithmetic it is computed with
(`LawfulRttArith`), and two arithmetics that have it: the exact one, and that of the type `double`
of the source, in which the constants, the products, the sum and the conversion of a time are
rounded to the nearest number of the format `binary64` (`Library/Rounding.lean`).

The rounded mean of two numbers may lie above both of them, as it does for 3 and 3, but never
below a whole number that is below both (`Double.le_smooth`).
-/
import Ringmaster.Library.Rounding
import Ringmaster.Encoder

open Rounding

namespace Ringmaster

/-- What the estimates need.  The values are rational numbers, and a sample is one of them; a
weighted mean is off by at most `error`, and not below a whole number that neither of its arguments
is below; and a time is compared as it is.  The estimates are nonnegative and below `2 ^ 33`. -/
class LawfulRttArith (E : Type) [RttArith E] where
  toRat : E → ℚ
  error : ℚ
  error_nonneg : 0 ≤ error
  error_le : 5 * error ≤ 1
  toRat_ofRtt : ∀ rttUs : UInt32, toRat (RttArith.ofRtt rttUs) = rttUs.toNat
  abs_smooth_sub_le : ∀ (rttUs : UInt32) (ewma : E), 0 ≤ toRat ewma → toRat ewma ≤ 2 ^ 33 →
    |toRat (RttArith.smooth rttUs ewma) - (1 / 5 * rttUs.toNat + (1 - 1 / 5) * toRat ewma)| ≤ error
  le_smooth : ∀ (n rttUs : UInt32) (ewma : E), n ≤ rttUs → (n.toNat : ℚ) ≤ toRat ewma →
    (n.toNat : ℚ) ≤ toRat (RttArith.smooth rttUs ewma)
  exceeds_iff : ∀ (us : UInt64) (ewma : E), 0 ≤ toRat ewma → toRat ewma ≤ 2 ^ 33 →
    (RttArith.exceeds us ewma ↔ toRat ewma < us.toNat)

/-! ## Exact arithmetic -/

instance : LawfulRttArith ℚ where
  toRat := id
  error := 0
  error_nonneg := le_rfl
  error_le := by norm_num
  toRat_ofRtt := fun _ => rfl
  abs_smooth_sub_le := fun rttUs ewma _ _ => by
    show |(1 / 5 * rttUs.toNat + (1 - 1 / 5) * ewma : ℚ)
      - (1 / 5 * rttUs.toNat + (1 - 1 / 5) * ewma)| ≤ 0
    rw [sub_self, abs_zero]
  le_smooth := fun n rttUs ewma hn hewma => by
    have hle : (n.toNat : ℚ) ≤ rttUs.toNat := by exact_mod_cast UInt32.le_iff_toNat_le.mp hn
    show (n.toNat : ℚ) ≤ 1 / 5 * rttUs.toNat + (1 - 1 / 5) * ewma
    have : (n.toNat : ℚ) ≤ ewma := hewma
    linarith
  exceeds_iff := fun _ _ _ _ => decide_eq_true_iff

/-! ## The type `double` -/

/-- The format of `double`. -/
def binary64 : Format := ⟨52, -1074⟩

/-- A finite value of type `double`.  Those that are too large are left out, as the estimate stays
below `2 ^ 33`. -/
structure Double where
  toRat : ℚ
  round_toRat : binary64.round toRat = toRat

namespace Double

/-- The nearest value. -/
def ofRat (q : ℚ) : Double := ⟨binary64.round q, Format.round_round q⟩

/-- The constant `ALPHA`. -/
def alpha : Double := ofRat (1 / 5)

/-- The value `1 - ALPHA`. -/
def oneSubAlpha : Double := ofRat (1 - alpha.toRat)

instance : RttArith Double where
  ofRtt rttUs := ofRat rttUs.toNat
  smooth rttUs ewma :=
    ofRat ((ofRat (alpha.toRat * (ofRat rttUs.toNat).toRat)).toRat
      + (ofRat (oneSubAlpha.toRat * ewma.toRat)).toRat)
  exceeds us ewma := decide (ewma.toRat < (ofRat us.toNat).toRat)

theorem toRat_alpha : alpha.toRat = 3602879701896397 / 2 ^ 54 := by
  have hexp : binary64.lastExp (1 / 5) = -55 :=
    Format.lastExp_eq (by norm_num [binary64]) (by norm_num [binary64]) (by norm_num [binary64])
  show binary64.round (1 / 5) = _
  rw [Format.round, Format.ulp, hexp]
  norm_num [nearestEven]

theorem toRat_oneSubAlpha : oneSubAlpha.toRat = 7205759403792794 / 2 ^ 53 := by
  have hexp : binary64.lastExp (1 - 3602879701896397 / 2 ^ 54) = -53 :=
    Format.lastExp_eq (by norm_num [binary64]) (by norm_num [binary64]) (by norm_num [binary64])
  show binary64.round (1 - alpha.toRat) = _
  rw [toRat_alpha, Format.round, Format.ulp, hexp]
  norm_num [nearestEven]

/-- Whole numbers below `2 ^ 53` are values. -/
theorem toRat_ofRat_natCast {n : ℕ} (hn : n < 2 ^ 53) : (ofRat n).toRat = n :=
  Format.round_natCast hn (by norm_num [binary64])

theorem toRat_ofRat_rtt (rttUs : UInt32) : (ofRat rttUs.toNat).toRat = rttUs.toNat :=
  toRat_ofRat_natCast (lt_trans rttUs.toNat_lt (by norm_num))

/-- A rounding error, from a bound on the number. -/
theorem abs_round_sub_le {x : ℚ} (k : ℤ) (hk : -1000 ≤ k) (hx : 0 ≤ x) (h : x < 2 ^ k) :
    |binary64.round x - x| ≤ 2 ^ (k - 54) := by
  have hlt : |x| < 2 ^ (k - 53 + (52 : ℕ) + 1) := by
    rw [abs_of_nonneg hx, show k - 53 + (52 : ℕ) + 1 = k by push_cast; ring]
    exact h
  have hmin : binary64.minExp ≤ k - 53 := by
    show -1074 ≤ k - 53
    omega
  refine le_trans (Format.abs_round_sub_le_of_lt hlt hmin) (le_of_eq ?_)
  rw [show k - 53 = k - 54 + 1 by ring, zpow_add_one₀ two_ne_zero,
    mul_div_cancel_right₀ _ two_ne_zero]

/-! ## The weighted mean -/

/-- The sum of the weighted mean, before it is rounded. -/
def rawMean (rttUs ewma : ℚ) : ℚ :=
  binary64.round (3602879701896397 / 2 ^ 54 * rttUs)
    + binary64.round (7205759403792794 / 2 ^ 53 * ewma)

theorem toRat_smooth (rttUs : UInt32) (ewma : Double) :
    (RttArith.smooth rttUs ewma).toRat = binary64.round (rawMean rttUs.toNat ewma.toRat) := by
  rw [rawMean, ← toRat_alpha, ← toRat_oneSubAlpha]
  show binary64.round (binary64.round (alpha.toRat * (ofRat rttUs.toNat).toRat) + _) = _
  rw [toRat_ofRat_rtt]
  rfl

variable {r s x y : ℚ}

theorem rawMean_nonneg (hr : 0 ≤ r) (hx : 0 ≤ x) : 0 ≤ rawMean r x :=
  add_nonneg (Format.round_nonneg (by positivity)) (Format.round_nonneg (by positivity))

theorem rawMean_mono (hr : 0 ≤ r) (hx : 0 ≤ x) (hrs : r ≤ s) (hxy : x ≤ y) :
    rawMean r x ≤ rawMean s y :=
  add_le_add
    (Format.round_mono (by positivity) (mul_le_mul_of_nonneg_left hrs (by positivity)))
    (Format.round_mono (by positivity) (mul_le_mul_of_nonneg_left hxy (by positivity)))

/-- The rounded mean is off by little. -/
theorem abs_round_rawMean_sub_le (hr₀ : 0 ≤ r) (hr₁ : r < 2 ^ 32) (hx₀ : 0 ≤ x)
    (hx₁ : x ≤ 2 ^ 33) :
    |binary64.round (rawMean r x) - (1 / 5 * r + (1 - 1 / 5) * x)| ≤ 1 / 2 ^ 18 := by
  have hfirst := abs_le.mp (@abs_round_sub_le (3602879701896397 / 2 ^ 54 * r) 31 (by norm_num)
    (by positivity) (by norm_num; linarith))
  have hsecond := abs_le.mp (@abs_round_sub_le (7205759403792794 / 2 ^ 53 * x) 34 (by norm_num)
    (by positivity) (by norm_num; linarith))
  norm_num at hfirst hsecond
  have hsum := abs_le.mp (@abs_round_sub_le (rawMean r x) 34 (by norm_num)
    (rawMean_nonneg hr₀ hx₀) (by unfold rawMean; norm_num; linarith))
  norm_num at hsum
  unfold rawMean at hsum ⊢
  norm_num at hsum ⊢
  rw [abs_le]
  constructor <;> linarith

/-- A number with few digits is a value at every scale. -/
theorem round_mul_two_pow {m j k : ℕ} (hm : m < 2 ^ 53) (hj : j ≤ 1000) :
    binary64.round (m / 2 ^ j * ((2 ^ k : ℕ) : ℚ)) = m / 2 ^ j * ((2 ^ k : ℕ) : ℚ) := by
  have hq : (m / 2 ^ j * ((2 ^ k : ℕ) : ℚ)) = ((m : ℤ) : ℚ) * 2 ^ ((k : ℤ) - j) := by
    rw [zpow_sub₀ two_ne_zero, zpow_natCast, zpow_natCast]
    push_cast
    ring
  rw [hq]
  refine Format.round_eq_self ?_ ?_
  · rw [Nat.abs_cast]
    exact_mod_cast hm
  · show -1074 ≤ (k : ℤ) - j
    omega

/-- What is less than half a unit below a whole number is not rounded to a smaller number. -/
theorem natCast_le_round {n k : ℕ} (hk : k ≤ 52) (hlo : 2 ^ k ≤ x) (hhi : x < 2 * 2 ^ k)
    (h : n - 2 ^ k / 2 ^ 53 < x) : (n : ℚ) ≤ binary64.round x := by
  have hexp : binary64.lastExp x = k - 52 := by
    refine Format.lastExp_eq ?_ ?_ ?_
    · show (2 : ℚ) ^ ((k : ℤ) - 52 + 52) ≤ x
      rwa [sub_add_cancel, zpow_natCast]
    · show x < (2 : ℚ) ^ ((k : ℤ) - 52 + 52 + 1)
      rwa [sub_add_cancel, zpow_add_one₀ two_ne_zero, zpow_natCast, mul_comm]
    · show -1074 ≤ (k : ℤ) - 52
      omega
  have hulp : binary64.ulp x = 2 ^ k / 2 ^ 52 := by
    rw [Format.ulp, hexp, zpow_sub₀ two_ne_zero, zpow_natCast]
    rfl
  -- the whole number is a multiple of the unit
  have hmul : ((n * 2 ^ (52 - k) : ℤ) : ℚ) * binary64.ulp x = n := by
    have hpow : (2 : ℚ) ^ (52 - k) * 2 ^ k = 2 ^ 52 := by
      rw [← pow_add, Nat.sub_add_cancel hk]
    rw [hulp, ← hpow]
    push_cast
    field_simp
  have hround := @Format.mul_ulp_le_round binary64 x (n * 2 ^ (52 - k)) (by
    rw [sub_mul, hmul, hulp]
    linarith)
  rwa [hmul] at hround

/-- The mean of two equal whole numbers is not below them.  Together the rounded weights are
`1 + 2 ^ (-54)`, so that what the products lose is less than half a unit of the number; and a power
of two loses nothing. -/
theorem le_round_rawMean_self {n : ℕ} (hn : n < 2 ^ 32) :
    (n : ℚ) ≤ binary64.round (rawMean n n) := by
  have hn₀ : (0 : ℚ) ≤ n := Nat.cast_nonneg n
  rcases Nat.eq_zero_or_pos n with rfl | hpos
  · exact Format.round_nonneg (rawMean_nonneg hn₀ hn₀)
  -- it is enough that the sum is not below the number before it is rounded
  have henough : (n : ℚ) ≤ rawMean n n → (n : ℚ) ≤ binary64.round (rawMean n n) := by
    intro hle
    have hround := @Format.round_mono binary64 _ _ hn₀ hle
    rwa [show binary64.round n = n from
      toRat_ofRat_natCast (lt_trans hn (by norm_num))] at hround
  obtain ⟨k, hk, hlo, hhi⟩ : ∃ k ≤ 31, 2 ^ k ≤ n ∧ n < 2 ^ (k + 1) :=
    ⟨Nat.log 2 n, Nat.le_of_lt_succ (Nat.log_lt_of_lt_pow hpos.ne' hn),
      Nat.pow_log_le_self 2 hpos.ne', Nat.lt_pow_succ_log_self one_lt_two n⟩
  rcases Nat.eq_or_lt_of_le hlo with heq | hlt
  · -- a power of two: the products are not rounded
    have hfirst := @round_mul_two_pow 3602879701896397 54 k (by norm_num) (by norm_num)
    have hsecond := @round_mul_two_pow 7205759403792794 53 k (by norm_num) (by norm_num)
    rw [heq] at hfirst hsecond
    refine henough ?_
    unfold rawMean
    push_cast at hfirst hsecond
    rw [hfirst, hsecond]
    linarith
  · have hlo' : (2 : ℚ) ^ k + 1 ≤ n := by exact_mod_cast hlt
    have hhi' : (n : ℚ) < 2 * 2 ^ k := by
      rw [← pow_succ']
      exact_mod_cast hhi
    have hpow : (0 : ℚ) < 2 ^ k := by positivity
    have hsmall : (2 : ℚ) ^ k ≤ 2 ^ 31 := pow_le_pow_right₀ one_le_two hk
    have hfirst := abs_le.mp (@abs_round_sub_le (3602879701896397 / 2 ^ 54 * n) (k - 1)
      (by omega) (by positivity) (by
        rw [zpow_sub_one₀ two_ne_zero, zpow_natCast]
        linarith))
    have hsecond := abs_le.mp (@abs_round_sub_le (7205759403792794 / 2 ^ 53 * n) (k + 1)
      (by omega) (by positivity) (by
        rw [zpow_add_one₀ two_ne_zero, zpow_natCast]
        linarith))
    rw [show ((k : ℤ) - 1 - 54) = k - 55 by ring, zpow_sub₀ two_ne_zero, zpow_natCast] at hfirst
    rw [show ((k : ℤ) + 1 - 54) = k - 53 by ring, zpow_sub₀ two_ne_zero, zpow_natCast] at hsecond
    have hclose : n - 2 ^ k / 2 ^ 53 < rawMean n n := by
      unfold rawMean
      norm_num at hfirst hsecond ⊢
      linarith
    rcases le_or_gt (n : ℚ) (rawMean n n) with hle | hgt
    · exact henough hle
    · exact natCast_le_round (by omega) (by linarith) (by linarith) hclose

/-- The rounded mean is not below a whole number that neither of its arguments is below. -/
theorem le_smooth {n rttUs : UInt32} {ewma : Double} (hn : n ≤ rttUs)
    (hewma : (n.toNat : ℚ) ≤ ewma.toRat) :
    (n.toNat : ℚ) ≤ (RttArith.smooth rttUs ewma).toRat := by
  have hn₀ : (0 : ℚ) ≤ n.toNat := Nat.cast_nonneg _
  have hn' : (n.toNat : ℚ) ≤ rttUs.toNat := by exact_mod_cast UInt32.le_iff_toNat_le.mp hn
  rw [toRat_smooth]
  exact le_trans (le_round_rawMean_self n.toNat_lt)
    (Format.round_mono (rawMean_nonneg hn₀ hn₀) (rawMean_mono hn₀ hn₀ hn' hewma))

/-- But it may be above both of them. -/
example : (RttArith.smooth 3 (RttArith.ofRtt 3 : Double)).toRat = 3 + 1 / 2 ^ 51 := by
  decide +kernel

/-- A time is compared as it is, also where its conversion is rounded. -/
theorem exceeds_iff {us : UInt64} {ewma : Double} (h : ewma.toRat ≤ 2 ^ 33) :
    RttArith.exceeds us ewma ↔ ewma.toRat < us.toNat := by
  show decide (ewma.toRat < (ofRat us.toNat).toRat) = true ↔ _
  rw [decide_eq_true_iff]
  rcases lt_or_ge us.toNat (2 ^ 53) with hlt | hge
  · rw [toRat_ofRat_natCast hlt]
  · -- the time is far above the estimate, and its rounding as well
    have hus : (2 ^ 52 : ℚ) ≤ us.toNat := by
      have : ((2 ^ 53 : ℕ) : ℚ) ≤ us.toNat := by exact_mod_cast hge
      push_cast at this
      linarith
    have hround : (2 ^ 52 : ℚ) ≤ (ofRat us.toNat).toRat := by
      have := @Format.round_mono binary64 _ _ (by positivity) hus
      rwa [show binary64.round (2 ^ 52) = 2 ^ 52 by
        exact_mod_cast @toRat_ofRat_natCast (2 ^ 52) (by norm_num)] at this
    exact iff_of_true (by linarith) (by linarith)

instance : LawfulRttArith Double where
  toRat := toRat
  error := 1 / 2 ^ 18
  error_nonneg := by norm_num
  error_le := by norm_num
  toRat_ofRtt := toRat_ofRat_rtt
  abs_smooth_sub_le := fun rttUs ewma h₀ h₁ => by
    rw [toRat_smooth]
    exact abs_round_rawMean_sub_le (Nat.cast_nonneg _) (by exact_mod_cast rttUs.toNat_lt) h₀ h₁
  le_smooth := fun _ _ _ => le_smooth
  exceeds_iff := fun _ _ _ => exceeds_iff

end Double

end Ringmaster
