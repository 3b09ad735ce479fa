/-
# Rounding to a binary floating-point format

A format has a number of digits after the leading one and a least exponent.  A rational number is
rounded to the nearest multiple of the unit in its last place, and to the even one of two multiples
that are equally near.  Numbers that are too large for a format are not modelled: there is no
largest exponent.

The rounded number is at most half a unit away (`abs_round_sub_le`), rounding is monotone
(`round_mono`), and it leaves the numbers of the format alone (`round_eq_self`, `round_round`).
What is less than half a unit below a multiple of the unit is not rounded to a smaller one
(`mul_ulp_le_round`).
-/
import Mathlib

namespace Rounding

/-! ## The nearest integer -/

/-- The nearest integer, the even one of two that are equally near. -/
def nearestEven (x : ℚ) : ℤ :=
  if Int.fract x < 1 / 2 then ⌊x⌋
  else if 1 / 2 < Int.fract x then ⌊x⌋ + 1
  else if Even ⌊x⌋ then ⌊x⌋ else ⌊x⌋ + 1

theorem abs_nearestEven_sub_le (x : ℚ) : |(nearestEven x : ℚ) - x| ≤ 1 / 2 := by
  have hx := Int.floor_add_fract x
  have h₀ := Int.fract_nonneg x
  have h₁ := Int.fract_lt_one x
  rw [abs_le]
  unfold nearestEven
  split_ifs with hlt hgt
  · constructor <;> linarith
  · push_cast
    constructor <;> linarith
  · constructor <;> linarith
  · push_cast
    constructor <;> linarith

@[simp] theorem nearestEven_intCast (n : ℤ) : nearestEven n = n := by
  simp [nearestEven]

theorem nearestEven_mono {x y : ℚ} (h : x ≤ y) : nearestEven x ≤ nearestEven y := by
  by_contra hlt
  have hx := abs_le.mp (abs_nearestEven_sub_le x)
  have hy := abs_le.mp (abs_nearestEven_sub_le y)
  have hgap : (nearestEven y : ℚ) + 1 ≤ nearestEven x := by exact_mod_cast not_le.mp hlt
  have heq : x = y := by linarith
  rw [heq] at hlt
  exact hlt le_rfl

/-- What is less than one half below an integer is not rounded to a smaller one. -/
theorem le_nearestEven {n : ℤ} {x : ℚ} (h : n - 1 / 2 < x) : n ≤ nearestEven x := by
  have hx := abs_le.mp (abs_nearestEven_sub_le x)
  have hlt : ((n - 1 : ℤ) : ℚ) < nearestEven x := by
    push_cast
    linarith
  have := Int.cast_lt.mp hlt
  omega

/-! ## Formats -/

/-- A binary format. -/
structure Format where
  fractionBits : ℕ
  minExp : ℤ

namespace Format

variable (fmt : Format)

/-- The exponent of the last place of a number. -/
def lastExp (x : ℚ) : ℤ := max (Int.log 2 |x| - fmt.fractionBits) fmt.minExp

/-- The unit in the last place. -/
def ulp (x : ℚ) : ℚ := 2 ^ fmt.lastExp x

/-- The nearest number of the format, the one with an even last digit of two. -/
def round (x : ℚ) : ℚ := nearestEven (x / fmt.ulp x) * fmt.ulp x

theorem ulp_pos (x : ℚ) : 0 < fmt.ulp x := zpow_pos two_pos _

@[simp] theorem round_zero : fmt.round 0 = 0 := by
  have h := nearestEven_intCast 0
  rw [Int.cast_zero] at h
  simp [round, h]

theorem abs_round_sub_le (x : ℚ) : |fmt.round x - x| ≤ fmt.ulp x / 2 := by
  have hulp := fmt.ulp_pos x
  have hx : x / fmt.ulp x * fmt.ulp x = x := div_mul_cancel₀ x hulp.ne'
  calc |fmt.round x - x| = |(nearestEven (x / fmt.ulp x) - x / fmt.ulp x) * fmt.ulp x| := by
        rw [sub_mul, hx, round]
    _ = |nearestEven (x / fmt.ulp x) - x / fmt.ulp x| * fmt.ulp x := by
        rw [abs_mul, abs_of_pos hulp]
    _ ≤ 1 / 2 * fmt.ulp x := mul_le_mul_of_nonneg_right (abs_nearestEven_sub_le _) hulp.le
    _ = fmt.ulp x / 2 := by ring

variable {fmt} {x y : ℚ} {k e : ℤ}

/-- A number below a power of two has its last place accordingly. -/
theorem lastExp_le (hx : x ≠ 0) (h : |x| < 2 ^ (e + fmt.fractionBits + 1)) (he : fmt.minExp ≤ e) :
    fmt.lastExp x ≤ e := by
  have hlog : Int.log 2 |x| < e + fmt.fractionBits + 1 :=
    (Int.lt_zpow_iff_log_lt one_lt_two (abs_pos.mpr hx)).mp h
  exact max_le (by omega) he

/-- A number that is not below a power of two has its last place accordingly. -/
theorem le_lastExp (hx : x ≠ 0) (h : 2 ^ (e + fmt.fractionBits) ≤ |x|) : e ≤ fmt.lastExp x := by
  have hlog : e + fmt.fractionBits ≤ Int.log 2 |x| :=
    (Int.zpow_le_iff_le_log one_lt_two (abs_pos.mpr hx)).mp h
  exact le_trans (by omega) (le_max_left _ _)

/-- The error of a number below a power of two. -/
theorem abs_round_sub_le_of_lt (h : |x| < 2 ^ (e + fmt.fractionBits + 1)) (he : fmt.minExp ≤ e) :
    |fmt.round x - x| ≤ 2 ^ e / 2 := by
  rcases eq_or_ne x 0 with rfl | hx
  · rw [round_zero, sub_zero, abs_zero]
    positivity
  · have hulp : fmt.ulp x ≤ 2 ^ e := zpow_le_zpow_right₀ one_le_two (lastExp_le hx h he)
    have := fmt.abs_round_sub_le x
    linarith

/-- A multiple of the unit in the last place is left alone. -/
theorem round_eq_of_le (h : fmt.lastExp x ≤ e) {m : ℤ} (hx : x = m * 2 ^ e) : fmt.round x = x := by
  have hulp := fmt.ulp_pos x
  obtain ⟨n, hn⟩ := Int.eq_ofNat_of_zero_le (sub_nonneg.mpr h)
  have hdiv : x / fmt.ulp x = ((m * 2 ^ n : ℤ) : ℚ) := by
    have he : e = n + fmt.lastExp x := by omega
    rw [div_eq_iff hulp.ne', ulp]
    conv_lhs => rw [hx, he, zpow_add₀ two_ne_zero]
    push_cast
    rw [zpow_natCast]
    ring
  have hround : fmt.round x = x / fmt.ulp x * fmt.ulp x := by
    unfold round
    rw [hdiv, nearestEven_intCast]
  rw [hround, div_mul_cancel₀ x hulp.ne']

/-- The numbers of the format: as many digits as it has, at an exponent that it has. -/
theorem round_eq_self {m : ℤ} (hm : |m| < 2 ^ (fmt.fractionBits + 1)) (he : fmt.minExp ≤ e) :
    fmt.round (m * 2 ^ e) = m * 2 ^ e := by
  rcases eq_or_ne m 0 with rfl | hm0
  · simp
  have hpow : (0 : ℚ) < 2 ^ e := zpow_pos two_pos e
  have hx : (m : ℚ) * 2 ^ e ≠ 0 := mul_ne_zero (Int.cast_ne_zero.mpr hm0) hpow.ne'
  refine round_eq_of_le (lastExp_le hx ?_ he) rfl
  calc |(m : ℚ) * 2 ^ e| = ((|m| : ℤ) : ℚ) * 2 ^ e := by rw [abs_mul, abs_of_pos hpow, Int.cast_abs]
    _ < ((2 ^ (fmt.fractionBits + 1) : ℤ) : ℚ) * 2 ^ e :=
        mul_lt_mul_of_pos_right (Int.cast_lt.mpr hm) hpow
    _ = 2 ^ (e + fmt.fractionBits + 1) := by
        rw [add_assoc, zpow_add₀ two_ne_zero, mul_comm]
        norm_cast

/-- Whole numbers that are not too large are numbers of the format. -/
theorem round_natCast {n : ℕ} (hn : n < 2 ^ (fmt.fractionBits + 1)) (he : fmt.minExp ≤ 0) :
    fmt.round n = n := by
  have h := @round_eq_self fmt 0 n ?_ he
  · simpa using h
  · rw [Nat.abs_cast]
    exact_mod_cast hn

/-! ## Rounding is monotone -/

/-- A multiple of the unit in the last place is not crossed by rounding. -/
theorem round_le_mul_ulp {n : ℤ} (h : x ≤ n * fmt.ulp x) : fmt.round x ≤ n * fmt.ulp x := by
  refine mul_le_mul_of_nonneg_right (Int.cast_le.mpr ?_) (fmt.ulp_pos x).le
  rw [← nearestEven_intCast n]
  exact nearestEven_mono ((div_le_iff₀ (fmt.ulp_pos x)).mpr h)

/-- Nor is one reached from more than half a unit away. -/
theorem mul_ulp_le_round {n : ℤ} (h : (n - 1 / 2) * fmt.ulp x < x) :
    n * fmt.ulp x ≤ fmt.round x :=
  mul_le_mul_of_nonneg_right
    (Int.cast_le.mpr (le_nearestEven ((lt_div_iff₀ (fmt.ulp_pos x)).mpr h))) (fmt.ulp_pos x).le

/-- A power of two is a multiple of the units of smaller numbers. -/
theorem exists_zpow_eq (h : fmt.lastExp x ≤ k) : ∃ n : ℤ, (2 : ℚ) ^ k = n * fmt.ulp x := by
  obtain ⟨n, hn⟩ := Int.eq_ofNat_of_zero_le (sub_nonneg.mpr h)
  refine ⟨2 ^ n, ?_⟩
  rw [show k = n + fmt.lastExp x by omega, zpow_add₀ two_ne_zero, ulp]
  norm_cast

theorem round_le_zpow (hk : fmt.lastExp x ≤ k) (h : x ≤ 2 ^ k) : fmt.round x ≤ 2 ^ k := by
  obtain ⟨n, hn⟩ := exists_zpow_eq hk
  rw [hn] at h ⊢
  exact round_le_mul_ulp h

theorem zpow_le_round (hk : fmt.lastExp x ≤ k) (h : 2 ^ k ≤ x) : 2 ^ k ≤ fmt.round x := by
  obtain ⟨n, hn⟩ := exists_zpow_eq hk
  rw [hn] at h ⊢
  have := fmt.ulp_pos x
  exact mul_ulp_le_round (by linarith)

theorem round_nonneg (hx : 0 ≤ x) : 0 ≤ fmt.round x := by
  have hulp := fmt.ulp_pos x
  have h := @mul_ulp_le_round fmt x 0 (by push_cast; linarith)
  rwa [Int.cast_zero, zero_mul] at h

theorem round_mono (hx : 0 ≤ x) (h : x ≤ y) : fmt.round x ≤ fmt.round y := by
  rcases eq_or_lt_of_le hx with rfl | hpos
  · rw [round_zero]
    exact round_nonneg h
  have hlog : Int.log 2 |x| ≤ Int.log 2 |y| :=
    Int.log_mono_right (abs_pos.mpr hpos.ne') (abs_le_abs_of_nonneg hx h)
  have hle : fmt.lastExp x ≤ fmt.lastExp y := max_le_max_right _ (by omega)
  rcases eq_or_lt_of_le hle with heq | hlt
  · -- the units are the same
    have hulp : fmt.ulp x = fmt.ulp y := by rw [ulp, heq, ulp]
    unfold round
    rw [hulp]
    exact mul_le_mul_of_nonneg_right (Int.cast_le.mpr (nearestEven_mono
      (div_le_div_of_nonneg_right h (fmt.ulp_pos y).le))) (fmt.ulp_pos y).le
  · -- a power of two lies in between
    have hexp : fmt.lastExp y = Int.log 2 |y| - fmt.fractionBits ∧
        Int.log 2 |x| < Int.log 2 |y| := by
      unfold lastExp at hlt ⊢
      omega
    have hx' : x ≤ 2 ^ Int.log 2 |y| :=
      le_trans (le_abs_self x) ((Int.lt_zpow_iff_log_lt one_lt_two (abs_pos.mpr hpos.ne')).mpr
        hexp.2).le
    have hy : 0 < y := lt_of_lt_of_le hpos h
    have hy' : 2 ^ Int.log 2 |y| ≤ y := by
      conv_rhs => rw [← abs_of_pos hy]
      exact Int.zpow_log_le_self one_lt_two (abs_pos.mpr hy.ne')
    exact le_trans (round_le_zpow (by omega) hx') (zpow_le_round (by omega) hy')

/-! ## Rounding twice -/

theorem abs_round_le_zpow (hk : fmt.lastExp x ≤ k) (h : |x| ≤ 2 ^ k) : |fmt.round x| ≤ 2 ^ k := by
  obtain ⟨hneg, hpos⟩ := abs_le.mp h
  rw [abs_le]
  refine ⟨?_, round_le_zpow hk hpos⟩
  obtain ⟨n, hn⟩ := exists_zpow_eq hk
  rw [hn] at hneg ⊢
  have hulp := fmt.ulp_pos x
  have hround := @mul_ulp_le_round fmt x (-n) (by push_cast; linarith)
  push_cast at hround
  linarith

@[simp] theorem round_round (x : ℚ) : fmt.round (fmt.round x) = fmt.round x := by
  have hmin : fmt.minExp ≤ fmt.lastExp x := le_max_right _ _
  have hx : |x| < 2 ^ (fmt.lastExp x + fmt.fractionBits + 1) := by
    rcases eq_or_ne x 0 with rfl | hx0
    · rw [abs_zero]
      positivity
    · refine (Int.lt_zpow_iff_log_lt one_lt_two (abs_pos.mpr hx0)).mpr ?_
      have : Int.log 2 |x| - fmt.fractionBits ≤ fmt.lastExp x := le_max_left _ _
      omega
  rcases eq_or_ne (fmt.round x) 0 with h0 | h0
  · rw [h0, round_zero]
  have habs : |fmt.round x| ≤ 2 ^ (fmt.lastExp x + fmt.fractionBits + 1) :=
    abs_round_le_zpow (by omega) hx.le
  rcases lt_or_eq_of_le habs with hlt | heq
  · exact round_eq_of_le (lastExp_le h0 hlt hmin) rfl
  · -- it was rounded to a power of two
    have hself : ∀ m : ℤ, |m| = 1 →
        fmt.round x = m * 2 ^ (fmt.lastExp x + fmt.fractionBits + 1) →
        fmt.round (fmt.round x) = fmt.round x := by
      intro m hm h
      rw [h]
      refine round_eq_self ?_ (by omega)
      rw [hm]
      exact one_lt_pow₀ one_lt_two (Nat.succ_ne_zero _)
    rcases eq_or_eq_neg_of_abs_eq heq with h | h
    · exact hself 1 abs_one (by rw [h, Int.cast_one, one_mul])
    · exact hself (-1) (by norm_num) (by rw [h, Int.cast_neg, Int.cast_one, neg_one_mul])

/-! ## Numbers just below one of the format -/

/-- A number between two powers of two. -/
theorem lastExp_eq (hlo : 2 ^ (e + fmt.fractionBits) ≤ x)
    (hhi : x < 2 ^ (e + fmt.fractionBits + 1)) (he : fmt.minExp ≤ e) : fmt.lastExp x = e := by
  have hpos : 0 < x := lt_of_lt_of_le (zpow_pos two_pos _) hlo
  rw [← abs_of_pos hpos] at hlo hhi
  exact le_antisymm (lastExp_le hpos.ne' hhi he) (le_lastExp hpos.ne' hlo)

end Format

end Rounding
