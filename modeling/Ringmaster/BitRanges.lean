/-
# Ranges of bits

The template `get_bits` of `src/util/serialization.hh`: the value of a range of bits of a
number, with the bits numbered from the most significant one.  The mask of the range is
computed from an `int` whatever the width of the number is, so the operations are modelled
with the types the language gives their operands, and with what the language leaves undefined:
a shift by the width of its operand or more, and an `int` that overflows.

A range is read exactly when its mask is an `int`, and when it is not the empty range at the
start of a number that is not promoted to `int` (`getBits_of_readable`,
`getBits_of_not_readable`).  What is read is the range of the bit string of the number
(`msb0_getBits`), so that adjacent ranges are joined by concatenation (`bitRange_append`).
-/
import Ringmaster.NarrowCast

namespace Ringmaster

/-! ## Bit ranges of a number -/

/-- The bit of a number of `w` bits with the given index, the most significant bit first. -/
def msb0 (w n i : ℕ) : Bool := n.testBit (w - 1 - i)

/-- The value of a range of the bits of a number of `w` bits. -/
def bitRange (w n off len : ℕ) : ℕ := n / 2 ^ (w - off - len) % 2 ^ len

/-- The value of a range has the length of the range. -/
theorem bitRange_lt (w n off len : ℕ) : bitRange w n off len < 2 ^ len :=
  Nat.mod_lt _ (by positivity)

/-- The bits of the value of a range are those of the range. -/
theorem msb0_bitRange {w off len i : ℕ} (n : ℕ) (hrange : off + len ≤ w) (hi : i < len) :
    msb0 len (bitRange w n off len) i = msb0 w n (off + i) := by
  unfold msb0 bitRange
  rw [Nat.testBit_mod_two_pow, Nat.testBit_div_two_pow, decide_eq_true (by omega), Bool.true_and]
  congr 1
  omega

/-- Two adjacent ranges, one behind the other, are their union. -/
theorem bitRange_append {w off len₁ len₂ : ℕ} (n : ℕ) (hrange : off + len₁ + len₂ ≤ w) :
    bitRange w n off len₁ * 2 ^ len₂ + bitRange w n (off + len₁) len₂ =
      bitRange w n off (len₁ + len₂) := by
  have hlow : w - (off + len₁) - len₂ = w - off - (len₁ + len₂) := by omega
  have hhigh : w - off - len₁ = w - off - (len₁ + len₂) + len₂ := by omega
  unfold bitRange
  rw [hlow, hhigh, pow_add 2 _ len₂, ← Nat.div_div_eq_div_mul, add_comm len₁ len₂,
    pow_add 2 len₂ len₁, Nat.mod_mul, add_comm, mul_comm (2 ^ len₂)]

/-- A mask of ones cuts a range out of the number that was shifted to it. -/
theorem shifted_land_mask (w n off len : ℕ) :
    (n / 2 ^ (w - off - len)) &&& (2 ^ len - 1) = bitRange w n off len :=
  Nat.and_two_pow_sub_one_eq_mod _ len

/-! ## The operators on integral types -/

/-- How the evaluation of an expression goes wrong: by an exception, or by an operation that
the language leaves undefined. -/
inductive Fault where
  | exn (e : Exn)
  | shift
  | overflow
  deriving DecidableEq, Repr

namespace IntegralType

/-- The integral promotion of a type. -/
def promote (t : IntegralType) : IntegralType := if t.bits < int32.bits then int32 else t

/-- The type that the usual arithmetic conversions give two promoted operands. -/
def common (t u : IntegralType) : IntegralType :=
  if t.bits = u.bits then ⟨t.bits, t.signed && u.signed⟩
  else if t.bits < u.bits then u else t

/-- The operator `>>` on a promoted operand. -/
def shiftRight (t : IntegralType) (a : ℤ) (count : ℕ) : Except Fault ℤ :=
  if count ≥ t.bits then .error .shift else .ok (a / 2 ^ count)

/-- The operator `<<` on a promoted operand. -/
def shiftLeft (t : IntegralType) (a : ℤ) (count : ℕ) : Except Fault ℤ :=
  if count ≥ t.bits then
    .error .shift
  else if t.signed ∧ (a < 0 ∨ 2 ^ t.bits ≤ a * 2 ^ count) then
    .error .overflow
  else
    .ok (t.staticCast (a * 2 ^ count))

/-- The operator `-` on operands of one promoted type. -/
def sub (t : IntegralType) (a b : ℤ) : Except Fault ℤ :=
  if t.signed ∧ ¬ t.Represents (a - b) then .error .overflow else .ok (t.staticCast (a - b))

end IntegralType

open IntegralType

/-- The mask `(1 << bit_len) - 1` of `get_bits`, whose literals are of type `int`. -/
def bitMask (bitLen : ℕ) : Except Fault ℤ :=
  match int32.shiftLeft 1 bitLen with
  | .error e => .error e
  | .ok bit => int32.sub bit 1

/-- The template `get_bits` of the numbers of an unsigned type. -/
def getBits (t : IntegralType) (number : ℕ) (bitOffset bitLen : UInt64) : Except Fault ℤ :=
  let totalBits := UInt64.ofNat t.bits
  if bitOffset + bitLen > totalBits then
    .error (.exn (.outOfRange "get_bits(): read past end"))
  else
    match t.promote.shiftRight number (totalBits - bitOffset - bitLen).toNat with
    | .error e => .error e
    | .ok shifted =>
      let ret := t.staticCast shifted
      match bitMask bitLen.toNat with
      | .error e => .error e
      | .ok mask =>
        let wide := common t.promote int32
        .ok (t.staticCast (Int.land (wide.staticCast ret) (wide.staticCast mask)))

/-! ## What is read -/

/-- The unsigned types of the language: those of 8, 16, 32 and 64 bits. -/
def IsUnsigned (t : IntegralType) : Prop :=
  t = ⟨8, false⟩ ∨ t = ⟨16, false⟩ ∨ t = ⟨32, false⟩ ∨ t = ⟨64, false⟩

/-- The range can be read: its mask is an `int`, and the number is not shifted by its width,
which is what the empty range at the start asks for. -/
def Readable (t : IntegralType) (bitOffset bitLen : UInt64) : Prop :=
  bitLen.toNat ≤ 30 ∧ ¬ (32 ≤ t.bits ∧ bitOffset = 0 ∧ bitLen = 0)

section GetBits

variable {t : IntegralType} {number : ℕ} {bitOffset bitLen : UInt64}

/-- The types of the evaluation: those below 32 bits are promoted to `int`, the others stay as
they are, also together with an `int`. -/
theorem IsUnsigned.promote_eq (ht : IsUnsigned t) :
    (t.promote = int32 ∧ common t.promote int32 = int32 ∧ t.bits ≤ 16) ∨
      (t.promote = t ∧ common t.promote int32 = t ∧ 32 ≤ t.bits) := by
  rcases ht with rfl | rfl | rfl | rfl
  · decide
  · decide
  · decide
  · decide

/-- The width of an unsigned type. -/
theorem IsUnsigned.bits_mem (ht : IsUnsigned t) :
    t.signed = false ∧ 0 < t.bits ∧ t.bits ≤ 64 := by
  rcases ht with rfl | rfl | rfl | rfl
  · decide
  · decide
  · decide
  · decide

/-- The width of an unsigned type as a size. -/
theorem toNat_totalBits (ht : IsUnsigned t) : (UInt64.ofNat t.bits).toNat = t.bits := by
  obtain ⟨-, -, hle⟩ := ht.bits_mem
  exact UInt64.toNat_ofNat_of_lt' (lt_of_le_of_lt hle (by decide))

/-- What is left of the width behind a range. -/
theorem toNat_totalBits_sub (ht : IsUnsigned t)
    (hrange : bitOffset.toNat + bitLen.toNat ≤ t.bits) :
    (UInt64.ofNat t.bits - bitOffset - bitLen).toNat =
      t.bits - bitOffset.toNat - bitLen.toNat := by
  have htotal := toNat_totalBits ht
  have hoff : (UInt64.ofNat t.bits - bitOffset).toNat = t.bits - bitOffset.toNat := by
    rw [UInt64.toNat_sub_of_le, htotal]
    rw [UInt64.le_iff_toNat_le, htotal]
    omega
  rw [UInt64.toNat_sub_of_le, hoff]
  rw [UInt64.le_iff_toNat_le, hoff]
  omega

/-- A range of the number passes the check. -/
theorem not_totalBits_lt (ht : IsUnsigned t)
    (hrange : bitOffset.toNat + bitLen.toNat ≤ t.bits) :
    ¬ bitOffset + bitLen > UInt64.ofNat t.bits := by
  obtain ⟨-, -, hle⟩ := ht.bits_mem
  rw [gt_iff_lt, UInt64.lt_iff_toNat_lt, UInt64.toNat_add, toNat_totalBits ht,
    Nat.mod_eq_of_lt (by omega)]
  omega

/-- The mask of a range of at most 30 bits. -/
theorem bitMask_eq {len : ℕ} (hlen : len ≤ 30) : bitMask len = .ok ((2 ^ len - 1 : ℕ) : ℤ) := by
  have hle : (2 : ℤ) ^ len ≤ 2 ^ 30 := pow_le_pow_right₀ one_le_two hlen
  have hpos : (0 : ℤ) < 2 ^ len := by positivity
  have hbit : int32.Represents (2 ^ len) := represents_int32.mpr ⟨by omega, by omega⟩
  have hmask : int32.Represents (2 ^ len - 1) := represents_int32.mpr ⟨by omega, by omega⟩
  have hlt : ¬ len ≥ int32.bits := by
    show ¬ len ≥ 32
    omega
  have hfits : ¬ (int32.signed = true ∧ ((1 : ℤ) < 0 ∨ (2 : ℤ) ^ int32.bits ≤ 1 * 2 ^ len)) := by
    show ¬ (true = true ∧ ((1 : ℤ) < 0 ∨ (2 : ℤ) ^ 32 ≤ 1 * 2 ^ len))
    omega
  unfold bitMask shiftLeft sub
  rw [if_neg hlt, if_neg hfits, one_mul, hbit.staticCast_eq (by decide)]
  dsimp only
  rw [if_neg (fun h => h.2 hmask), hmask.staticCast_eq (by decide), Nat.cast_pred (by positivity),
    Nat.cast_pow, Nat.cast_ofNat]

/-- The mask of a longer range is not an `int`: the shift goes past the width, or its result
is the least `int`. -/
theorem bitMask_error {len : ℕ} (hlen : 30 < len) :
    bitMask len = .error .shift ∨ bitMask len = .error .overflow := by
  rcases Nat.lt_or_ge len int32.bits with hlt | hge
  · obtain rfl : len = 31 := Nat.le_antisymm (Nat.le_of_lt_succ hlt) hlen
    exact Or.inr (by decide)
  · refine Or.inl ?_
    unfold bitMask shiftLeft
    rw [if_pos hge]

/-- The shift of the number, when the range is not the empty one at the start of a number that
is not promoted. -/
theorem shiftRight_promote (ht : IsUnsigned t) (number : ℕ)
    (hrange : bitOffset.toNat + bitLen.toNat ≤ t.bits)
    (h : ¬ (32 ≤ t.bits ∧ bitOffset = 0 ∧ bitLen = 0)) :
    t.promote.shiftRight number (UInt64.ofNat t.bits - bitOffset - bitLen).toNat =
      .ok ((number / 2 ^ (t.bits - bitOffset.toNat - bitLen.toNat) : ℕ) : ℤ) := by
  have hlt : t.bits - bitOffset.toNat - bitLen.toNat < t.promote.bits := by
    rcases ht.promote_eq with ⟨hpromote, -, hle⟩ | ⟨hpromote, -, hge⟩
    · have hbits : int32.bits = 32 := rfl
      rw [hpromote, hbits]
      omega
    · have hnonzero : ¬ (bitOffset.toNat = 0 ∧ bitLen.toNat = 0) := by
        rintro ⟨hoff, hlen⟩
        exact h ⟨hge, UInt64.toNat_inj.mp hoff, UInt64.toNat_inj.mp hlen⟩
      rw [hpromote]
      omega
  unfold shiftRight
  rw [toNat_totalBits_sub ht hrange, if_neg hlt.not_ge]
  push_cast
  rfl

/-- The types that the evaluation passes through represent the number. -/
theorem represents_of_lt (ht : IsUnsigned t) {n : ℕ} (hn : n < 2 ^ t.bits) :
    t.Represents n ∧ (common t.promote int32).Represents n := by
  obtain ⟨hsigned, -, -⟩ := ht.bits_mem
  have hown : t.Represents n :=
    (represents_unsigned hsigned).mpr ⟨Int.natCast_nonneg n, by exact_mod_cast hn⟩
  refine ⟨hown, ?_⟩
  rcases ht.promote_eq with ⟨-, hcommon, hle⟩ | ⟨-, hcommon, -⟩
  · rw [hcommon]
    exact hown.of_unsigned hsigned rfl (Nat.lt_of_le_of_lt hle (by decide))
  · rw [hcommon]
    exact hown

/-- A range that can be read is read. -/
theorem getBits_of_readable (ht : IsUnsigned t) (hnumber : number < 2 ^ t.bits)
    (hrange : bitOffset.toNat + bitLen.toNat ≤ t.bits) (h : Readable t bitOffset bitLen) :
    getBits t number bitOffset bitLen =
      .ok (bitRange t.bits number bitOffset.toNat bitLen.toNat) := by
  obtain ⟨hlen, hnonempty⟩ := h
  have hpow : 2 ^ bitLen.toNat ≤ 2 ^ t.bits := Nat.pow_le_pow_right two_pos (by omega)
  have hpos : 0 < 2 ^ bitLen.toNat := by positivity
  have hbits := ht.bits_mem.2.1
  -- the number that was shifted, the mask and the range are all values of the types in between
  obtain ⟨hshift, hshift'⟩ := represents_of_lt ht ((Nat.div_le_self number
    (2 ^ (t.bits - bitOffset.toNat - bitLen.toNat))).trans_lt hnumber)
  obtain ⟨-, hmask⟩ := represents_of_lt ht (by omega : 2 ^ bitLen.toNat - 1 < 2 ^ t.bits)
  obtain ⟨hresult, -⟩ := represents_of_lt ht
    ((bitRange_lt t.bits number bitOffset.toNat bitLen.toNat).trans_le hpow)
  have hwide : 0 < (common t.promote int32).bits := by
    rcases ht.promote_eq with ⟨-, hcommon, -⟩ | ⟨-, hcommon, -⟩
    · rw [hcommon]
      decide
    · rw [hcommon]
      exact hbits
  have hland (m n : ℕ) : Int.land m n = ((m &&& n : ℕ) : ℤ) := rfl
  unfold getBits
  dsimp only
  rw [if_neg (not_totalBits_lt ht hrange), shiftRight_promote ht number hrange hnonempty,
    bitMask_eq hlen]
  dsimp only
  rw [hshift.staticCast_eq hbits, hshift'.staticCast_eq hwide, hmask.staticCast_eq hwide, hland,
    shifted_land_mask, hresult.staticCast_eq hbits]

/-- The bits of what is read are those of the range, in the numbering of the source: the bit
with index 0 is the most significant one. -/
theorem msb0_getBits {i : ℕ} (ht : IsUnsigned t) (hnumber : number < 2 ^ t.bits)
    (hrange : bitOffset.toNat + bitLen.toNat ≤ t.bits) (h : Readable t bitOffset bitLen)
    (hi : i < bitLen.toNat) :
    ∃ ret : ℕ, getBits t number bitOffset bitLen = .ok ret ∧
      msb0 bitLen.toNat ret i = msb0 t.bits number (bitOffset.toNat + i) :=
  ⟨_, getBits_of_readable ht hnumber hrange h, msb0_bitRange number hrange hi⟩

/-- The evaluation of any other range is undefined. -/
theorem getBits_of_not_readable (ht : IsUnsigned t) (number : ℕ)
    (hrange : bitOffset.toNat + bitLen.toNat ≤ t.bits) (h : ¬ Readable t bitOffset bitLen) :
    getBits t number bitOffset bitLen = .error .shift ∨
      getBits t number bitOffset bitLen = .error .overflow := by
  unfold getBits
  dsimp only
  rw [if_neg (not_totalBits_lt ht hrange)]
  by_cases hnonempty : 32 ≤ t.bits ∧ bitOffset = 0 ∧ bitLen = 0
  · have hshift : t.promote.shiftRight number (UInt64.ofNat t.bits - bitOffset - bitLen).toNat =
        .error .shift := by
      obtain ⟨hge, rfl, rfl⟩ := hnonempty
      rcases ht.promote_eq with ⟨-, -, hle⟩ | ⟨hpromote, -, -⟩
      · omega
      · unfold shiftRight
        rw [hpromote, toNat_totalBits_sub ht hrange, if_pos (by simp)]
    rw [hshift]
    exact Or.inl rfl
  · have hlen : 30 < bitLen.toNat := by
      by_contra hle
      exact h ⟨not_lt.mp hle, hnonempty⟩
    rw [shiftRight_promote ht number hrange hnonempty]
    dsimp only
    rcases bitMask_error hlen with hshift | hoverflow
    · rw [hshift]
      exact Or.inl rfl
    · rw [hoverflow]
      exact Or.inr rfl

/-- Only a range that can be read gives a value. -/
theorem readable_of_getBits {ret : ℤ} (ht : IsUnsigned t)
    (hrange : bitOffset.toNat + bitLen.toNat ≤ t.bits)
    (h : getBits t number bitOffset bitLen = .ok ret) : Readable t bitOffset bitLen := by
  by_contra hnot
  rcases getBits_of_not_readable ht number hrange hnot with hshift | hoverflow
  · rw [hshift] at h
    cases h
  · rw [hoverflow] at h
    cases h

/-- The size of a range of bits does not wrap around. -/
theorem toNat_add_of_le {a b : UInt64} (h : a.toNat + b.toNat ≤ 64) :
    (a + b).toNat = a.toNat + b.toNat := by
  rw [UInt64.toNat_add, Nat.mod_eq_of_lt (by omega)]

/-- Two adjacent ranges that can be read, as their union can, give the value of the union. -/
theorem getBits_append {len₁ len₂ : UInt64} (ht : IsUnsigned t) (hnumber : number < 2 ^ t.bits)
    (hrange : bitOffset.toNat + len₁.toNat + len₂.toNat ≤ t.bits)
    (h₁ : Readable t bitOffset len₁) (h₂ : Readable t (bitOffset + len₁) len₂)
    (h : Readable t bitOffset (len₁ + len₂)) :
    ∃ first second, getBits t number bitOffset len₁ = .ok first ∧
      getBits t number (bitOffset + len₁) len₂ = .ok second ∧
      getBits t number bitOffset (len₁ + len₂) = .ok (first * 2 ^ len₂.toNat + second) := by
  have hwidth := ht.bits_mem.2.2
  have hoff := @toNat_add_of_le bitOffset len₁ (by omega)
  have hlen := @toNat_add_of_le len₁ len₂ (by omega)
  refine ⟨_, _, getBits_of_readable ht hnumber (by omega) h₁,
    getBits_of_readable ht hnumber (by omega) h₂, ?_⟩
  rw [getBits_of_readable ht hnumber (by omega) h, hoff, hlen,
    ← bitRange_append number (by omega)]
  push_cast
  rfl

/-- A range of bits is read exactly, and adjacent ranges are joined to their union, when every
range that is read can be: its mask is an `int`, and it is not the empty range at the start of
a number of 32 or 64 bits. -/
theorem getBits_exact_iff (ht : IsUnsigned t) (hnumber : number < 2 ^ t.bits) :
    (∀ bitOffset bitLen : UInt64, bitOffset.toNat + bitLen.toNat ≤ t.bits →
      (getBits t number bitOffset bitLen =
          .ok ((number / 2 ^ (t.bits - bitOffset.toNat - bitLen.toNat) %
            2 ^ bitLen.toNat : ℕ) : ℤ) ↔
        Readable t bitOffset bitLen)) ∧
      ∀ bitOffset len₁ len₂ : UInt64,
        bitOffset.toNat + len₁.toNat + len₂.toNat ≤ t.bits →
        ((∃ first second, getBits t number bitOffset len₁ = .ok first ∧
            getBits t number (bitOffset + len₁) len₂ = .ok second ∧
            getBits t number bitOffset (len₁ + len₂) = .ok (first * 2 ^ len₂.toNat + second)) ↔
          Readable t bitOffset len₁ ∧ Readable t (bitOffset + len₁) len₂ ∧
            Readable t bitOffset (len₁ + len₂)) := by
  refine ⟨?_, ?_⟩
  · intro bitOffset bitLen hrange
    exact ⟨readable_of_getBits ht hrange, getBits_of_readable ht hnumber hrange⟩
  · intro bitOffset len₁ len₂ hrange
    have hwidth := ht.bits_mem.2.2
    have hoff := @toNat_add_of_le bitOffset len₁ (by omega)
    have hlen := @toNat_add_of_le len₁ len₂ (by omega)
    constructor
    · rintro ⟨first, second, h₁, h₂, h⟩
      exact ⟨readable_of_getBits ht (by omega) h₁, readable_of_getBits ht (by omega) h₂,
        readable_of_getBits ht (by omega) h⟩
    · rintro ⟨h₁, h₂, h⟩
      exact getBits_append ht hnumber hrange h₁ h₂ h

/-- The two middle digits of a number of four hexadecimal digits. -/
theorem getBits_exact_middle : getBits .uint16 0xABCD 4 8 = .ok 0xBC :=
  ((@getBits_exact_iff .uint16 0xABCD (Or.inr (Or.inl rfl)) (by decide)).1 4 8 (by decide)).mpr
    ⟨by decide, by decide⟩

/-- The upper half of a number of 64 bits is not read, and neither is the empty range in front
of it. -/
theorem getBits_upper_half :
    IsUnsigned .uint64 ∧ (2 ^ 64 - 1 : ℕ) < 2 ^ IntegralType.uint64.bits ∧
    (0 : UInt64).toNat + (32 : UInt64).toNat ≤ IntegralType.uint64.bits ∧
    getBits .uint64 (2 ^ 64 - 1) 0 32 = .error .shift ∧
    getBits .uint64 (2 ^ 64 - 1) 0 0 = .error .shift :=
  ⟨Or.inr (Or.inr (Or.inr rfl)), by decide, by decide, by decide, by decide⟩

end GetBits

end Ringmaster
