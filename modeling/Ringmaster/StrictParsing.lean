/-
# Strict integer parsing

The functions `strict_stoi` and `strict_stoll` of `src/util/conversion.cc` on the texts of
numbers: white space, a sign and digits.  Both convert what the standard library parses and
raise when it stops before the end of the string (`strict_append`).  The second one keeps the
value that `std::stoll` gives in an `int`, so that it returns the residue of the number modulo
`2 ^ 32` (`strictStoll_decimalText`), and the number itself only where an `int` represents it.
-/
import Ringmaster.NarrowCast
import Ringmaster.Strings

namespace Ringmaster

open IntegralType

/-! ## `strict_stoll` -/

/-- The function `std::stoll` in base 10. -/
def stoll (str : Bytes) : Except SysExn (ℤ × ℕ) := sto "stoll" 64 str

/-- The function `strict_stoll` in base 10. -/
def strictStoll (str : Bytes) : Except SysExn ℤ :=
  match stoll str with
  | .error e => .error e
  | .ok (val, pos) =>
    -- the local variable is an `int`
    let ret := int32.staticCast val
    if pos ≠ str.length then
      .error (.exn (.runtimeError "strict_stoll"))
    else
      .ok ret

/-- What the two functions do: they convert a string, store the value in a local variable, and
raise when the conversion stopped before the end of the string. -/
def strict (name what : String) (bits : ℕ) (store : ℤ → ℤ) (str : Bytes) : Except SysExn ℤ :=
  match sto name bits str with
  | .error e => .error e
  | .ok (val, pos) =>
    if pos ≠ str.length then
      .error (.exn (.runtimeError what))
    else
      .ok (store val)

/-- The function `strict_stoi` stores the value as it is. -/
theorem strictStoi_eq (str : Bytes) :
    strictStoi str = strict "stoi" "strict_stoi" 32 id str := rfl

/-- The function `strict_stoll` stores the value in an `int`. -/
theorem strictStoll_eq (str : Bytes) :
    strictStoll str = strict "stoll" "strict_stoll" 64 int32.staticCast str := rfl

/-! ## The texts of numbers -/

/-- The sign in front of a number. -/
inductive Sign where
  | none
  | plus
  | minus
  deriving DecidableEq, Repr

namespace Sign

/-- The characters of the sign. -/
def text : Sign → Bytes
  | none => []
  | plus => ['+'.toUInt8]
  | minus => ['-'.toUInt8]

/-- The factor that the sign stands for. -/
def value : Sign → ℤ
  | none => 1
  | plus => 1
  | minus => -1

end Sign

/-- A number as the standard library reads it: white space, a sign, and at least one digit. -/
structure NumberText where
  spaces : Bytes
  sign : Sign
  digits : Bytes
  spaces_isSpace : ∀ c ∈ spaces, isSpace c = true
  digits_ne_nil : digits ≠ []
  digits_isDigit : ∀ c ∈ digits, isDigit c = true

namespace NumberText

/-- The characters of the number. -/
def text (num : NumberText) : Bytes := num.spaces ++ (num.sign.text ++ num.digits)

/-- The value of the number. -/
def value (num : NumberText) : ℤ := num.sign.value * decimal num.digits

end NumberText

/-- What follows a number does not continue it. -/
def EndsNumber (rest : Bytes) : Prop := ∀ c ∈ rest.head?, isDigit c = false

/-- Nothing follows a number at the end of a string. -/
theorem endsNumber_nil : EndsNumber [] := by
  rintro c ⟨⟩

section Parsing

variable {num : NumberText} {rest : Bytes}

/-- The white space in front of a number is skipped, and nothing else. -/
theorem dropWhile_isSpace_text (num : NumberText) (rest : Bytes) :
    (num.text ++ rest).dropWhile isSpace = num.sign.text ++ (num.digits ++ rest) := by
  obtain ⟨c, digits, hdigits⟩ := List.exists_cons_of_ne_nil num.digits_ne_nil
  have hc : isSpace c = false := by
    refine (digit_eq_false (num.digits_isDigit c ?_)).1
    rw [hdigits]
    exact List.mem_cons_self
  unfold NumberText.text
  rw [List.append_assoc, List.dropWhile_append_of_pos num.spaces_isSpace, List.append_assoc,
    hdigits]
  cases num.sign with
  | none => exact List.dropWhile_cons_of_neg (by rw [hc]; exact Bool.false_ne_true)
  | plus => exact List.dropWhile_cons_of_neg (by decide)
  | minus => exact List.dropWhile_cons_of_neg (by decide)

/-- The sign is read, and the digits are left. -/
theorem readSign_text (num : NumberText) (rest : Bytes) :
    readSign (num.sign.text ++ (num.digits ++ rest)) =
      (num.sign.value, num.digits ++ rest) := by
  obtain ⟨c, digits, hdigits⟩ := List.exists_cons_of_ne_nil num.digits_ne_nil
  have hc : c ≠ '-'.toUInt8 ∧ c ≠ '+'.toUInt8 := by
    refine (digit_eq_false (num.digits_isDigit c ?_)).2
    rw [hdigits]
    exact List.mem_cons_self
  cases num.sign with
  | none =>
    rw [hdigits]
    show (if c = _ then _ else if c = _ then _ else _) = _
    rw [if_neg hc.1, if_neg hc.2]
    rfl
  | plus => rfl
  | minus => rfl

/-- The digits of the number are read, up to what follows it. -/
theorem takeWhile_isDigit_text (num : NumberText) (hrest : EndsNumber rest) :
    (num.digits ++ rest).takeWhile isDigit = num.digits := by
  rw [List.takeWhile_append_of_pos num.digits_isDigit]
  cases rest with
  | nil => exact List.append_nil _
  | cons c rest =>
    have hc : isDigit c = false := hrest c rfl
    rw [List.takeWhile_cons_of_neg (by rw [hc]; exact Bool.false_ne_true), List.append_nil]

/-- The conversion reads the whole number and nothing behind it. -/
theorem sto_text_append (name : String) (bits : ℕ) (hrest : EndsNumber rest) :
    sto name bits (num.text ++ rest) =
      if num.value < -2 ^ (bits - 1) ∨ 2 ^ (bits - 1) ≤ num.value then
        .error (.exn (.outOfRange name))
      else
        .ok (num.value, num.text.length) := by
  have hpos : (num.text ++ rest).length - ((num.digits ++ rest).length - num.digits.length) =
      num.text.length := by
    rw [List.length_append, List.length_append]
    omega
  unfold sto
  rw [dropWhile_isSpace_text, readSign_text]
  dsimp only
  rw [takeWhile_isDigit_text num hrest, if_neg num.digits_ne_nil, hpos]
  rfl

/-- A text with anything behind the number is longer than the number. -/
theorem length_text_ne (hne : rest ≠ []) : num.text.length ≠ (num.text ++ rest).length := by
  have hpos := List.length_pos_of_ne_nil hne
  rw [List.length_append]
  omega

/-- Strict parsing raises when anything follows the number. -/
theorem strict_append (name what : String) (bits : ℕ) (store : ℤ → ℤ)
    (hrest : EndsNumber rest) (hne : rest ≠ []) :
    ∃ e, strict name what bits store (num.text ++ rest) = .error e := by
  unfold strict
  rw [sto_text_append name bits hrest]
  split_ifs with hrange
  · exact ⟨_, rfl⟩
  · dsimp only
    rw [if_pos (length_text_ne hne)]
    exact ⟨_, rfl⟩

/-- Strict parsing of a number in range gives what is stored of its value. -/
theorem strict_text (name what : String) {bits : ℕ} (store : ℤ → ℤ)
    (hle : -2 ^ (bits - 1) ≤ num.value) (hlt : num.value < 2 ^ (bits - 1)) :
    strict name what bits store num.text = .ok (store num.value) := by
  have hsto := @sto_text_append num [] name bits endsNumber_nil
  rw [List.append_nil, if_neg (not_or.mpr ⟨not_lt.mpr hle, not_le.mpr hlt⟩)] at hsto
  unfold strict
  rw [hsto]
  dsimp only
  rw [if_neg (not_not.mpr rfl)]

end Parsing

/-! ## The base-10 text of a number -/

/-- The base-10 text of a number. -/
def decimalText (n : ℤ) : Bytes := (toString n).toList.map Char.toUInt8

/-- The byte of a decimal digit. -/
theorem toUInt8_of_isDigit {c : Char} (hc : c.isDigit = true) :
    isDigit c.toUInt8 = true ∧ c.toUInt8.toNat = c.toNat := by
  have hrange : 48 ≤ c.toNat ∧ c.toNat ≤ 57 := by
    simpa [Char.isDigit, UInt32.le_iff_toNat_le] using hc
  have hbyte : c.toUInt8.toNat = c.toNat := by
    show c.toNat % 2 ^ 8 = c.toNat
    omega
  refine ⟨decide_eq_true ⟨?_, ?_⟩, hbyte⟩
  · rw [UInt8.le_iff_toNat_le, hbyte]
    exact hrange.1
  · rw [UInt8.le_iff_toNat_le, hbyte]
    exact hrange.2

/-- The value of the bytes of digits is the value of the digits. -/
theorem decimal_map_toUInt8 {digits : List Char} (h : ∀ c ∈ digits, c.isDigit = true) :
    decimal (digits.map Char.toUInt8) = Nat.ofDigitChars 10 digits 0 := by
  unfold decimal Nat.ofDigitChars
  rw [List.foldl_map]
  refine List.foldl_ext _ _ _ ?_
  intro n c hc
  rw [(toUInt8_of_isDigit (h c hc)).2]

/-- The base-10 text of a number as a text that is parsed. -/
def NumberText.ofInt (n : ℤ) : NumberText where
  spaces := []
  sign := if n < 0 then .minus else .none
  digits := (Nat.toDigits 10 n.natAbs).map Char.toUInt8
  spaces_isSpace := by simp
  digits_ne_nil := by simp [Nat.toDigits_ne_nil]
  digits_isDigit := by
    intro c hc
    obtain ⟨digit, hdigit, rfl⟩ := List.mem_map.mp hc
    exact (toUInt8_of_isDigit
      (Nat.isDigit_of_mem_toDigits (by decide) (by decide) hdigit)).1

/-- The characters of the base-10 text. -/
theorem text_ofInt (n : ℤ) : (NumberText.ofInt n).text = decimalText n := by
  unfold decimalText
  rw [Int.toString_eq_repr, Int.repr_eq_if]
  rcases lt_or_ge n 0 with hneg | hnonneg
  · have habs : (-n).toNat = n.natAbs := by omega
    rw [if_neg (not_le.mpr hneg), habs, String.toList_append, Nat.toList_repr, List.map_append]
    unfold NumberText.ofInt NumberText.text
    rw [if_pos hneg]
    rfl
  · have habs : n.toNat = n.natAbs := by omega
    rw [if_pos hnonneg, habs, Nat.toList_repr]
    unfold NumberText.ofInt NumberText.text
    rw [if_neg (not_lt.mpr hnonneg)]
    rfl

/-- The value of the base-10 text. -/
theorem value_ofInt (n : ℤ) : (NumberText.ofInt n).value = n := by
  have hdigits : decimal ((Nat.toDigits 10 n.natAbs).map Char.toUInt8) = n.natAbs := by
    rw [decimal_map_toUInt8, Nat.ofDigitChars_ten_toDigits]
    intro c hc
    exact Nat.isDigit_of_mem_toDigits (by decide) (by decide) hc
  unfold NumberText.value NumberText.ofInt
  dsimp only
  rw [hdigits]
  split_ifs with hneg
  · show (-1 : ℤ) * n.natAbs = n
    omega
  · show (1 : ℤ) * n.natAbs = n
    omega

/-! ## When strict parsing is exact -/

/-- Strict parsing of the base-10 text of a number is exact: as a `long long`, and as an `int`
where an `int` represents the number. -/
def ParsesExactly (n : ℤ) : Prop :=
  strictStoll (decimalText n) = .ok n ∧
    (int32.Represents n →
      strictStoi (decimalText n) = .ok n ∧
        strictStoi (decimalText n) = strictStoll (decimalText n))

/-- Strict parsing to a `long long` gives the residue of the number in an `int`. -/
theorem strictStoll_decimalText {n : ℤ} (hn : int64.Represents n) :
    strictStoll (decimalText n) = .ok (int32.staticCast n) := by
  obtain ⟨hle, hlt⟩ := represents_int64.mp hn
  rw [← text_ofInt, strictStoll_eq, strict_text, value_ofInt]
  · rw [value_ofInt]
    exact hle
  · rw [value_ofInt]
    exact hlt

/-- Strict parsing to an `int` gives the number where an `int` represents it. -/
theorem strictStoi_decimalText {n : ℤ} (hn : int32.Represents n) :
    strictStoi (decimalText n) = .ok n := by
  obtain ⟨hle, hlt⟩ := represents_int32.mp hn
  rw [← text_ofInt, strictStoi_eq, strict_text, value_ofInt]
  · rfl
  · rw [value_ofInt]
    exact hle
  · rw [value_ofInt]
    exact hlt

/-- Strict parsing of a `long long` is exact if and only if an `int` represents the number, and
it raises whatever follows a number. -/
theorem parsesExactly_iff {n : ℤ} (hn : int64.Represents n) :
    (ParsesExactly n ↔ int32.Represents n) ∧
      ∀ (num : NumberText) (c : UInt8) (rest : Bytes), isDigit c = false →
        (∃ e, strictStoi (num.text ++ c :: rest) = .error e) ∧
          ∃ e, strictStoll (num.text ++ c :: rest) = .error e := by
  refine ⟨?_, ?_⟩
  · have hcast := @staticCast_eq_self_iff int32 n (by decide)
    have hll := strictStoll_decimalText hn
    constructor
    · rintro ⟨hexact, -⟩
      rw [hll, Except.ok.injEq] at hexact
      exact hcast.mp hexact
    · intro hint
      rw [hcast.mpr hint] at hll
      have hi := strictStoi_decimalText hint
      exact ⟨hll, fun _ => ⟨hi, hi.trans hll.symm⟩⟩
  · intro num c rest hc
    have hends : EndsNumber (c :: rest) := by
      rintro c' ⟨⟩
      exact hc
    rw [strictStoi_eq, strictStoll_eq]
    exact ⟨strict_append _ _ _ _ hends (List.cons_ne_nil c rest),
      strict_append _ _ _ _ hends (List.cons_ne_nil c rest)⟩

/-- A number of two digits with a sign. -/
theorem parsesExactly_neg_twelve : ParsesExactly (-12) :=
  (@parsesExactly_iff (-12) (by decide)).1.mpr (by decide)

/-- The first number above the range of an `int` comes back as the least `int`. -/
theorem strictStoll_two_pow : int64.Represents (2 ^ 31) ∧
    strictStoll (decimalText (2 ^ 31)) = .ok (-2 ^ 31) ∧ ¬ ParsesExactly (2 ^ 31) := by
  have hparse : strictStoll (decimalText (2 ^ 31)) = .ok (-2 ^ 31) :=
    strictStoll_decimalText (by decide)
  refine ⟨by decide, hparse, ?_⟩
  rintro ⟨hexact, -⟩
  rw [hparse, Except.ok.injEq] at hexact
  exact absurd hexact (by decide)

end Ringmaster
