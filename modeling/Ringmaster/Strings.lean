/-
# Splitting and converting strings

The functions `split` of `src/util/split.cc` and `strict_stoi` of `src/util/conversion.cc`,
over strings of bytes.  The search for a separator finds its first occurrence (`find_spec`).
When the separator is a single byte, the tokens that are not empty are those between the
separators (`mem_splitLoop_iff`), and a string of digits is converted to its value
(`strictStoi_digits`).
-/
import Ringmaster.FileDescriptor
import Ringmaster.Library.Separator

namespace Ringmaster

open Separator

/-! ## `split` -/

/-- The position of the first occurrence of a separator that is not empty. -/
def find (separator : Bytes) : Bytes → Option ℕ
  | [] => none
  | b :: rest =>
    if separator.isPrefixOf (b :: rest) then some 0 else (find separator rest).map (· + 1)

/-- The loop of `split`, with what is left of the string. -/
def splitLoop (separator : Bytes) (hne : separator ≠ []) (str : Bytes) : List Bytes :=
  if _hstr : str = [] then
    []
  else
    match find separator str with
    | none => [str]
    | some nextPos =>
      str.take nextPos :: splitLoop separator hne (str.drop (nextPos + separator.length))
termination_by str.length
decreasing_by
  have hsep : 0 < separator.length := List.length_pos_of_ne_nil hne
  have hlen : 0 < str.length := List.length_pos_of_ne_nil _hstr
  rw [List.length_drop]
  omega

/-- The function `split`. -/
def split (str separator : Bytes) : Except Exn (List Bytes) :=
  if hne : separator = [] then
    .error (.runtimeError "empty separator")
  else
    .ok (splitLoop separator hne str)

/-- The search finds the first occurrence of the separator, or there is none. -/
theorem find_spec {separator : Bytes} (hne : separator ≠ []) (str : Bytes) :
    (find separator str = none ∧ ¬ separator <:+: str) ∨
      ∃ front back, str = front ++ (separator ++ back) ∧ First separator front ∧
        find separator str = some front.length := by
  induction str with
  | nil => exact Or.inl ⟨rfl, fun hoccurs => hne (List.infix_nil.mp hoccurs)⟩
  | cons b rest ih =>
    unfold find
    by_cases hbegins : separator.isPrefixOf (b :: rest) = true
    · obtain ⟨back, hback⟩ := List.isPrefixOf_iff_prefix.mp hbegins
      rw [if_pos hbegins]
      exact Or.inr ⟨[], back, hback.symm, First.nil hne, rfl⟩
    · rw [if_neg hbegins]
      rw [List.isPrefixOf_iff_prefix] at hbegins
      rcases ih with ⟨hnone, hnot⟩ | ⟨front, back, rfl, hfirst, hsome⟩
      · rw [hnone]
        refine Or.inl ⟨rfl, ?_⟩
        rw [List.infix_cons_iff, not_or]
        exact ⟨hbegins, hnot⟩
      · rw [hsome]
        refine Or.inr ⟨b :: front, back, rfl, ?_, rfl⟩
        unfold First
        rw [List.cons_append, List.infix_cons_iff, not_or]
        refine ⟨?_, hfirst⟩
        -- what is in front of the end of the first separator is in front of the string
        intro hearly
        refine hbegins (hearly.trans ?_)
        rw [List.prefix_cons_inj, List.prefix_append_right_inj]
        exact (List.dropLast_prefix separator).trans (List.prefix_append separator back)

section Split

variable {sep : UInt8}

/-- A single byte is found where it first occurs. -/
theorem find_singleton (str : Bytes) :
    (find [sep] str = none ∧ sep ∉ str) ∨
      ∃ front back, str = front ++ sep :: back ∧ sep ∉ front ∧
        find [sep] str = some front.length := by
  rcases find_spec (List.cons_ne_nil sep []) str with ⟨hnone, hnot⟩ |
    ⟨front, back, heq, hfirst, hsome⟩
  · rw [List.singleton_infix_iff] at hnot
    exact Or.inl ⟨hnone, hnot⟩
  · have hnot := hfirst.not_occurs
    rw [List.singleton_infix_iff] at hnot
    exact Or.inr ⟨front, back, heq, hnot, hsome⟩

/-- The tokens that are not empty are the non-empty strings between the separators. -/
theorem mem_splitLoop_iff (str : Bytes) {token : Bytes} (htoken : token ≠ []) :
    token ∈ splitLoop [sep] (List.cons_ne_nil sep []) str ↔ token ∈ str.splitOn sep := by
  induction hn : str.length using Nat.strong_induction_on generalizing str with
  | _ n ih =>
    subst hn
    rw [splitLoop]
    by_cases hstr : str = []
    · subst hstr
      rw [dif_pos rfl, List.splitOn_nil]
      simp [htoken]
    · rw [dif_neg hstr]
      rcases @find_singleton sep str with ⟨hnone, hnotin⟩ |
        ⟨front, back, rfl, hnotin, hsome⟩
      · rw [hnone, List.splitOn_eq_singleton hnotin]
      · have htake : (front ++ sep :: back).take front.length = front := List.take_left
        have hdrop : (front ++ sep :: back).drop (front.length + [sep].length) = back := by
          rw [← List.drop_drop, List.drop_left]
          rfl
        have hlt : back.length < (front ++ sep :: back).length := by
          rw [List.length_append, List.length_cons]
          omega
        rw [hsome]
        dsimp only
        rw [htake, hdrop, List.splitOn_append_cons_self_of_not_mem hnotin, List.mem_cons,
          List.mem_cons, ih back.length hlt back rfl]

end Split

/-! ## `strict_stoi` -/

/-- The function `isspace`. -/
def isSpace (c : UInt8) : Bool := decide (c = 32 ∨ (9 ≤ c ∧ c ≤ 13))

/-- The function `isdigit`. -/
def isDigit (c : UInt8) : Bool := decide ('0'.toUInt8 ≤ c ∧ c ≤ '9'.toUInt8)

/-- The value of digits in base 10. -/
def decimal (digits : Bytes) : ℕ :=
  digits.foldl (fun n c => 10 * n + (c.toNat - '0'.toNat)) 0

/-- The sign of a number, and what follows it. -/
def readSign : Bytes → ℤ × Bytes
  | [] => (1, [])
  | c :: rest =>
    if c = '-'.toUInt8 then (-1, rest)
    else if c = '+'.toUInt8 then (1, rest)
    else (1, c :: rest)

/-- The conversions of the standard library in base 10, for a signed result of the given
width: the value, and the number of characters that were read. -/
def sto (name : String) (bits : ℕ) (str : Bytes) : Except SysExn (ℤ × ℕ) :=
  let (sign, rest) := readSign (str.dropWhile isSpace)
  let digits := rest.takeWhile isDigit
  if digits = [] then
    .error (.invalidArgument name)
  else if sign * decimal digits < -2 ^ (bits - 1) ∨ 2 ^ (bits - 1) ≤ sign * decimal digits then
    .error (.exn (.outOfRange name))
  else
    .ok (sign * decimal digits, str.length - (rest.length - digits.length))

/-- The function `std::stoi` in base 10. -/
def stoi (str : Bytes) : Except SysExn (ℤ × ℕ) := sto "stoi" 32 str

/-- The function `strict_stoi` in base 10. -/
def strictStoi (str : Bytes) : Except SysExn ℤ :=
  match stoi str with
  | .error e => .error e
  | .ok (ret, pos) =>
    if pos ≠ str.length then
      .error (.exn (.runtimeError "strict_stoi"))
    else
      .ok ret

/-- A digit is no white space and no sign. -/
theorem digit_eq_false {c : UInt8} (hc : isDigit c = true) :
    isSpace c = false ∧ c ≠ '-'.toUInt8 ∧ c ≠ '+'.toUInt8 := by
  have hdigit : '0'.toUInt8 ≤ c ∧ c ≤ '9'.toUInt8 := of_decide_eq_true hc
  have hrange : 48 ≤ c.toNat ∧ c.toNat ≤ 57 :=
    ⟨UInt8.le_iff_toNat_le.mp hdigit.1, UInt8.le_iff_toNat_le.mp hdigit.2⟩
  refine ⟨?_, ?_, ?_⟩
  · apply decide_eq_false
    rintro (rfl | ⟨-, hle⟩)
    · exact absurd hrange.1 (by decide)
    · have hle' : c.toNat ≤ 13 := UInt8.le_iff_toNat_le.mp hle
      omega
  · rintro rfl
    exact absurd hrange.1 (by decide)
  · rintro rfl
    exact absurd hrange.1 (by decide)

/-- A string of digits is converted to its value. -/
theorem strictStoi_digits {str : Bytes} (hne : str ≠ []) (hdigits : ∀ c ∈ str, isDigit c)
    (hlt : decimal str < 2 ^ 31) : strictStoi str = .ok (decimal str) := by
  obtain ⟨c, rest, rfl⟩ := List.exists_cons_of_ne_nil hne
  obtain ⟨hspace, hminus, hplus⟩ := digit_eq_false (hdigits c List.mem_cons_self)
  have hdrop : (c :: rest).dropWhile isSpace = c :: rest := by
    rw [List.dropWhile_cons_of_neg]
    rw [hspace]
    exact Bool.false_ne_true
  have htake : (c :: rest).takeWhile isDigit = c :: rest :=
    List.takeWhile_eq_self_iff.mpr hdigits
  have hsign : readSign (c :: rest) = (1, c :: rest) := by
    unfold readSign
    dsimp only
    rw [if_neg hminus, if_neg hplus]
  have hstoi : stoi (c :: rest) = .ok ((decimal (c :: rest) : ℤ), (c :: rest).length) := by
    unfold stoi sto
    rw [hdrop, hsign]
    dsimp only
    rw [htake, if_neg (List.cons_ne_nil c rest), if_neg (by omega), one_mul, Nat.sub_self,
      Nat.sub_zero]
  unfold strictStoi
  rw [hstoi]
  dsimp only
  rw [if_neg (not_not.mpr rfl)]

end Ringmaster
