/-
# Scanning a string for a separator

The tokens of a string that is scanned from left to right for a separator of any length, which
may overlap itself.  `Separator.Scan` is the relation between a string, its tokens, and whether
the scan ends by consuming a separator at the very end of the string.

A string has at most one scan (`Scan.unique`); its tokens do not contain the separator
(`Scan.not_occurs`), and joining them gives back the string, less the separator that the scan
consumed last (`Scan.intercalate_append`).
-/
import Mathlib

namespace Separator

variable {α : Type*} {sep front front' back back' str : List α}

/-! ## The first occurrence -/

/-- The separator behind a string is its first occurrence: none of those that would begin in the
string is complete before the last letter. -/
def First (sep front : List α) : Prop := ¬ sep <:+: front ++ sep.dropLast

/-- There is no separator in front of the first one. -/
theorem First.not_occurs (h : First sep front) : ¬ sep <:+: front :=
  fun hoccurs => h (hoccurs.trans (List.prefix_append _ _).isInfix)

/-- The empty string is in front of the first separator. -/
theorem First.nil (hne : sep ≠ []) : First sep [] := by
  intro hoccurs
  have hle := hoccurs.length_le
  have hpos := List.length_pos_of_ne_nil hne
  rw [List.nil_append, List.length_dropLast] at hle
  omega

/-- No separator is complete before the first one is. -/
theorem First.length_le (h : First sep front) (hbegins : front' ++ sep <+: front ++ (sep ++ back)) :
    front.length ≤ front'.length := by
  by_contra hlt
  have hfront : front ++ sep.dropLast <+: front ++ (sep ++ back) :=
    (List.prefix_append_right_inj front).mpr
      ((List.dropLast_prefix sep).trans (List.prefix_append sep back))
  have hlength : (front' ++ sep).length ≤ (front ++ sep.dropLast).length := by
    rw [List.length_append, List.length_append, List.length_dropLast]
    omega
  have hshort : front' ++ sep <+: front ++ sep.dropLast :=
    List.prefix_of_prefix_length_le hbegins hfront hlength
  exact h ((List.suffix_append front' sep).isInfix.trans hshort.isInfix)

/-- The first separator of a string divides it in one way. -/
theorem First.unique (h : First sep front) (h' : First sep front')
    (heq : front ++ (sep ++ back) = front' ++ (sep ++ back')) : front = front' ∧ back = back' := by
  have hle : front.length ≤ front'.length := by
    refine @First.length_le _ sep front front' back h ?_
    rw [heq, ← List.append_assoc]
    exact List.prefix_append _ _
  have hle' : front'.length ≤ front.length := by
    refine @First.length_le _ sep front' front back' h' ?_
    rw [← heq, ← List.append_assoc]
    exact List.prefix_append _ _
  obtain ⟨hfront, hrest⟩ := List.append_inj heq (Nat.le_antisymm hle hle')
  exact ⟨hfront, List.append_cancel_left hrest⟩

/-! ## The scan -/

/-- A scan of a string for a separator: the tokens, and whether the scan ends by consuming a
separator at the very end of the string. -/
inductive Scan (sep : List α) : List α → List (List α) → Bool → Prop
  | empty : Scan sep [] [] false
  | rest {token : List α} (hne : token ≠ []) (hnot : ¬ sep <:+: token) :
      Scan sep token [token] false
  | last {token : List α} (hfirst : First sep token) : Scan sep (token ++ sep) [token] true
  | next {token str : List α} {tokens : List (List α)} {ended : Bool} (hfirst : First sep token)
      (hne : str ≠ []) (hscan : Scan sep str tokens ended) :
      Scan sep (token ++ (sep ++ str)) (token :: tokens) ended

variable {tokens tokens' : List (List α)} {ended ended' : Bool}

/-- The tokens of a scan do not contain the separator. -/
theorem Scan.not_occurs (h : Scan sep str tokens ended) : ∀ token ∈ tokens, ¬ sep <:+: token := by
  induction h with
  | empty => exact fun token hmem => absurd hmem List.not_mem_nil
  | rest hne hnot =>
    intro token hmem
    rw [List.mem_singleton.mp hmem]
    exact hnot
  | last hfirst =>
    intro token hmem
    rw [List.mem_singleton.mp hmem]
    exact hfirst.not_occurs
  | next hfirst hne hscan ih =>
    intro token hmem
    rcases List.mem_cons.mp hmem with rfl | hmem
    · exact hfirst.not_occurs
    · exact ih token hmem

/-- A string that is not empty has a token. -/
theorem Scan.tokens_ne_nil (h : Scan sep str tokens ended) (hne : str ≠ []) : tokens ≠ [] := by
  cases h with
  | empty => exact absurd rfl hne
  | rest hne hnot => exact List.cons_ne_nil _ _
  | last hfirst => exact List.cons_ne_nil _ _
  | next hfirst hne hscan => exact List.cons_ne_nil _ _

/-- Joining the tokens gives back the string, less a separator that was consumed at its end. -/
theorem Scan.intercalate_append (h : Scan sep str tokens ended) :
    sep.intercalate tokens ++ (if ended then sep else []) = str := by
  induction h with
  | empty => rfl
  | rest hne hnot =>
    rw [List.intercalate_singleton, if_neg Bool.false_ne_true, List.append_nil]
  | last hfirst => rw [List.intercalate_singleton, if_pos rfl]
  | next hfirst hne hscan ih =>
    rw [List.intercalate_cons_of_ne_nil (hscan.tokens_ne_nil hne), List.append_assoc,
      List.append_assoc, ih]

/-- A string without a separator is its only token, if it is not empty. -/
theorem Scan.of_not_occurs (h : Scan sep str tokens ended) (hne : str ≠ [])
    (hnot : ¬ sep <:+: str) : tokens = [str] ∧ ended = false := by
  cases h with
  | empty => exact absurd rfl hne
  | rest => exact ⟨rfl, rfl⟩
  | last hfirst => exact absurd (List.suffix_append _ sep).isInfix hnot
  | next hfirst => exact absurd (List.infix_append' _ sep _) hnot

/-- The scan of a string with a separator cuts it at the first one. -/
theorem Scan.of_first (hsep : sep ≠ []) (hfirst : First sep front)
    (h : Scan sep str tokens ended) (heq : str = front ++ (sep ++ back)) :
    ∃ rest, tokens = front :: rest ∧
      ((back = [] ∧ rest = [] ∧ ended = true) ∨ (back ≠ [] ∧ Scan sep back rest ended)) := by
  cases h with
  | empty => exact absurd (List.append_eq_nil_iff.mp (List.append_eq_nil_iff.mp heq.symm).2).1 hsep
  | rest hne hnot =>
    rw [heq] at hnot
    exact absurd (List.infix_append' front sep back) hnot
  | @last token hfirst' =>
    have hsame : token ++ (sep ++ []) = front ++ (sep ++ back) := by rw [List.append_nil, heq]
    obtain ⟨rfl, rfl⟩ := hfirst'.unique hfirst hsame
    exact ⟨[], rfl, Or.inl ⟨rfl, rfl, rfl⟩⟩
  | next hfirst' hne hscan =>
    obtain ⟨rfl, rfl⟩ := hfirst'.unique hfirst heq
    exact ⟨_, rfl, Or.inr ⟨hne, hscan⟩⟩

/-- The empty string has no tokens. -/
theorem Scan.of_nil (hsep : sep ≠ []) (h : Scan sep str tokens ended) (hstr : str = []) :
    tokens = [] ∧ ended = false := by
  cases h with
  | empty => exact ⟨rfl, rfl⟩
  | rest hne => exact absurd hstr hne
  | last => exact absurd (List.append_eq_nil_iff.mp hstr).2 hsep
  | next =>
    have hrest := (List.append_eq_nil_iff.mp hstr).2
    exact absurd (List.append_eq_nil_iff.mp hrest).1 hsep

/-- A string has at most one scan. -/
theorem Scan.unique (hsep : sep ≠ []) (h : Scan sep str tokens ended)
    (h' : Scan sep str tokens' ended') : tokens = tokens' ∧ ended = ended' := by
  induction h generalizing tokens' ended' with
  | empty =>
    obtain ⟨rfl, rfl⟩ := h'.of_nil hsep rfl
    exact ⟨rfl, rfl⟩
  | rest hne hnot =>
    obtain ⟨rfl, rfl⟩ := h'.of_not_occurs hne hnot
    exact ⟨rfl, rfl⟩
  | last hfirst =>
    obtain ⟨rest, rfl, ⟨-, rfl, rfl⟩ | ⟨hne, -⟩⟩ :=
      h'.of_first hsep hfirst (by rw [List.append_nil])
    · exact ⟨rfl, rfl⟩
    · exact absurd rfl hne
  | next hfirst hne hscan ih =>
    obtain ⟨rest, rfl, ⟨hnil, -, -⟩ | ⟨-, hscan'⟩⟩ := h'.of_first hsep hfirst rfl
    · exact absurd hnil hne
    · obtain ⟨rfl, rfl⟩ := ih hscan'
      exact ⟨rfl, rfl⟩

end Separator
