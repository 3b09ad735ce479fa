/-
# What `split` returns

The function `split` of `src/util/split.cc` scans the string from left to right for the
separator (`scan_splitLoop`): it looks for the first occurrence behind the last one it consumed,
and stops at the end of the string.  That the tokens do not contain the separator, and that
joining them gives back the string, less a separator consumed at its very end, are facts about
every such scan.
-/
import Ringmaster.Strings

namespace Ringmaster

open Separator

variable {separator : Bytes}

/-- The loop of `split` is a scan of what is left of the string. -/
theorem scan_splitLoop (hne : separator ≠ []) (str : Bytes) :
    ∃ ended, Scan separator str (splitLoop separator hne str) ended := by
  induction hn : str.length using Nat.strong_induction_on generalizing str with
  | _ n ih =>
    subst hn
    rw [splitLoop]
    by_cases hstr : str = []
    · subst hstr
      exact ⟨false, Scan.empty⟩
    · rw [dif_neg hstr]
      rcases find_spec hne str with ⟨hnone, hnot⟩ | ⟨front, back, rfl, hfirst, hsome⟩
      · rw [hnone]
        exact ⟨false, Scan.rest hstr hnot⟩
      · have htake : (front ++ (separator ++ back)).take front.length = front := List.take_left
        have hdrop : (front ++ (separator ++ back)).drop (front.length + separator.length) =
            back := by
          rw [← List.drop_drop, List.drop_left, List.drop_left]
        rw [hsome]
        dsimp only
        rw [htake, hdrop]
        by_cases hback : back = []
        · subst hback
          rw [List.append_nil, splitLoop, dif_pos rfl]
          exact ⟨true, Scan.last hfirst⟩
        · have hlt : back.length < (front ++ (separator ++ back)).length := by
            have hpos := List.length_pos_of_ne_nil hne
            rw [List.length_append, List.length_append]
            omega
          obtain ⟨ended, hscan⟩ := ih back.length hlt back rfl
          exact ⟨ended, Scan.next hfirst hback hscan⟩

/-- A separator that overlaps itself is consumed from the left. -/
example : split [7, 7, 7] [7, 7] = .ok [[], [7]] := by
  simp [split, splitLoop, find, List.isPrefixOf]

/-- An empty separator is refused.  With any other separator `split` returns the tokens of the
scan of the string from left to right, which is the only one; no token contains the separator,
and joining the tokens gives back the string, less the separator that the scan consumes at the
very end of the string, if it does. -/
theorem split_faithful (str separator : Bytes) :
    (separator = [] → split str separator = .error (.runtimeError "empty separator")) ∧
      (separator ≠ [] → ∃ tokens ended,
        split str separator = .ok tokens ∧
        (∀ tokens' ended', Scan separator str tokens' ended' ↔
          tokens' = tokens ∧ ended' = ended) ∧
        (∀ token ∈ tokens, ¬ separator <:+: token) ∧
        separator.intercalate tokens ++ (if ended then separator else []) = str) := by
  refine ⟨?_, ?_⟩
  · intro hempty
    unfold split
    rw [dif_pos hempty]
  · intro hne
    obtain ⟨ended, hscan⟩ := scan_splitLoop hne str
    refine ⟨splitLoop separator hne str, ended, ?_, ?_, hscan.not_occurs, hscan.intercalate_append⟩
    · unfold split
      rw [dif_neg hne]
    · intro tokens' ended'
      constructor
      · intro hscan'
        exact hscan'.unique hne hscan
      · rintro ⟨rfl, rfl⟩
        exact hscan

end Ringmaster
