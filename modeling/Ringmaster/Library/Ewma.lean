/-
# Exponentially weighted moving averages

`Ewma.average α xs` is the average that a sequence of samples leaves behind: the first sample
itself, and from then on `α` times the new sample plus `1 - α` times the average so far.

The average stays within the bounds of the samples (`average_mem_Icc`), and a sample is
forgotten geometrically: after `n` samples equal to `r`, the distance to `r` is the former one
times `(1 - α) ^ n` (`average_append_replicate`, `abs_average_sub_le`).  An average whose updates
are computed up to an error of `ε` stays within `ε / α` of the exact one (`abs_sub_update_le`).
-/
import Mathlib

namespace Ewma

variable {K : Type*} [Field K]

/-- The average after one more sample. -/
def update (α : K) (avg : Option K) (x : K) : K :=
  match avg with
  | none => x
  | some avg => α * x + (1 - α) * avg

/-- The average of a sequence of samples. -/
def average (α : K) (xs : List K) : Option K :=
  xs.foldl (fun avg x => some (update α avg x)) none

@[simp] theorem average_nil (α : K) : average α [] = none := rfl

@[simp] theorem average_concat (α : K) (xs : List K) (x : K) :
    average α (xs ++ [x]) = some (update α (average α xs) x) := by
  unfold average
  rw [List.foldl_append]
  rfl

/-- There is an average as soon as there is a sample. -/
theorem average_eq_none_iff {α : K} {xs : List K} : average α xs = none ↔ xs = [] := by
  induction xs using List.reverseRecOn with
  | nil => simp
  | append_singleton xs x _ => simp

/-- Equal samples at the end draw the average to them. -/
theorem average_append_replicate {α : K} {xs : List K} {avg : K} (h : average α xs = some avg)
    (n : ℕ) (r : K) :
    average α (xs ++ List.replicate n r) = some (r + (1 - α) ^ n * (avg - r)) := by
  induction n with
  | zero => simp [h]
  | succ n ih =>
    rw [List.replicate_succ', ← List.append_assoc, average_concat, ih, update]
    congr 1
    ring

section Order

variable [LinearOrder K] [IsStrictOrderedRing K]

/-- A weighted mean lies between the two values. -/
theorem update_mem_Icc {α lo hi x : K} {avg : Option K} (hα : α ∈ Set.Icc 0 1)
    (hx : x ∈ Set.Icc lo hi) (havg : ∀ a, avg = some a → a ∈ Set.Icc lo hi) :
    update α avg x ∈ Set.Icc lo hi := by
  cases avg with
  | none => exact hx
  | some a =>
    have hmem : α • x + (1 - α) • a ∈ Set.Icc lo hi :=
      convex_Icc lo hi hx (havg a rfl) hα.1 (sub_nonneg.mpr hα.2) (add_sub_cancel α 1)
    exact hmem

/-- An update that is computed up to `ε`, from an average that is off by at most `ε / α`, is off
by at most `ε / α` again. -/
theorem abs_sub_update_le {α ε avg avg' x y : K} (hα : 0 < α) (hα' : α ≤ 1)
    (hy : |y - update α (some avg') x| ≤ ε) (havg : |avg' - avg| ≤ ε / α) :
    |y - update α (some avg) x| ≤ ε / α := by
  have hdiff : update α (some avg') x - update α (some avg) x = (1 - α) * (avg' - avg) := by
    unfold update
    ring
  have hε : ε + (1 - α) * (ε / α) = ε / α := by
    field_simp
    ring
  calc |y - update α (some avg) x|
      ≤ |y - update α (some avg') x| + |update α (some avg') x - update α (some avg) x| :=
        abs_sub_le _ _ _
    _ ≤ ε + (1 - α) * (ε / α) := by
        rw [hdiff, abs_mul, abs_of_nonneg (sub_nonneg.mpr hα')]
        exact add_le_add hy (mul_le_mul_of_nonneg_left havg (sub_nonneg.mpr hα'))
    _ = ε / α := hε

/-- The average lies within the bounds of the samples. -/
theorem average_mem_Icc {α lo hi : K} {xs : List K} (hα : α ∈ Set.Icc 0 1)
    (h : ∀ x ∈ xs, x ∈ Set.Icc lo hi) {avg : K} (havg : average α xs = some avg) :
    avg ∈ Set.Icc lo hi := by
  induction xs using List.reverseRecOn generalizing avg with
  | nil => simp at havg
  | append_singleton xs x ih =>
    rw [average_concat, Option.some_inj] at havg
    rw [← havg]
    refine update_mem_Icc hα (h x (List.mem_append_right _ List.mem_cons_self)) fun a ha => ?_
    exact ih (fun y hy => h y (List.mem_append_left _ hy)) ha

/-- After `n` equal samples the average is close to them, whatever came before. -/
theorem abs_average_sub_le {α lo hi r : K} {xs : List K} {n : ℕ} (hα : α ∈ Set.Icc 0 1)
    (h : ∀ x ∈ xs, x ∈ Set.Icc lo hi) (hr : r ∈ Set.Icc lo hi) {avg : K}
    (havg : average α (xs ++ List.replicate n r) = some avg) :
    |avg - r| ≤ (1 - α) ^ n * (hi - lo) := by
  have hpow : 0 ≤ (1 - α) ^ n := pow_nonneg (sub_nonneg.mpr hα.2) n
  cases hold : average α xs with
  | none =>
    rw [average_eq_none_iff.mp hold, List.nil_append] at havg
    have hmem : avg ∈ Set.Icc r r := average_mem_Icc hα
      (fun x hx => by rw [List.eq_of_mem_replicate hx]; exact ⟨le_rfl, le_rfl⟩) havg
    rw [Set.Icc_self, Set.mem_singleton_iff] at hmem
    rw [hmem, sub_self, abs_zero]
    exact mul_nonneg hpow (sub_nonneg.mpr (le_trans hr.1 hr.2))
  | some old =>
    rw [average_append_replicate hold, Option.some_inj] at havg
    have hmem := average_mem_Icc hα h hold
    calc |avg - r| = (1 - α) ^ n * |old - r| := by
          rw [← havg, add_sub_cancel_left, abs_mul, abs_of_nonneg hpow]
      _ ≤ (1 - α) ^ n * (hi - lo) := mul_le_mul_of_nonneg_left
          (abs_le.mpr ⟨by linarith [hmem.1, hr.2], by linarith [hmem.2, hr.1]⟩) hpow

end Order

end Ewma
