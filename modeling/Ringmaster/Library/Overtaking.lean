/-
# Queues in which nothing is overtaken

A queue of ordered items, front first.  `Leads a l` says that `a` stands in the queue `l` with
only smaller items in front of it: nothing that belongs behind `a` has overtaken it.

Whatever a queue without reordering does keeps this: items join at the back, leave at the front
or are lost anywhere, and smaller items may even be put between two parts of the queue.
-/
import Mathlib

variable {α : Type*} [LinearOrder α]

/-- The item `a` stands in the queue behind smaller items only. -/
inductive Leads (a : α) : List α → Prop
  | front (l : List α) : Leads a (a :: l)
  | behind {b : α} {l : List α} : b < a → Leads a l → Leads a (b :: l)

namespace Leads

variable {a b : α} {l l₁ l₂ : List α}

theorem mem (h : Leads a l) : a ∈ l := by
  induction h with
  | front l => exact List.mem_cons_self
  | behind _ _ ih => exact List.mem_cons_of_mem _ ih

/-- What leaves at the front is `a` itself or smaller, and then `a` leads what remains. -/
theorem of_cons (h : Leads a (b :: l)) : b = a ∨ b < a ∧ Leads a l := by
  cases h with
  | front l => exact Or.inl rfl
  | behind hlt h => exact Or.inr ⟨hlt, h⟩

/-- Items join at the back. -/
theorem append_right (h : Leads a l₁) (l₂ : List α) : Leads a (l₁ ++ l₂) := by
  induction h with
  | front l => exact Leads.front (l ++ l₂)
  | behind hlt _ ih => exact Leads.behind hlt ih

/-- A queue of smaller items in front. -/
theorem append_left (h : Leads a l₂) (hlt : ∀ b ∈ l₁, b < a) : Leads a (l₁ ++ l₂) := by
  induction l₁ with
  | nil => exact h
  | cons b l₁ ih =>
    rw [List.cons_append]
    apply Leads.behind
    · exact hlt b List.mem_cons_self
    · exact ih fun c hc => hlt c (List.mem_cons_of_mem _ hc)

/-- In a queue of two parts, `a` leads the first one, or the second behind smaller items. -/
theorem of_append (h : Leads a (l₁ ++ l₂)) : Leads a l₁ ∨ (∀ b ∈ l₁, b < a) ∧ Leads a l₂ := by
  induction l₁ with
  | nil => exact Or.inr ⟨fun b hb => absurd hb List.not_mem_nil, h⟩
  | cons b l₁ ih =>
    rw [List.cons_append] at h
    rcases h.of_cons with rfl | ⟨hlt, h⟩
    · exact Or.inl (Leads.front l₁)
    rcases ih h with hfirst | ⟨hall, hsecond⟩
    · exact Or.inl (Leads.behind hlt hfirst)
    · refine Or.inr ⟨fun c hc => ?_, hsecond⟩
      rcases List.mem_cons.mp hc with rfl | hmem
      · exact hlt
      · exact hall c hmem

/-- Another item is lost. -/
theorem of_lost (h : Leads a (l₁ ++ b :: l₂)) (hne : b ≠ a) : Leads a (l₁ ++ l₂) := by
  rcases h.of_append with hfirst | ⟨hall, hsecond⟩
  · exact hfirst.append_right l₂
  rcases hsecond.of_cons with heq | ⟨-, hrest⟩
  · exact absurd heq hne
  · exact hrest.append_left hall

/-- An item that is smaller than the second part is put between the two. -/
theorem insert (h : Leads a (l₁ ++ l₂)) (hlt : ∀ c ∈ l₂, b < c) : Leads a (l₁ ++ b :: l₂) := by
  rcases h.of_append with hfirst | ⟨hall, hsecond⟩
  · exact hfirst.append_right (b :: l₂)
  · exact (Leads.behind (hlt a hsecond.mem) hsecond).append_left hall

/-- In a sorted queue nothing is overtaken. -/
theorem of_pairwise (hsorted : l.Pairwise (· < ·)) (hmem : a ∈ l) : Leads a l := by
  induction hsorted with
  | nil => exact absurd hmem List.not_mem_nil
  | @cons b l hall _ ih =>
    rcases List.mem_cons.mp hmem with rfl | hmem
    · exact Leads.front l
    · exact Leads.behind (hall a hmem) (ih hmem)

end Leads
