/-
# Frontiers of a consumer that may jump ahead

A consumer works through the elements of a linear order.  At its position it takes the
element if that is available and moves on to the next one; when it is not, the consumer
jumps ahead to the greatest available element that is marked as a restart point; when there
is none, it stops.

`IsFrontier avail restart n n'` says, without mentioning the steps in between, that a
consumer starting at `n` stops at `n'`.  A frontier is unique, it is composed of single
steps (`IsFrontier.step`), and it can be computed in instalments while elements become
available (`IsFrontier.trans`): where the consumer stops in the end does not depend on when
it ran.
-/
import Mathlib

variable {α : Type*} [LinearOrder α]

/-- From `n` on, everything up to `n'` is available, apart from what lies before a restart
point, and from `n'` on there is nothing to take. -/
structure IsFrontier (avail restart : Set α) (n n' : α) : Prop where
  le : n ≤ n'
  notMem : n' ∉ avail
  restart_lt : ∀ k ∈ restart, n ≤ k → k < n'
  base : ∃ b, (b = n ∨ b ∈ restart ∧ n ≤ b) ∧ b ≤ n' ∧ ∀ m, b ≤ m → m < n' → m ∈ avail

namespace IsFrontier

variable {avail avail' restart restart' : Set α} {n n' n'' : α}

/-- A consumer with nothing to take stops at once. -/
theorem self (h : n ∉ avail) (h' : ∀ k ∈ restart, ¬ n ≤ k) : IsFrontier avail restart n n where
  le := le_rfl
  notMem := h
  restart_lt := fun k hk hle => absurd hle (h' k hk)
  base := ⟨n, Or.inl rfl, le_rfl, fun _ hle hlt => absurd hle (not_le.mpr hlt)⟩

/-- A consumer that takes `b`, at its position or at the last restart point, and goes on
with the successor `m` of `b`. -/
theorem step {b m : α} (hb : b ∈ avail)
    (hbase : b = n ∨ b ∈ restart ∧ n ≤ b ∧ ∀ k ∈ restart, k ≤ b)
    (hsucc : ∀ x, b < x ↔ m ≤ x) (h : IsFrontier avail restart m n') :
    IsFrontier avail restart n n' := by
  have hbm : b < m := (hsucc m).mpr le_rfl
  have hnb : n ≤ b := by
    rcases hbase with rfl | ⟨-, hle, -⟩
    · exact le_rfl
    · exact hle
  have hbn' : b < n' := lt_of_lt_of_le hbm h.le
  refine ⟨le_trans hnb (le_of_lt hbn'), h.notMem, ?_, ?_⟩
  · intro k hk hle
    by_cases hbk : b < k
    · exact h.restart_lt k hk ((hsucc k).mp hbk)
    · exact lt_of_le_of_lt (not_lt.mp hbk) hbn'
  · obtain ⟨c, rfl | ⟨hc, hmc⟩, hcn', hall⟩ := h.base
    · -- the stretch that starts at the successor is continued down to `b`
      refine ⟨b, ?_, le_of_lt hbn', ?_⟩
      · rcases hbase with rfl | ⟨hkey, hle, -⟩
        · exact Or.inl rfl
        · exact Or.inr ⟨hkey, hle⟩
      · intro x hbx hxn'
        rcases hbx.lt_or_eq with hlt | rfl
        · exact hall x ((hsucc x).mp hlt) hxn'
        · exact hb
    · refine ⟨c, Or.inr ⟨hc, ?_⟩, hcn', hall⟩
      exact le_trans hnb (le_of_lt (lt_of_lt_of_le hbm hmc))

/-- Only the elements from the starting point on matter. -/
theorem congr (h : IsFrontier avail restart n n')
    (havail : ∀ m, n ≤ m → (m ∈ avail' ↔ m ∈ avail))
    (hrestart : ∀ m, n ≤ m → (m ∈ restart' ↔ m ∈ restart)) :
    IsFrontier avail' restart' n n' := by
  refine ⟨h.le, fun hmem => h.notMem ((havail n' h.le).mp hmem), ?_, ?_⟩
  · intro k hk hle
    exact h.restart_lt k ((hrestart k hle).mp hk) hle
  · obtain ⟨b, hb, hbn', hall⟩ := h.base
    have hnb : n ≤ b := by
      rcases hb with rfl | ⟨-, hle⟩
      · exact le_rfl
      · exact hle
    refine ⟨b, hb.imp id (fun hb => ⟨(hrestart b hnb).mpr hb.1, hb.2⟩), hbn', ?_⟩
    intro m hbm hmn'
    exact (havail m (le_trans hnb hbm)).mpr (hall m hbm hmn')

/-- A consumer that stopped at `n'` and goes on when more is available ends up where it
would have, had everything been available from the beginning. -/
theorem trans (h : IsFrontier avail restart n n') (havail : avail ⊆ avail')
    (hrestart : restart ⊆ restart') (h' : IsFrontier avail' restart' n' n'') :
    IsFrontier avail' restart' n n'' := by
  refine ⟨le_trans h.le h'.le, h'.notMem, ?_, ?_⟩
  · intro k hk hle
    by_cases hkn' : n' ≤ k
    · exact h'.restart_lt k hk hkn'
    · exact lt_of_lt_of_le (not_le.mp hkn') h'.le
  · obtain ⟨c, rfl | ⟨hc, hn'c⟩, hcn'', hall'⟩ := h'.base
    · obtain ⟨b, hb, hbc, hall⟩ := h.base
      refine ⟨b, hb.imp id (fun hb => ⟨hrestart hb.1, hb.2⟩), le_trans hbc hcn'', ?_⟩
      intro m hbm hmn''
      by_cases hmc : m < c
      · exact havail (hall m hbm hmc)
      · exact hall' m (not_lt.mp hmc) hmn''
    · exact ⟨c, Or.inr ⟨hc, le_trans h.le hn'c⟩, hcn'', hall'⟩

/-- No frontier lies behind another one. -/
theorem ge_of_isFrontier (h : IsFrontier avail restart n n')
    (h' : IsFrontier avail restart n n'') : n'' ≤ n' := by
  by_contra hlt
  obtain ⟨b, hb, -, hall⟩ := h'.base
  -- `n'` is not available, so the stretch up to `n''` starts behind it, at a restart point
  have hn'b : n' < b := by
    by_contra hle
    exact h.notMem (hall n' (not_lt.mp hle) (not_le.mp hlt))
  rcases hb with rfl | ⟨hb, hnb⟩
  · exact absurd h.le (not_le.mpr hn'b)
  · exact lt_asymm hn'b (h.restart_lt b hb hnb)

/-- The frontier is unique. -/
theorem unique (h : IsFrontier avail restart n n') (h' : IsFrontier avail restart n n'') :
    n' = n'' :=
  le_antisymm (h'.ge_of_isFrontier h) (h.ge_of_isFrontier h')

/-- The frontier is the least element that is not available among those from `base` on,
where `base` is the last restart point, or the starting point when there is none. -/
theorem isLeast (h : IsFrontier avail restart n n') {base : α}
    (hbase : IsGreatest {k | k ∈ restart ∧ n ≤ k} base ∨
      (∀ k ∈ restart, ¬ n ≤ k) ∧ base = n) :
    IsLeast {m | base ≤ m ∧ m ∉ avail} n' := by
  constructor
  · refine ⟨?_, h.notMem⟩
    rcases hbase with ⟨⟨hmem, hle⟩, -⟩ | ⟨-, rfl⟩
    · exact le_of_lt (h.restart_lt base hmem hle)
    · exact h.le
  · rintro m ⟨hbm, hm⟩
    by_contra hlt
    obtain ⟨b, hb, -, hall⟩ := h.base
    refine hm (hall m (le_trans ?_ hbm) (not_le.mp hlt))
    rcases hbase with ⟨⟨-, hle⟩, hmax⟩ | ⟨hnone, rfl⟩
    · rcases hb with rfl | hb
      · exact hle
      · exact hmax hb
    · rcases hb with rfl | ⟨hb, hnb⟩
      · exact le_rfl
      · exact absurd hnb (hnone b hb)

end IsFrontier
