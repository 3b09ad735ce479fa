/-
# Regions of memory

A region of memory is a list of cells of a fixed number.  `Region.memcpy` copies a list into
a region from a position on.  A copy that would leave the region is undefined behaviour, for
which it has no result, so that a computation with a result did not write outside.

Copies into adjacent parts of a region compose to a single one (`memcpy_append`), and what a
copy does to each cell is `getElem?_memcpy`.
-/
import Mathlib

namespace Memory

variable {β : Type*} {n : ℕ}

/-- A region of `n` cells. -/
structure Region (β : Type*) (n : ℕ) where
  cells : List β
  length_eq : cells.length = n

namespace Region

/-- The region with the same value in every cell. -/
def replicate (n : ℕ) (b : β) : Region β n := ⟨List.replicate n b, List.length_replicate⟩

@[ext] theorem ext {m m' : Region β n} (h : m.cells = m'.cells) : m = m' := by
  cases m
  cases m'
  cases h
  rfl

/-- Copies a list into the region, from the position `pos` on; `none` when it would write
outside. -/
def memcpy (m : Region β n) (pos : ℕ) (src : List β) : Option (Region β n) :=
  if h : pos + src.length ≤ n then
    some ⟨m.cells.take pos ++ src ++ m.cells.drop (pos + src.length), by
      have hlen := m.length_eq
      rw [List.length_append, List.length_append, List.length_take, List.length_drop]
      omega⟩
  else
    none

/-- A copy has a result exactly when it stays inside. -/
theorem exists_memcpy_iff {m : Region β n} {pos : ℕ} {src : List β} :
    (∃ m', m.memcpy pos src = some m') ↔ pos + src.length ≤ n := by
  unfold memcpy
  split_ifs with h
  · exact iff_of_true ⟨_, rfl⟩ h
  · exact iff_of_false (by simp) h

/-- The cells after a copy. -/
theorem cells_memcpy {m m' : Region β n} {pos : ℕ} {src : List β}
    (h : m.memcpy pos src = some m') :
    pos + src.length ≤ n ∧
      m'.cells = m.cells.take pos ++ src ++ m.cells.drop (pos + src.length) := by
  unfold memcpy at h
  split_ifs at h with hle
  rw [Option.some_inj] at h
  exact ⟨hle, by rw [← h]⟩

/-- A cell after a copy: it has the value of the source inside of the part that was written,
and its old value outside. -/
theorem getElem?_memcpy {m m' : Region β n} {pos : ℕ} {src : List β}
    (h : m.memcpy pos src = some m') (i : ℕ) :
    m'.cells[i]? = if pos ≤ i ∧ i < pos + src.length then src[i - pos]? else m.cells[i]? := by
  obtain ⟨hle, hcells⟩ := cells_memcpy h
  have hlen := m.length_eq
  have htake : (m.cells.take pos).length = pos := by
    rw [List.length_take]
    omega
  rw [hcells]
  split_ifs with hi
  · rw [List.getElem?_append_left (by rw [List.length_append, htake]; omega),
      List.getElem?_append_right (by rw [htake]; exact hi.1), htake]
  · by_cases hlt : i < pos
    · rw [List.append_assoc, List.getElem?_append_left (by rw [htake]; exact hlt),
        List.getElem?_take_of_lt hlt]
    · rw [List.getElem?_append_right (by rw [List.length_append, htake]; omega),
        List.length_append, htake, List.getElem?_drop]
      congr 1
      omega

/-- A copy of nothing changes nothing. -/
theorem memcpy_nil {m : Region β n} {pos : ℕ} (h : pos ≤ n) : m.memcpy pos [] = some m := by
  unfold memcpy
  rw [dif_pos (by simpa using h)]
  congr 1
  apply ext
  simp

/-- Two copies, the second one behind the first one, are a single copy. -/
theorem memcpy_append {m m' : Region β n} {pos : ℕ} {a b : List β}
    (h : m.memcpy pos a = some m') :
    m'.memcpy (pos + a.length) b = m.memcpy pos (a ++ b) := by
  obtain ⟨hle, hcells⟩ := cells_memcpy h
  have hlen := m.length_eq
  have hsum : pos + (a ++ b).length = pos + a.length + b.length := by
    rw [List.length_append, Nat.add_assoc]
  have hfront : (m.cells.take pos ++ a).length = pos + a.length := by
    rw [List.length_append, List.length_take]
    omega
  unfold memcpy
  by_cases hb : pos + a.length + b.length ≤ n
  · rw [dif_pos hb, dif_pos (by rw [hsum]; exact hb)]
    congr 1
    apply ext
    show m'.cells.take (pos + a.length) ++ b ++ m'.cells.drop (pos + a.length + b.length)
      = m.cells.take pos ++ (a ++ b) ++ m.cells.drop (pos + (a ++ b).length)
    have hnil : (m.cells.take pos ++ a).drop (pos + a.length + b.length) = [] := by
      apply List.drop_of_length_le
      omega
    have hdrop : m'.cells.drop (pos + a.length + b.length)
        = m.cells.drop (pos + a.length + b.length) := by
      rw [hcells, List.drop_append, hnil, List.nil_append, List.drop_drop, hfront]
      congr 1
      omega
    have htake : m'.cells.take (pos + a.length) = m.cells.take pos ++ a := by
      rw [hcells, ← hfront, List.take_left]
    rw [hdrop, htake, hsum, List.append_assoc (m.cells.take pos)]
  · rw [dif_neg hb, dif_neg (by rw [hsum]; exact hb)]

/-- The source is found at the front of the region after a copy to the front. -/
theorem take_memcpy_zero {m m' : Region β n} {src : List β} (h : m.memcpy 0 src = some m') :
    m'.cells.take src.length = src := by
  obtain ⟨-, hcells⟩ := cells_memcpy h
  rw [hcells, List.take_zero, List.nil_append, List.take_left]

end Region

end Memory
