/-
# Ordered finite maps

A finite map whose entries are kept in the order of their keys, as the balanced trees
behind ordered maps present them: an iteration from the beginning visits the keys in
increasing order.  The strict order of the keys is a field of the structure, so a map with a
repeated or misplaced key cannot be built.

Everything a client needs about an operation is a lemma about `find?` or about membership in
the entries.
-/
import Mathlib

/-- A finite map from `κ` to `ν` with its entries in increasing order of the keys. -/
structure OrderedMap (κ : Type*) (ν : Type*) [LinearOrder κ] where
  entries : List (κ × ν)
  sorted : entries.Pairwise (fun a b => a.1 < b.1)
  deriving DecidableEq

namespace OrderedMap

variable {κ ν : Type*} [LinearOrder κ]

/-! ## Lookup -/

/-- The map without entries. -/
def empty : OrderedMap κ ν := ⟨[], List.Pairwise.nil⟩

/-- The value at a key. -/
def find? (m : OrderedMap κ ν) (k : κ) : Option ν :=
  (m.entries.find? (fun e => decide (e.1 = k))).map Prod.snd

/-- Whether a key has a value. -/
def contains (m : OrderedMap κ ν) (k : κ) : Bool := (m.find? k).isSome

/-- The keys of a map are pairwise distinct. -/
theorem nodup_keys (m : OrderedMap κ ν) : (m.entries.map Prod.fst).Nodup := by
  rw [List.Nodup, List.pairwise_map]
  exact m.sorted.imp ne_of_lt

/-- Two entries with the same key have the same value. -/
theorem eq_of_mem_of_mem (m : OrderedMap κ ν) {k : κ} {v w : ν}
    (hv : (k, v) ∈ m.entries) (hw : (k, w) ∈ m.entries) : v = w :=
  congrArg Prod.snd (List.inj_on_of_nodup_map m.nodup_keys hv hw rfl)

/-- A lookup succeeds exactly with the entry of its key. -/
theorem find?_eq_some_iff {m : OrderedMap κ ν} {k : κ} {v : ν} :
    m.find? k = some v ↔ (k, v) ∈ m.entries := by
  simp only [find?, Option.map_eq_some_iff]
  constructor
  · rintro ⟨⟨k', v'⟩, hfind, rfl⟩
    have hk : k' = k := by simpa using List.find?_some hfind
    subst hk
    exact List.mem_of_find?_eq_some hfind
  · intro hmem
    cases hfind : m.entries.find? (fun e => decide (e.1 = k)) with
    | none =>
      rw [List.find?_eq_none] at hfind
      simpa using hfind _ hmem
    | some e =>
      obtain ⟨k', v'⟩ := e
      have hk : k' = k := by simpa using List.find?_some hfind
      subst hk
      exact ⟨(k', v'), rfl, m.eq_of_mem_of_mem (List.mem_of_find?_eq_some hfind) hmem⟩

/-- A lookup fails exactly when no entry has the key. -/
theorem find?_eq_none_iff {m : OrderedMap κ ν} {k : κ} :
    m.find? k = none ↔ ∀ e ∈ m.entries, e.1 ≠ k := by
  simp [find?]

@[simp] theorem find?_empty (k : κ) : (empty : OrderedMap κ ν).find? k = none := rfl

/-- The head of the entries has the least key. -/
theorem le_of_head? {m : OrderedMap κ ν} {e : κ × ν} (h : m.entries.head? = some e) :
    ∀ e' ∈ m.entries, e.1 ≤ e'.1 := by
  intro e' he'
  obtain ⟨rest, hrest⟩ := List.head?_eq_some_iff.mp h
  have hsorted := m.sorted
  rw [hrest] at he' hsorted
  rcases List.mem_cons.mp he' with rfl | hmem
  · exact le_rfl
  · exact le_of_lt (List.rel_of_pairwise_cons hsorted hmem)

/-! ## Insertion at a new key -/

/-- Insert an entry in front of the first one with a greater key; an entry that is already
there stays. -/
def insertEntry (k : κ) (v : ν) : List (κ × ν) → List (κ × ν)
  | [] => [(k, v)]
  | e :: es =>
    if k < e.1 then (k, v) :: e :: es
    else if k = e.1 then e :: es
    else e :: insertEntry k v es

/-- An insertion adds at most the new entry. -/
theorem mem_of_mem_insertEntry {k : κ} {v : ν} {es : List (κ × ν)} {e : κ × ν}
    (h : e ∈ insertEntry k v es) : e = (k, v) ∨ e ∈ es := by
  induction es with
  | nil => simpa [insertEntry] using h
  | cons e' es ih =>
    rw [insertEntry] at h
    split_ifs at h with h₁ h₂
    · simpa using h
    · exact Or.inr h
    · rcases List.mem_cons.mp h with rfl | hmem
      · exact Or.inr List.mem_cons_self
      · exact (ih hmem).imp id (List.mem_cons_of_mem e')

/-- An insertion loses no entry. -/
theorem mem_insertEntry_of_mem {k : κ} {v : ν} {es : List (κ × ν)} {e : κ × ν}
    (h : e ∈ es) : e ∈ insertEntry k v es := by
  induction es with
  | nil => simp at h
  | cons e' es ih =>
    rw [insertEntry]
    split_ifs with h₁ h₂
    · exact List.mem_cons_of_mem _ h
    · exact h
    · rcases List.mem_cons.mp h with rfl | hmem
      · exact List.mem_cons_self
      · exact List.mem_cons_of_mem _ (ih hmem)

/-- An insertion at a key that is not there adds the entry. -/
theorem mem_insertEntry_self {k : κ} {v : ν} {es : List (κ × ν)} (h : ∀ e ∈ es, e.1 ≠ k) :
    (k, v) ∈ insertEntry k v es := by
  induction es with
  | nil => simp [insertEntry]
  | cons e es ih =>
    rw [insertEntry]
    split_ifs with h₁ h₂
    · exact List.mem_cons_self
    · exact absurd h₂.symm (h e List.mem_cons_self)
    · exact List.mem_cons_of_mem _ (ih (fun e' he' => h e' (List.mem_cons_of_mem _ he')))

theorem sorted_insertEntry (k : κ) (v : ν) {es : List (κ × ν)}
    (h : es.Pairwise (fun a b => a.1 < b.1)) :
    (insertEntry k v es).Pairwise (fun a b => a.1 < b.1) := by
  induction es with
  | nil => simp [insertEntry]
  | cons e es ih =>
    obtain ⟨hhead, htail⟩ := List.pairwise_cons.mp h
    rw [insertEntry]
    split_ifs with h₁ h₂
    · refine List.pairwise_cons.mpr ⟨fun e' he' => ?_, h⟩
      rcases List.mem_cons.mp he' with rfl | hmem
      · exact h₁
      · exact lt_trans h₁ (hhead e' hmem)
    · exact h
    · refine List.pairwise_cons.mpr ⟨fun e' he' => ?_, ih htail⟩
      rcases mem_of_mem_insertEntry he' with rfl | hmem
      · exact lt_of_le_of_ne (not_lt.mp h₁) (Ne.symm h₂)
      · exact hhead e' hmem

/-- Insertion of an entry; nothing changes when the key has a value already. -/
def emplace (m : OrderedMap κ ν) (k : κ) (v : ν) : OrderedMap κ ν :=
  ⟨insertEntry k v m.entries, sorted_insertEntry k v m.sorted⟩

/-- The entries after an insertion at a new key. -/
theorem mem_entries_emplace {m : OrderedMap κ ν} {k : κ} {v : ν} (h : m.find? k = none)
    (e : κ × ν) : e ∈ (m.emplace k v).entries ↔ e = (k, v) ∨ e ∈ m.entries := by
  constructor
  · exact mem_of_mem_insertEntry
  · rintro (rfl | hmem)
    · exact mem_insertEntry_self (find?_eq_none_iff.mp h)
    · exact mem_insertEntry_of_mem hmem

/-- The lookups after an insertion at a new key. -/
theorem find?_emplace {m : OrderedMap κ ν} {k : κ} {v : ν} (h : m.find? k = none) (k' : κ) :
    (m.emplace k v).find? k' = if k' = k then some v else m.find? k' := by
  apply Option.ext
  intro w
  rw [find?_eq_some_iff, mem_entries_emplace h, Prod.mk.injEq]
  split_ifs with hk
  · subst hk
    rw [← find?_eq_some_iff, h]
    simp [eq_comm]
  · rw [find?_eq_some_iff]
    simp [hk]

/-! ## Replacement and removal -/

/-- Replace the value at a key; nothing changes when the key has no value. -/
def update (m : OrderedMap κ ν) (k : κ) (v : ν) : OrderedMap κ ν where
  entries := m.entries.map (fun e => if e.1 = k then (k, v) else e)
  sorted := by
    rw [List.pairwise_map]
    refine m.sorted.imp (fun {a b} hab => ?_)
    split_ifs with ha hb hb
    · exact absurd (ha.trans hb.symm) (ne_of_lt hab)
    · exact ha ▸ hab
    · exact hb ▸ hab
    · exact hab

/-- The entries after a replacement. -/
theorem mem_entries_update {m : OrderedMap κ ν} {k : κ} {v : ν} (h : m.contains k)
    (e : κ × ν) : e ∈ (m.update k v).entries ↔ e = (k, v) ∨ (e ∈ m.entries ∧ e.1 ≠ k) := by
  obtain ⟨w, hw⟩ := Option.isSome_iff_exists.mp h
  simp only [update, List.mem_map]
  constructor
  · rintro ⟨e', he', rfl⟩
    split_ifs with hk
    · exact Or.inl rfl
    · exact Or.inr ⟨he', hk⟩
  · rintro (rfl | ⟨hmem, hne⟩)
    · exact ⟨(k, w), find?_eq_some_iff.mp hw, by simp⟩
    · exact ⟨e, hmem, if_neg hne⟩

/-- The lookups after a replacement. -/
theorem find?_update {m : OrderedMap κ ν} {k : κ} {v : ν} (h : m.contains k) (k' : κ) :
    (m.update k v).find? k' = if k' = k then some v else m.find? k' := by
  apply Option.ext
  intro w
  rw [find?_eq_some_iff, mem_entries_update h, Prod.mk.injEq]
  split_ifs with hk
  · simp [hk, eq_comm]
  · rw [find?_eq_some_iff]
    simp [hk]

/-- Assignment of the value at a key, whether it has one already or not. -/
def assign (m : OrderedMap κ ν) (k : κ) (v : ν) : OrderedMap κ ν :=
  if m.contains k then m.update k v else m.emplace k v

/-- The lookups after an assignment. -/
theorem find?_assign (m : OrderedMap κ ν) (k : κ) (v : ν) (k' : κ) :
    (m.assign k v).find? k' = if k' = k then some v else m.find? k' := by
  unfold assign
  split_ifs with h
  · rw [find?_update h, if_pos ‹_›]
  · rw [find?_update h, if_neg ‹_›]
  · rw [find?_emplace (by simpa [contains] using h), if_pos ‹_›]
  · rw [find?_emplace (by simpa [contains] using h), if_neg ‹_›]

/-- The keys after an assignment. -/
theorem contains_assign (m : OrderedMap κ ν) (k : κ) (v : ν) (k' : κ) :
    (m.assign k v).contains k' = (decide (k' = k) || m.contains k') := by
  rw [contains, find?_assign]
  split_ifs with hk
  · simp [hk]
  · simp [hk, contains]

/-- An assignment that changes a lookup changes the map. -/
theorem assign_ne {m : OrderedMap κ ν} {k : κ} {v : ν} (h : m.find? k ≠ some v) :
    m.assign k v ≠ m := by
  intro heq
  apply h
  rw [← heq, find?_assign, if_pos rfl]

/-- The lookups after replacements at several distinct keys. -/
theorem find?_foldl_update {m : OrderedMap κ ν} {l : List (κ × ν)} (hkeys : (l.map Prod.fst).Nodup)
    (hc : ∀ e ∈ l, m.contains e.1) :
    (∀ e ∈ l, (l.foldl (fun m e => m.update e.1 e.2) m).find? e.1 = some e.2) ∧
      ∀ k, k ∉ l.map Prod.fst →
        (l.foldl (fun m e => m.update e.1 e.2) m).find? k = m.find? k := by
  induction l generalizing m with
  | nil => exact ⟨fun e he => absurd he List.not_mem_nil, fun k _ => rfl⟩
  | cons e l ih =>
    rw [List.map_cons, List.nodup_cons] at hkeys
    have hcontains : m.contains e.1 := hc e List.mem_cons_self
    have hfind := find?_update (v := e.2) hcontains
    have hc' : ∀ e' ∈ l, (m.update e.1 e.2).contains e'.1 := by
      intro e' he'
      rw [contains, hfind]
      split_ifs
      · rfl
      · exact hc e' (List.mem_cons_of_mem e he')
    obtain ⟨hmem, hother⟩ := ih hkeys.2 hc'
    rw [List.foldl_cons]
    constructor
    · intro e' he'
      rcases List.mem_cons.mp he' with rfl | he'
      · rw [hother _ hkeys.1, hfind, if_pos rfl]
      · exact hmem e' he'
    · intro k hk
      rw [List.map_cons, List.mem_cons, not_or] at hk
      rw [hother k hk.2, hfind, if_neg hk.1]

/-- Remove the entry of a key. -/
def erase (m : OrderedMap κ ν) (k : κ) : OrderedMap κ ν :=
  ⟨m.entries.filter (fun e => decide (e.1 ≠ k)), m.sorted.filter _⟩

/-- The entries after a removal. -/
theorem mem_entries_erase {m : OrderedMap κ ν} {k : κ} (e : κ × ν) :
    e ∈ (m.erase k).entries ↔ e ∈ m.entries ∧ e.1 ≠ k := by
  simp [erase]

/-- The lookups after a removal. -/
theorem find?_erase (m : OrderedMap κ ν) (k k' : κ) :
    (m.erase k).find? k' = if k' = k then none else m.find? k' := by
  apply Option.ext
  intro w
  rw [find?_eq_some_iff, mem_entries_erase]
  split_ifs with hk
  · simp [hk]
  · rw [find?_eq_some_iff]
    simp [hk]

/-- The lookups after several removals. -/
theorem find?_foldl_erase (l : List κ) (m : OrderedMap κ ν) (k : κ) :
    (l.foldl erase m).find? k = if k ∈ l then none else m.find? k := by
  induction l generalizing m with
  | nil => simp
  | cons k' l ih =>
    rw [List.foldl_cons, ih, find?_erase]
    by_cases hk : k = k'
    · simp [hk]
    · simp [hk]

/-! ## Removal of the low keys -/

/-- Remove entries from the beginning as long as their keys are below a bound. -/
def eraseBelow (m : OrderedMap κ ν) (frontier : κ) : OrderedMap κ ν :=
  ⟨m.entries.dropWhile (fun e => decide (e.1 < frontier)),
    m.sorted.sublist (List.dropWhile_sublist _)⟩

/-- In a sorted list the entries dropped from the front are all those below the bound. -/
theorem dropWhile_eq_filter {es : List (κ × ν)} (frontier : κ)
    (h : es.Pairwise (fun a b => a.1 < b.1)) :
    es.dropWhile (fun e => decide (e.1 < frontier))
      = es.filter (fun e => decide (frontier ≤ e.1)) := by
  induction es with
  | nil => rfl
  | cons e es ih =>
    obtain ⟨hhead, htail⟩ := List.pairwise_cons.mp h
    by_cases he : e.1 < frontier
    · rw [List.dropWhile_cons_of_pos (by simpa using he), ih htail,
        List.filter_cons_of_neg (by simpa using he)]
    · have hle : frontier ≤ e.1 := not_lt.mp he
      rw [List.dropWhile_cons_of_neg (by simpa using hle), eq_comm, List.filter_eq_self]
      intro e' he'
      rcases List.mem_cons.mp he' with rfl | hmem
      · simpa using hle
      · simpa using hle.trans (le_of_lt (hhead e' hmem))

/-- The removal of the low keys keeps the entries from the bound on. -/
theorem entries_eraseBelow (m : OrderedMap κ ν) (frontier : κ) :
    (m.eraseBelow frontier).entries = m.entries.filter (fun e => decide (frontier ≤ e.1)) :=
  dropWhile_eq_filter frontier m.sorted

/-- The entries that survive the removal of the low keys. -/
theorem mem_entries_eraseBelow {m : OrderedMap κ ν} {frontier : κ} (e : κ × ν) :
    e ∈ (m.eraseBelow frontier).entries ↔ e ∈ m.entries ∧ frontier ≤ e.1 := by
  rw [entries_eraseBelow]
  simp

/-- The lookups after the removal of the low keys. -/
theorem find?_eraseBelow (m : OrderedMap κ ν) (frontier k : κ) :
    (m.eraseBelow frontier).find? k = if k < frontier then none else m.find? k := by
  apply Option.ext
  intro w
  rw [find?_eq_some_iff, mem_entries_eraseBelow]
  split_ifs with hk
  · simp [hk]
  · rw [find?_eq_some_iff]
    simp [not_lt.mp hk]

/-! ## Size -/

/-- A map has an entry for a key exactly when the key is among its keys. -/
theorem contains_iff_mem_keys {m : OrderedMap κ ν} {k : κ} :
    m.contains k ↔ k ∈ m.entries.map Prod.fst := by
  rw [contains, Option.isSome_iff_exists, List.mem_map]
  constructor
  · rintro ⟨v, hv⟩
    exact ⟨(k, v), find?_eq_some_iff.mp hv, rfl⟩
  · rintro ⟨⟨k', v⟩, hmem, rfl⟩
    exact ⟨v, find?_eq_some_iff.mpr hmem⟩

/-- A map with fewer keys is not longer. -/
theorem length_le_of_contains {m m' : OrderedMap κ ν} (h : ∀ k, m'.contains k → m.contains k) :
    m'.entries.length ≤ m.entries.length := by
  have hsub : m'.entries.map Prod.fst ⊆ m.entries.map Prod.fst := by
    intro k hk
    exact contains_iff_mem_keys.mp (h k (contains_iff_mem_keys.mpr hk))
  simpa using (m'.nodup_keys.subperm hsub).length_le

/-- A map with fewer keys, at least one of them missing, is shorter. -/
theorem length_lt_of_contains {m m' : OrderedMap κ ν} (h : ∀ k, m'.contains k → m.contains k)
    {k : κ} (hk : m.contains k) (hk' : ¬ m'.contains k) :
    m'.entries.length < m.entries.length := by
  have hsub : k :: m'.entries.map Prod.fst ⊆ m.entries.map Prod.fst := by
    intro x hx
    rcases List.mem_cons.mp hx with rfl | hmem
    · exact contains_iff_mem_keys.mp hk
    · exact contains_iff_mem_keys.mp (h x (contains_iff_mem_keys.mpr hmem))
  have hnodup : (k :: m'.entries.map Prod.fst).Nodup :=
    List.nodup_cons.mpr ⟨fun hmem => hk' (contains_iff_mem_keys.mpr hmem), m'.nodup_keys⟩
  have hle := (hnodup.subperm hsub).length_le
  simp only [List.length_cons, List.length_map] at hle
  omega

end OrderedMap
