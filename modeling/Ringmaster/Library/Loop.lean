/-
# While loops with an output

A while loop whose body may throw, may leave the loop, or may go around once more and put
out a value on the way.  `Loop.run` executes it for a bounded number of rounds, and
`Loop.Ends` says that some bound is enough.

The rules a client uses: a loop that ends does so with one result (`Ends.unique`); a loop
ends when an invariant makes a measure go down (`ends_of_measure`); it does not end when
an invariant forbids to leave it (`not_ends_of_invariant`); and whatever each round and
the exit do is done by the loop (`Ends.rec_on`).
-/
import Mathlib

namespace Loop

variable {σ α ε : Type*}

/-- What the body of a loop does: leave the loop, or go around with an output. -/
inductive Round (σ α : Type*) where
  | leave (s : σ)
  | again (a : α) (s : σ)

/-- The loop for at most `fuel` tests of its condition; `none` when they do not suffice. -/
def run (body : σ → Except ε (Round σ α)) : ℕ → σ → Option (Except ε (List α × σ))
  | 0, _ => none
  | fuel + 1, s =>
    match body s with
    | .error e => some (.error e)
    | .ok (.leave s') => some (.ok ([], s'))
    | .ok (.again a s') =>
      match run body fuel s' with
      | none => none
      | some (.error e) => some (.error e)
      | some (.ok (as, t)) => some (.ok (a :: as, t))

/-- The loop, started at `s`, ends at `t` with the outputs `as`. -/
def Ends (body : σ → Except ε (Round σ α)) (s : σ) (as : List α) (t : σ) : Prop :=
  ∃ fuel, run body fuel s = some (.ok (as, t))

variable {body : σ → Except ε (Round σ α)}

/-- A bound that suffices, suffices with more to spare. -/
theorem run_mono {fuel fuel' : ℕ} (hle : fuel ≤ fuel') {s : σ} {r : Except ε (List α × σ)}
    (h : run body fuel s = some r) : run body fuel' s = some r := by
  induction fuel generalizing fuel' s r with
  | zero => simp [run] at h
  | succ fuel ih =>
    obtain ⟨fuel', rfl⟩ : ∃ n, fuel' = n + 1 := ⟨fuel' - 1, by omega⟩
    have hle' : fuel ≤ fuel' := by omega
    rw [run] at h ⊢
    cases hb : body s with
    | error e => simpa [hb] using h
    | ok r' =>
      cases r' with
      | leave s' => simpa [hb] using h
      | again a s' =>
        cases hr : run body fuel s' with
        | none => simp [hb, hr] at h
        | some q =>
          simp only [hb, hr] at h
          simp only [ih hle' hr]
          exact h

/-- A loop ends in one way only. -/
theorem Ends.unique {s t t' : σ} {as as' : List α} (h : Ends body s as t)
    (h' : Ends body s as' t') : as = as' ∧ t = t' := by
  obtain ⟨n, hn⟩ := h
  obtain ⟨n', hn'⟩ := h'
  have h₁ := run_mono (le_max_left n n') hn
  have h₂ := run_mono (le_max_right n n') hn'
  rw [h₁] at h₂
  simpa using h₂

/-- The loop ends at once when its body leaves it. -/
theorem ends_of_leave {s t : σ} (h : body s = .ok (.leave t)) : Ends body s [] t :=
  ⟨1, by simp [run, h]⟩

/-- The loop ends when it does so after one more round. -/
theorem ends_of_again {s s' t : σ} {a : α} {as : List α} (h : body s = .ok (.again a s'))
    (ht : Ends body s' as t) : Ends body s (a :: as) t := by
  obtain ⟨n, hn⟩ := ht
  exact ⟨n + 1, by simp [run, h, hn]⟩

/-- How a loop that ends begins: it leaves, or it goes around and then ends. -/
theorem Ends.cases {s t : σ} {as : List α} (h : Ends body s as t) :
    (body s = .ok (.leave t) ∧ as = []) ∨
      ∃ a s' as', body s = .ok (.again a s') ∧ Ends body s' as' t ∧ as = a :: as' := by
  obtain ⟨n, hn⟩ := h
  cases n with
  | zero => simp [run] at hn
  | succ n =>
    rw [run] at hn
    cases hb : body s with
    | error e => simp [hb] at hn
    | ok r =>
      cases r with
      | leave s' =>
        simp only [hb, Option.some.injEq, Except.ok.injEq, Prod.mk.injEq] at hn
        exact Or.inl ⟨by rw [hn.2], hn.1.symm⟩
      | again a s' =>
        right
        cases hr : run body n s' with
        | none => simp [hb, hr] at hn
        | some q =>
          cases q with
          | error e => simp [hb, hr] at hn
          | ok p =>
            obtain ⟨as', t'⟩ := p
            simp only [hb, hr, Option.some.injEq, Except.ok.injEq, Prod.mk.injEq] at hn
            obtain ⟨rfl, rfl⟩ := hn
            exact ⟨a, s', as', rfl, ⟨n, hr⟩, rfl⟩

/-- Induction along a loop that ends: from its exit backwards, one round at a time. -/
theorem Ends.rec_on {P : σ → List α → σ → Prop} {s t : σ} {as : List α}
    (h : Ends body s as t)
    (leave : ∀ s t, body s = .ok (.leave t) → P s [] t)
    (again : ∀ s a s' as t, body s = .ok (.again a s') → Ends body s' as t → P s' as t →
      P s (a :: as) t) : P s as t := by
  obtain ⟨n, hn⟩ := h
  induction n generalizing s as t with
  | zero => simp [run] at hn
  | succ n ih =>
    rcases Ends.cases ⟨n + 1, hn⟩ with ⟨hb, rfl⟩ | ⟨a, s', as', hb, hends, rfl⟩
    · exact leave s t hb
    · have hn' : run body n s' = some (.ok (as', t)) := by
        rw [run, hb] at hn
        cases hr : run body n s' with
        | none => simp [hr] at hn
        | some q =>
          cases q with
          | error e => simp [hr] at hn
          | ok p => simpa [hr, Prod.ext_iff] using hn
      exact again s a s' as' t hb hends (ih hn')

/-- A loop ends when, under an invariant, each round that does not leave it makes a
measure smaller. -/
theorem ends_of_measure (I : σ → Prop) (μ : σ → ℕ)
    (round : ∀ s, I s → (∃ t, body s = .ok (.leave t)) ∨
      ∃ a s', body s = .ok (.again a s') ∧ I s' ∧ μ s' < μ s)
    (s : σ) (hs : I s) : ∃ as t, Ends body s as t := by
  induction hμ : μ s using Nat.strongRecOn generalizing s with
  | ind n ih =>
    rcases round s hs with ⟨t, ht⟩ | ⟨a, s', hb, hI, hlt⟩
    · exact ⟨[], t, ends_of_leave ht⟩
    · obtain ⟨as, t, ht⟩ := ih (μ s') (hμ ▸ hlt) s' hI rfl
      exact ⟨a :: as, t, ends_of_again hb ht⟩

/-- A loop does not end when an invariant keeps it going around. -/
theorem not_ends_of_invariant (I : σ → Prop)
    (round : ∀ s, I s → ∃ a s', body s = .ok (.again a s') ∧ I s')
    (s : σ) (hs : I s) (as : List α) (t : σ) : ¬ Ends body s as t := by
  intro h
  have key : I s → False := by
    refine h.rec_on (P := fun s _ _ => I s → False) ?_ ?_
    · intro s t hb hI
      obtain ⟨a, s', hb', -⟩ := round s hI
      rw [hb] at hb'
      simp at hb'
    · intro s a s' as t hb _ ih hI
      obtain ⟨a', s'', hb', hI'⟩ := round s hI
      rw [hb, Except.ok.injEq, Round.again.injEq] at hb'
      exact ih (hb'.2 ▸ hI')
  exact key hs

end Loop
