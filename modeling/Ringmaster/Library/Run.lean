/-
# Runs of systems that emit events

`Run.Steps` is the reflexive and transitive closure of a step relation, with the events of
the steps concatenated.

`Steps.invariant` is the induction that every safety property of a run uses: what holds at
the start and is kept by each step holds at the end.  Its guarded form allows an assumption
about the events of the whole run that its prefixes inherit, such as one about each event or a
bound on their number.
`Steps.refine` and `Steps.simulate` carry a run over to a coarser system, by a function and by
a relation between the states, and `not_infinite` bounds the runs whose steps lower a measure.
-/
import Mathlib

namespace Run

variable {σ τ : Type*}

/-! ## The closure of a step relation -/

/-- Finitely many steps, with the events that they emit. -/
inductive Steps (R : σ → List τ → σ → Prop) : σ → List τ → σ → Prop
  | refl (s : σ) : Steps R s [] s
  | tail {s t u : σ} {es es' : List τ} :
      Steps R s es t → R t es' u → Steps R s (es ++ es') u

variable {R : σ → List τ → σ → Prop}

/-- A single step. -/
theorem Steps.single {s t : σ} {es : List τ} (h : R s es t) : Steps R s es t := by
  simpa using Steps.tail (Steps.refl s) h

/-- Two sequences of steps, one after the other. -/
theorem Steps.trans {s t u : σ} {es es' : List τ} (h : Steps R s es t)
    (h' : Steps R t es' u) : Steps R s (es ++ es') u := by
  induction h' with
  | refl => simpa using h
  | tail _ hstep ih =>
    rw [← List.append_assoc]
    exact ih.tail hstep

/-- A step in front of a sequence of steps. -/
theorem Steps.head {s t u : σ} {es es' : List τ} (h : R s es t) (h' : Steps R t es' u) :
    Steps R s (es ++ es') u :=
  (Steps.single h).trans h'

/-- What holds at the start, and is kept by every step under a guard on the events so far,
holds at the end of a guarded run. -/
theorem Steps.invariant_of_guard (G : List τ → Prop) (I : List τ → σ → Prop)
    (hpre : ∀ es es', G (es ++ es') → G es) {s : σ} (init : I [] s)
    (step : ∀ es t es' u, G (es ++ es') → I es t → R t es' u → I (es ++ es') u)
    {es : List τ} {t : σ} (h : Steps R s es t) (hG : G es) : I es t := by
  induction h with
  | refl => exact init
  | @tail t u es es' _ hstep ih => exact step es t es' u hG (ih (hpre _ _ hG)) hstep

/-- What holds at the start and is kept by every step holds at the end of a run. -/
theorem Steps.invariant (I : List τ → σ → Prop) {s : σ} (init : I [] s)
    (step : ∀ es t es' u, I es t → R t es' u → I (es ++ es') u)
    {es : List τ} {t : σ} (h : Steps R s es t) : I es t :=
  h.invariant_of_guard (fun _ => True) I (fun _ _ _ => trivial) init
    (fun es t es' u _ => step es t es' u) trivial

/-- The same for a guard on each event. -/
theorem Steps.invariant_of_forall (G : τ → Prop) (I : List τ → σ → Prop) {s : σ}
    (init : I [] s)
    (step : ∀ es t es' u, (∀ e ∈ es', G e) → I es t → R t es' u → I (es ++ es') u)
    {es : List τ} {t : σ} (h : Steps R s es t) (hG : ∀ e ∈ es, G e) : I es t := by
  refine h.invariant_of_guard (fun es => ∀ e ∈ es, G e) I ?_ init ?_ hG
  · exact fun es es' hG => (List.forall_mem_append.mp hG).1
  · exact fun es t es' u hG => step es t es' u (List.forall_mem_append.mp hG).2

/-- The same for an upper bound on a count of events. -/
theorem Steps.invariant_of_lt (count : List τ → ℕ) {n : ℕ} (I : List τ → σ → Prop)
    (hmono : ∀ es es', count es ≤ count (es ++ es')) {s : σ} (init : I [] s)
    (step : ∀ es t es' u, count (es ++ es') < n → I es t → R t es' u → I (es ++ es') u)
    {es : List τ} {t : σ} (h : Steps R s es t) (hlt : count es < n) : I es t :=
  h.invariant_of_guard (fun es => count es < n) I
    (fun es es' hG => lt_of_le_of_lt (hmono es es') hG) init step hlt

/-! ## Refinement -/

/-- A run of a finer system is a run of a coarser one with the same events, when under an
invariant each fine step is a coarse one or changes nothing that the coarse system sees. -/
theorem Steps.refine {σ' : Type*} {R' : σ' → List τ → σ' → Prop} (f : σ → σ')
    (I : σ → Prop) {s : σ} (init : I s)
    (keep : ∀ t es u, I t → R t es u → I u)
    (step : ∀ t es u, I t → R t es u → (es = [] ∧ f u = f t) ∨ R' (f t) es (f u))
    {es : List τ} {t : σ} (h : Steps R s es t) : I t ∧ Steps R' (f s) es (f t) := by
  induction h with
  | refl => exact ⟨init, Steps.refl _⟩
  | @tail t u es es' _ hstep ih =>
    obtain ⟨hI, hrun⟩ := ih
    refine ⟨keep t es' u hI hstep, ?_⟩
    rcases step t es' u hI hstep with ⟨rfl, heq⟩ | hstep'
    · rw [List.append_nil, heq]
      exact hrun
    · exact hrun.tail hstep'

/-- A run is simulated by another system, whose steps emit the projections of its events, when
each of its steps is: the states stay related. -/
theorem Steps.simulate {σ' τ' : Type*} {R' : σ' → List τ' → σ' → Prop} (g : List τ → List τ')
    (nil : g [] = []) (append : ∀ es es', g (es ++ es') = g es ++ g es') (Q : σ → σ' → Prop)
    (step : ∀ t es u t', R t es u → Q t t' → ∃ u', Steps R' t' (g es) u' ∧ Q u u')
    {s : σ} {s' : σ'} (init : Q s s') {es : List τ} {t : σ} (h : Steps R s es t) :
    ∃ t', Steps R' s' (g es) t' ∧ Q t t' := by
  induction h with
  | refl =>
    rw [nil]
    exact ⟨s', Steps.refl s', init⟩
  | @tail t u es es' _ hstep ih =>
    obtain ⟨t', hrun, hQ⟩ := ih
    obtain ⟨u', hrun', hQ'⟩ := step t es' u t' hstep hQ
    rw [append]
    exact ⟨u', hrun.trans hrun', hQ'⟩

/-! ## Termination -/

/-- No infinite sequence of steps begins where an invariant holds under which each step
makes a measure smaller. -/
theorem not_infinite (I : σ → Prop) (μ : σ → ℕ)
    (step : ∀ s es t, I s → R s es t → I t ∧ μ t < μ s) (f : ℕ → σ) (init : I (f 0)) :
    ¬ ∀ n, ∃ es, R (f n) es (f (n + 1)) := by
  intro hf
  have hI : ∀ n, I (f n) := by
    intro n
    induction n with
    | zero => exact init
    | succ n ih =>
      obtain ⟨es, hstep⟩ := hf n
      exact (step _ es _ ih hstep).1
  have hbound : ∀ n, μ (f n) + n ≤ μ (f 0) := by
    intro n
    induction n with
    | zero => exact le_rfl
    | succ n ih =>
      obtain ⟨es, hstep⟩ := hf n
      have := (step _ es _ (hI n) hstep).2
      omega
  have := hbound (μ (f 0) + 1)
  omega

end Run
