/-
# Ownership of resources

Objects that each hold at most one resource, which a system hands out and takes back, such as
the descriptors of open files.

A `Ledger` is what matters about the objects: who holds which resource, and which resources are
open.  A step takes a resource, moves one from one holder to another, or drops one.  In every
run a resource has at most one holder, and is closed only while it is open (`Sound`,
`Recorded`).  A move loses a resource if and only if its target holds one
(`Sound.owned_move_iff`).

A `HandleClass` is a class of such objects by its member functions.  When they keep a few laws,
its objects act on the ledger of what their destructors would close (`Lawful.ledger_step`), so
that the results about ledgers are results about the class (`Lawful.law_of_steps`).
-/
import Ringmaster.Library.Run

namespace Ownership

/-! ## Ledgers -/

/-- What the system sees of a resource. -/
inductive Event (ρ : Type*) where
  | opened (r : ρ)
  | closed (r : ρ)
  deriving DecidableEq

/-- The resource of an event. -/
def Event.resource {ρ : Type*} : Event ρ → ρ
  | .opened r => r
  | .closed r => r

/-- Who holds which resource, and which resources are open. -/
structure Ledger (ι ρ : Type*) where
  held : ι → Option ρ
  active : Finset ρ

namespace Ledger

variable {ι ρ : Type*}

/-- What is held is open, and has one holder only. -/
structure Sound (l : Ledger ι ρ) : Prop where
  mem_active {i : ι} {r : ρ} : l.held i = some r → r ∈ l.active
  unique {i j : ι} {r : ρ} : l.held i = some r → l.held j = some r → i = j

/-- Every open resource has exactly one holder. -/
def Owned (l : Ledger ι ρ) : Prop := ∀ r ∈ l.active, ∃! i, l.held i = some r

/-- In a sound ledger it is enough that there is a holder. -/
theorem Sound.owned_iff {l : Ledger ι ρ} (h : l.Sound) :
    l.Owned ↔ ∀ r ∈ l.active, ∃ i, l.held i = some r := by
  constructor
  · intro howned r hr
    exact (howned r hr).exists
  · intro hholder r hr
    obtain ⟨i, hi⟩ := hholder r hr
    exact ⟨i, hi, fun j hj => h.unique hj hi⟩

/-- When nobody holds anything, and every open resource has a holder, nothing is open. -/
theorem Owned.active_eq_empty {l : Ledger ι ρ} (howned : l.Owned)
    (hnone : ∀ i, l.held i = none) : l.active = ∅ := by
  rw [Finset.eq_empty_iff_forall_notMem]
  intro r hr
  obtain ⟨i, hi⟩ := (howned r hr).exists
  rw [hnone i] at hi
  simp at hi

/-! ## What the system sees -/

/-- A resource that is opened and closed, `n` times. -/
def cycles (r : ρ) (n : ℕ) : List (Event ρ) :=
  (List.replicate n [Event.opened r, Event.closed r]).flatten

/-- One more cycle. -/
theorem cycles_succ (r : ρ) (n : ℕ) :
    cycles r n ++ [Event.opened r] ++ [Event.closed r] = cycles r (n + 1) := by
  simp [cycles, List.replicate_succ']

section Events

variable [DecidableEq ρ]

/-- The events of one resource. -/
def eventsOf (r : ρ) (es : List (Event ρ)) : List (Event ρ) :=
  es.filter fun e => decide (e.resource = r)

/-- Every time the resource was opened, it was closed exactly once. -/
def ClosedOnce (es : List (Event ρ)) (r : ρ) : Prop := ∃ n, eventsOf r es = cycles r n

/-- Each resource was closed once for each time it was opened, except that what is open has not
been closed yet. -/
def Recorded (es : List (Event ρ)) (l : Ledger ι ρ) : Prop :=
  ∀ r, ∃ n, eventsOf r es = cycles r n ++ if r ∈ l.active then [Event.opened r] else []

/-- Nothing more happened to a resource. -/
theorem eventsOf_append_of_forall_ne {r : ρ} {es es' : List (Event ρ)}
    (h : ∀ e ∈ es', e.resource ≠ r) : eventsOf r (es ++ es') = eventsOf r es := by
  have hnil : es'.filter (fun e => decide (e.resource = r)) = [] := by
    rw [List.filter_eq_nil_iff]
    intro e he
    simpa using h e he
  rw [eventsOf, List.filter_append, hnil, List.append_nil, eventsOf]

/-- One event more of a resource. -/
theorem eventsOf_append_singleton (e : Event ρ) (es : List (Event ρ)) :
    eventsOf e.resource (es ++ [e]) = eventsOf e.resource es ++ [e] := by
  simp [eventsOf]

/-- When nothing is open, everything was closed exactly once. -/
theorem Recorded.closedOnce {l : Ledger ι ρ} {es : List (Event ρ)} (hrec : Recorded es l)
    (hnone : l.active = ∅) (r : ρ) : ClosedOnce es r := by
  obtain ⟨n, hn⟩ := hrec r
  rw [hnone, if_neg (Finset.notMem_empty r), List.append_nil] at hn
  exact ⟨n, hn⟩

end Events

/-! ## Moving -/

variable [DecidableEq ι]

/-- What `j` holds goes to `i`, and `j` holds nothing. -/
def move (l : Ledger ι ρ) (i j : ι) : Ledger ι ρ :=
  { l with held := Function.update (Function.update l.held i (l.held j)) j none }

/-- Who holds what after a move. -/
theorem held_move_eq_some_iff {l : Ledger ι ρ} {i j k : ι} {r : ρ} :
    (l.move i j).held k = some r ↔
      k ≠ j ∧ ((k = i ∧ l.held j = some r) ∨ (k ≠ i ∧ l.held k = some r)) := by
  show Function.update (Function.update l.held i (l.held j)) j none k = some r ↔ _
  rw [Function.update_apply, Function.update_apply]
  split_ifs with hj hi
  · simp [hj]
  · rw [and_iff_right hj, and_iff_right hi, or_iff_left (fun h => h.1 hi)]
  · rw [and_iff_right hj, and_iff_right hi, or_iff_right (fun h => hi h.1)]

/-- Moving keeps the ledger sound. -/
theorem Sound.move {l : Ledger ι ρ} (h : l.Sound) (i j : ι) : (l.move i j).Sound := by
  refine ⟨fun {k r} hk => ?_, fun {k k' r} hk hk' => ?_⟩
  · rcases (held_move_eq_some_iff.mp hk).2 with ⟨-, hj⟩ | ⟨-, hk⟩
    · exact h.mem_active hj
    · exact h.mem_active hk
  · obtain ⟨hkj, hk⟩ := held_move_eq_some_iff.mp hk
    obtain ⟨hkj', hk'⟩ := held_move_eq_some_iff.mp hk'
    rcases hk with ⟨rfl, hj⟩ | ⟨-, hk⟩
    · rcases hk' with ⟨rfl, -⟩ | ⟨-, hk'⟩
      · rfl
      · exact absurd (h.unique hk' hj) hkj'
    · rcases hk' with ⟨-, hj⟩ | ⟨-, hk'⟩
      · exact absurd (h.unique hk hj) hkj
      · exact h.unique hk hk'

/-- After a move nobody holds what its target held. -/
theorem Sound.held_move_ne {l : Ledger ι ρ} (h : l.Sound) {i : ι} {r : ρ}
    (hr : l.held i = some r) (j k : ι) : (l.move i j).held k ≠ some r := by
  intro hk
  obtain ⟨hkj, ⟨rfl, hj⟩ | ⟨hki, hk⟩⟩ := held_move_eq_some_iff.mp hk
  · exact hkj (h.unique hr hj)
  · exact hki (h.unique hk hr)

/-- Moving loses nothing if and only if the target holds nothing. -/
theorem Sound.owned_move_iff {l : Ledger ι ρ} (h : l.Sound) (howned : l.Owned) (i j : ι) :
    (l.move i j).Owned ↔ l.held i = none := by
  rw [(h.move i j).owned_iff]
  constructor
  · intro hholder
    by_contra hheld
    obtain ⟨r, hr⟩ := Option.ne_none_iff_exists'.mp hheld
    obtain ⟨k, hk⟩ := hholder r (h.mem_active hr)
    exact h.held_move_ne hr j k hk
  · intro hheld r hr
    obtain ⟨k, hk⟩ := (howned r hr).exists
    have hki : k ≠ i := by
      rintro rfl
      rw [hheld] at hk
      simp at hk
    by_cases hkj : k = j
    · subst hkj
      exact ⟨i, held_move_eq_some_iff.mpr ⟨hki.symm, Or.inl ⟨rfl, hk⟩⟩⟩
    · exact ⟨k, held_move_eq_some_iff.mpr ⟨hkj, Or.inr ⟨hki, hk⟩⟩⟩

/-! ## Taking and dropping -/

variable [DecidableEq ρ]

/-- A resource is opened for `i`. -/
def take (l : Ledger ι ρ) (i : ι) (r : ρ) : Ledger ι ρ :=
  ⟨Function.update l.held i (some r), insert r l.active⟩

/-- What `i` holds is closed. -/
def drop (l : Ledger ι ρ) (i : ι) : Ledger ι ρ :=
  ⟨Function.update l.held i none, l.active \ (l.held i).toFinset⟩

/-- The events when `i` drops what it holds. -/
def dropEvents (l : Ledger ι ρ) (i : ι) : List (Event ρ) := ((l.held i).map Event.closed).toList

/-- Who holds what after a resource was taken. -/
theorem held_take_eq_some_iff {l : Ledger ι ρ} {i k : ι} {r r' : ρ} :
    (l.take i r).held k = some r' ↔ (k = i ∧ r = r') ∨ (k ≠ i ∧ l.held k = some r') := by
  show Function.update l.held i (some r) k = some r' ↔ _
  rw [Function.update_apply]
  split_ifs with hk
  · simp [hk]
  · simp [hk]

/-- Who holds what after a drop. -/
theorem held_drop_eq_some_iff {l : Ledger ι ρ} {i k : ι} {r : ρ} :
    (l.drop i).held k = some r ↔ k ≠ i ∧ l.held k = some r := by
  show Function.update l.held i none k = some r ↔ _
  rw [Function.update_apply]
  split_ifs with hk
  · simp [hk]
  · simp [hk]

/-- What is open after a drop. -/
theorem mem_active_drop_iff {l : Ledger ι ρ} {i : ι} {r : ρ} :
    r ∈ (l.drop i).active ↔ r ∈ l.active ∧ l.held i ≠ some r := by
  show r ∈ l.active \ (l.held i).toFinset ↔ _
  rw [Finset.mem_sdiff, Option.mem_toFinset, Option.mem_def]

/-- Taking a fresh resource keeps the ledger sound. -/
theorem Sound.take {l : Ledger ι ρ} (h : l.Sound) {i : ι} {r : ρ} (hfresh : r ∉ l.active) :
    (l.take i r).Sound := by
  refine ⟨fun {k r'} hk => ?_, fun {k k' r'} hk hk' => ?_⟩
  · show r' ∈ insert r l.active
    rw [Finset.mem_insert]
    rcases held_take_eq_some_iff.mp hk with ⟨-, rfl⟩ | ⟨-, hk⟩
    · exact Or.inl rfl
    · exact Or.inr (h.mem_active hk)
  · rcases held_take_eq_some_iff.mp hk with ⟨rfl, rfl⟩ | ⟨-, hk⟩
    · rcases held_take_eq_some_iff.mp hk' with ⟨rfl, -⟩ | ⟨-, hk'⟩
      · rfl
      · exact absurd (h.mem_active hk') hfresh
    · rcases held_take_eq_some_iff.mp hk' with ⟨-, rfl⟩ | ⟨-, hk'⟩
      · exact absurd (h.mem_active hk) hfresh
      · exact h.unique hk hk'

/-- Dropping keeps the ledger sound. -/
theorem Sound.drop {l : Ledger ι ρ} (h : l.Sound) (i : ι) : (l.drop i).Sound := by
  refine ⟨fun {k r} hk => ?_, fun {k k' r} hk hk' => ?_⟩
  · obtain ⟨hki, hk⟩ := held_drop_eq_some_iff.mp hk
    rw [mem_active_drop_iff]
    exact ⟨h.mem_active hk, fun hi => hki (h.unique hk hi)⟩
  · exact h.unique (held_drop_eq_some_iff.mp hk).2 (held_drop_eq_some_iff.mp hk').2

/-- Taking a fresh resource loses nothing. -/
theorem Owned.take {l : Ledger ι ρ} (howned : l.Owned) (h : l.Sound) {i : ι} {r : ρ}
    (hheld : l.held i = none) (hfresh : r ∉ l.active) : (l.take i r).Owned := by
  rw [(h.take hfresh).owned_iff]
  intro r' hr'
  rcases Finset.mem_insert.mp hr' with rfl | hr'
  · exact ⟨i, held_take_eq_some_iff.mpr (Or.inl ⟨rfl, rfl⟩)⟩
  · obtain ⟨k, hk⟩ := (howned r' hr').exists
    refine ⟨k, held_take_eq_some_iff.mpr (Or.inr ⟨?_, hk⟩)⟩
    rintro rfl
    rw [hheld] at hk
    simp at hk

/-- Dropping loses nothing. -/
theorem Owned.drop {l : Ledger ι ρ} (howned : l.Owned) (h : l.Sound) (i : ι) :
    (l.drop i).Owned := by
  rw [(h.drop i).owned_iff]
  intro r hr
  obtain ⟨hr, hi⟩ := mem_active_drop_iff.mp hr
  obtain ⟨k, hk⟩ := (howned r hr).exists
  refine ⟨k, held_drop_eq_some_iff.mpr ⟨?_, hk⟩⟩
  rintro rfl
  exact hi hk

/-- Taking a fresh resource is recorded. -/
theorem Recorded.take {l : Ledger ι ρ} {es : List (Event ρ)} (hrec : Recorded es l) {i : ι}
    {r : ρ} (hfresh : r ∉ l.active) : Recorded (es ++ [Event.opened r]) (l.take i r) := by
  intro r'
  obtain ⟨n, hn⟩ := hrec r'
  refine ⟨n, ?_⟩
  by_cases hr : r = r'
  · subst hr
    rw [if_neg hfresh, List.append_nil] at hn
    have hmem : r ∈ (l.take i r).active := Finset.mem_insert_self _ _
    rw [if_pos hmem, ← hn]
    exact eventsOf_append_singleton (.opened r) es
  · have hmem : r' ∈ (l.take i r).active ↔ r' ∈ l.active := by
      show r' ∈ insert r l.active ↔ _
      rw [Finset.mem_insert, or_iff_right (Ne.symm hr)]
    have hother : ∀ e ∈ [Event.opened r], e.resource ≠ r' := by
      rintro e he
      rw [List.mem_singleton.mp he]
      exact hr
    rw [eventsOf_append_of_forall_ne hother, hn]
    simp only [hmem]

/-- Dropping is recorded. -/
theorem Recorded.drop {l : Ledger ι ρ} {es : List (Event ρ)} (hrec : Recorded es l)
    (h : l.Sound) (i : ι) : Recorded (es ++ l.dropEvents i) (l.drop i) := by
  intro r'
  obtain ⟨n, hn⟩ := hrec r'
  by_cases hi : l.held i = some r'
  · have hevents : l.dropEvents i = [.closed r'] := by
      rw [dropEvents, hi]
      rfl
    have hclosed : r' ∉ (l.drop i).active := fun hmem => (mem_active_drop_iff.mp hmem).2 hi
    rw [if_pos (h.mem_active hi)] at hn
    refine ⟨n + 1, ?_⟩
    rw [if_neg hclosed, List.append_nil, ← cycles_succ, ← hn, hevents]
    exact eventsOf_append_singleton (.closed r') es
  · have hmem : r' ∈ (l.drop i).active ↔ r' ∈ l.active := by
      rw [mem_active_drop_iff, and_iff_left hi]
    refine ⟨n, ?_⟩
    rw [eventsOf_append_of_forall_ne, hn]
    · simp only [hmem]
    · intro e he heq
      rw [dropEvents, Option.mem_toList, Option.map_eq_some_iff] at he
      obtain ⟨r, hr, rfl⟩ := he
      apply hi
      rw [hr]
      exact congrArg some heq

/-! ## Steps -/

/-- The steps of a ledger. -/
inductive Step : Ledger ι ρ → List (Event ρ) → Ledger ι ρ → Prop
  | take {l : Ledger ι ρ} {i : ι} {r : ρ} (hheld : l.held i = none) (hfresh : r ∉ l.active) :
      Step l [.opened r] (l.take i r)
  | move {l : Ledger ι ρ} (i j : ι) : Step l [] (l.move i j)
  | drop {l : Ledger ι ρ} (i : ι) : Step l (l.dropEvents i) (l.drop i)

/-- Every step keeps the ledger sound. -/
theorem Sound.step {l l' : Ledger ι ρ} {es : List (Event ρ)} (h : l.Sound)
    (hstep : Step l es l') : l'.Sound := by
  cases hstep with
  | take _ hfresh => exact h.take hfresh
  | move i j => exact h.move i j
  | drop i => exact h.drop i

/-- Every step is recorded. -/
theorem Recorded.step {l l' : Ledger ι ρ} {es es' : List (Event ρ)} (hrec : Recorded es l)
    (h : l.Sound) (hstep : Step l es' l') : Recorded (es ++ es') l' := by
  cases hstep with
  | take _ hfresh => exact hrec.take hfresh
  | move i j =>
    rw [List.append_nil]
    exact hrec
  | drop i => exact hrec.drop h i

end Ledger

/-! ## Classes of objects -/

/-- A class of objects that hold resources, by its member functions. -/
structure HandleClass (α ρ : Type*) where
  /-- Which resources the system may hand out when others are open. -/
  fresh : Finset ρ → ρ → Bool
  /-- The constructor around a resource that was handed out; `none` if it throws. -/
  construct : ρ → Option α
  /-- The move constructor: the new object, and what becomes of the other one. -/
  moveConstruct : α → α × α
  /-- The move assignment first copies the members of the other object into this one. -/
  copyMembers : α → α → α
  /-- Then it marks the other object. -/
  deactivate : α → α
  /-- The method that closes the resource before the destructor does, if there is one: what
  becomes of the object, and what it closes. -/
  close : Option (α → α × Option ρ)
  /-- What the destructor closes. -/
  destruct : α → Option ρ

/-- The objects that are alive, and the resources that are open. -/
structure State (ι α ρ : Type*) where
  objects : ι → Option α
  active : Finset ρ

/-- There are no objects yet. -/
def State.initial (ι α ρ : Type*) : State ι α ρ := ⟨fun _ => none, ∅⟩

/-- What a program does with the objects of a class. -/
inductive Op (ι ρ : Type*) where
  | construct (this : ι) (r : ρ)
  | moveConstruct (this other : ι)
  | moveAssign (this other : ι)
  | close (this : ι)
  | destruct (this : ι)

/-- The laws that the member functions should keep: what the destructor closes is what the
object was constructed with, moves hand it on, and `close` closes the same. -/
structure HandleClass.Lawful {α ρ : Type*} (H : HandleClass α ρ) : Prop where
  notMem_of_fresh {active : Finset ρ} {r : ρ} : H.fresh active r = true → r ∉ active
  destruct_construct {active : Finset ρ} {r : ρ} {object : α} : H.fresh active r = true →
    H.construct r = some object → H.destruct object = some r
  destruct_moveConstruct (source : α) :
    H.destruct (H.moveConstruct source).1 = H.destruct source ∧
      H.destruct (H.moveConstruct source).2 = none
  destruct_copyMembers (target source : α) :
    H.destruct (H.copyMembers target source) = H.destruct source
  destruct_deactivate (source : α) : H.destruct (H.deactivate source) = none
  close_eq {close : α → α × Option ρ} (object : α) : H.close = some close →
    (close object).2 = H.destruct object ∧ H.destruct (close object).1 = none

namespace HandleClass

variable {ι α ρ : Type*} (H : HandleClass α ρ)

/-- An object holds what its destructor would close. -/
def held (s : State ι α ρ) (i : ι) : Option ρ := (s.objects i).bind H.destruct

/-- The ledger of the objects. -/
def ledger (s : State ι α ρ) : Ledger ι ρ := ⟨H.held s, s.active⟩

/-- What an object that is alive holds. -/
theorem held_of_eq_some {s : State ι α ρ} {i : ι} {object : α} (h : s.objects i = some object) :
    H.held s i = H.destruct object := by
  rw [held, h, Option.bind_some]

/-- An object that is not alive holds nothing. -/
theorem held_of_eq_none {s : State ι α ρ} {i : ι} (h : s.objects i = none) :
    H.held s i = none := by
  rw [held, h, Option.bind_none]

/-- A move assignment goes onto an object that holds nothing. -/
def Vacant (s : State ι α ρ) : Op ι ρ → Prop
  | .moveAssign this _ => H.held s this = none
  | _ => True

variable [DecidableEq ι]

/-- What an object holds after an object was changed. -/
theorem held_update (objects : ι → Option α) (active : Finset ρ) (i : ι) (object : Option α) :
    H.held ⟨Function.update objects i object, active⟩
      = Function.update (H.held ⟨objects, active⟩) i (object.bind H.destruct) := by
  funext k
  show (Function.update objects i object k).bind H.destruct = _
  rw [Function.update_apply, Function.update_apply]
  split_ifs
  · rfl
  · rfl

variable [DecidableEq ρ]

/-- A resource is given back, if there is one. -/
def giveBack (objects : ι → Option α) (active : Finset ρ) (r : Option ρ) :
    State ι α ρ × List (Event ρ) :=
  (⟨objects, active \ r.toFinset⟩, (r.map Event.closed).toList)

/-- What an operation does; `none` if it is not possible, since an object is not alive or is
already there, the system would not hand out the resource, or there is no such method.  The
two halves of a move assignment are done one after the other, so that they may be about the
same object. -/
def step (s : State ι α ρ) : Op ι ρ → Option (State ι α ρ × List (Event ρ))
  | .construct this r =>
    match s.objects this, H.construct r with
    | none, some object =>
      if H.fresh s.active r then
        some (⟨Function.update s.objects this (some object), insert r s.active⟩, [.opened r])
      else none
    | _, _ => none
  | .moveConstruct this other =>
    match s.objects this, s.objects other with
    | none, some source =>
      let (object, source) := H.moveConstruct source
      let objects := Function.update s.objects this (some object)
      some (⟨Function.update objects other (some source), s.active⟩, [])
    | _, _ => none
  | .moveAssign this other =>
    match s.objects this, s.objects other with
    | some target, some source =>
      let objects := Function.update s.objects this (some (H.copyMembers target source))
      let objects := Function.update objects other ((objects other).map H.deactivate)
      some (⟨objects, s.active⟩, [])
    | _, _ => none
  | .close this =>
    match H.close, s.objects this with
    | some close, some object =>
      let (object, r) := close object
      some (giveBack (Function.update s.objects this (some object)) s.active r)
    | _, _ => none
  | .destruct this =>
    match s.objects this with
    | some object =>
      some (giveBack (Function.update s.objects this none) s.active (H.destruct object))
    | none => none

/-- A step of a program. -/
def Step (s : State ι α ρ) (es : List (Event ρ)) (s' : State ι α ρ) : Prop :=
  ∃ op, H.step s op = some (s', es)

/-- A step of a program that assigns only to objects that hold nothing. -/
def VacantStep (s : State ι α ρ) (es : List (Event ρ)) (s' : State ι α ρ) : Prop :=
  ∃ op, H.Vacant s op ∧ H.step s op = some (s', es)

/-- The law of ownership: every open resource is held by exactly one object that is alive, and
once there are no objects any more, each resource was closed exactly once every time it was
opened. -/
structure Law (s : State ι α ρ) (es : List (Event ρ)) : Prop where
  owned : (H.ledger s).Owned
  closedOnce : (∀ i, s.objects i = none) → ∀ r, Ledger.ClosedOnce es r

/-! ## What the operations do to the ledger -/

section Ledger

variable {H} {s s' : State ι α ρ} {es : List (Event ρ)}

/-- What a construction does. -/
theorem Lawful.ledger_construct (hH : H.Lawful) {this : ι} {r : ρ}
    (h : H.step s (.construct this r) = some (s', es)) :
    H.held s this = none ∧ r ∉ s.active ∧ H.ledger s' = (H.ledger s).take this r ∧
      es = [.opened r] := by
  unfold step at h
  dsimp only at h
  split at h
  next object hthis hobject =>
    split_ifs at h with hfresh
    rw [Option.some_inj, Prod.mk.injEq] at h
    obtain ⟨rfl, rfl⟩ := h
    refine ⟨H.held_of_eq_none hthis, hH.notMem_of_fresh hfresh, ?_, rfl⟩
    rw [ledger, held_update, Option.bind_some, hH.destruct_construct hfresh hobject]
    rfl
  · simp at h

/-- What a move construction does. -/
theorem Lawful.ledger_moveConstruct (hH : H.Lawful) {this other : ι}
    (h : H.step s (.moveConstruct this other) = some (s', es)) :
    H.held s this = none ∧ H.ledger s' = (H.ledger s).move this other ∧ es = [] := by
  unfold step at h
  dsimp only at h
  split at h
  next source hthis hother =>
    rw [Option.some_inj, Prod.mk.injEq] at h
    obtain ⟨rfl, rfl⟩ := h
    obtain ⟨hobject, hsource⟩ := hH.destruct_moveConstruct source
    refine ⟨H.held_of_eq_none hthis, ?_, rfl⟩
    rw [ledger, held_update, held_update, Option.bind_some, Option.bind_some, hobject, hsource,
      ← H.held_of_eq_some hother]
    rfl
  · simp at h

/-- What a move assignment does. -/
theorem Lawful.ledger_moveAssign (hH : H.Lawful) {this other : ι}
    (h : H.step s (.moveAssign this other) = some (s', es)) :
    H.ledger s' = (H.ledger s).move this other ∧ es = [] := by
  unfold step at h
  dsimp only at h
  split at h
  next target source hthis hother =>
    rw [Option.some_inj, Prod.mk.injEq] at h
    obtain ⟨rfl, rfl⟩ := h
    refine ⟨?_, rfl⟩
    have hmarked : ∀ object : Option α, (object.map H.deactivate).bind H.destruct = none := by
      intro object
      cases object with
      | none => rfl
      | some object => exact hH.destruct_deactivate object
    rw [ledger, held_update, held_update, hmarked, Option.bind_some, hH.destruct_copyMembers,
      ← H.held_of_eq_some hother]
    rfl
  · simp at h

/-- What giving back does, if it is what the object held. -/
theorem ledger_giveBack {this : ι} {object : α} {object' : Option α} {r : Option ρ}
    (hthis : s.objects this = some object) (hr : r = H.destruct object)
    (hnone : object'.bind H.destruct = none)
    (h : giveBack (Function.update s.objects this object') s.active r = (s', es)) :
    H.ledger s' = (H.ledger s).drop this ∧ es = (H.ledger s).dropEvents this := by
  have hheld : (H.ledger s).held this = r := (H.held_of_eq_some hthis).trans hr.symm
  rw [giveBack, Prod.mk.injEq] at h
  obtain ⟨rfl, rfl⟩ := h
  rw [Ledger.dropEvents, Ledger.drop, hheld, ledger, held_update, hnone]
  exact ⟨rfl, rfl⟩

/-- What closing does. -/
theorem Lawful.ledger_close (hH : H.Lawful) {this : ι}
    (h : H.step s (.close this) = some (s', es)) :
    H.ledger s' = (H.ledger s).drop this ∧ es = (H.ledger s).dropEvents this := by
  unfold step at h
  dsimp only at h
  split at h
  next close object hclose hthis =>
    obtain ⟨hr, hnone⟩ := hH.close_eq object hclose
    refine ledger_giveBack hthis hr ?_ (Option.some_inj.mp h)
    exact hnone
  · simp at h

/-- What a destructor does. -/
theorem ledger_destruct {this : ι} (h : H.step s (.destruct this) = some (s', es)) :
    H.ledger s' = (H.ledger s).drop this ∧ es = (H.ledger s).dropEvents this := by
  unfold step at h
  dsimp only at h
  split at h
  next object hthis => exact ledger_giveBack hthis rfl rfl (Option.some_inj.mp h)
  · simp at h

/-- The objects of a lawful class act on their ledger. -/
theorem Lawful.ledger_step (hH : H.Lawful) (h : H.Step s es s') :
    Ledger.Step (H.ledger s) es (H.ledger s') := by
  obtain ⟨op, h⟩ := h
  cases op with
  | construct this r =>
    obtain ⟨hheld, hfresh, hledger, rfl⟩ := hH.ledger_construct h
    rw [hledger]
    exact .take hheld hfresh
  | moveConstruct this other =>
    obtain ⟨-, hledger, rfl⟩ := hH.ledger_moveConstruct h
    rw [hledger]
    exact .move this other
  | moveAssign this other =>
    obtain ⟨hledger, rfl⟩ := hH.ledger_moveAssign h
    rw [hledger]
    exact .move this other
  | close this =>
    obtain ⟨hledger, rfl⟩ := hH.ledger_close h
    rw [hledger]
    exact .drop this
  | destruct this =>
    obtain ⟨hledger, rfl⟩ := ledger_destruct h
    rw [hledger]
    exact .drop this

/-- An operation keeps every open resource held if and only if it is not an assignment to an
object that holds one. -/
theorem Lawful.owned_step_iff (hH : H.Lawful) (hsound : (H.ledger s).Sound)
    (howned : (H.ledger s).Owned) {op : Op ι ρ} (h : H.step s op = some (s', es)) :
    (H.ledger s').Owned ↔ H.Vacant s op := by
  cases op with
  | construct this r =>
    obtain ⟨hheld, hfresh, hledger, -⟩ := hH.ledger_construct h
    rw [hledger]
    exact iff_of_true (howned.take hsound hheld hfresh) trivial
  | moveConstruct this other =>
    obtain ⟨hheld, hledger, -⟩ := hH.ledger_moveConstruct h
    rw [hledger]
    exact iff_of_true ((hsound.owned_move_iff howned this other).mpr hheld) trivial
  | moveAssign this other =>
    rw [(hH.ledger_moveAssign h).1]
    exact hsound.owned_move_iff howned this other
  | close this =>
    rw [(hH.ledger_close h).1]
    exact iff_of_true (howned.drop hsound this) trivial
  | destruct this =>
    rw [(ledger_destruct h).1]
    exact iff_of_true (howned.drop hsound this) trivial

/-! ## Runs -/

/-- In every run a resource has at most one holder, and is closed only while it is open. -/
theorem Lawful.sound_of_steps (hH : H.Lawful)
    (h : Run.Steps H.Step (State.initial ι α ρ) es s) :
    (H.ledger s).Sound ∧ Ledger.Recorded es (H.ledger s) := by
  refine h.invariant (fun es s => (H.ledger s).Sound ∧ Ledger.Recorded es (H.ledger s)) ?_ ?_
  · refine ⟨⟨?_, ?_⟩, fun r => ⟨0, rfl⟩⟩
    · intro i r hr
      exact absurd hr (Option.some_ne_none r).symm
    · intro i j r hr
      exact absurd hr (Option.some_ne_none r).symm
  · rintro es s es' s' ⟨hsound, hrec⟩ hstep
    exact ⟨hsound.step (hH.ledger_step hstep), hrec.step hsound (hH.ledger_step hstep)⟩

/-- A run that assigns only to objects that hold nothing is a run. -/
theorem steps_of_vacant (h : Run.Steps H.VacantStep (State.initial ι α ρ) es s) :
    Run.Steps H.Step (State.initial ι α ρ) es s := by
  induction h with
  | refl => exact .refl _
  | tail _ hstep ih =>
    obtain ⟨op, -, hstep⟩ := hstep
    exact ih.tail ⟨op, hstep⟩

/-- In every run that assigns only to objects that hold nothing, every open resource is held. -/
theorem Lawful.owned_of_steps (hH : H.Lawful)
    (h : Run.Steps H.VacantStep (State.initial ι α ρ) es s) : (H.ledger s).Owned := by
  induction h with
  | refl => exact fun r hr => absurd hr (Finset.notMem_empty r)
  | tail hsteps hstep ih =>
    obtain ⟨op, hvacant, hstep⟩ := hstep
    have hsound := (hH.sound_of_steps (steps_of_vacant hsteps)).1
    exact (hH.owned_step_iff hsound ih hstep).mpr hvacant

/-- When every open resource is held in a state that a run reaches, the law holds. -/
theorem Lawful.law_of_owned (hH : H.Lawful)
    (h : Run.Steps H.Step (State.initial ι α ρ) es s) (howned : (H.ledger s).Owned) :
    H.Law s es := by
  refine ⟨howned, fun hnone => ?_⟩
  have hheld : ∀ i, (H.ledger s).held i = none := fun i => H.held_of_eq_none (hnone i)
  exact (hH.sound_of_steps h).2.closedOnce (howned.active_eq_empty hheld)

/-- In every run that assigns only to objects that hold nothing, the law of ownership holds in
every state; and the next operation keeps it if and only if it is not an assignment to an
object that holds a resource. -/
theorem Lawful.law_of_steps (hH : H.Lawful)
    (h : Run.Steps H.VacantStep (State.initial ι α ρ) es s) :
    H.Law s es ∧ ∀ op s' es', H.step s op = some (s', es') →
      (H.Law s' (es ++ es') ↔ H.Vacant s op) := by
  have hsteps := steps_of_vacant h
  have howned := hH.owned_of_steps h
  refine ⟨hH.law_of_owned hsteps howned, fun op s' es' hstep => ?_⟩
  have hiff := hH.owned_step_iff (hH.sound_of_steps hsteps).1 howned hstep
  constructor
  · exact fun hlaw => hiff.mp hlaw.owned
  · exact fun hvacant => hH.law_of_owned (hsteps.tail ⟨op, hstep⟩) (hiff.mpr hvacant)

end Ledger

end HandleClass

end Ownership
