/-
# The poller

The class `Poller` of `src/util/poller.hh` and `poller.cc`, and what a main loop does that
calls nothing but `poll`: the registered callbacks are executed one after the other, and
each of them may change the poller again.

The containers of the source have no order of their own.  The model keeps their contents as
ordered maps, and where the source iterates, any permutation of the contents is allowed.
-/
import Ringmaster.Library.OrderedMap
import Ringmaster.Library.Run
import Ringmaster.Util

namespace Ringmaster

/-! ## Event masks -/

/-- The enumeration `Poller::Flag`, after `POLLIN` and `POLLOUT`. -/
inductive Flag where
  | pollIn
  | pollOut
  deriving DecidableEq, Repr

namespace Flag

/-- The number of the bit that is set in a flag. -/
def bit : Flag → ℕ
  | pollIn => 0
  | pollOut => 2

/-- The value of a flag. -/
def value (flag : Flag) : BitVec 16 := BitVec.twoPow 16 flag.bit

instance : LinearOrder Flag :=
  LinearOrder.lift' bit (by
    intro a b h
    cases a with
    | pollIn =>
      cases b with
      | pollIn => rfl
      | pollOut => cases h
    | pollOut =>
      cases b with
      | pollIn => cases h
      | pollOut => rfl)

theorem bit_lt (flag : Flag) : flag.bit < 16 := by
  cases flag with
  | pollIn => decide
  | pollOut => decide

theorem bit_ne {a b : Flag} (h : a ≠ b) : a.bit ≠ b.bit := by
  cases a with
  | pollIn =>
    cases b with
    | pollIn => exact absurd rfl h
    | pollOut => decide
  | pollOut =>
    cases b with
    | pollIn => decide
    | pollOut => exact absurd rfl h

end Flag

/-- The type `short` of a mask of events. -/
abbrev EventMask := BitVec 16

/-- The test `events & flag`. -/
def EventMask.has (events : EventMask) (flag : Flag) : Bool := events &&& flag.value != 0

namespace EventMask

/-- A mask has a flag when the bit of the flag is set. -/
theorem has_eq_getLsbD (events : EventMask) (flag : Flag) :
    EventMask.has events flag = events.getLsbD flag.bit := by
  unfold EventMask.has Flag.value
  rw [BitVec.and_twoPow]
  split_ifs with h
  · have hne : BitVec.twoPow 16 flag.bit ≠ 0 := by
      cases flag with
      | pollIn => decide
      | pollOut => decide
    rw [h]
    exact bne_iff_ne.mpr hne
  · rw [Bool.not_eq_true _ |>.mp h]
    rfl

/-- A flag has itself. -/
theorem has_value (flag : Flag) : EventMask.has flag.value flag := by
  cases flag with
  | pollIn => decide
  | pollOut => decide

/-- Setting a flag sets it and keeps the others. -/
theorem has_or_value (events : EventMask) (flag flag' : Flag) :
    EventMask.has (events ||| flag.value) flag'
      = (EventMask.has events flag' || decide (flag' = flag)) := by
  simp only [has_eq_getLsbD, BitVec.getLsbD_or, Flag.value, BitVec.getLsbD_twoPow]
  by_cases h : flag' = flag
  · subst h
    simp [flag'.bit_lt]
  · simp [h, Ne.symm (Flag.bit_ne h)]

/-- Clearing a flag clears it and keeps the others. -/
theorem has_and_not_value (events : EventMask) (flag flag' : Flag) :
    EventMask.has (events &&& ~~~flag.value) flag'
      = (EventMask.has events flag' && decide (flag' ≠ flag)) := by
  simp only [has_eq_getLsbD, BitVec.getLsbD_and, BitVec.getLsbD_not, Flag.value,
    BitVec.getLsbD_twoPow]
  by_cases h : flag' = flag
  · subst h
    simp [flag'.bit_lt]
  · simp [h, flag'.bit_lt, Ne.symm (Flag.bit_ne h)]

/-- A mask with a flag is not the empty one. -/
theorem ne_zero_of_has {events : EventMask} {flag : Flag} (h : EventMask.has events flag) :
    events ≠ 0 := by
  rintro rfl
  simp [EventMask.has] at h

end EventMask

/-! ## The class -/

/-- The class `Poller`; a callback is known by its name. -/
structure Poller (κ : Type) where
  roster : OrderedMap ℤ (OrderedMap Flag κ)
  activeEvents : OrderedMap ℤ EventMask
  fdsToDeregister : List ℤ

namespace Poller

variable {κ : Type}

/-- The poller without any registration. -/
def initial : Poller κ := ⟨OrderedMap.empty, OrderedMap.empty, []⟩

/-- The method `register_event`. -/
def registerEvent (p : Poller κ) (fd : ℤ) (flag : Flag) (callback : κ) :
    Except Exn (Poller κ) :=
  match p.roster.find? fd with
  | none =>
    -- fd is not registered yet
    .ok { p with
      roster := p.roster.assign fd (OrderedMap.empty.assign flag callback)
      activeEvents := p.activeEvents.assign fd flag.value }
  | some callbacks =>
    -- fd is registered but flag should not be registered yet
    if callbacks.contains flag then
      .error (.runtimeError "attempted to register the same event")
    else
      .ok { p with
        roster := p.roster.assign fd (callbacks.assign flag callback)
        activeEvents :=
          p.activeEvents.assign fd ((p.activeEvents.find? fd).getD 0 ||| flag.value) }

/-- The method `activate`. -/
def activate (p : Poller κ) (fd : ℤ) (flag : Flag) : Except Exn (Poller κ) :=
  match p.activeEvents.find? fd with
  | none => .error (.outOfRange "unordered_map::at")
  | some events => .ok { p with activeEvents := p.activeEvents.assign fd (events ||| flag.value) }

/-- The method `deactivate`. -/
def deactivate (p : Poller κ) (fd : ℤ) (flag : Flag) : Except Exn (Poller κ) :=
  match p.activeEvents.find? fd with
  | none => .error (.outOfRange "unordered_map::at")
  | some events =>
    .ok { p with activeEvents := p.activeEvents.assign fd (events &&& ~~~flag.value) }

/-- The method `deregister`. -/
def deregister (p : Poller κ) (fd : ℤ) : Poller κ :=
  { p with fdsToDeregister := p.fdsToDeregister.insert fd }

/-- The method `do_deregister`. -/
def doDeregister (p : Poller κ) : Poller κ where
  roster := p.fdsToDeregister.foldl OrderedMap.erase p.roster
  activeEvents := p.fdsToDeregister.foldl OrderedMap.erase p.activeEvents
  fdsToDeregister := []

/-- The descriptors that `poll` hands to the kernel, with the events it asks for. -/
def fdsToPoll (p : Poller κ) : List (ℤ × EventMask) :=
  p.activeEvents.entries.filter fun e => e.2 != 0

/-- Whether an event on a descriptor is active. -/
def isActive (p : Poller κ) (fd : ℤ) (flag : Flag) : Bool :=
  (p.activeEvents.find? fd).any fun events => EventMask.has events flag

/-- The mask of a descriptor when an event is registered on it. -/
def registeredMask (p : Poller κ) (fd : ℤ) (flag : Flag) : EventMask :=
  match p.roster.find? fd with
  | none => flag.value
  | some _ => (p.activeEvents.find? fd).getD 0 ||| flag.value

/-- Registration of an event that is not registered. -/
theorem registerEvent_eq {p : Poller κ} {fd : ℤ} {flag : Flag} (callback : κ)
    (h : ∀ callbacks, p.roster.find? fd = some callbacks → callbacks.find? flag = none) :
    p.registerEvent fd flag callback = .ok
      ⟨p.roster.assign fd (((p.roster.find? fd).getD OrderedMap.empty).assign flag callback),
        p.activeEvents.assign fd (p.registeredMask fd flag), p.fdsToDeregister⟩ := by
  unfold registerEvent registeredMask
  cases hfind : p.roster.find? fd with
  | none => rfl
  | some callbacks =>
    have hnone : ¬ callbacks.contains flag := by simp [OrderedMap.contains, h callbacks hfind]
    dsimp only
    rw [if_neg hnone]
    rfl

/-- The roster after the registration of an event that is not registered. -/
theorem exists_registerEvent (p : Poller κ) (fd : ℤ) (flag : Flag) (callback : κ)
    (h : ∀ callbacks, p.roster.find? fd = some callbacks → callbacks.find? flag = none) :
    ∃ p', p.registerEvent fd flag callback = .ok p' ∧ p'.fdsToDeregister = p.fdsToDeregister ∧
      ∀ fd', p'.roster.find? fd' = if fd' = fd
        then some (((p.roster.find? fd).getD OrderedMap.empty).assign flag callback)
        else p.roster.find? fd' :=
  ⟨_, registerEvent_eq callback h, rfl, fun fd' => OrderedMap.find?_assign _ _ _ fd'⟩

/-- Activation, when it succeeds. -/
theorem isActive_activate {p p' : Poller κ} {fd : ℤ} {flag : Flag}
    (h : p.activate fd flag = .ok p') : p'.fdsToDeregister = p.fdsToDeregister ∧
      ∀ fd' flag', p'.isActive fd' flag' =
        (p.isActive fd' flag' || decide (fd' = fd ∧ flag' = flag)) := by
  unfold activate at h
  cases hfind : p.activeEvents.find? fd with
  | none => simp [hfind] at h
  | some events =>
    rw [hfind, Except.ok.injEq] at h
    subst h
    refine ⟨rfl, fun fd' flag' => ?_⟩
    unfold isActive
    dsimp only
    rw [OrderedMap.find?_assign]
    split_ifs with hfd
    · subst hfd
      rw [hfind, Option.any_some, Option.any_some, EventMask.has_or_value]
      simp
    · simp [hfd]

/-- Deactivation, when it succeeds. -/
theorem isActive_deactivate {p p' : Poller κ} {fd : ℤ} {flag : Flag}
    (h : p.deactivate fd flag = .ok p') : p'.fdsToDeregister = p.fdsToDeregister ∧
      ∀ fd' flag', p'.isActive fd' flag' =
        (p.isActive fd' flag' && decide (¬ (fd' = fd ∧ flag' = flag))) := by
  unfold deactivate at h
  cases hfind : p.activeEvents.find? fd with
  | none => simp [hfind] at h
  | some events =>
    rw [hfind, Except.ok.injEq] at h
    subst h
    refine ⟨rfl, fun fd' flag' => ?_⟩
    unfold isActive
    dsimp only
    rw [OrderedMap.find?_assign]
    split_ifs with hfd
    · subst hfd
      rw [hfind, Option.any_some, Option.any_some, EventMask.has_and_not_value]
      simp
    · simp [hfd]

/-- A new mask at a descriptor that has one keeps the descriptors. -/
theorem contains_assign_of_find? {p : Poller κ} {fd : ℤ} {events : EventMask}
    (h : p.activeEvents.find? fd = some events) (events' : EventMask) (fd' : ℤ) :
    (p.activeEvents.assign fd events').contains fd' = p.activeEvents.contains fd' := by
  rw [OrderedMap.contains_assign]
  by_cases hfd : fd' = fd
  · rw [hfd, OrderedMap.contains, h]
    simp
  · simp [hfd]

/-- Activation, when it succeeds, keeps the descriptors. -/
theorem contains_activate {p p' : Poller κ} {fd : ℤ} {flag : Flag}
    (h : p.activate fd flag = .ok p') : p'.roster = p.roster ∧
      ∀ fd', p'.activeEvents.contains fd' = p.activeEvents.contains fd' := by
  unfold activate at h
  cases hfind : p.activeEvents.find? fd with
  | none => simp [hfind] at h
  | some events =>
    rw [hfind, Except.ok.injEq] at h
    subst h
    exact ⟨rfl, contains_assign_of_find? hfind _⟩

/-- Deactivation, when it succeeds, keeps the descriptors. -/
theorem contains_deactivate {p p' : Poller κ} {fd : ℤ} {flag : Flag}
    (h : p.deactivate fd flag = .ok p') : p'.roster = p.roster ∧
      ∀ fd', p'.activeEvents.contains fd' = p.activeEvents.contains fd' := by
  unfold deactivate at h
  cases hfind : p.activeEvents.find? fd with
  | none => simp [hfind] at h
  | some events =>
    rw [hfind, Except.ok.injEq] at h
    subst h
    exact ⟨rfl, contains_assign_of_find? hfind _⟩

/-- The roster after the deregistrations. -/
theorem find?_roster_doDeregister (p : Poller κ) (fd : ℤ) : p.doDeregister.roster.find? fd
    = if fd ∈ p.fdsToDeregister then none else p.roster.find? fd :=
  OrderedMap.find?_foldl_erase _ _ _

/-- The masks after the deregistrations. -/
theorem find?_activeEvents_doDeregister (p : Poller κ) (fd : ℤ) :
    p.doDeregister.activeEvents.find? fd
      = if fd ∈ p.fdsToDeregister then none else p.activeEvents.find? fd :=
  OrderedMap.find?_foldl_erase _ _ _

/-- Nothing is deregistered when nothing was scheduled. -/
theorem doDeregister_of_nil {p : Poller κ} (h : p.fdsToDeregister = []) : p.doDeregister = p := by
  unfold doDeregister
  rw [h]
  cases p with
  | mk roster activeEvents fdsToDeregister =>
    have hnil : fdsToDeregister = [] := h
    rw [hnil]
    rfl

/-- What is active is asked for. -/
theorem exists_mem_fdsToPoll {p : Poller κ} {fd : ℤ} {flag : Flag} (h : p.isActive fd flag) :
    ∃ events, (fd, events) ∈ p.fdsToPoll ∧ EventMask.has events flag := by
  unfold isActive at h
  obtain ⟨events, hfind, hhas⟩ := Option.any_eq_true _ _ |>.mp h
  refine ⟨events, ?_, hhas⟩
  unfold fdsToPoll
  rw [List.mem_filter]
  exact ⟨OrderedMap.find?_eq_some_iff.mp hfind, bne_iff_ne.mpr (EventMask.ne_zero_of_has hhas)⟩

/-! ## The main loop -/

/-- The structure `pollfd`. -/
structure PollFd where
  fd : ℤ
  events : EventMask
  revents : EventMask
  deriving DecidableEq

/-- A program whose main loop calls `poll` again and again: the poller, the state that the
callbacks share with it, the results of the system call that were not looked at yet, and the
one that is looked at, with the callbacks of its descriptor that are left.  Between two calls
of `poll` nothing is left. -/
structure MainLoop (κ α : Type) where
  poller : Poller κ
  app : α
  fdsToPoll : List PollFd
  current : Option (PollFd × List (Flag × κ))

/-- The start of the main loop. -/
def MainLoop.start {α : Type} (poller : Poller κ) (app : α) : MainLoop κ α :=
  ⟨poller, app, [], none⟩

/-- The steps of the main loop.  What the callbacks do is given as a relation that also says
which events they emit. -/
inductive LoopStep {α τ : Type} (run : κ → Poller κ × α → List τ → Poller κ × α → Prop) :
    MainLoop κ α → List τ → MainLoop κ α → Prop
  /-- The next call of `poll` starts, and the kernel reports any readiness. -/
  | poll {l : MainLoop κ α} {asked : List (ℤ × EventMask)} {revents : ℤ → EventMask} :
      l.fdsToPoll = [] → l.current = none → asked.Perm l.poller.doDeregister.fdsToPoll →
      LoopStep run l [] { l with
        poller := l.poller.doDeregister
        fdsToPoll := asked.map fun e => ⟨e.1, e.2, revents e.1⟩ }
  /-- The next result is looked at. -/
  | next {l : MainLoop κ α} {it : PollFd} {rest : List PollFd} {callbacks : OrderedMap Flag κ}
      {order : List (Flag × κ)} :
      l.fdsToPoll = it :: rest → l.current = none → l.poller.roster.find? it.fd = some callbacks →
      order.Perm callbacks.entries →
      LoopStep run l [] { l with fdsToPoll := rest, current := some (it, order) }
  /-- The event of a callback did not happen. -/
  | skip {l : MainLoop κ α} {it : PollFd} {flag : Flag} {callback : κ}
      {order : List (Flag × κ)} :
      l.current = some (it, (flag, callback) :: order) → ¬ EventMask.has it.revents flag →
      LoopStep run l [] { l with current := some (it, order) }
  /-- A callback is executed; the event that happened must have been requested. -/
  | call {l : MainLoop κ α} {it : PollFd} {flag : Flag} {callback : κ}
      {order : List (Flag × κ)} {es : List τ} {poller : Poller κ} {app : α} :
      l.current = some (it, (flag, callback) :: order) → EventMask.has it.revents flag →
      EventMask.has it.events flag → run callback (l.poller, l.app) es (poller, app) →
      LoopStep run l es { l with
        poller := poller
        app := app
        current := some (it, order) }
  /-- All callbacks of the descriptor were looked at. -/
  | done {l : MainLoop κ α} {it : PollFd} :
      l.current = some (it, []) → LoopStep run l [] { l with current := none }

variable {α τ : Type} {run : κ → Poller κ × α → List τ → Poller κ × α → Prop}

/-- What holds at the start of the main loop and is kept by every callback and by the
deregistrations at the start of `poll` holds between any two callbacks. -/
theorem MainLoop.invariant (I : List τ → Poller κ × α → Prop) {poller : Poller κ} {app : α}
    (init : I [] (poller, app))
    (hcall : ∀ es s callback es' s', I es s → run callback s es' s' → I (es ++ es') s')
    (hderegister : ∀ es s, I es s → I es (s.1.doDeregister, s.2))
    {es : List τ} {l : MainLoop κ α}
    (h : Run.Steps (LoopStep run) (MainLoop.start poller app) es l) : I es (l.poller, l.app) := by
  refine h.invariant (fun es l => I es (l.poller, l.app)) init ?_
  intro es l es' l' hI hstep
  cases hstep with
  | poll hnil hnone hperm =>
    rw [List.append_nil]
    exact hderegister es _ hI
  | next hcons hnone hfind hperm =>
    rw [List.append_nil]
    exact hI
  | skip hcurrent hnot =>
    rw [List.append_nil]
    exact hI
  | call hcurrent hready hasked hrun => exact hcall es _ _ es' _ hI hrun
  | done hcurrent =>
    rw [List.append_nil]
    exact hI

end Poller

end Ringmaster
