/-
# Dispatch under callbacks that change registrations

The method `poll` of `src/util/poller.cc` in small steps, with every call that the program
makes of the other methods between two polls or from inside a callback.  An exception out
of `roster_.at` and a failed assertion are events of their own, so that their absence can be
stated.

`Inv` holds in every reachable state: the two maps have the same descriptors, and what the
loops of `poll` still have to look at is registered.
-/
import Ringmaster.Poller

namespace Ringmaster

/-! ## What the kernel reports -/

/-- The events that are reported without a request: `POLLERR`, `POLLHUP` and `POLLNVAL`. -/
def EventMask.unrequested : EventMask := 0x38

namespace Poller

/-- The kernel returns requested events and those that need no request only. -/
def PollFd.Conforms (it : PollFd) : Prop :=
  it.revents &&& ~~~(it.events ||| EventMask.unrequested) = 0

/-- A flag that is reported was requested. -/
theorem PollFd.Conforms.has_events {it : PollFd} (h : it.Conforms) {flag : Flag}
    (hflag : EventMask.has it.revents flag) : EventMask.has it.events flag := by
  rw [EventMask.has_eq_getLsbD] at hflag ⊢
  have hnone : EventMask.unrequested.getLsbD flag.bit = false := by
    cases flag with
    | pollIn => decide
    | pollOut => decide
  have hbit := congrArg (fun events => BitVec.getLsbD events flag.bit) h
  rw [BitVec.getLsbD_and, BitVec.getLsbD_not, BitVec.getLsbD_or, hflag, hnone] at hbit
  simpa [flag.bit_lt] using hbit

variable {κ : Type}

/-! ## Calls -/

/-- The calls of the methods other than `poll`. -/
inductive Call (κ : Type) where
  | registerEvent (fd : ℤ) (flag : Flag) (callback : κ)
  | activate (fd : ℤ) (flag : Flag)
  | deactivate (fd : ℤ) (flag : Flag)
  | deregister (fd : ℤ)

namespace Call

/-- The execution of a call. -/
def run (p : Poller κ) : Call κ → Except Exn (Poller κ)
  | registerEvent fd flag callback => p.registerEvent fd flag callback
  | activate fd flag => p.activate fd flag
  | deactivate fd flag => p.deactivate fd flag
  | deregister fd => .ok (p.deregister fd)

/-- Whether a call returns or raises an exception. -/
def result (p : Poller κ) (c : Call κ) : Except Exn Unit := (c.run p).map fun _ => ()

/-- The poller after a call; none of the methods changes it before raising an exception. -/
def after (p : Poller κ) (c : Call κ) : Poller κ :=
  match c.run p with
  | .ok p' => p'
  | .error _ => p

end Call

/-- The callback that is registered for an event on a descriptor. -/
def callback? (p : Poller κ) (fd : ℤ) (flag : Flag) : Option κ :=
  (p.roster.find? fd).bind fun callbacks => callbacks.find? flag

/-- The two maps have the same descriptors. -/
def SameFds (p : Poller κ) : Prop :=
  ∀ fd, p.roster.contains fd = p.activeEvents.contains fd

/-- What a call does to a poller. -/
inductive CallEffect (p p' : Poller κ) : Call κ → Except Exn Unit → Prop
  /-- A new event is registered, and active. -/
  | registered (fd : ℤ) (flag : Flag) (callback : κ) :
      p.callback? fd flag = none →
      (∀ fd' flag', p'.callback? fd' flag' =
        if fd' = fd ∧ flag' = flag then some callback else p.callback? fd' flag') →
      (∀ fd', p'.roster.contains fd' = (decide (fd' = fd) || p.roster.contains fd')) →
      (∀ fd', p'.activeEvents.contains fd' =
        (decide (fd' = fd) || p.activeEvents.contains fd')) →
      p'.isActive fd flag →
      (∀ fd' flag', p.roster.contains fd' → p.isActive fd' flag' → p'.isActive fd' flag') →
      p'.fdsToDeregister = p.fdsToDeregister →
      CallEffect p p' (.registerEvent fd flag callback) (.ok ())
  /-- The call raises an exception. -/
  | raised (c : Call κ) (e : Exn) : p' = p → CallEffect p p' c (.error e)
  /-- An event is activated. -/
  | activated (fd : ℤ) (flag : Flag) :
      p'.roster = p.roster →
      (∀ fd', p'.activeEvents.contains fd' = p.activeEvents.contains fd') →
      (∀ fd' flag', p'.isActive fd' flag' =
        (p.isActive fd' flag' || decide (fd' = fd ∧ flag' = flag))) →
      p'.fdsToDeregister = p.fdsToDeregister → CallEffect p p' (.activate fd flag) (.ok ())
  /-- An event is deactivated. -/
  | deactivated (fd : ℤ) (flag : Flag) :
      p'.roster = p.roster →
      (∀ fd', p'.activeEvents.contains fd' = p.activeEvents.contains fd') →
      (∀ fd' flag', p'.isActive fd' flag' =
        (p.isActive fd' flag' && decide (¬ (fd' = fd ∧ flag' = flag)))) →
      p'.fdsToDeregister = p.fdsToDeregister → CallEffect p p' (.deactivate fd flag) (.ok ())
  /-- A descriptor is scheduled for its deregistration. -/
  | deregistered (fd : ℤ) :
      p'.roster = p.roster → p'.activeEvents = p.activeEvents →
      p'.fdsToDeregister = p.fdsToDeregister.insert fd →
      CallEffect p p' (.deregister fd) (.ok ())

/-- A registration of an event that is registered raises an exception. -/
theorem registerEvent_eq_error {p : Poller κ} {fd : ℤ} {flag : Flag} {callback' : κ}
    (h : p.callback? fd flag = some callback') (callback : κ) :
    p.registerEvent fd flag callback
      = .error (.runtimeError "attempted to register the same event") := by
  obtain ⟨callbacks, hfind, hflag⟩ := Option.bind_eq_some_iff.mp h
  unfold registerEvent
  rw [hfind]
  dsimp only
  rw [if_pos (by simp [OrderedMap.contains, hflag])]

/-- Without a callback for the event, a registration succeeds. -/
theorem effect_registerEvent {p : Poller κ} {fd : ℤ} {flag : Flag}
    (h : p.callback? fd flag = none) (callback : κ) :
    ∃ p', p.registerEvent fd flag callback = .ok p' ∧
      CallEffect p p' (.registerEvent fd flag callback) (.ok ()) := by
  have hcallbacks : ∀ callbacks, p.roster.find? fd = some callbacks →
      callbacks.find? flag = none := by
    intro callbacks hfind
    rwa [callback?, hfind, Option.bind_some] at h
  refine ⟨_, registerEvent_eq callback hcallbacks,
    CallEffect.registered fd flag callback h ?_ ?_ ?_ ?_ ?_ rfl⟩
  · intro fd' flag'
    unfold callback?
    rw [OrderedMap.find?_assign]
    by_cases hfd : fd' = fd
    · rw [if_pos hfd, Option.bind_some, OrderedMap.find?_assign]
      cases hfind : p.roster.find? fd with
      | none => simp [hfd, hfind]
      | some callbacks => simp [hfd, hfind]
    · simp [hfd]
  · exact fun fd' => OrderedMap.contains_assign _ _ _ fd'
  · exact fun fd' => OrderedMap.contains_assign _ _ _ fd'
  · unfold isActive registeredMask
    rw [OrderedMap.find?_assign, if_pos rfl, Option.any_some]
    cases p.roster.find? fd with
    | none => simp [EventMask.has_value]
    | some callbacks => simp [EventMask.has_or_value]
  · intro fd' flag' hc hactive
    unfold isActive registeredMask at *
    rw [OrderedMap.find?_assign]
    split_ifs with hfd
    · subst hfd
      obtain ⟨events, hfind, hhas⟩ := (Option.any_eq_true _ _).mp hactive
      obtain ⟨callbacks, hcallbacks⟩ := Option.isSome_iff_exists.mp hc
      rw [hcallbacks, hfind, Option.any_some, Option.getD_some, EventMask.has_or_value, hhas]
      rfl
    · exact hactive

/-- A call has its effect. -/
theorem effect_call (p : Poller κ) (c : Call κ) : CallEffect p (c.after p) c (c.result p) := by
  have hraised : ∀ e, c.run p = .error e → CallEffect p (c.after p) c (c.result p) := by
    intro e herr
    have hresult : c.result p = .error e := by rw [Call.result, herr]; rfl
    rw [hresult]
    exact CallEffect.raised c e (by rw [Call.after, herr])
  have hok : ∀ p', c.run p = .ok p' → c.after p = p' ∧ c.result p = .ok () := by
    intro p' h
    exact ⟨by rw [Call.after, h], by rw [Call.result, h]; rfl⟩
  cases c with
  | registerEvent fd flag callback =>
    cases hnone : p.callback? fd flag with
    | none =>
      obtain ⟨p', hreg, heff⟩ := effect_registerEvent hnone callback
      obtain ⟨hafter, hresult⟩ := hok p' hreg
      rw [hafter, hresult]
      exact heff
    | some callback' =>
      exact hraised _ (registerEvent_eq_error hnone callback)
  | activate fd flag =>
    cases hrun : p.activate fd flag with
    | error e => exact hraised e hrun
    | ok p' =>
      obtain ⟨hafter, hresult⟩ := hok p' hrun
      obtain ⟨hroster, hcontains⟩ := contains_activate hrun
      obtain ⟨hfds, hactive⟩ := isActive_activate hrun
      rw [hafter, hresult]
      exact CallEffect.activated fd flag hroster hcontains hactive hfds
  | deactivate fd flag =>
    cases hrun : p.deactivate fd flag with
    | error e => exact hraised e hrun
    | ok p' =>
      obtain ⟨hafter, hresult⟩ := hok p' hrun
      obtain ⟨hroster, hcontains⟩ := contains_deactivate hrun
      obtain ⟨hfds, hactive⟩ := isActive_deactivate hrun
      rw [hafter, hresult]
      exact CallEffect.deactivated fd flag hroster hcontains hactive hfds
  | deregister fd => exact CallEffect.deregistered fd rfl rfl rfl

/-- A call keeps the callback that is registered for an event. -/
theorem CallEffect.callback?_eq_some {p p' : Poller κ} {c : Call κ} {result : Except Exn Unit}
    (h : CallEffect p p' c result) {fd : ℤ} {flag : Flag} {callback : κ}
    (hsome : p.callback? fd flag = some callback) : p'.callback? fd flag = some callback := by
  cases h with
  | registered fd' flag' callback' hnone hcallback hroster hactive hnew hold hfds =>
    have hne : ¬ (fd = fd' ∧ flag = flag') := by
      rintro ⟨rfl, rfl⟩
      rw [hsome] at hnone
      exact absurd hnone (by simp)
    rw [hcallback, if_neg hne, hsome]
  | raised c e heq => rwa [heq]
  | activated fd' flag' hroster hcontains hactive hfds => rwa [callback?, hroster]
  | deactivated fd' flag' hroster hcontains hactive hfds => rwa [callback?, hroster]
  | deregistered fd' hroster hactive hfds => rwa [callback?, hroster]

/-- A call keeps every descriptor. -/
theorem CallEffect.contains {p p' : Poller κ} {c : Call κ} {result : Except Exn Unit}
    (h : CallEffect p p' c result) {fd : ℤ} (hc : p.roster.contains fd) :
    p'.roster.contains fd := by
  cases h with
  | registered fd' flag' callback' hnone hcallback hroster hactive hnew hold hfds =>
    rw [hroster, hc, Bool.or_true]
  | raised c e heq => rwa [heq]
  | activated fd' flag' hroster hcontains hactive hfds => rwa [hroster]
  | deactivated fd' flag' hroster hcontains hactive hfds => rwa [hroster]
  | deregistered fd' hroster hactive hfds => rwa [hroster]

/-- A call keeps the two maps in step. -/
theorem CallEffect.sameFds {p p' : Poller κ} {c : Call κ} {result : Except Exn Unit}
    (h : CallEffect p p' c result) (hsame : p.SameFds) : p'.SameFds := by
  intro fd
  cases h with
  | registered fd' flag' callback' hnone hcallback hroster hactive hnew hold hfds =>
    rw [hroster, hactive, hsame fd]
  | raised c e heq => rw [heq, hsame fd]
  | activated fd' flag' hroster hcontains hactive hfds => rw [hroster, hcontains, hsame fd]
  | deactivated fd' flag' hroster hcontains hactive hfds => rw [hroster, hcontains, hsame fd]
  | deregistered fd' hroster hactive hfds => rw [hroster, hactive, hsame fd]

/-- The deregistrations keep the two maps in step. -/
theorem SameFds.doDeregister {p : Poller κ} (h : p.SameFds) : p.doDeregister.SameFds := by
  intro fd
  rw [OrderedMap.contains, OrderedMap.contains, find?_roster_doDeregister,
    find?_activeEvents_doDeregister]
  split_ifs
  · rfl
  · exact h fd

/-- The callbacks after the deregistrations. -/
theorem callback?_doDeregister (p : Poller κ) (fd : ℤ) (flag : Flag) :
    p.doDeregister.callback? fd flag
      = if fd ∈ p.fdsToDeregister then none else p.callback? fd flag := by
  unfold callback?
  rw [find?_roster_doDeregister]
  split_ifs
  · rfl
  · rfl

/-! ## Phases -/

/-- Where the program is: outside of `poll`, in its loop over the results, in its loop over
the callbacks of one descriptor, in one of these callbacks, or nowhere after a failed
assertion.  The lists are what the loops did not look at yet; a result of the system call
is of type `ρ`. -/
inductive Phase (ρ κ : Type) where
  | idle
  | scanning (rest : List ρ)
  | dispatching (it : ρ) (order : List (Flag × κ)) (rest : List ρ)
  | inside (it : ρ) (order : List (Flag × κ)) (rest : List ρ)
  | aborted

namespace Phase

variable {ρ : Type}

/-- The results that the loop did not reach yet. -/
def pending : Phase ρ κ → List ρ
  | scanning rest | dispatching _ _ rest | inside _ _ rest => rest
  | idle | aborted => []

/-- The result that the loop is at. -/
def current : Phase ρ κ → Option ρ
  | dispatching it _ _ | inside it _ _ => some it
  | idle | scanning _ | aborted => none

/-- The callbacks of its descriptor that the inner loop did not reach yet. -/
def order : Phase ρ κ → List (Flag × κ)
  | dispatching _ order _ | inside _ order _ => order
  | idle | scanning _ | aborted => []

/-- Whether a call of `poll` is in progress. -/
def isPolling : Phase ρ κ → Bool
  | scanning _ | dispatching _ _ _ | inside _ _ _ => true
  | idle | aborted => false

/-- The loops did not look at an event yet. -/
def Left (ph : Phase PollFd κ) (fd : ℤ) (flag : Flag) : Prop :=
  fd ∈ ph.pending.map PollFd.fd ∨
    (∃ it ∈ ph.current, it.fd = fd ∧ flag ∈ ph.order.map Prod.fst)

end Phase

/-! ## Steps -/

/-- What is observed: a call and how it ended, the descriptors that `poll` hands to the
kernel, what the kernel reports, a callback that is executed or raises an exception, the
return from `poll`, an exception out of `roster_.at`, and a failed assertion. -/
inductive Event (κ : Type) where
  | called (c : Call κ) (result : Except Exn Unit)
  | asked (fds : List (ℤ × EventMask))
  | reported (results : List PollFd)
  | ran (fd : ℤ) (flag : Flag) (callback : κ)
  | callbackRaised
  | returned
  | rosterAtRaised (fd : ℤ)
  | assertionFailed (fd : ℤ) (flag : Flag)

/-- A program that uses a poller. -/
structure Dispatcher (κ : Type) where
  poller : Poller κ
  phase : Phase PollFd κ

/-- The start of the program. -/
def Dispatcher.initial : Dispatcher κ := ⟨Poller.initial, .idle⟩

/-- What a call does to the loop over the callbacks of `fd` while it is in progress: a new
callback of `fd` may come before or behind the place that the loop is at. -/
inductive Joins {ε : Type} (fd : ℤ) :
    Call κ → Except ε Unit → List (Flag × κ) → List (Flag × κ) → Prop
  | same (c : Call κ) (result : Except ε Unit) (order : List (Flag × κ)) :
      Joins fd c result order order
  | new (flag : Flag) (callback : κ) (order order' : List (Flag × κ)) :
      Joins fd (.registerEvent fd flag callback) (.ok ()) (order ++ order')
        (order ++ (flag, callback) :: order')

/-- The steps of the program. -/
inductive Step : Dispatcher κ → List (Event κ) → Dispatcher κ → Prop
  /-- A method is called outside of `poll`. -/
  | call {s : Dispatcher κ} {c : Call κ} :
      s.phase = .idle →
      Step s [.called c (c.result s.poller)] ⟨c.after s.poller, .idle⟩
  /-- A method is called inside a callback. -/
  | callInside {s : Dispatcher κ} {c : Call κ} {it : PollFd} {order order' : List (Flag × κ)}
      {rest : List PollFd} :
      s.phase = .inside it order rest → Joins it.fd c (c.result s.poller) order order' →
      Step s [.called c (c.result s.poller)] ⟨c.after s.poller, .inside it order' rest⟩
  /-- `poll` is called, and the system call fails. -/
  | pollFails {s : Dispatcher κ} {asked : List (ℤ × EventMask)} :
      s.phase = .idle → asked.Perm s.poller.doDeregister.fdsToPoll →
      Step s [.asked asked] ⟨s.poller.doDeregister, .idle⟩
  /-- `poll` is called, and the kernel reports what is ready. -/
  | poll {s : Dispatcher κ} {asked : List (ℤ × EventMask)} {revents : ℤ → EventMask}
      {results : List PollFd} :
      s.phase = .idle → asked.Perm s.poller.doDeregister.fdsToPoll →
      results = asked.map (fun e => ⟨e.1, e.2, revents e.1⟩) → (∀ it ∈ results, it.Conforms) →
      Step s [.asked asked, .reported results] ⟨s.poller.doDeregister, .scanning results⟩
  /-- The next result is looked at. -/
  | next {s : Dispatcher κ} {it : PollFd} {rest : List PollFd} {callbacks : OrderedMap Flag κ}
      {order : List (Flag × κ)} :
      s.phase = .scanning (it :: rest) → s.poller.roster.find? it.fd = some callbacks →
      order.Perm callbacks.entries → Step s [] ⟨s.poller, .dispatching it order rest⟩
  /-- The descriptor of the next result is not in the roster. -/
  | unknown {s : Dispatcher κ} {it : PollFd} {rest : List PollFd} :
      s.phase = .scanning (it :: rest) → s.poller.roster.find? it.fd = none →
      Step s [.rosterAtRaised it.fd] ⟨s.poller, .idle⟩
  /-- The event of a callback did not happen. -/
  | skip {s : Dispatcher κ} {it : PollFd} {flag : Flag} {callback : κ}
      {order : List (Flag × κ)} {rest : List PollFd} :
      s.phase = .dispatching it ((flag, callback) :: order) rest →
      ¬ EventMask.has it.revents flag → Step s [] ⟨s.poller, .dispatching it order rest⟩
  /-- A callback is executed. -/
  | run {s : Dispatcher κ} {it : PollFd} {flag : Flag} {callback : κ}
      {order : List (Flag × κ)} {rest : List PollFd} :
      s.phase = .dispatching it ((flag, callback) :: order) rest →
      EventMask.has it.revents flag → EventMask.has it.events flag →
      Step s [.ran it.fd flag callback] ⟨s.poller, .inside it order rest⟩
  /-- The event that happened was not requested. -/
  | assertion {s : Dispatcher κ} {it : PollFd} {flag : Flag} {callback : κ}
      {order : List (Flag × κ)} {rest : List PollFd} :
      s.phase = .dispatching it ((flag, callback) :: order) rest →
      EventMask.has it.revents flag → ¬ EventMask.has it.events flag →
      Step s [.assertionFailed it.fd flag] ⟨s.poller, .aborted⟩
  /-- A callback returns. -/
  | callbackReturns {s : Dispatcher κ} {it : PollFd} {order : List (Flag × κ)}
      {rest : List PollFd} :
      s.phase = .inside it order rest → Step s [] ⟨s.poller, .dispatching it order rest⟩
  /-- A callback raises an exception, which `poll` does not catch. -/
  | callbackRaises {s : Dispatcher κ} {it : PollFd} {order : List (Flag × κ)}
      {rest : List PollFd} :
      s.phase = .inside it order rest → Step s [.callbackRaised] ⟨s.poller, .idle⟩
  /-- All callbacks of a descriptor were looked at. -/
  | done {s : Dispatcher κ} {it : PollFd} {rest : List PollFd} :
      s.phase = .dispatching it [] rest → Step s [] ⟨s.poller, .scanning rest⟩
  /-- All results were looked at. -/
  | finish {s : Dispatcher κ} :
      s.phase = .scanning [] → Step s [.returned] ⟨s.poller, .idle⟩

/-- What a step does to the poller: a call, the start of `poll`, or nothing. -/
inductive StepEffect (p : Poller κ) : List (Event κ) → Poller κ → Prop
  | called (c : Call κ) : StepEffect p [.called c (c.result p)] (c.after p)
  | polled (asked : List (ℤ × EventMask)) (es : List (Event κ)) :
      asked.Perm p.doDeregister.fdsToPoll → (∀ c result, .called c result ∉ es) →
      StepEffect p (.asked asked :: es) p.doDeregister
  | unchanged (es : List (Event κ)) :
      (∀ c result, .called c result ∉ es) → (∀ asked, .asked asked ∉ es) →
      StepEffect p es p

theorem Step.effect {s s' : Dispatcher κ} {es : List (Event κ)} (h : Step s es s') :
    StepEffect s.poller es s'.poller := by
  cases h with
  | call hphase => exact StepEffect.called _
  | callInside hphase hjoins => exact StepEffect.called _
  | pollFails hphase hperm => exact StepEffect.polled _ _ hperm (by simp)
  | poll hphase hperm hresults hconforms => exact StepEffect.polled _ _ hperm (by simp)
  | _ => exact StepEffect.unchanged _ (by simp) (by simp)

/-! ## The invariant -/

/-- What holds in every reachable state. -/
structure Inv (s : Dispatcher κ) : Prop where
  sameFds : s.poller.SameFds
  pending_nodup : (s.phase.pending.map PollFd.fd).Nodup
  pending_known : ∀ it ∈ s.phase.pending, s.poller.roster.contains it.fd ∧ it.Conforms
  current_notMem : ∀ it ∈ s.phase.current, it.fd ∉ s.phase.pending.map PollFd.fd
  current_conforms : ∀ it ∈ s.phase.current, it.Conforms
  order_nodup : (s.phase.order.map Prod.fst).Nodup
  order_registered : ∀ it ∈ s.phase.current, ∀ e ∈ s.phase.order,
    s.poller.callback? it.fd e.1 = some e.2
  not_aborted : s.phase ≠ .aborted

variable {s s' : Dispatcher κ} {es : List (Event κ)}

/-- Outside of `poll` nothing is left to look at. -/
theorem inv_idle {p : Poller κ} (h : p.SameFds) : Inv ⟨p, .idle⟩ where
  sameFds := h
  pending_nodup := List.nodup_nil
  pending_known := fun _ hit => absurd hit List.not_mem_nil
  current_notMem := fun _ hit => by simp [Phase.current] at hit
  current_conforms := fun _ hit => by simp [Phase.current] at hit
  order_nodup := List.nodup_nil
  order_registered := fun _ hit => by simp [Phase.current] at hit
  not_aborted := by simp

/-- Between two descriptors only the results are left. -/
theorem inv_scanning {p : Poller κ} {rest : List PollFd} (h : p.SameFds)
    (hnodup : (rest.map PollFd.fd).Nodup)
    (hknown : ∀ it ∈ rest, p.roster.contains it.fd ∧ it.Conforms) : Inv ⟨p, .scanning rest⟩ where
  sameFds := h
  pending_nodup := hnodup
  pending_known := hknown
  current_notMem := fun _ hit => by simp [Phase.current] at hit
  current_conforms := fun _ hit => by simp [Phase.current] at hit
  order_nodup := List.nodup_nil
  order_registered := fun _ hit => by simp [Phase.current] at hit
  not_aborted := by simp

theorem inv_initial : Inv (Dispatcher.initial : Dispatcher κ) := inv_idle (fun _ => rfl)

/-- The descriptors that `poll` hands to the kernel are distinct and registered. -/
theorem SameFds.of_mem_fdsToPoll {p : Poller κ} (h : p.SameFds) {asked : List (ℤ × EventMask)}
    (hperm : asked.Perm p.fdsToPoll) :
    (asked.map Prod.fst).Nodup ∧ ∀ e ∈ asked, p.roster.contains e.1 := by
  constructor
  · rw [(hperm.map Prod.fst).nodup_iff]
    exact p.activeEvents.nodup_keys.sublist (List.filter_sublist.map _)
  · intro e he
    have hmem : e ∈ p.activeEvents.entries := List.mem_of_mem_filter (hperm.mem_iff.mp he)
    rw [h, OrderedMap.contains_iff_mem_keys]
    exact List.mem_map_of_mem hmem

/-- What a call adds to the loop over the callbacks of a descriptor. -/
theorem Joins.cases {fd : ℤ} {c : Call κ} {result : Except Exn Unit}
    {order order' : List (Flag × κ)} (h : Joins fd c result order order') :
    order' = order ∨ ∃ flag callback before behind,
      c = .registerEvent fd flag callback ∧ result = .ok () ∧ order = before ++ behind ∧
        order' = before ++ (flag, callback) :: behind := by
  cases h with
  | same => exact Or.inl rfl
  | new flag callback before behind =>
    exact Or.inr ⟨flag, callback, before, behind, rfl, rfl, rfl, rfl⟩

/-- A registration that succeeds is of a new event. -/
theorem CallEffect.of_registered {p p' : Poller κ} {fd : ℤ} {flag : Flag} {callback : κ}
    (h : CallEffect p p' (.registerEvent fd flag callback) (.ok ())) :
    p.callback? fd flag = none ∧ p'.callback? fd flag = some callback := by
  cases h with
  | registered _ _ _ hnone hcallback hroster hactive hnew hold hfds =>
    refine ⟨hnone, ?_⟩
    rw [hcallback, if_pos ⟨rfl, rfl⟩]

/-- A call inside a callback keeps the invariant. -/
theorem Inv.callInside {p p' : Poller κ} {it : PollFd} {order order' : List (Flag × κ)}
    {rest : List PollFd} {c : Call κ} {result : Except Exn Unit}
    (h : Inv ⟨p, .inside it order rest⟩) (heff : CallEffect p p' c result)
    (hjoins : Joins it.fd c result order order') : Inv ⟨p', .inside it order' rest⟩ := by
  have hregistered : ∀ e ∈ order, p'.callback? it.fd e.1 = some e.2 :=
    fun e he => heff.callback?_eq_some (h.order_registered it rfl e he)
  have horder : (order'.map Prod.fst).Nodup ∧
      ∀ e ∈ order', p'.callback? it.fd e.1 = some e.2 := by
    rcases hjoins.cases with rfl | ⟨flag, callback, before, behind, rfl, rfl, rfl, rfl⟩
    · exact ⟨h.order_nodup, hregistered⟩
    · obtain ⟨hnone, hsome⟩ := heff.of_registered
      have hnew : flag ∉ (before ++ behind).map Prod.fst := by
        intro hmem
        obtain ⟨e, he, rfl⟩ := List.mem_map.mp hmem
        have hold := h.order_registered it rfl e he
        rw [hnone] at hold
        exact absurd hold (by simp)
      constructor
      · have hnodup : ((before ++ behind).map Prod.fst).Nodup := h.order_nodup
        rw [(List.perm_middle.map Prod.fst).nodup_iff, List.map_cons, List.nodup_cons]
        exact ⟨hnew, hnodup⟩
      · intro e he
        rcases List.mem_cons.mp (List.perm_middle.mem_iff.mp he) with rfl | hmem
        · exact hsome
        · exact hregistered e hmem
  refine ⟨heff.sameFds h.sameFds, h.pending_nodup, fun it' hit' => ?_, h.current_notMem,
    h.current_conforms, horder.1, ?_, by simp⟩
  · obtain ⟨hc, hconforms⟩ := h.pending_known it' hit'
    exact ⟨heff.contains hc, hconforms⟩
  · rintro it' ⟨⟩
    exact horder.2

/-- A step keeps the invariant. -/
theorem Inv.step (h : Inv s) (hstep : Step s es s') : Inv s' := by
  obtain ⟨p, ph⟩ := s
  cases hstep with
  | call hphase => exact inv_idle ((effect_call p _).sameFds h.sameFds)
  | callInside hphase hjoins =>
    cases hphase
    exact h.callInside (effect_call p _) hjoins
  | pollFails hphase hperm => exact inv_idle h.sameFds.doDeregister
  | @poll asked revents results hphase hperm hresults hconforms =>
    obtain ⟨hnodup, hknown⟩ := h.sameFds.doDeregister.of_mem_fdsToPoll hperm
    refine inv_scanning h.sameFds.doDeregister ?_ (fun it hit => ⟨?_, hconforms it hit⟩)
    · rw [hresults, List.map_map]
      exact hnodup
    · rw [hresults] at hit
      obtain ⟨e, he, rfl⟩ := List.mem_map.mp hit
      exact hknown e he
  | @next it rest callbacks order hphase hfind hperm =>
    cases hphase
    have hnodup : it.fd ∉ rest.map PollFd.fd ∧ (rest.map PollFd.fd).Nodup :=
      List.nodup_cons.mp h.pending_nodup
    refine ⟨h.sameFds, hnodup.2,
      fun it' hit' => h.pending_known it' (List.mem_cons_of_mem it hit'), ?_, ?_, ?_, ?_, by simp⟩
    · rintro it' ⟨⟩
      exact hnodup.1
    · rintro it' ⟨⟩
      exact (h.pending_known it List.mem_cons_self).2
    · show (order.map Prod.fst).Nodup
      rw [(hperm.map Prod.fst).nodup_iff]
      exact callbacks.nodup_keys
    · rintro it' ⟨⟩ e he
      unfold callback?
      rw [hfind, Option.bind_some]
      exact OrderedMap.find?_eq_some_iff.mpr (hperm.mem_iff.mp he)
  | unknown hphase hfind => exact inv_idle h.sameFds
  | @skip it flag callback order rest hphase hnot =>
    cases hphase
    exact ⟨h.sameFds, h.pending_nodup, h.pending_known, h.current_notMem, h.current_conforms,
      (List.nodup_cons.mp h.order_nodup).2,
      fun it' hit' e he => h.order_registered it' hit' e (List.mem_cons_of_mem _ he), by simp⟩
  | @run it flag callback order rest hphase hready hasked =>
    cases hphase
    exact ⟨h.sameFds, h.pending_nodup, h.pending_known, h.current_notMem, h.current_conforms,
      (List.nodup_cons.mp h.order_nodup).2,
      fun it' hit' e he => h.order_registered it' hit' e (List.mem_cons_of_mem _ he), by simp⟩
  | @assertion it flag callback order rest hphase hready hnot =>
    cases hphase
    exact absurd ((h.current_conforms it rfl).has_events hready) hnot
  | callbackReturns hphase =>
    cases hphase
    exact ⟨h.sameFds, h.pending_nodup, h.pending_known, h.current_notMem, h.current_conforms,
      h.order_nodup, h.order_registered, by simp⟩
  | callbackRaises hphase => exact inv_idle h.sameFds
  | done hphase =>
    cases hphase
    exact inv_scanning h.sameFds h.pending_nodup h.pending_known
  | finish hphase => exact inv_idle h.sameFds

/-- Every run keeps the invariant. -/
theorem Inv.of_steps (h : Inv s) (hrun : Run.Steps Step s es s') : Inv s' :=
  hrun.invariant (fun _ s => Inv s) h (fun _ _ _ _ hI hstep => hI.step hstep)

/-- Every reachable state satisfies the invariant. -/
theorem inv_of_steps (h : Run.Steps Step Dispatcher.initial es s) : Inv s :=
  inv_initial.of_steps h

/-- With the invariant, `roster_.at` does not raise an exception and the assertion holds. -/
theorem Inv.event_cases (h : Inv s) (hstep : Step s es s') :
    (∀ fd, .rosterAtRaised fd ∉ es) ∧ ∀ fd flag, .assertionFailed fd flag ∉ es := by
  obtain ⟨p, ph⟩ := s
  cases hstep with
  | @unknown it rest hphase hfind =>
    cases hphase
    have hc := (h.pending_known it List.mem_cons_self).1
    rw [OrderedMap.contains, hfind] at hc
    exact absurd hc (by simp)
  | @assertion it flag callback order rest hphase hready hnot =>
    cases hphase
    exact absurd ((h.current_conforms it rfl).has_events hready) hnot
  | _ => simp

end Poller

end Ringmaster
