/-
# The epoller and the kernel's interest list

After each operation the interest list should hold exactly what the maps hold (`Mirrors`),
an operation that raises an exception should leave them as they were, and a `poll` that
raises one should not make all later ones do so.  The methods keep this promise exactly
when no call of `epoll_ctl` fails, and `epoll_wait` does not fail behind a deregistration
(`Unfailing`): each method changes the maps before it calls `epoll_ctl`.
-/
import Ringmaster.Epoller

namespace Ringmaster

namespace Epoller

open Poller (Call Phase Joins)

variable {κ : Type} {ep ep' : Epoller κ}

/-! ## The promise -/

/-- The maps and the interest list have the same descriptors, with the same masks. -/
structure Mirrors (ep : Epoller κ) : Prop where
  same_fds : ∀ fd, ep.roster.contains fd = ep.activeEvents.contains fd
  interest_eq : ∀ fd, ep.interest.find? fd = ep.activeEvents.find? fd

/-- The maps and the interest list are the same before and after. -/
def SameMaps (ep ep' : Epoller κ) : Prop :=
  ep'.roster = ep.roster ∧ ep'.activeEvents = ep.activeEvents ∧ ep'.interest = ep.interest

/-- The next `poll` can succeed, if the kernel is willing. -/
def CanPoll (ep : Epoller κ) : Prop :=
  ∃ order answers events, order.Perm ep.fdsToDeregister ∧
    (ep.startPoll order answers (.ok events)).1 = .ok events

/-- Whether an exception was raised. -/
def Event.raised : Event κ → Bool
  | .called _ _ (.error _) | .polled _ _ _ (.error _) | .rosterAtRaised _ => true
  | .called _ _ (.ok _) | .polled _ _ _ (.ok _) | .ran _ _ _ | .returned => false

/-- Whether `poll` raised an exception at its start. -/
def Event.pollRaised : Event κ → Bool
  | .polled _ _ _ (.error _) => true
  | _ => false

/-- What is promised of a step: the interest list mirrors the maps, nothing changes when an
exception is raised, and `poll` can succeed after a failure. -/
def Keeps (ep : Epoller κ) (es : List (Event κ)) (ep' : Epoller κ) : Prop :=
  ep'.Mirrors ∧ ∀ e ∈ es, (e.raised → SameMaps ep ep') ∧ (e.pollRaised → ep'.CanPoll)

/-! ## The condition -/

/-- The callback that is registered for an event on a descriptor. -/
def callback? (ep : Epoller κ) (fd : ℤ) (flag : Flag) : Option κ :=
  (ep.roster.find? fd).bind fun callbacks => callbacks.find? flag

/-- Whether an event on a descriptor is active. -/
def isActive (ep : Epoller κ) (fd : ℤ) (flag : Flag) : Bool :=
  (ep.activeEvents.find? fd).any fun events => EpollMask.has events flag

/-- Whether a call gets to the system call. -/
def CallsKernel (ep : Epoller κ) : Call κ → Prop
  | .registerEvent fd flag _ => ep.callback? fd flag = none
  | .activate fd flag => ep.activeEvents.contains fd ∧ ¬ ep.isActive fd flag
  | .deactivate fd flag => ep.isActive fd flag
  | .deregister _ => False

/-- No system call fails: the kernel does not refuse the `epoll_ctl` of a call, nor that of
a descriptor that `poll` deregisters, all of which are registered, nor an `epoll_wait` that
comes after a deregistration. -/
def Unfailing (ep : Epoller κ) : Event κ → Prop
  | .called c answer _ => ep.CallsKernel c → answer = .ok ()
  | .polled _ answers wait _ =>
    (∀ fd ∈ ep.fdsToDeregister, ep.roster.contains fd ∧ answers fd = .ok ()) ∧
      (ep.fdsToDeregister = [] ∨ ∃ events, wait = .ok events)
  | .ran _ _ _ | .returned | .rosterAtRaised _ => True

/-! ## Calls -/

/-- A mirror has the descriptors of the roster. -/
theorem Mirrors.contains_interest (h : ep.Mirrors) (fd : ℤ) :
    ep.interest.contains fd = ep.roster.contains fd := by
  rw [h.same_fds, OrderedMap.contains, h.interest_eq, OrderedMap.contains]

/-- A new mask on both sides keeps the mirror. -/
theorem Mirrors.assign (h : ep.Mirrors) {roster : OrderedMap ℤ (OrderedMap Flag κ)} {fd : ℤ}
    (hroster : ∀ fd', roster.contains fd' = (decide (fd' = fd) || ep.roster.contains fd'))
    (events : EpollMask) (fds : List ℤ) :
    Mirrors ⟨roster, ep.activeEvents.assign fd events, fds, ep.interest.assign fd events⟩ where
  same_fds := fun fd' => by
    show roster.contains fd' = (ep.activeEvents.assign fd events).contains fd'
    rw [hroster, OrderedMap.contains_assign, h.same_fds]
  interest_eq := fun fd' => by
    show (ep.interest.assign fd events).find? fd' = (ep.activeEvents.assign fd events).find? fd'
    rw [OrderedMap.find?_assign, OrderedMap.find?_assign, h.interest_eq]

/-- What a call does to a mirror: it succeeds with its system call, it fails with it and
leaves the maps changed, or it does without and changes nothing. -/
inductive CallEffect (ep : Epoller κ) (c : Call κ) (answer : Answer)
    (result : Except Failure Unit) (ep' : Epoller κ) : Prop
  | accepted : ep.CallsKernel c → answer = .ok () → result = .ok () → ep'.Mirrors →
      CallEffect ep c answer result ep'
  | refused (errno : ℕ) : ep.CallsKernel c → answer = .error errno →
      result = .error (.unixError errno) → ¬ SameMaps ep ep' → CallEffect ep c answer result ep'
  | unasked : ¬ ep.CallsKernel c → ep'.Mirrors → SameMaps ep ep' →
      CallEffect ep c answer result ep'

/-- A method that changes the maps first and calls `epoll_ctl` last. -/
theorem effect_ctl (h : ep.Mirrors) {c : Call κ} (hcalls : ep.CallsKernel c)
    {roster : OrderedMap ℤ (OrderedMap Flag κ)} {fd : ℤ} {events : EpollMask} {op : CtlOp}
    (hroster : ∀ fd', roster.contains fd' = (decide (fd' = fd) || ep.roster.contains fd'))
    (hne : roster ≠ ep.roster ∨ ep.activeEvents.assign fd events ≠ ep.activeEvents)
    (hop : epollCtl ep.interest op fd (.ok ()) = .ok (ep.interest.assign fd events))
    {answer : Answer} {result : Except Failure Unit}
    (heq : ctl ⟨roster, ep.activeEvents.assign fd events, ep.fdsToDeregister, ep.interest⟩
      op fd answer = (result, ep')) : CallEffect ep c answer result ep' := by
  unfold ctl at heq
  cases answer with
  | error errno =>
    simp only [epollCtl, Prod.mk.injEq] at heq
    obtain ⟨rfl, rfl⟩ := heq
    refine CallEffect.refused errno hcalls rfl rfl ?_
    rintro ⟨hroster', hactive', -⟩
    exact hne.elim (fun hn => hn hroster') (fun hn => hn hactive')
  | ok u =>
    simp only [hop, Prod.mk.injEq] at heq
    obtain ⟨rfl, rfl⟩ := heq
    exact CallEffect.accepted hcalls rfl rfl (h.assign hroster events _)

theorem sameMaps_refl (ep : Epoller κ) : SameMaps ep ep := ⟨rfl, rfl, rfl⟩

/-- A mask that is changed at a descriptor keeps the descriptors. -/
theorem Mirrors.contains_roster (h : ep.Mirrors) {fd : ℤ} {events : EpollMask}
    (hfind : ep.activeEvents.find? fd = some events) (fd' : ℤ) :
    ep.roster.contains fd' = (decide (fd' = fd) || ep.roster.contains fd') := by
  by_cases hfd : fd' = fd
  · rw [hfd, h.same_fds, OrderedMap.contains, hfind]
    simp
  · simp [hfd]

/-- Adding a descriptor that is not on the list. -/
theorem epollCtl_add {interest : OrderedMap ℤ EpollMask} {fd : ℤ} (h : interest.find? fd = none)
    (events : EpollMask) :
    epollCtl interest (.add events) fd (.ok ()) = .ok (interest.assign fd events) := by
  have hnot : ¬ interest.contains fd := by simp [OrderedMap.contains, h]
  exact if_neg hnot

/-- Modifying a descriptor on the list. -/
theorem epollCtl_mod {interest : OrderedMap ℤ EpollMask} {fd : ℤ} {old : EpollMask}
    (h : interest.find? fd = some old) (events : EpollMask) :
    epollCtl interest (.mod events) fd (.ok ()) = .ok (interest.assign fd events) := by
  have hc : interest.contains fd := by simp [OrderedMap.contains, h]
  exact if_pos hc

/-- The effect of `register_event`. -/
theorem effect_registerEvent (h : ep.Mirrors) {fd : ℤ} {flag : Flag} {callback : κ}
    {answer : Answer} {result : Except Failure Unit}
    (heq : ep.registerEvent fd flag callback answer = (result, ep')) :
    CallEffect ep (.registerEvent fd flag callback) answer result ep' := by
  unfold registerEvent at heq
  cases hfind : ep.roster.find? fd with
  | none =>
    rw [hfind] at heq
    have hcalls : ep.CallsKernel (.registerEvent fd flag callback) := by
      show ep.callback? fd flag = none
      rw [callback?, hfind, Option.bind_none]
    have hnone : ep.interest.find? fd = none := by
      rw [← Option.not_isSome_iff_eq_none]
      show ¬ ep.interest.contains fd
      rw [h.contains_interest, OrderedMap.contains, hfind]
      simp
    exact effect_ctl h hcalls (fun fd' => OrderedMap.contains_assign _ _ _ fd')
      (Or.inl (OrderedMap.assign_ne (by rw [hfind]; simp))) (epollCtl_add hnone _) heq
  | some callbacks =>
    rw [hfind] at heq
    dsimp only at heq
    split_ifs at heq with hflag
    · rw [Prod.mk.injEq] at heq
      obtain ⟨rfl, rfl⟩ := heq
      refine CallEffect.unasked ?_ h (sameMaps_refl ep)
      show ¬ ep.callback? fd flag = none
      rw [callback?, hfind, Option.bind_some]
      exact Option.isSome_iff_ne_none.mp hflag
    · have hnone : callbacks.find? flag = none := by simpa [OrderedMap.contains] using hflag
      have hcalls : ep.CallsKernel (.registerEvent fd flag callback) := by
        show ep.callback? fd flag = none
        rw [callback?, hfind, Option.bind_some, hnone]
      have hcontains : ep.interest.contains fd := by
        rw [h.contains_interest, OrderedMap.contains, hfind]
        rfl
      obtain ⟨old, hold⟩ := Option.isSome_iff_exists.mp hcontains
      refine effect_ctl h hcalls (fun fd' => OrderedMap.contains_assign _ _ _ fd')
        (Or.inl (OrderedMap.assign_ne ?_)) (epollCtl_mod hold _) heq
      rw [hfind, ne_eq, Option.some_inj]
      exact fun hsame => OrderedMap.assign_ne (by rw [hnone]; simp) hsame.symm

/-- The effect of `activate`. -/
theorem effect_activate (h : ep.Mirrors) {fd : ℤ} {flag : Flag} {answer : Answer}
    {result : Except Failure Unit} (heq : ep.activate fd flag answer = (result, ep')) :
    CallEffect ep (.activate fd flag) answer result ep' := by
  unfold activate at heq
  cases hfind : ep.activeEvents.find? fd with
  | none =>
    rw [hfind, Prod.mk.injEq] at heq
    obtain ⟨rfl, rfl⟩ := heq
    refine CallEffect.unasked ?_ h (sameMaps_refl ep)
    rintro ⟨hc, -⟩
    rw [OrderedMap.contains, hfind] at hc
    exact absurd hc (by simp)
  | some events =>
    rw [hfind] at heq
    dsimp only at heq
    have hactive : ep.isActive fd flag = EpollMask.has events flag := by
      rw [isActive, hfind, Option.any_some]
    split_ifs at heq with hhas
    · rw [Prod.mk.injEq] at heq
      obtain ⟨rfl, rfl⟩ := heq
      exact CallEffect.unasked (fun hcalls => hcalls.2 (hactive.trans hhas)) h (sameMaps_refl ep)
    · have hcalls : ep.CallsKernel (.activate fd flag) := by
        refine ⟨?_, by rwa [hactive]⟩
        rw [OrderedMap.contains, hfind]
        rfl
      refine effect_ctl h hcalls (h.contains_roster hfind) (Or.inr (OrderedMap.assign_ne ?_))
        (epollCtl_mod ((h.interest_eq fd).trans hfind) _) heq
      rw [hfind, ne_eq, Option.some_inj]
      intro hsame
      rw [hsame] at hhas
      exact hhas (EpollMask.has_or_epollValue events flag)

/-- The effect of `deactivate`. -/
theorem effect_deactivate (h : ep.Mirrors) {fd : ℤ} {flag : Flag} {answer : Answer}
    {result : Except Failure Unit} (heq : ep.deactivate fd flag answer = (result, ep')) :
    CallEffect ep (.deactivate fd flag) answer result ep' := by
  unfold deactivate at heq
  cases hfind : ep.activeEvents.find? fd with
  | none =>
    rw [hfind, Prod.mk.injEq] at heq
    obtain ⟨rfl, rfl⟩ := heq
    refine CallEffect.unasked ?_ h (sameMaps_refl ep)
    show ¬ ep.isActive fd flag
    rw [isActive, hfind]
    simp
  | some events =>
    rw [hfind] at heq
    dsimp only at heq
    have hactive : ep.isActive fd flag = EpollMask.has events flag := by
      rw [isActive, hfind, Option.any_some]
    split_ifs at heq with hhas
    · have hcalls : ep.CallsKernel (.deactivate fd flag) := hactive.trans hhas
      refine effect_ctl h hcalls (h.contains_roster hfind) (Or.inr (OrderedMap.assign_ne ?_))
        (epollCtl_mod ((h.interest_eq fd).trans hfind) _) heq
      rw [hfind, ne_eq, Option.some_inj]
      intro hsame
      rw [hsame] at hhas
      exact EpollMask.not_has_and_not_epollValue events flag hhas
    · rw [Prod.mk.injEq] at heq
      obtain ⟨rfl, rfl⟩ := heq
      refine CallEffect.unasked ?_ h (sameMaps_refl ep)
      show ¬ ep.isActive fd flag
      rwa [hactive]

/-- The effect of a call. -/
theorem effect_call (h : ep.Mirrors) {c : Call κ} {answer : Answer}
    {result : Except Failure Unit} (heq : ep.call c answer = (result, ep')) :
    CallEffect ep c answer result ep' := by
  cases c with
  | registerEvent fd flag callback => exact effect_registerEvent h heq
  | activate fd flag => exact effect_activate h heq
  | deactivate fd flag => exact effect_deactivate h heq
  | deregister fd =>
    unfold call at heq
    rw [Prod.mk.injEq] at heq
    obtain ⟨rfl, rfl⟩ := heq
    exact CallEffect.unasked id ⟨h.same_fds, h.interest_eq⟩ ⟨rfl, rfl, rfl⟩

/-- A system call changes the interest list only. -/
theorem ctl_frame (ep : Epoller κ) (op : CtlOp) (fd : ℤ) (answer : Answer) :
    (ep.ctl op fd answer).2.roster = ep.roster ∧
      (ep.ctl op fd answer).2.fdsToDeregister = ep.fdsToDeregister := by
  unfold ctl
  cases epollCtl ep.interest op fd answer with
  | error errno => exact ⟨rfl, rfl⟩
  | ok interest => exact ⟨rfl, rfl⟩

/-- A call keeps the descriptors of the roster, and schedules a descriptor at most once. -/
theorem call_frame {c : Call κ} {answer : Answer} {result : Except Failure Unit}
    (heq : ep.call c answer = (result, ep')) :
    (∀ fd, ep.roster.contains fd → ep'.roster.contains fd) ∧
      (ep.fdsToDeregister.Nodup → ep'.fdsToDeregister.Nodup) := by
  have hctl : ∀ (ep₁ : Epoller κ) op fd, ep₁.ctl op fd answer = (result, ep') →
      (∀ fd, ep.roster.contains fd → ep₁.roster.contains fd) →
      ep₁.fdsToDeregister = ep.fdsToDeregister →
      (∀ fd, ep.roster.contains fd → ep'.roster.contains fd) ∧
        (ep.fdsToDeregister.Nodup → ep'.fdsToDeregister.Nodup) := by
    intro ep₁ op fd hrun hroster hfds
    obtain ⟨hroster', hfds'⟩ := ctl_frame ep₁ op fd answer
    rw [hrun] at hroster' hfds'
    refine ⟨fun fd' hc => ?_, fun hnodup => ?_⟩
    · show ep'.roster.contains fd'
      rw [hroster']
      exact hroster fd' hc
    · show ep'.fdsToDeregister.Nodup
      rw [hfds', hfds]
      exact hnodup
  have hassign : ∀ fd callbacks fd', ep.roster.contains fd' →
      (ep.roster.assign fd callbacks).contains fd' := by
    intro fd callbacks fd' hc
    rw [OrderedMap.contains_assign, hc, Bool.or_true]
  have hsame : ∀ r : Except Failure Unit, (r, ep) = (result, ep') →
      (∀ fd, ep.roster.contains fd → ep'.roster.contains fd) ∧
        (ep.fdsToDeregister.Nodup → ep'.fdsToDeregister.Nodup) := by
    intro r hr
    rw [Prod.mk.injEq] at hr
    obtain ⟨-, rfl⟩ := hr
    exact ⟨fun _ => id, id⟩
  cases c with
  | registerEvent fd flag callback =>
    unfold call registerEvent at heq
    dsimp only at heq
    split at heq
    · exact hctl _ _ _ heq (hassign fd _) rfl
    · split_ifs at heq
      · exact hsame _ heq
      · exact hctl _ _ _ heq (hassign fd _) rfl
  | activate fd flag =>
    unfold call activate at heq
    dsimp only at heq
    split at heq
    · exact hsame _ heq
    · split_ifs at heq
      · exact hsame _ heq
      · exact hctl _ _ _ heq (fun _ => id) rfl
  | deactivate fd flag =>
    unfold call deactivate at heq
    dsimp only at heq
    split at heq
    · exact hsame _ heq
    · split_ifs at heq
      · exact hctl _ _ _ heq (fun _ => id) rfl
      · exact hsame _ heq
  | deregister fd =>
    unfold call at heq
    rw [Prod.mk.injEq] at heq
    obtain ⟨-, rfl⟩ := heq
    exact ⟨fun _ => id, fun hnodup => hnodup.insert⟩

/-! ## The start of `poll` -/

/-- The kernel deletes the descriptor from the interest list. -/
def Deletable (ep : Epoller κ) (answers : ℤ → Answer) (fd : ℤ) : Prop :=
  answers fd = .ok () ∧ ep.interest.contains fd

/-- The epoller without some descriptors in its maps, and others on the interest list. -/
def without (ep : Epoller κ) (fds deleted : List ℤ) : Epoller κ :=
  ⟨fds.foldl OrderedMap.erase ep.roster, fds.foldl OrderedMap.erase ep.activeEvents,
    ep.fdsToDeregister, deleted.foldl OrderedMap.erase ep.interest⟩

/-- The loop of `do_deregister` either deletes every descriptor, or stops at the first one
that it cannot delete, which is erased from the maps by then. -/
theorem deregisterLoop_cases {order : List ℤ} (hnodup : order.Nodup) (answers : ℤ → Answer)
    (ep : Epoller κ) :
    ((∀ fd ∈ order, ep.Deletable answers fd) ∧
      deregisterLoop answers order ep = (.ok (), ep.without order order)) ∨
    ∃ before fd behind errno, order = before ++ fd :: behind ∧
      (∀ x ∈ before, ep.Deletable answers x) ∧ ¬ ep.Deletable answers fd ∧
      deregisterLoop answers order ep
        = (.error (.unixError errno), ep.without (before ++ [fd]) before) := by
  induction order generalizing ep with
  | nil => exact Or.inl ⟨fun _ h => absurd h List.not_mem_nil, rfl⟩
  | cons x rest ih =>
    obtain ⟨hx, hrest⟩ := List.nodup_cons.mp hnodup
    unfold deregisterLoop ctl
    by_cases hdel : ep.Deletable answers x
    · have hop : epollCtl ep.interest .del x (answers x) = .ok (ep.interest.erase x) := by
        rw [hdel.1]
        exact if_pos hdel.2
      -- the other descriptors are as deletable as before
      have hiff : ∀ fd ∈ rest, (ep.without [x] [x]).Deletable answers fd ↔
          ep.Deletable answers fd := by
        intro fd hfd
        have hne : fd ≠ x := fun heq => hx (heq ▸ hfd)
        show _ ∧ (ep.interest.erase x).contains fd ↔ _
        rw [OrderedMap.contains, OrderedMap.find?_erase, if_neg hne]
        rfl
      rw [hop]
      rcases ih hrest (ep.without [x] [x]) with ⟨hall, heq⟩ |
        ⟨before, fd, behind, errno, rfl, hbefore, hnot, heq⟩
      · refine Or.inl ⟨fun fd hfd => ?_, heq⟩
        rcases List.mem_cons.mp hfd with rfl | hmem
        · exact hdel
        · exact (hiff fd hmem).mp (hall fd hmem)
      · refine Or.inr ⟨x :: before, fd, behind, errno, rfl, fun y hy => ?_, ?_, heq⟩
        · rcases List.mem_cons.mp hy with rfl | hmem
          · exact hdel
          · exact (hiff y (List.mem_append_left _ hmem)).mp (hbefore y hmem)
        · exact fun hd => hnot ((hiff fd (by simp)).mpr hd)
    · have hop : ∃ errno, epollCtl ep.interest .del x (answers x) = .error errno := by
        cases hanswer : answers x with
        | error errno => exact ⟨errno, rfl⟩
        | ok u => exact ⟨2, if_neg (fun hc => hdel ⟨hanswer, hc⟩)⟩
      obtain ⟨errno, hop⟩ := hop
      rw [hop]
      exact Or.inr ⟨[], x, rest, errno, rfl, fun _ h => absurd h List.not_mem_nil, hdel, rfl⟩

/-- What is erased from the maps and deleted from the interest list keeps the mirror. -/
theorem Mirrors.without (h : ep.Mirrors) (order fds : List ℤ) :
    Mirrors { ep.without order order with fdsToDeregister := fds } where
  same_fds := fun fd => by
    show (order.foldl OrderedMap.erase ep.roster).contains fd
      = (order.foldl OrderedMap.erase ep.activeEvents).contains fd
    rw [OrderedMap.contains, OrderedMap.contains, OrderedMap.find?_foldl_erase,
      OrderedMap.find?_foldl_erase]
    split_ifs
    · rfl
    · exact h.same_fds fd
  interest_eq := fun fd => by
    show (order.foldl OrderedMap.erase ep.interest).find? fd
      = (order.foldl OrderedMap.erase ep.activeEvents).find? fd
    rw [OrderedMap.find?_foldl_erase, OrderedMap.find?_foldl_erase, h.interest_eq]

/-- Erasing a registered descriptor changes the maps. -/
theorem not_sameMaps_without {fds deleted fds' : List ℤ} {fd : ℤ} (hfd : fd ∈ fds)
    (hc : ep.roster.contains fd) :
    ¬ SameMaps ep { ep.without fds deleted with fdsToDeregister := fds' } := by
  rintro ⟨hroster, -, -⟩
  have hfind : (fds.foldl OrderedMap.erase ep.roster).find? fd = none := by
    rw [OrderedMap.find?_foldl_erase, if_pos hfd]
  have hroster' : fds.foldl OrderedMap.erase ep.roster = ep.roster := hroster
  rw [hroster'] at hfind
  rw [OrderedMap.contains, hfind] at hc
  exact absurd hc (by simp)

/-- A descriptor is scheduled that is not on the interest list. -/
def Stuck (ep : Epoller κ) : Prop :=
  ep.fdsToDeregister.Nodup ∧ ∃ fd ∈ ep.fdsToDeregister, ¬ ep.interest.contains fd

/-- What is deleted from the interest list does not come back. -/
theorem Stuck.without {fds deleted : List ℤ} (h : ep.Stuck) : (ep.without fds deleted).Stuck := by
  obtain ⟨hnodup, fd, hfd, hnot⟩ := h
  refine ⟨hnodup, fd, hfd, ?_⟩
  show ¬ (deleted.foldl OrderedMap.erase ep.interest).contains fd
  rw [OrderedMap.contains, OrderedMap.find?_foldl_erase]
  split_ifs
  · simp
  · exact hnot

/-- Every `poll` raises an exception while a descriptor is scheduled that is not on the
interest list, and this does not change. -/
theorem Stuck.startPoll (h : ep.Stuck) {order : List ℤ} {answers : ℤ → Answer}
    {wait : Except ℕ (List EpollEvent)} {result : Except Failure (List EpollEvent)}
    (hperm : order.Perm ep.fdsToDeregister)
    (heq : ep.startPoll order answers wait = (result, ep')) :
    (∃ errno, result = .error (.unixError errno)) ∧ ep'.Stuck := by
  obtain ⟨fd, hfd, hnot⟩ := h.2
  unfold Epoller.startPoll doDeregister at heq
  rcases deregisterLoop_cases (hperm.nodup_iff.mpr h.1) answers ep with
    ⟨hall, hloop⟩ | ⟨before, x, behind, errno, -, -, -, hloop⟩
  · exact absurd (hall fd (hperm.mem_iff.mpr hfd)).2 hnot
  · simp only [hloop, Prod.mk.injEq] at heq
    obtain ⟨rfl, rfl⟩ := heq
    exact ⟨⟨errno, rfl⟩, h.without⟩

theorem Stuck.not_canPoll (h : ep.Stuck) : ¬ ep.CanPoll := by
  rintro ⟨order, answers, events, hperm, hok⟩
  obtain ⟨⟨errno, herr⟩, -⟩ := h.startPoll hperm (Prod.mk.eta).symm
  rw [herr] at hok
  exact absurd hok (by simp)

/-- The start of `poll` keeps the promise exactly when no system call fails. -/
theorem keeps_startPoll_iff (h : ep.Mirrors) (hnodup : ep.fdsToDeregister.Nodup)
    {order : List ℤ} {answers : ℤ → Answer} {wait : Except ℕ (List EpollEvent)}
    {result : Except Failure (List EpollEvent)} (hperm : order.Perm ep.fdsToDeregister)
    (heq : ep.startPoll order answers wait = (result, ep')) :
    Keeps ep [.polled order answers wait result] ep' ↔
      ep.Unfailing (.polled order answers wait result) := by
  have hdel : ∀ fd, ep.Deletable answers fd ↔ ep.roster.contains fd ∧ answers fd = .ok () := by
    intro fd
    rw [Deletable, h.contains_interest, and_comm]
  unfold startPoll doDeregister at heq
  rcases deregisterLoop_cases (hperm.nodup_iff.mpr hnodup) answers ep with
    ⟨hall, hloop⟩ | ⟨before, fd, behind, errno, rfl, hbefore, hnot, hloop⟩
  · have hall' : ∀ fd ∈ ep.fdsToDeregister, ep.roster.contains fd ∧ answers fd = .ok () :=
      fun fd hfd => (hdel fd).mp (hall fd (hperm.mem_iff.mpr hfd))
    simp only [hloop] at heq
    cases wait with
    | ok events =>
      rw [Prod.mk.injEq] at heq
      obtain ⟨rfl, rfl⟩ := heq
      refine iff_of_true ⟨h.without order [], ?_⟩ ⟨hall', Or.inr ⟨events, rfl⟩⟩
      simp [Event.raised, Event.pollRaised]
    | error errno =>
      rw [Prod.mk.injEq] at heq
      obtain ⟨rfl, rfl⟩ := heq
      by_cases hnil : ep.fdsToDeregister = []
      · rw [hnil, List.perm_nil] at hperm
        subst hperm
        refine iff_of_true ⟨h.without [] [], ?_⟩ ⟨hall', Or.inl hnil⟩
        intro e he
        exact ⟨fun _ => sameMaps_refl ep, fun _ => ⟨[], answers, [], List.Perm.refl _, rfl⟩⟩
      · obtain ⟨fd, hfd⟩ := List.exists_mem_of_ne_nil _ hnil
        refine iff_of_false ?_ ?_
        · rintro ⟨-, hkeep⟩
          refine not_sameMaps_without (hperm.mem_iff.mpr hfd) (hall' fd hfd).1
            ((hkeep _ List.mem_cons_self).1 rfl)
        · rintro ⟨-, hnil' | ⟨events, hok⟩⟩
          · exact hnil hnil'
          · exact absurd hok (by simp)
  · simp only [hloop, Prod.mk.injEq] at heq
    obtain ⟨rfl, rfl⟩ := heq
    have hfd : fd ∈ ep.fdsToDeregister := hperm.mem_iff.mp (by simp)
    refine iff_of_false ?_ (fun hunfailing => hnot ((hdel fd).mpr (hunfailing.1 fd hfd)))
    rintro ⟨-, hkeep⟩
    obtain ⟨hsame, hcan⟩ := hkeep _ List.mem_cons_self
    by_cases hc : ep.interest.contains fd
    · -- the maps lost a descriptor that they had
      rw [h.contains_interest] at hc
      exact not_sameMaps_without (by simp) hc (hsame rfl)
    · -- the descriptor stays scheduled, and it is not on the interest list
      have hstuck : ep.Stuck := ⟨hnodup, fd, hfd, hc⟩
      exact hstuck.without.not_canPoll (hcan rfl)

/-! ## Runs -/

variable {s s' : Program κ} {es : List (Event κ)}

/-- What holds in a run without failures. -/
structure Inv (s : Program κ) : Prop where
  mirrors : s.epoller.Mirrors
  nodup : s.epoller.fdsToDeregister.Nodup
  pending_known : ∀ ev ∈ s.phase.pending, s.epoller.roster.contains ev.fd

theorem inv_initial : Inv (Program.initial : Program κ) where
  mirrors := ⟨fun _ => rfl, fun _ => rfl⟩
  nodup := List.nodup_nil
  pending_known := fun _ hev => absurd hev List.not_mem_nil

/-- A step without system calls has nothing to keep. -/
theorem keeps_of_quiet (h : ep.Mirrors) (hraised : ∀ e ∈ es, e.pollRaised = false)
    (hunfailing : ∀ e ∈ es, ep.Unfailing e) : Keeps ep es ep ↔ ∀ e ∈ es, ep.Unfailing e := by
  refine iff_of_true ⟨h, fun e he => ⟨fun _ => sameMaps_refl ep, fun hpoll => ?_⟩⟩ hunfailing
  rw [hraised e he] at hpoll
  exact absurd hpoll (by simp)

/-- A call keeps the promise exactly when its system call does not fail. -/
theorem keeps_call_iff {c : Call κ} {answer : Answer} {result : Except Failure Unit}
    (heff : CallEffect ep c answer result ep') :
    Keeps ep [.called c answer result] ep' ↔ ep.Unfailing (.called c answer result) := by
  have hpoll : Event.pollRaised (.called c answer result : Event κ) = false := rfl
  cases heff with
  | accepted hcalls hanswer hresult hmirrors =>
    refine iff_of_true ⟨hmirrors, fun e he => ?_⟩ (fun _ => hanswer)
    rw [List.mem_singleton.mp he, hresult]
    simp [Event.raised, Event.pollRaised]
  | refused errno hcalls hanswer hresult hchanged =>
    refine iff_of_false (fun hkeep => ?_) (fun hunfailing => ?_)
    · refine hchanged ((hkeep.2 _ List.mem_cons_self).1 ?_)
      rw [hresult]
      rfl
    · rw [hunfailing hcalls] at hanswer
      exact absurd hanswer (by simp)
  | unasked hnot hmirrors hsame =>
    refine iff_of_true ⟨hmirrors, fun e he => ?_⟩ (fun hcalls => absurd hcalls hnot)
    rw [List.mem_singleton.mp he, hpoll]
    exact ⟨fun _ => hsame, by simp⟩

/-- A step keeps the promise exactly when no system call fails. -/
theorem keeps_iff (h : Inv s) (hstep : Step s es s') :
    Keeps s.epoller es s'.epoller ↔ ∀ e ∈ es, s.epoller.Unfailing e := by
  cases hstep with
  | call hphase heq =>
    rw [keeps_call_iff (effect_call h.mirrors heq)]
    simp
  | callInside hphase heq hjoins =>
    rw [keeps_call_iff (effect_call h.mirrors heq)]
    simp
  | pollRaises hphase hperm heq =>
    rw [keeps_startPoll_iff h.mirrors h.nodup hperm heq]
    simp
  | poll hphase hperm heq hconforms =>
    rw [keeps_startPoll_iff h.mirrors h.nodup hperm heq]
    simp
  | _ => exact keeps_of_quiet h.mirrors (by simp [Event.pollRaised]) (by simp [Unfailing])

/-- The start of `poll` leaves nothing scheduled when it succeeds. -/
theorem nodup_startPoll (hnodup : ep.fdsToDeregister.Nodup) {order : List ℤ}
    {answers : ℤ → Answer} {wait : Except ℕ (List EpollEvent)}
    {result : Except Failure (List EpollEvent)} (hperm : order.Perm ep.fdsToDeregister)
    (heq : ep.startPoll order answers wait = (result, ep')) : ep'.fdsToDeregister.Nodup := by
  unfold startPoll doDeregister at heq
  rcases deregisterLoop_cases (hperm.nodup_iff.mpr hnodup) answers ep with
    ⟨hall, hloop⟩ | ⟨before, fd, behind, errno, -, -, -, hloop⟩
  · simp only [hloop] at heq
    cases wait with
    | ok events =>
      rw [Prod.mk.injEq] at heq
      rw [← heq.2]
      exact List.nodup_nil
    | error errno =>
      rw [Prod.mk.injEq] at heq
      rw [← heq.2]
      exact List.nodup_nil
  · simp only [hloop, Prod.mk.injEq] at heq
    rw [← heq.2]
    exact hnodup

/-- A step without a failure keeps the invariant. -/
theorem Inv.step (h : Inv s) (hstep : Step s es s')
    (hunfailing : ∀ e ∈ es, s.epoller.Unfailing e) : Inv s' := by
  have hmirrors : s'.epoller.Mirrors := ((keeps_iff h hstep).mpr hunfailing).1
  obtain ⟨ep, ph⟩ := s
  cases hstep with
  | call hphase heq =>
    exact ⟨hmirrors, (call_frame heq).2 h.nodup, fun _ hev => absurd hev List.not_mem_nil⟩
  | callInside hphase heq hjoins =>
    cases hphase
    obtain ⟨hroster, hnodup⟩ := call_frame heq
    exact ⟨hmirrors, hnodup h.nodup, fun ev hev => hroster ev.fd (h.pending_known ev hev)⟩
  | pollRaises hphase hperm heq =>
    exact ⟨hmirrors, nodup_startPoll h.nodup hperm heq, fun _ hev => absurd hev List.not_mem_nil⟩
  | poll hphase hperm heq hconforms =>
    refine ⟨hmirrors, nodup_startPoll h.nodup hperm heq, fun ev hev => ?_⟩
    rw [← hmirrors.contains_interest]
    exact hconforms.2 ev hev
  | next hphase hfind hperm =>
    cases hphase
    exact ⟨hmirrors, h.nodup, fun ev hev => h.pending_known ev (List.mem_cons_of_mem _ hev)⟩
  | unknown hphase hfind =>
    exact ⟨hmirrors, h.nodup, fun _ hev => absurd hev List.not_mem_nil⟩
  | skip hphase hnot =>
    cases hphase
    exact ⟨hmirrors, h.nodup, h.pending_known⟩
  | run hphase hready =>
    cases hphase
    exact ⟨hmirrors, h.nodup, h.pending_known⟩
  | callbackReturns hphase =>
    cases hphase
    exact ⟨hmirrors, h.nodup, h.pending_known⟩
  | done hphase =>
    cases hphase
    exact ⟨hmirrors, h.nodup, h.pending_known⟩
  | finish hphase =>
    exact ⟨hmirrors, h.nodup, fun _ hev => absurd hev List.not_mem_nil⟩

/-- In a run without failures `roster_.at` does not raise an exception. -/
theorem Inv.rosterAtRaised_notMem (h : Inv s) (hstep : Step s es s') (fd : ℤ) :
    .rosterAtRaised fd ∉ es := by
  obtain ⟨ep, ph⟩ := s
  cases hstep with
  | @unknown ev rest hphase hfind =>
    cases hphase
    have hc := h.pending_known ev List.mem_cons_self
    rw [OrderedMap.contains, hfind] at hc
    exact absurd hc (by simp)
  | _ => simp

/-- A step in which no system call fails. -/
def UnfailingStep (s : Program κ) (es : List (Event κ)) (s' : Program κ) : Prop :=
  Step s es s' ∧ ∀ e ∈ es, s.epoller.Unfailing e

/-- The epoller mirrors the kernel as long as no system call fails.  In every run in which no
step had a failure, the interest list has exactly the descriptors and the masks of the maps,
`roster_.at` raised no exception, and the next step, whatever it is, keeps the promise if and
only if it has no failure either. -/
theorem mirrors_iff (hrun : Run.Steps UnfailingStep Program.initial es s) :
    s.epoller.Mirrors ∧ (∀ fd, .rosterAtRaised fd ∉ es) ∧
    ∀ es' s', Step s es' s' →
      (Keeps s.epoller es' s'.epoller ↔ ∀ e ∈ es', s.epoller.Unfailing e) := by
  have key : Inv s ∧ ∀ fd, .rosterAtRaised fd ∉ es := by
    refine hrun.invariant (fun es s => Inv s ∧ ∀ fd, .rosterAtRaised fd ∉ es)
      ⟨inv_initial, by simp⟩ ?_
    rintro es t es' u ⟨hI, hat⟩ ⟨hstep, hunfailing⟩
    refine ⟨hI.step hstep hunfailing, fun fd hmem => ?_⟩
    exact (List.mem_append.mp hmem).elim (hat fd) (hI.rosterAtRaised_notMem hstep fd)
  exact ⟨key.1.mirrors, key.2, fun es' s' hstep => keeps_iff key.1 hstep⟩

/-- A registration is accepted by the kernel, and a second one is refused: the epoller mirrors
the kernel after the first one only. -/
theorem mirrors_iff_refused : ∃ es s es' s',
    Run.Steps UnfailingStep (Program.initial : Program ℕ) es s ∧
      s.epoller.interest.find? 3 = some Flag.pollIn.epollValue ∧ s.epoller.Mirrors ∧
      Step s es' s' ∧ s'.epoller.roster.contains 4 ∧ ¬ Keeps s.epoller es' s'.epoller := by
  have h₁ : UnfailingStep (Program.initial : Program ℕ) _ _ :=
    ⟨@Step.call ℕ _ (.registerEvent 3 .pollIn 0) (.ok ()) _ _ rfl rfl, by simp [Unfailing]⟩
  have h₂ := @Step.call ℕ ⟨(initial.call (.registerEvent 3 .pollIn 0) (.ok ())).2, .idle⟩
    (.registerEvent 4 .pollIn 1) (.error 1) _ _ rfl rfl
  obtain ⟨hmirrors, -, hkeeps⟩ := mirrors_iff (Run.Steps.single h₁)
  refine ⟨_, _, _, _, Run.Steps.single h₁, rfl, hmirrors, h₂, rfl, ?_⟩
  rw [hkeeps _ _ h₂]
  intro hunfailing
  exact absurd (hunfailing _ List.mem_cons_self rfl) (by simp)

/-- While an epoller is stuck, nothing but raised exceptions comes of calling `poll`. -/
theorem polls_raise_of_stuck (h : s.epoller.Stuck) (hrun : Run.Steps Step s es s')
    (hpolls : ∀ e ∈ es, ∃ order answers wait result, e = .polled order answers wait result) :
    ∀ e ∈ es, e.pollRaised := by
  have key : s'.epoller.Stuck ∧ ∀ e ∈ es, e.pollRaised := by
    refine hrun.invariant_of_forall
      (fun e => ∃ order answers wait result, e = .polled order answers wait result)
      (fun es s => s.epoller.Stuck ∧ ∀ e ∈ es, e.pollRaised) ⟨h, by simp⟩ ?_ hpolls
    rintro es₁ t es₂ u hG ⟨hstuck, hraised⟩ hstep
    have hstep' : u.epoller.Stuck ∧ ∀ e ∈ es₂, e.pollRaised := by
      cases hstep with
      | call hphase heq => simp at hG
      | callInside hphase heq hjoins => simp at hG
      | pollRaises hphase hperm heq =>
        obtain ⟨-, hstuck'⟩ := hstuck.startPoll hperm heq
        refine ⟨hstuck', fun e he => ?_⟩
        rw [List.mem_singleton.mp he]
        rfl
      | poll hphase hperm heq hconforms =>
        obtain ⟨⟨errno, herr⟩, -⟩ := hstuck.startPoll hperm heq
        exact absurd herr (by simp)
      | _ => exact ⟨hstuck, by simp_all⟩
    exact ⟨hstep'.1, List.forall_mem_append.mpr ⟨hraised, hstep'.2⟩⟩
  exact key.2

/-- A registration that the kernel refuses stays in the maps.  And of two descriptors that
are deregistered, the one that the set yields second, here the first one put into it, is not
deleted at the first attempt: every `poll` from then on raises an exception, whatever the kernel
answers. -/
theorem exists_not_keeps :
    (∃ s', Step (Program.initial : Program ℕ)
        [.called (.registerEvent 3 .pollIn 0) (.error 1) (.error (.unixError 1))] s' ∧
      s'.epoller.roster.contains 3 ∧ ¬ s'.epoller.interest.contains 3) ∧
    ∃ es s order answers wait, Run.Steps Step (Program.initial : Program ℕ) es s ∧
      .polled order answers wait (.error (.unixError 9)) ∈ es ∧
      ∀ es' s', Run.Steps Step s es' s' →
        (∀ e ∈ es', ∃ order answers wait result, e = .polled order answers wait result) →
        ∀ e ∈ es', e.pollRaised := by
  constructor
  · exact ⟨_, Step.call rfl rfl, rfl, by decide⟩
  · have h₁ : Step (Program.initial : Program ℕ) _ _ :=
      @Step.call ℕ _ (.registerEvent 3 .pollIn 0) (.ok ()) _ _ rfl rfl
    have h₂ := (Run.Steps.single h₁).tail
      (@Step.call ℕ _ (.registerEvent 4 .pollIn 1) (.ok ()) _ _ rfl rfl)
    have h₃ := h₂.tail (@Step.call ℕ _ (.deregister 4) (.ok ()) _ _ rfl rfl)
    have h₄ := h₃.tail (@Step.call ℕ _ (.deregister 3) (.ok ()) _ _ rfl rfl)
    have h₅ := h₄.tail (@Step.pollRaises ℕ _ [3, 4]
      (fun fd => if fd = 4 then .error 9 else .ok ()) (.ok []) _ _ rfl (List.Perm.refl _) rfl)
    refine ⟨_, _, _, _, _, h₅, List.mem_append_right _ List.mem_cons_self, ?_⟩
    intro es' s' hrun hpolls
    refine polls_raise_of_stuck ?_ hrun hpolls
    exact ⟨by decide, 3, by decide, by decide⟩

end Epoller

end Ringmaster
