/-
# The epoller

The class `Epoller` of `src/util/epoller.hh` and `epoller.cc`, together with the interest
list that the kernel keeps for `epfd_`.  Its methods change the two maps first and call
`epoll_ctl` last, so a method also returns the state that it leaves behind when it raises an
exception.

What comes from outside is an argument: for each call of `epoll_ctl` whether the kernel is
willing to carry it out, and what `epoll_wait` returns.  A call that the interest list does
not allow fails in any case, and a call that fails leaves the list as it was.
-/
import Ringmaster.Dispatch

namespace Ringmaster

/-! ## The interest list -/

/-- The type `uint32_t` of a mask of events. -/
abbrev EpollMask := BitVec 32

/-- The value of a flag, after `EPOLLIN` and `EPOLLOUT`. -/
def Flag.epollValue (flag : Flag) : EpollMask := BitVec.twoPow 32 flag.bit

/-- The test `events & flag`. -/
def EpollMask.has (events : EpollMask) (flag : Flag) : Bool := events &&& flag.epollValue != 0

namespace EpollMask

/-- Setting a flag sets it. -/
theorem has_or_epollValue (events : EpollMask) (flag : Flag) :
    EpollMask.has (events ||| flag.epollValue) flag := by
  have hand : (events ||| flag.epollValue) &&& flag.epollValue = flag.epollValue := by
    ext i hi
    rw [BitVec.getElem_and, BitVec.getElem_or]
    cases flag.epollValue[i] with
    | false => exact Bool.and_false _
    | true => rw [Bool.or_true, Bool.and_true]
  unfold EpollMask.has
  rw [hand]
  cases flag with
  | pollIn => decide
  | pollOut => decide

/-- Clearing a flag clears it. -/
theorem not_has_and_not_epollValue (events : EpollMask) (flag : Flag) :
    ¬ EpollMask.has (events &&& ~~~flag.epollValue) flag := by
  have hand : (events &&& ~~~flag.epollValue) &&& flag.epollValue = 0 := by
    ext i hi
    simp
  unfold EpollMask.has
  rw [hand]
  decide

end EpollMask

/-- The operations of `epoll_ctl`. -/
inductive CtlOp where
  | add (events : EpollMask)
  | mod (events : EpollMask)
  | del

/-- The answer of the kernel to a system call, an error number if it refuses. -/
abbrev Answer := Except ℕ Unit

/-- The system call `epoll_ctl` on an interest list, with the errors `EEXIST` and `ENOENT`
when the list does not allow the operation. -/
def epollCtl (interest : OrderedMap ℤ EpollMask) (op : CtlOp) (fd : ℤ) (answer : Answer) :
    Except ℕ (OrderedMap ℤ EpollMask) :=
  match answer with
  | .error errno => .error errno
  | .ok () =>
    match op with
    | .add events => if interest.contains fd then .error 17 else .ok (interest.assign fd events)
    | .mod events => if interest.contains fd then .ok (interest.assign fd events) else .error 2
    | .del => if interest.contains fd then .ok (interest.erase fd) else .error 2

/-- The structure `epoll_event`. -/
structure EpollEvent where
  fd : ℤ
  events : EpollMask
  deriving DecidableEq

/-! ## The class -/

/-- The class `Epoller`, with the interest list of `epfd_`; a callback is known by its
name. -/
structure Epoller (κ : Type) where
  roster : OrderedMap ℤ (OrderedMap Flag κ)
  activeEvents : OrderedMap ℤ EpollMask
  fdsToDeregister : List ℤ
  interest : OrderedMap ℤ EpollMask

namespace Epoller

open Poller (Call Phase Joins)

variable {κ : Type}

/-- The exceptions that a method raises: those of the language and the library, and the
`unix_error` of a system call that failed. -/
inductive Failure where
  | exn (e : Exn)
  | unixError (errno : ℕ)
  deriving DecidableEq

/-- The constant `MAX_EVENTS`. -/
def maxEvents : ℕ := 32

/-- The epoller after its construction. -/
def initial : Epoller κ := ⟨OrderedMap.empty, OrderedMap.empty, [], OrderedMap.empty⟩

/-- A checked call of `epoll_ctl`. -/
def ctl (ep : Epoller κ) (op : CtlOp) (fd : ℤ) (answer : Answer) :
    Except Failure Unit × Epoller κ :=
  match epollCtl ep.interest op fd answer with
  | .error errno => (.error (.unixError errno), ep)
  | .ok interest => (.ok (), { ep with interest := interest })

/-- The method `epoll_add`. -/
def epollAdd (ep : Epoller κ) (fd : ℤ) (events : EpollMask) (answer : Answer) :
    Except Failure Unit × Epoller κ :=
  ep.ctl (.add events) fd answer

/-- The method `epoll_mod`. -/
def epollMod (ep : Epoller κ) (fd : ℤ) (events : EpollMask) (answer : Answer) :
    Except Failure Unit × Epoller κ :=
  ep.ctl (.mod events) fd answer

/-- The method `register_event`. -/
def registerEvent (ep : Epoller κ) (fd : ℤ) (flag : Flag) (callback : κ) (answer : Answer) :
    Except Failure Unit × Epoller κ :=
  match ep.roster.find? fd with
  | none =>
    -- fd is not registered yet
    epollAdd { ep with
      roster := ep.roster.assign fd (OrderedMap.empty.assign flag callback)
      activeEvents := ep.activeEvents.assign fd flag.epollValue } fd flag.epollValue answer
  | some callbacks =>
    -- fd is registered but flag should not be registered yet
    if callbacks.contains flag then
      (.error (.exn (.runtimeError "attempted to register the same event")), ep)
    else
      let events := (ep.activeEvents.find? fd).getD 0 ||| flag.epollValue
      epollMod { ep with
        roster := ep.roster.assign fd (callbacks.assign flag callback)
        activeEvents := ep.activeEvents.assign fd events } fd events answer

/-- The method `activate`. -/
def activate (ep : Epoller κ) (fd : ℤ) (flag : Flag) (answer : Answer) :
    Except Failure Unit × Epoller κ :=
  match ep.activeEvents.find? fd with
  | none => (.error (.exn (.outOfRange "unordered_map::at")), ep)
  | some events =>
    -- activate only if not activated yet
    if EpollMask.has events flag then
      (.ok (), ep)
    else
      let events := events ||| flag.epollValue
      epollMod { ep with activeEvents := ep.activeEvents.assign fd events } fd events answer

/-- The method `deactivate`. -/
def deactivate (ep : Epoller κ) (fd : ℤ) (flag : Flag) (answer : Answer) :
    Except Failure Unit × Epoller κ :=
  match ep.activeEvents.find? fd with
  | none => (.error (.exn (.outOfRange "unordered_map::at")), ep)
  | some events =>
    -- deactivate only if activated before
    if EpollMask.has events flag then
      let events := events &&& ~~~flag.epollValue
      epollMod { ep with activeEvents := ep.activeEvents.assign fd events } fd events answer
    else
      (.ok (), ep)

/-- The method `deregister`. -/
def deregister (ep : Epoller κ) (fd : ℤ) : Epoller κ :=
  { ep with fdsToDeregister := ep.fdsToDeregister.insert fd }

/-- The execution of a call of one of these methods. -/
def call (ep : Epoller κ) (c : Call κ) (answer : Answer) : Except Failure Unit × Epoller κ :=
  match c with
  | .registerEvent fd flag callback => ep.registerEvent fd flag callback answer
  | .activate fd flag => ep.activate fd flag answer
  | .deactivate fd flag => ep.deactivate fd flag answer
  | .deregister fd => (.ok (), ep.deregister fd)

/-- The loop of `do_deregister`. -/
def deregisterLoop (answers : ℤ → Answer) : List ℤ → Epoller κ → Except Failure Unit × Epoller κ
  | [], ep => (.ok (), ep)
  | fd :: rest, ep =>
    match ctl { ep with
      roster := ep.roster.erase fd
      activeEvents := ep.activeEvents.erase fd } .del fd (answers fd) with
    | (.error e, ep) => (.error e, ep)
    | (.ok (), ep) => deregisterLoop answers rest ep

/-- The method `do_deregister`, which meets the descriptors in some order. -/
def doDeregister (ep : Epoller κ) (order : List ℤ) (answers : ℤ → Answer) :
    Except Failure Unit × Epoller κ :=
  match deregisterLoop answers order ep with
  | (.error e, ep) => (.error e, ep)
  | (.ok (), ep) => (.ok (), { ep with fdsToDeregister := [] })

/-- The method `poll` up to the return from `epoll_wait`. -/
def startPoll (ep : Epoller κ) (order : List ℤ) (answers : ℤ → Answer)
    (wait : Except ℕ (List EpollEvent)) : Except Failure (List EpollEvent) × Epoller κ :=
  match ep.doDeregister order answers with
  | (.error e, ep) => (.error e, ep)
  | (.ok (), ep) =>
    match wait with
    | .error errno => (.error (.unixError errno), ep)
    | .ok events => (.ok events, ep)

/-! ## Steps -/

/-- What is observed: a call, the start of `poll`, each with what the kernel answered and
how it ended, a callback that is executed, the return from `poll`, and an exception out of
`roster_.at`. -/
inductive Event (κ : Type) where
  | called (c : Call κ) (answer : Answer) (result : Except Failure Unit)
  | polled (order : List ℤ) (answers : ℤ → Answer) (wait : Except ℕ (List EpollEvent))
      (result : Except Failure (List EpollEvent))
  | ran (fd : ℤ) (flag : Flag) (callback : κ)
  | returned
  | rosterAtRaised (fd : ℤ)

/-- A program that uses an epoller. -/
structure Program (κ : Type) where
  epoller : Epoller κ
  phase : Phase EpollEvent κ

/-- The start of the program. -/
def Program.initial : Program κ := ⟨Epoller.initial, .idle⟩

/-- What the kernel reports is on the interest list, and not more than asked for. -/
def Conforms (ep : Epoller κ) (events : List EpollEvent) : Prop :=
  events.length ≤ maxEvents ∧ ∀ ev ∈ events, ep.interest.contains ev.fd

/-- The steps of the program, with callbacks that do not raise exceptions. -/
inductive Step : Program κ → List (Event κ) → Program κ → Prop
  /-- A method is called outside of `poll`. -/
  | call {s : Program κ} {c : Call κ} {answer : Answer} {result : Except Failure Unit}
      {ep : Epoller κ} :
      s.phase = .idle → s.epoller.call c answer = (result, ep) →
      Step s [.called c answer result] ⟨ep, .idle⟩
  /-- A method is called inside a callback. -/
  | callInside {s : Program κ} {c : Call κ} {answer : Answer} {result : Except Failure Unit}
      {ep : Epoller κ} {ev : EpollEvent} {order order' : List (Flag × κ)}
      {rest : List EpollEvent} :
      s.phase = .inside ev order rest → s.epoller.call c answer = (result, ep) →
      Joins ev.fd c result order order' →
      Step s [.called c answer result] ⟨ep, .inside ev order' rest⟩
  /-- `poll` is called, and raises an exception. -/
  | pollRaises {s : Program κ} {order : List ℤ} {answers : ℤ → Answer}
      {wait : Except ℕ (List EpollEvent)} {e : Failure} {ep : Epoller κ} :
      s.phase = .idle → order.Perm s.epoller.fdsToDeregister →
      s.epoller.startPoll order answers wait = (.error e, ep) →
      Step s [.polled order answers wait (.error e)] ⟨ep, .idle⟩
  /-- `poll` is called, and the kernel reports what is ready. -/
  | poll {s : Program κ} {order : List ℤ} {answers : ℤ → Answer} {events : List EpollEvent}
      {ep : Epoller κ} :
      s.phase = .idle → order.Perm s.epoller.fdsToDeregister →
      s.epoller.startPoll order answers (.ok events) = (.ok events, ep) →
      ep.Conforms events →
      Step s [.polled order answers (.ok events) (.ok events)] ⟨ep, .scanning events⟩
  /-- The next event is looked at. -/
  | next {s : Program κ} {ev : EpollEvent} {rest : List EpollEvent}
      {callbacks : OrderedMap Flag κ} {order : List (Flag × κ)} :
      s.phase = .scanning (ev :: rest) → s.epoller.roster.find? ev.fd = some callbacks →
      order.Perm callbacks.entries → Step s [] ⟨s.epoller, .dispatching ev order rest⟩
  /-- The descriptor of the next event is not in the roster. -/
  | unknown {s : Program κ} {ev : EpollEvent} {rest : List EpollEvent} :
      s.phase = .scanning (ev :: rest) → s.epoller.roster.find? ev.fd = none →
      Step s [.rosterAtRaised ev.fd] ⟨s.epoller, .idle⟩
  /-- The event of a callback did not happen. -/
  | skip {s : Program κ} {ev : EpollEvent} {flag : Flag} {callback : κ}
      {order : List (Flag × κ)} {rest : List EpollEvent} :
      s.phase = .dispatching ev ((flag, callback) :: order) rest →
      ¬ EpollMask.has ev.events flag → Step s [] ⟨s.epoller, .dispatching ev order rest⟩
  /-- A callback is executed. -/
  | run {s : Program κ} {ev : EpollEvent} {flag : Flag} {callback : κ}
      {order : List (Flag × κ)} {rest : List EpollEvent} :
      s.phase = .dispatching ev ((flag, callback) :: order) rest →
      EpollMask.has ev.events flag →
      Step s [.ran ev.fd flag callback] ⟨s.epoller, .inside ev order rest⟩
  /-- A callback returns. -/
  | callbackReturns {s : Program κ} {ev : EpollEvent} {order : List (Flag × κ)}
      {rest : List EpollEvent} :
      s.phase = .inside ev order rest → Step s [] ⟨s.epoller, .dispatching ev order rest⟩
  /-- All callbacks of a descriptor were looked at. -/
  | done {s : Program κ} {ev : EpollEvent} {rest : List EpollEvent} :
      s.phase = .dispatching ev [] rest → Step s [] ⟨s.epoller, .scanning rest⟩
  /-- All events were looked at. -/
  | finish {s : Program κ} :
      s.phase = .scanning [] → Step s [.returned] ⟨s.epoller, .idle⟩

end Epoller

end Ringmaster
