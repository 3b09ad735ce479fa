/-
# The two threads with their lock

The hand-off of `HandOff.lean` takes the mutex-protected sections of `src/app/decoder.cc`
for single steps.  Here the two threads run in the small steps of the source: locking and
unlocking `mtx_`, waiting for `cv_` with its predicate, being woken with or without a
notification, pushing a frame, and moving the frames of `shared_queue_` one at a time.

The main result is that nothing is lost by the coarser view: `Threads.atomic` maps a state
of the small steps to one of the atomic sections, and every run of the small steps is a run
of the atomic sections with the same events (`handOff_of_steps`).  What makes it true is
that the two threads are never in their sections together.
-/
import Ringmaster.DecoderCalls

open Unsigned

namespace Ringmaster

namespace Decoder

/-! ## The parts of `consume_next_frame` -/

/-- The beginning of `consume_next_frame`: the next frame, which must be complete. -/
def nextCompleteFrame (s : Decoder) : Except Exn Frame :=
  match s.frameBuf.find? s.nextFrame with
  | none => .error (.outOfRange "map::at")
  | some frame =>
    if frame.complete then .ok frame
    else .error (.runtimeError "next frame must be complete before consuming it")

/-- The line `shared_queue_.emplace_back(move(frame))`. -/
def dispatch (s : Decoder) (frame : Frame) : Decoder :=
  { s with
    sharedQueue := s.sharedQueue ++ [frame]
    frameBuf := s.frameBuf.update s.nextFrame frame.movedFrom }

/-- The parts make up the method, when the output line is written. -/
theorem consumeNextFrame_eq {s : Decoder} {frame : Frame} (h : s.nextCompleteFrame = .ok frame) :
    s.consumeNextFrame (.ok ()) = .ok (frame,
      (if s.lazyLevel.usesWorker then s.dispatch frame else s).advanceNextFrame 1) := by
  unfold nextCompleteFrame at h
  unfold consumeNextFrame
  cases hfind : s.frameBuf.find? s.nextFrame with
  | none => simp [hfind] at h
  | some fr =>
    simp only [hfind] at h ⊢
    split_ifs at h with hc
    rw [Except.ok.injEq] at h
    subst h
    rw [if_pos hc]
    split_ifs
    · rfl
    · rfl

/-- The next frame is there when it is complete. -/
theorem nextCompleteFrame_eq_ok_iff {s : Decoder} {frame : Frame} :
    s.nextCompleteFrame = .ok frame ↔
      s.frameBuf.find? s.nextFrame = some frame ∧ frame.complete := by
  unfold nextCompleteFrame
  cases hfind : s.frameBuf.find? s.nextFrame with
  | none => simp
  | some fr =>
    dsimp only
    split_ifs with hc
    · rw [Except.ok.injEq, Option.some_inj]
      constructor
      · rintro rfl
        exact ⟨rfl, hc⟩
      · exact fun h => h.1
    · rw [Option.some_inj]
      constructor
      · intro h
        simp at h
      · rintro ⟨rfl, hc'⟩
        exact absurd hc' hc

/-- A complete next frame is there. -/
theorem exists_nextCompleteFrame {s : Decoder} (h : s.IsComplete s.nextFrame) :
    ∃ frame, s.nextCompleteFrame = .ok frame := by
  obtain ⟨frame, hfind, hc⟩ := h
  exact ⟨frame, nextCompleteFrame_eq_ok_iff.mpr ⟨hfind, hc⟩⟩

/-- Dispatching the next frame keeps the invariant. -/
theorem Inv.dispatch {s : Decoder} {frame : Frame} (hs : s.Inv)
    (hfind : s.frameBuf.find? s.nextFrame = some frame) : (s.dispatch frame).Inv := by
  have hcontains : s.frameBuf.contains s.nextFrame := by simp [OrderedMap.contains, hfind]
  constructor
  · intro k fr hk
    dsimp only [Decoder.dispatch] at hk
    rw [OrderedMap.find?_update hcontains] at hk
    split_ifs at hk with h
    · rw [Option.some_inj] at hk
      rw [← hk, h]
      show frame.id = s.nextFrame
      exact hs.id_eq _ _ hfind
    · exact hs.id_eq k fr hk
  · intro k fr hk
    dsimp only [Decoder.dispatch] at hk
    rw [OrderedMap.find?_update hcontains] at hk
    split_ifs at hk with h
    · exact h ▸ le_rfl
    · exact hs.nextFrame_le k fr hk

/-- A test for a complete next frame leaves the level and the shared queue alone. -/
theorem fixed_nextFrameComplete {s s' : Decoder} {answer : Bool} (hs : s.Inv)
    (h : s.nextFrameComplete = .ok (answer, s')) :
    s'.lazyLevel = s.lazyLevel ∧ s'.sharedQueue = s.sharedQueue := by
  rcases nextFrameComplete_cases hs with ⟨-, hcase⟩ | ⟨-, k, -, -, -, hcase⟩ | ⟨-, -, hcase⟩
  · rw [h, Except.ok.injEq, Prod.mk.injEq] at hcase
    exact hcase.2 ▸ ⟨rfl, rfl⟩
  · rw [h, Except.ok.injEq, Prod.mk.injEq] at hcase
    exact hcase.2 ▸ ⟨rfl, rfl⟩
  · rw [h, Except.ok.injEq, Prod.mk.injEq] at hcase
    exact hcase.2 ▸ ⟨rfl, rfl⟩

/-- So does an addition. -/
theorem fixed_addDatagram {s s' : Decoder} {d : Datagram}
    (h : s.addDatagram d = (.ok (), s')) :
    s'.lazyLevel = s.lazyLevel ∧ s'.sharedQueue = s.sharedQueue := by
  rcases addDatagram_cases h with ⟨-, rfl⟩ | ⟨-, -, hlazy, hqueue, -⟩
  · exact ⟨rfl, rfl⟩
  · exact ⟨hlazy, hqueue⟩

/-! ## The shared queue is no concern of the buffer -/

/-- The same decoder with another shared queue. -/
def withQueue (s : Decoder) (queue : List Frame) : Decoder := { s with sharedQueue := queue }

@[simp] theorem withQueue_self (s : Decoder) : s.withQueue s.sharedQueue = s := rfl

@[simp] theorem sharedQueue_withQueue (s : Decoder) (queue : List Frame) :
    (s.withQueue queue).sharedQueue = queue := rfl

@[simp] theorem withQueue_withQueue (s : Decoder) (queue queue' : List Frame) :
    (s.withQueue queue).withQueue queue' = s.withQueue queue' := rfl

@[simp] theorem advanceNextFrame_withQueue (s : Decoder) (queue : List Frame) (n : UInt32) :
    (s.withQueue queue).advanceNextFrame n = (s.advanceNextFrame n).withQueue queue := rfl

/-- Looking a frame up, or making room for it, does not look at the shared queue. -/
theorem addDatagramCommon_withQueue (s : Decoder) (queue : List Frame) (d : Datagram) :
    (s.withQueue queue).addDatagramCommon d
      = (s.addDatagramCommon d).map fun r => (r.1, r.2.withQueue queue) := by
  by_cases hlt : d.frameId < s.nextFrame
  · have hlt' : d.frameId < (s.withQueue queue).nextFrame := hlt
    rw [addDatagramCommon, addDatagramCommon, if_pos hlt, if_pos hlt']
    rfl
  have hlt' : ¬ d.frameId < (s.withQueue queue).nextFrame := hlt
  rw [addDatagramCommon, addDatagramCommon, if_neg hlt, if_neg hlt']
  by_cases hc : s.frameBuf.contains d.frameId
  · have hc' : (s.withQueue queue).frameBuf.contains d.frameId := hc
    rw [if_pos hc, if_pos hc']
    rfl
  have hc' : ¬ (s.withQueue queue).frameBuf.contains d.frameId := hc
  rw [if_neg hc, if_neg hc']
  cases Frame.new d.frameId d.frameType d.fragCnt with
  | error e => rfl
  | ok frame => rfl

/-- An addition does not look at it. -/
theorem addDatagram_withQueue (s : Decoder) (queue : List Frame) (d : Datagram) :
    (s.withQueue queue).addDatagram d
      = ((s.addDatagram d).1, (s.addDatagram d).2.withQueue queue) := by
  unfold addDatagram
  rw [addDatagramCommon_withQueue]
  cases s.addDatagramCommon d with
  | error e => rfl
  | ok r =>
    obtain ⟨added, s'⟩ := r
    cases added with
    | false => rfl
    | true =>
      show (match s'.frameBuf.find? d.frameId with | none => _ | some frame => _) = _
      dsimp only
      cases s'.frameBuf.find? d.frameId with
      | none => rfl
      | some frame =>
        dsimp only
        cases frame.insertFragMove d with
        | error e => rfl
        | ok r => rfl

/-- A test for a complete next frame does not look at it either. -/
theorem nextFrameComplete_withQueue (s : Decoder) (queue : List Frame) :
    (s.withQueue queue).nextFrameComplete
      = s.nextFrameComplete.map fun r => (r.1, r.2.withQueue queue) := by
  by_cases hany : (s.frameBuf.find? s.nextFrame).any Frame.complete
  · have hany' :
        ((s.withQueue queue).frameBuf.find? (s.withQueue queue).nextFrame).any Frame.complete :=
      hany
    rw [nextFrameComplete, nextFrameComplete, if_pos hany, if_pos hany']
    rfl
  have hany' :
      ¬ ((s.withQueue queue).frameBuf.find? (s.withQueue queue).nextFrame).any Frame.complete :=
    hany
  rw [nextFrameComplete, nextFrameComplete, if_neg hany, if_neg hany']
  have hbuf : (s.withQueue queue).frameBuf = s.frameBuf := rfl
  rw [hbuf]
  cases hfind : s.frameBuf.entries.reverse.find?
      (fun e => decide (e.2.type = .key) && e.2.complete) with
  | none => rfl
  | some e =>
    dsimp only
    by_cases hgt : e.1 > s.nextFrame
    · have hgt' : e.1 > (s.withQueue queue).nextFrame := hgt
      rw [if_pos hgt, if_pos hgt']
      rfl
    · have hgt' : ¬ e.1 > (s.withQueue queue).nextFrame := hgt
      rw [if_neg hgt, if_neg hgt']
      rfl

end Decoder

namespace HandOff

/-! ## The small steps -/

/-- The two threads of the receiver. -/
inductive Thread where
  | main
  | worker
  deriving DecidableEq, Repr

/-- Where the main thread is: in `recv`, before a test of `next_frame_complete`, or in
`consume_next_frame`: at its beginning, before and in the mutex-protected section, behind
the push, before the notification, and before `advance_next_frame`. -/
inductive MainAt where
  | receive
  | check
  | consume
  | lock
  | push
  | unlock
  | notify
  | advance
  deriving DecidableEq, Repr

/-- Where the worker is: not started, before `unique_lock`, at the predicate of `cv_.wait`,
asleep in it, woken but without the lock, in the loop that empties `shared_queue_`, or in
the loop over the local queue. -/
inductive WorkerAt where
  | absent
  | lock
  | test
  | asleep
  | woken
  | move
  | process
  deriving DecidableEq, Repr

/-- Whether the main thread is in its mutex-protected section. -/
def MainAt.inSection : MainAt → Bool
  | .push => true
  | .unlock => true
  | _ => false

/-- Whether the worker is in its mutex-protected section. -/
def WorkerAt.inSection : WorkerAt → Bool
  | .test => true
  | .move => true
  | _ => false

/-- Whether the main thread is about to dispatch a frame that it has found complete. -/
def MainAt.dispatching : MainAt → Bool
  | .consume => true
  | .lock => true
  | .push => true
  | _ => false

/-- The state of both threads, `mtx_` and `cv_`.  The members of the decoder, `shared_queue_`
among them, are seen by both. -/
structure Threads where
  decoder : Decoder
  mutex : Option Thread
  main : MainAt
  worker : WorkerAt
  localQueue : List Frame
  deriving DecidableEq

namespace Threads

/-- The threads at the start: there is a worker for the levels that decode. -/
def initial (lazyLevel : LazyLevel) : Threads where
  decoder := Decoder.initial lazyLevel
  mutex := none
  main := .receive
  worker := if lazyLevel.usesWorker then .lock else .absent
  localQueue := []

/-- The call `cv_.notify_one()`, which wakes the worker if it is asleep. -/
def notifyOne (t : Threads) : Threads :=
  { t with worker := if t.worker = .asleep then .woken else t.worker }

/-- The steps of the main thread, but for the arrival of a datagram. -/
inductive MainStep : Threads → List Event → Threads → Prop
  | check {t : Threads} {answer : Bool} {s : Decoder} :
      t.main = .check → t.decoder.nextFrameComplete = .ok (answer, s) →
      MainStep t [] { t with decoder := s, main := if answer then .consume else .receive }
  /-- With a worker, the frame is going to be dispatched. -/
  | begin {t : Threads} {frame : Frame} :
      t.main = .consume → t.decoder.nextCompleteFrame = .ok frame →
      t.decoder.lazyLevel.usesWorker → MainStep t [] { t with main := .lock }
  /-- Without one, the main thread writes the output line, and is done with the frame. -/
  | keep {t : Threads} {frame : Frame} :
      t.main = .consume → t.decoder.nextCompleteFrame = .ok frame →
      ¬ t.decoder.lazyLevel.usesWorker →
      MainStep t [.consumed frame] { t with main := .advance }
  | lock {t : Threads} :
      t.main = .lock → t.mutex = none →
      MainStep t [] { t with mutex := some .main, main := .push }
  | push {t : Threads} {frame : Frame} :
      t.main = .push → t.decoder.frameBuf.find? t.decoder.nextFrame = some frame →
      MainStep t [.consumed frame]
        { t with decoder := t.decoder.dispatch frame, main := .unlock }
  | unlock {t : Threads} :
      t.main = .unlock → MainStep t [] { t with mutex := none, main := .notify }
  | notify {t : Threads} :
      t.main = .notify → MainStep t [] { t.notifyOne with main := .advance }
  | advance {t : Threads} :
      t.main = .advance →
      MainStep t [] { t with decoder := t.decoder.advanceNextFrame 1, main := .check }

/-- The steps of the worker, but for a spurious wake-up. -/
inductive WorkerStep : Threads → List Event → Threads → Prop
  | lock {t : Threads} :
      t.worker = .lock → t.mutex = none →
      WorkerStep t [] { t with mutex := some .worker, worker := .test }
  /-- The predicate is false: the worker releases the lock and falls asleep, in one step. -/
  | sleep {t : Threads} :
      t.worker = .test → t.decoder.sharedQueue = [] →
      WorkerStep t [] { t with mutex := none, worker := .asleep }
  /-- A worker that was woken takes the lock again, and goes back to the predicate. -/
  | relock {t : Threads} :
      t.worker = .woken → t.mutex = none →
      WorkerStep t [] { t with mutex := some .worker, worker := .test }
  | proceed {t : Threads} :
      t.worker = .test → t.decoder.sharedQueue ≠ [] →
      WorkerStep t [] { t with worker := .move }
  | move {t : Threads} {frame : Frame} {rest : List Frame} :
      t.worker = .move → t.decoder.sharedQueue = frame :: rest →
      WorkerStep t [] { t with
        decoder := t.decoder.withQueue rest
        localQueue := t.localQueue ++ [frame] }
  | unlock {t : Threads} :
      t.worker = .move → t.decoder.sharedQueue = [] →
      WorkerStep t [] { t with mutex := none, worker := .process }
  | process {t : Threads} {frame : Frame} {rest : List Frame} :
      t.worker = .process → t.localQueue = frame :: rest →
      WorkerStep t [.taken frame] { t with localQueue := rest }
  | again {t : Threads} :
      t.worker = .process → t.localQueue = [] → WorkerStep t [] { t with worker := .lock }

/-- What neither thread decides: a datagram arrives for the main thread, and a wait for
`cv_` ends without a notification. -/
inductive OutsideStep : Threads → List Event → Threads → Prop
  | arrival {t : Threads} {d : Datagram} {s : Decoder} :
      t.main = .receive → t.decoder.addDatagram d = (.ok (), s) →
      OutsideStep t [.received d] { t with decoder := s, main := .check }
  | spurious {t : Threads} :
      t.worker = .asleep → OutsideStep t [] { t with worker := .woken }

/-- The steps of the two threads. -/
def ThreadStep (t : Threads) (es : List Event) (t' : Threads) : Prop :=
  MainStep t es t' ∨ WorkerStep t es t'

/-- All steps. -/
def Step (t : Threads) (es : List Event) (t' : Threads) : Prop :=
  ThreadStep t es t' ∨ OutsideStep t es t'

/-! ## The lock -/

/-- What holds between the small steps: a thread holds the lock exactly in its section, the
worker is there when the level asks for one, the frame that the main thread is about to
dispatch is complete, the local queue is empty where the worker does not use it, and the
worker is not asleep next to a frame unless a notification is due. -/
structure Guarded (t : Threads) : Prop where
  inv : t.decoder.Inv
  main_iff : t.mutex = some .main ↔ t.main.inSection
  worker_iff : t.mutex = some .worker ↔ t.worker.inSection
  absent_iff : t.worker = .absent ↔ ¬ t.decoder.lazyLevel.usesWorker
  uses : t.main = .lock ∨ t.main = .push ∨ t.main = .unlock ∨ t.main = .notify →
    t.decoder.lazyLevel.usesWorker
  next : t.main.dispatching → ∃ frame, t.decoder.nextCompleteFrame = .ok frame
  local_eq : t.localQueue = [] ∨ t.worker = .move ∨ t.worker = .process
  asleep : t.worker = .asleep → t.decoder.sharedQueue = [] ∨ t.main = .unlock ∨ t.main = .notify

theorem guarded_initial (lazyLevel : LazyLevel) : Guarded (initial lazyLevel) where
  inv := Decoder.inv_initial lazyLevel
  main_iff := by simp [initial, MainAt.inSection]
  worker_iff := by
    unfold initial
    cases lazyLevel.usesWorker with
    | true => simp [WorkerAt.inSection]
    | false => simp [WorkerAt.inSection]
  absent_iff := by
    unfold initial Decoder.initial
    cases lazyLevel.usesWorker with
    | true => simp
    | false => simp
  uses := fun h => by simp [initial] at h
  next := fun h => by simp [initial, MainAt.dispatching] at h
  local_eq := Or.inl rfl
  asleep := fun _ => Or.inl rfl

variable {t t' : Threads} {es : List Event}

/-- The steps of the main thread keep the invariant. -/
theorem Guarded.mainStep (h : Guarded t) (hstep : MainStep t es t') : Guarded t' := by
  cases hstep with
  | @check answer s hpc hcheck =>
    obtain ⟨hlazy, hqueue⟩ := Decoder.fixed_nextFrameComplete h.inv hcheck
    have hmain := h.main_iff
    have hasleep := h.asleep
    rw [hpc] at hmain hasleep
    refine ⟨h.inv.nextFrameComplete hcheck, ?_, h.worker_iff, ?_, ?_, ?_, h.local_eq, ?_⟩
    · rw [hmain]
      cases answer with
      | true => rfl
      | false => rfl
    · rw [hlazy]
      exact h.absent_iff
    · cases answer with
      | true => simp
      | false => simp
    · cases answer with
      | true =>
        exact fun _ => Decoder.exists_nextCompleteFrame
          (Decoder.isComplete_of_nextFrameComplete h.inv hcheck)
      | false => simp [MainAt.dispatching]
    · intro hsleep
      have := hasleep hsleep
      simp only [reduceCtorEq, or_false] at this
      exact Or.inl (hqueue.trans this)
  | begin hpc hnext huses =>
    have hmain := h.main_iff
    have hasleep := h.asleep
    rw [hpc] at hmain hasleep
    exact ⟨h.inv, hmain, h.worker_iff, h.absent_iff, fun _ => huses, fun _ => ⟨_, hnext⟩,
      h.local_eq, fun hsleep => Or.inl (by simpa using hasleep hsleep)⟩
  | keep hpc hnext huses =>
    have hmain := h.main_iff
    have hasleep := h.asleep
    rw [hpc] at hmain hasleep
    exact ⟨h.inv, hmain, h.worker_iff, h.absent_iff, by simp, by simp [MainAt.dispatching],
      h.local_eq, fun hsleep => Or.inl (by simpa using hasleep hsleep)⟩
  | lock hpc hmutex =>
    have hworker := h.worker_iff
    have hasleep := h.asleep
    have hnext := h.next
    rw [hmutex] at hworker
    rw [hpc] at hasleep hnext
    refine ⟨h.inv, by simp [MainAt.inSection], by simpa using hworker, h.absent_iff,
      fun _ => h.uses (Or.inl hpc), fun _ => hnext rfl, h.local_eq,
      fun hsleep => Or.inl (by simpa using hasleep hsleep)⟩
  | push hpc hfind =>
    have hmain := h.main_iff
    rw [hpc] at hmain
    exact ⟨h.inv.dispatch hfind, hmain, h.worker_iff, h.absent_iff,
      fun _ => h.uses (Or.inr (Or.inl hpc)), by simp [MainAt.dispatching], h.local_eq,
      fun _ => Or.inr (Or.inl rfl)⟩
  | unlock hpc =>
    have hmain := h.main_iff
    have hworker := h.worker_iff
    rw [hpc] at hmain
    rw [hmain.mpr rfl] at hworker
    refine ⟨h.inv, by simp [MainAt.inSection], by simpa using hworker, h.absent_iff,
      fun _ => h.uses (Or.inr (Or.inr (Or.inl hpc))), by simp [MainAt.dispatching], h.local_eq,
      fun _ => Or.inr (Or.inr rfl)⟩
  | notify hpc =>
    have hmain := h.main_iff
    have hworker := h.worker_iff
    have habsent := h.absent_iff
    have hlocal := h.local_eq
    rw [hpc] at hmain
    unfold notifyOne
    refine ⟨h.inv, hmain, ?_, ?_, by simp, by simp [MainAt.dispatching], ?_, ?_⟩
    · rw [hworker]
      dsimp only
      split_ifs with hsleep
      · rw [hsleep]
        rfl
      · rfl
    · dsimp only
      rw [← habsent]
      split_ifs with hsleep
      · simp [hsleep]
      · rfl
    · dsimp only
      split_ifs with hsleep
      · simpa [hsleep] using hlocal
      · exact hlocal
    · dsimp only
      split_ifs with hsleep
      · simp
      · exact fun h' => absurd h' hsleep
  | advance hpc =>
    have hmain := h.main_iff
    have hasleep := h.asleep
    rw [hpc] at hmain hasleep
    exact ⟨h.inv.eraseBelow _, hmain, h.worker_iff, h.absent_iff, by simp,
      by simp [MainAt.dispatching], h.local_eq,
      fun hsleep => Or.inl (by simpa using hasleep hsleep)⟩

/-- The steps of the worker keep it. -/
theorem Guarded.workerStep (h : Guarded t) (hstep : WorkerStep t es t') : Guarded t' := by
  have hmain := h.main_iff
  have hworker := h.worker_iff
  have habsent := h.absent_iff
  have hlocal := h.local_eq
  cases hstep with
  | lock hpc hmutex =>
    rw [hmutex] at hmain
    rw [hpc] at habsent hlocal
    exact ⟨h.inv, by simpa using hmain, by simp [WorkerAt.inSection], by simpa using habsent,
      h.uses, h.next, Or.inl (by simpa using hlocal), by simp⟩
  | sleep hpc hempty =>
    rw [hpc] at hworker habsent hlocal
    rw [hworker.mpr rfl] at hmain
    exact ⟨h.inv, by simpa using hmain, by simp [WorkerAt.inSection], by simpa using habsent,
      h.uses, h.next, Or.inl (by simpa using hlocal), fun _ => Or.inl hempty⟩
  | relock hpc hmutex =>
    rw [hmutex] at hmain
    rw [hpc] at habsent hlocal
    exact ⟨h.inv, by simpa using hmain, by simp [WorkerAt.inSection], by simpa using habsent,
      h.uses, h.next, Or.inl (by simpa using hlocal), by simp⟩
  | proceed hpc _ =>
    rw [hpc] at hworker habsent
    exact ⟨h.inv, hmain, hworker, by simpa using habsent, h.uses, h.next, Or.inr (Or.inl rfl),
      by simp⟩
  | move hpc _ =>
    refine ⟨⟨h.inv.id_eq, h.inv.nextFrame_le⟩, hmain, hworker, habsent, h.uses, h.next,
      Or.inr (Or.inl hpc), ?_⟩
    rw [hpc]
    simp
  | unlock hpc _ =>
    rw [hpc] at hworker habsent
    rw [hworker.mpr rfl] at hmain
    exact ⟨h.inv, by simpa using hmain, by simp [WorkerAt.inSection], by simpa using habsent,
      h.uses, h.next, Or.inr (Or.inr rfl), by simp⟩
  | process hpc _ =>
    refine ⟨h.inv, hmain, hworker, habsent, h.uses, h.next, Or.inr (Or.inr hpc), ?_⟩
    rw [hpc]
    simp
  | again hpc hempty =>
    rw [hpc] at hworker habsent
    exact ⟨h.inv, hmain, hworker, by simpa using habsent, h.uses, h.next, Or.inl hempty, by simp⟩

/-- So do the arrivals and the spurious wake-ups. -/
theorem Guarded.outsideStep (h : Guarded t) (hstep : OutsideStep t es t') : Guarded t' := by
  cases hstep with
  | @arrival d s hpc hadd =>
    obtain ⟨hlazy, hqueue⟩ := Decoder.fixed_addDatagram hadd
    have hmain := h.main_iff
    have hasleep := h.asleep
    rw [hpc] at hmain hasleep
    refine ⟨h.inv.addDatagram hadd, hmain, h.worker_iff, ?_, by simp,
      by simp [MainAt.dispatching], h.local_eq, ?_⟩
    · rw [hlazy]
      exact h.absent_iff
    · intro hsleep
      exact Or.inl (hqueue.trans (by simpa using hasleep hsleep))
  | spurious hpc =>
    have hworker := h.worker_iff
    have habsent := h.absent_iff
    have hlocal := h.local_eq
    rw [hpc] at hworker habsent hlocal
    exact ⟨h.inv, h.main_iff, hworker, by simpa using habsent, h.uses, h.next,
      Or.inl (by simpa using hlocal), by simp⟩

/-- Every step keeps the invariant. -/
theorem Guarded.step (h : Guarded t) (hstep : Step t es t') : Guarded t' := by
  rcases hstep with (hstep | hstep) | hstep
  · exact h.mainStep hstep
  · exact h.workerStep hstep
  · exact h.outsideStep hstep

/-- In every run the invariant holds. -/
theorem guarded_of_steps {lazyLevel : LazyLevel} (h : Run.Steps Step (initial lazyLevel) es t) :
    Guarded t :=
  h.invariant (fun _ t => Guarded t) (guarded_initial lazyLevel)
    (fun _ _ _ _ hI hstep => hI.step hstep)

/-- A step of a thread is no arrival. -/
theorem received_notMem_of_threadStep (hstep : ThreadStep t es t') (d : Datagram) :
    .received d ∉ es := by
  rcases hstep with hstep | hstep
  · cases hstep with
    | check => exact List.not_mem_nil
    | begin => exact List.not_mem_nil
    | keep => simp
    | lock => exact List.not_mem_nil
    | push => simp
    | unlock => exact List.not_mem_nil
    | notify => exact List.not_mem_nil
    | advance => exact List.not_mem_nil
  · cases hstep with
    | lock => exact List.not_mem_nil
    | sleep => exact List.not_mem_nil
    | relock => exact List.not_mem_nil
    | proceed => exact List.not_mem_nil
    | move => exact List.not_mem_nil
    | unlock => exact List.not_mem_nil
    | process => simp
    | again => exact List.not_mem_nil

/-- The two threads are not in their sections together. -/
theorem Guarded.exclusive (h : Guarded t) : ¬ (t.main.inSection ∧ t.worker.inSection) := by
  rintro ⟨hmain, hworker⟩
  have h₁ := h.main_iff.mpr hmain
  rw [h.worker_iff.mpr hworker] at h₁
  simp at h₁

end Threads

/-! ## The view of the atomic sections -/

/-- What is left of the main thread's position: the push counts as the whole of
`consume_next_frame`. -/
def MainAt.atomic : MainAt → MainPc
  | .receive => .receive
  | .check => .check
  | .consume => .consume
  | .lock => .consume
  | .push => .consume
  | .unlock => .check
  | .notify => .check
  | .advance => .check

/-- Whether the main thread has pushed the frame but not moved on. -/
def MainAt.pushed : MainAt → Bool
  | .unlock => true
  | .notify => true
  | .advance => true
  | _ => false

/-- A worker that moves frames counts as having moved all of them. -/
def WorkerAt.seen (pos : WorkerAt) (s : Decoder) : Decoder :=
  if pos = .move then s.withQueue [] else s

namespace Threads

/-- The state of the atomic sections that a state of the small steps stands for. -/
def atomic (t : Threads) : Pipeline where
  decoder := t.worker.seen (if t.main.pushed then t.decoder.advanceNextFrame 1 else t.decoder)
  pc := t.main.atomic
  localQueue :=
    if t.worker = .move then t.localQueue ++ t.decoder.sharedQueue else t.localQueue

theorem atomic_initial (lazyLevel : LazyLevel) :
    (initial lazyLevel).atomic = HandOff.initial lazyLevel := by
  unfold initial
  cases lazyLevel.usesWorker with
  | true => rfl
  | false => rfl

variable {t t' : Threads} {es : List Event}

/-- Each step of the main thread is one of the atomic sections, or is not seen there. -/
theorem atomic_of_mainStep (h : Guarded t) (hstep : MainStep t es t') :
    (es = [] ∧ t'.atomic = t.atomic) ∨ HandOff.Step t.atomic es t'.atomic := by
  cases hstep with
  | @check answer s hpc hcheck =>
    right
    have hseen : (t.worker.seen t.decoder).nextFrameComplete
        = .ok (answer, t.worker.seen s) := by
      unfold WorkerAt.seen
      split_ifs
      · rw [Decoder.nextFrameComplete_withQueue, hcheck]
        rfl
      · exact hcheck
    obtain ⟨-, hqueue⟩ := Decoder.fixed_nextFrameComplete h.inv hcheck
    have hatomic : t.atomic.decoder = t.worker.seen t.decoder := by
      unfold atomic
      rw [hpc]
      rfl
    have hpc' : t.atomic.pc = .check := by
      unfold atomic
      rw [hpc]
      rfl
    have := @Step.check t.atomic answer (t.worker.seen s) hpc' (hatomic ▸ hseen)
    convert this using 1
    unfold atomic
    dsimp only
    rw [hqueue]
    cases answer with
    | true => rfl
    | false => rfl
  | begin hpc _ _ =>
    left
    refine ⟨rfl, ?_⟩
    unfold atomic
    rw [hpc]
    rfl
  | @keep frame hpc hnext huses =>
    right
    have habsent := h.absent_iff.mpr huses
    have heq := Decoder.consumeNextFrame_eq hnext
    rw [if_neg huses] at heq
    have hatomic : t.atomic = ⟨t.decoder, .consume, t.localQueue⟩ := by
      unfold atomic WorkerAt.seen
      rw [hpc, habsent]
      rfl
    have hatomic' : ({ t with main := .advance } : Threads).atomic
        = ⟨t.decoder.advanceNextFrame 1, .check, t.localQueue⟩ := by
      unfold atomic WorkerAt.seen
      rw [habsent]
      rfl
    rw [hatomic, hatomic']
    exact Step.consume rfl heq
  | lock hpc _ =>
    left
    refine ⟨rfl, ?_⟩
    unfold atomic
    rw [hpc]
    rfl
  | @push frame hpc hfind =>
    right
    -- the worker is not in its section, so it does not move frames
    have hnot : t.worker ≠ .move := by
      intro hmove
      refine h.exclusive ⟨?_, ?_⟩
      · rw [hpc]
        rfl
      · rw [hmove]
        rfl
    have huses := h.uses (Or.inr (Or.inl hpc))
    obtain ⟨fr, hnext⟩ := h.next (by rw [hpc]; rfl)
    have hfr := (Decoder.nextCompleteFrame_eq_ok_iff.mp hnext).1
    rw [hfind, Option.some_inj] at hfr
    subst hfr
    have heq := Decoder.consumeNextFrame_eq hnext
    rw [if_pos huses] at heq
    have hatomic : t.atomic = ⟨t.decoder, .consume, t.localQueue⟩ := by
      unfold atomic WorkerAt.seen
      rw [hpc, if_neg hnot, if_neg hnot]
      rfl
    have hatomic' :
        ({ t with decoder := t.decoder.dispatch frame, main := .unlock } : Threads).atomic
          = ⟨(t.decoder.dispatch frame).advanceNextFrame 1, .check, t.localQueue⟩ := by
      unfold atomic WorkerAt.seen
      dsimp only
      rw [if_neg hnot, if_neg hnot]
      rfl
    rw [hatomic, hatomic']
    exact Step.consume rfl heq
  | unlock hpc =>
    left
    refine ⟨rfl, ?_⟩
    unfold atomic
    rw [hpc]
    rfl
  | notify hpc =>
    left
    refine ⟨rfl, ?_⟩
    unfold atomic notifyOne WorkerAt.seen
    rw [hpc]
    by_cases hsleep : t.worker = .asleep
    · rw [hsleep]
      rfl
    · dsimp only
      rw [if_neg hsleep]
      rfl
  | advance hpc =>
    left
    refine ⟨rfl, ?_⟩
    unfold atomic
    rw [hpc]
    rfl

/-- The same for the worker. -/
theorem atomic_of_workerStep (h : Guarded t) (hstep : WorkerStep t es t') :
    (es = [] ∧ t'.atomic = t.atomic) ∨ HandOff.Step t.atomic es t'.atomic := by
  have hlocal := h.local_eq
  cases hstep with
  | lock hpc _ =>
    left
    refine ⟨rfl, ?_⟩
    unfold atomic
    rw [hpc]
    rfl
  | sleep hpc _ =>
    left
    refine ⟨rfl, ?_⟩
    unfold atomic
    rw [hpc]
    rfl
  | relock hpc _ =>
    left
    refine ⟨rfl, ?_⟩
    unfold atomic
    rw [hpc]
    rfl
  | proceed hpc hne =>
    right
    -- the worker counts as having fetched all frames as soon as it sees one
    rw [hpc] at hlocal
    have hempty : t.localQueue = [] := by simpa using hlocal
    have hatomic : t.atomic
        = ⟨if t.main.pushed then t.decoder.advanceNextFrame 1 else t.decoder, t.main.atomic,
          []⟩ := by
      unfold atomic WorkerAt.seen
      rw [hpc, hempty]
      rfl
    have hqueue : t.atomic.decoder.sharedQueue = t.decoder.sharedQueue := by
      rw [hatomic]
      dsimp only
      split_ifs
      · rfl
      · rfl
    have hatomic' : ({ t with worker := .move } : Threads).atomic
        = { t.atomic with
            decoder := { t.atomic.decoder with sharedQueue := [] }
            localQueue := t.atomic.decoder.sharedQueue } := by
      rw [hqueue, hatomic]
      unfold atomic WorkerAt.seen
      dsimp only
      rw [if_pos rfl, if_pos rfl, hempty]
      rfl
    rw [hatomic']
    exact Step.workerFetch (by rw [hatomic]) (by rw [hqueue]; exact hne)
  | @move frame rest hpc hqueue =>
    left
    refine ⟨rfl, ?_⟩
    unfold atomic WorkerAt.seen
    dsimp only
    rw [if_pos hpc, if_pos hpc, if_pos hpc, if_pos hpc, hqueue]
    simp only [Decoder.sharedQueue_withQueue, List.append_assoc, List.singleton_append]
    split_ifs
    · rfl
    · rfl
  | unlock hpc hempty =>
    left
    refine ⟨rfl, ?_⟩
    unfold atomic WorkerAt.seen
    dsimp only
    have hne : WorkerAt.process ≠ .move := by decide
    rw [if_pos hpc, if_pos hpc, if_neg hne, if_neg hne, hempty, List.append_nil]
    have hself : t.decoder.withQueue [] = t.decoder := by
      rw [← hempty, Decoder.withQueue_self]
    split_ifs
    · rw [← Decoder.advanceNextFrame_withQueue, hself]
    · rw [hself]
  | @process frame rest hpc hqueue =>
    right
    have hatomic : t.atomic.localQueue = frame :: rest := by
      unfold atomic
      rw [hpc, hqueue]
      rfl
    have hatomic' : ({ t with localQueue := rest } : Threads).atomic
        = { t.atomic with localQueue := rest } := by
      unfold atomic
      rw [hpc]
      rfl
    rw [hatomic']
    exact Step.workerTake hatomic
  | again hpc _ =>
    left
    refine ⟨rfl, ?_⟩
    unfold atomic
    rw [hpc]
    rfl

/-- The same for arrivals and spurious wake-ups. -/
theorem atomic_of_outsideStep (hstep : OutsideStep t es t') :
    (es = [] ∧ t'.atomic = t.atomic) ∨ HandOff.Step t.atomic es t'.atomic := by
  cases hstep with
  | @arrival d s hpc hadd =>
    right
    have hseen : (t.worker.seen t.decoder).addDatagram d = (.ok (), t.worker.seen s) := by
      unfold WorkerAt.seen
      split_ifs
      · rw [Decoder.addDatagram_withQueue, hadd]
      · exact hadd
    obtain ⟨-, hqueue⟩ := Decoder.fixed_addDatagram hadd
    have hatomic : t.atomic.decoder = t.worker.seen t.decoder := by
      unfold atomic
      rw [hpc]
      rfl
    have hpc' : t.atomic.pc = .receive := by
      unfold atomic
      rw [hpc]
      rfl
    have hatomic' : ({ t with decoder := s, main := .check } : Threads).atomic
        = { t.atomic with decoder := t.worker.seen s, pc := .check } := by
      unfold atomic
      dsimp only
      rw [hqueue]
      rfl
    rw [hatomic']
    exact Step.receive hpc' (hatomic ▸ hseen)
  | spurious hpc =>
    left
    refine ⟨rfl, ?_⟩
    unfold atomic
    rw [hpc]
    rfl

/-- Every step is one of the atomic sections, or is not seen there. -/
theorem atomic_of_step (h : Guarded t) (hstep : Step t es t') :
    (es = [] ∧ t'.atomic = t.atomic) ∨ HandOff.Step t.atomic es t'.atomic := by
  rcases hstep with (hstep | hstep) | hstep
  · exact atomic_of_mainStep h hstep
  · exact atomic_of_workerStep h hstep
  · exact atomic_of_outsideStep hstep

/-! ## The refinement -/

/-- A run of the small steps is a run of the atomic sections. -/
theorem atomic_of_steps {lazyLevel : LazyLevel} (h : Run.Steps Step (initial lazyLevel) es t) :
    Run.Steps HandOff.Step (HandOff.initial lazyLevel) es t.atomic := by
  rw [← atomic_initial]
  exact (h.refine atomic Guarded (guarded_initial lazyLevel) (fun _ _ _ hI hstep => hI.step hstep)
    (fun _ _ _ hI hstep => atomic_of_step hI hstep)).2

/-- However the two threads interleave in their small steps, with datagrams that arrive and
spurious wake-ups at any time, they are never both in their mutex-protected sections, and
what they do is a run of the atomic sections with the same events. -/
theorem handOff_of_steps {lazyLevel : LazyLevel} (h : Run.Steps Step (initial lazyLevel) es t) :
    ¬ (t.main.inSection ∧ t.worker.inSection) ∧
      Run.Steps HandOff.Step (HandOff.initial lazyLevel) es t.atomic :=
  ⟨(guarded_of_steps h).exclusive, atomic_of_steps h⟩

/-- A key frame of one fragment is pushed while the worker is asleep. -/
theorem steps_push :
    let d : Datagram := ⟨0, .key, 0, 1, 10, [7], 0, 0⟩
    let frame : Frame := ⟨0, .key, [some d], 0, 1⟩
    let s : Decoder := ⟨.decodeOnly, 0, ⟨[(0, frame)], List.pairwise_singleton _ _⟩, []⟩
    Run.Steps Step (initial .decodeOnly) [.received d, .consumed frame]
      ⟨s.dispatch frame, some .main, .unlock, .asleep, []⟩ := by
  intro d frame s
  have h₁ : Step (initial .decodeOnly) [] ⟨Decoder.initial .decodeOnly, some .worker, .receive,
      .test, []⟩ := Or.inl (Or.inr (WorkerStep.lock rfl rfl))
  have h₂ : Step ⟨Decoder.initial .decodeOnly, some .worker, .receive, .test, []⟩ []
      ⟨Decoder.initial .decodeOnly, none, .receive, .asleep, []⟩ :=
    Or.inl (Or.inr (WorkerStep.sleep rfl rfl))
  have h₃ : Step ⟨Decoder.initial .decodeOnly, none, .receive, .asleep, []⟩ [.received d]
      ⟨s, none, .check, .asleep, []⟩ := Or.inr (@OutsideStep.arrival _ d s rfl (by decide))
  have h₄ : Step ⟨s, none, .check, .asleep, []⟩ [] ⟨s, none, .consume, .asleep, []⟩ :=
    Or.inl (Or.inl (@MainStep.check _ true _ rfl rfl))
  have h₅ : Step ⟨s, none, .consume, .asleep, []⟩ [] ⟨s, none, .lock, .asleep, []⟩ :=
    Or.inl (Or.inl (@MainStep.begin _ frame rfl rfl rfl))
  have h₆ : Step ⟨s, none, .lock, .asleep, []⟩ [] ⟨s, some .main, .push, .asleep, []⟩ :=
    Or.inl (Or.inl (MainStep.lock rfl rfl))
  have h₇ : Step ⟨s, some .main, .push, .asleep, []⟩ [.consumed frame]
      ⟨s.dispatch frame, some .main, .unlock, .asleep, []⟩ :=
    Or.inl (Or.inl (MainStep.push rfl rfl))
  exact ((((((Run.Steps.single h₁).tail h₂).tail h₃).tail h₄).tail h₅).tail h₆).tail h₇

/-- A state in which the lock is held and a notification is due. -/
theorem handOff_of_steps_push : ∃ es t, Run.Steps Step (initial .decodeOnly) es t ∧
    t.mutex = some .main ∧ t.worker = .asleep ∧ t.decoder.sharedQueue ≠ [] ∧
    ¬ (t.main.inSection ∧ t.worker.inSection) ∧
    Run.Steps HandOff.Step (HandOff.initial .decodeOnly) es t.atomic :=
  ⟨_, _, steps_push, rfl, rfl, List.cons_ne_nil _ _, handOff_of_steps steps_push⟩

end Threads

end HandOff

end Ringmaster
