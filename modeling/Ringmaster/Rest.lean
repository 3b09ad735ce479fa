/-
# The two threads come to rest

What the small steps of `Threads.lean` lead to when nothing more arrives.  Each step of
either thread makes a measure smaller (`rank_lt_of_threadStep`): a frame that is still
buffered, pushed or moved is worth more than all the steps it takes to get it to the next
place, the wake-up that a push may cause among them.  So the threads stop, under every
schedule; and where they stop, the main thread is back in `recv`, the worker is asleep, and
every frame that was consumed has been taken up for decoding.
-/
import Ringmaster.Threads

open Unsigned

namespace Ringmaster

namespace HandOff

namespace Threads

/-! ## What is buffered -/

/-- No frame with the last id is buffered, and a frame that was pushed keeps its place in the
buffer until the main thread moves on. -/
structure Buffered (t : Threads) : Prop where
  lt : ∀ k, t.decoder.frameBuf.contains k → k < maxUInt32
  next : t.main.pushed → t.decoder.frameBuf.contains t.decoder.nextFrame

theorem buffered_initial (lazyLevel : LazyLevel) : Buffered (initial lazyLevel) where
  lt := fun k h => by simp [initial, Decoder.initial, OrderedMap.contains] at h
  next := fun h => by simp [initial, MainAt.pushed] at h

/-- A next frame that is complete is buffered. -/
theorem contains_of_nextCompleteFrame {s : Decoder} {frame : Frame}
    (h : s.nextCompleteFrame = .ok frame) : s.frameBuf.contains s.nextFrame := by
  simp [OrderedMap.contains, (Decoder.nextCompleteFrame_eq_ok_iff.mp h).1]

/-- Dispatching a frame leaves the buffered ids alone. -/
theorem contains_dispatch {s : Decoder} {frame : Frame} (h : s.frameBuf.contains s.nextFrame)
    (k : UInt32) : (s.dispatch frame).frameBuf.contains k = s.frameBuf.contains k := by
  unfold Decoder.dispatch OrderedMap.contains
  rw [OrderedMap.find?_update h]
  split_ifs with hk
  · rw [hk]
    exact h.symm
  · rfl

/-- Erasing the frames below an id buffers no new one. -/
theorem contains_of_eraseBelow {m : OrderedMap UInt32 Frame} {k k' : UInt32}
    (h : (m.eraseBelow k).contains k') : k ≤ k' ∧ m.contains k' := by
  rw [OrderedMap.contains, OrderedMap.find?_eraseBelow] at h
  split_ifs at h with hlt
  · simp at h
  · exact ⟨not_lt.mp hlt, h⟩

/-- A test for a complete next frame buffers no new one. -/
theorem contains_of_nextFrameComplete {s s' : Decoder} {answer : Bool} (hs : s.Inv)
    (h : s.nextFrameComplete = .ok (answer, s')) {k : UInt32} (hk : s'.frameBuf.contains k) :
    s.frameBuf.contains k := by
  rcases Decoder.nextFrameComplete_cases hs with ⟨-, hcase⟩ | ⟨-, k', -, -, -, hcase⟩ |
    ⟨-, -, hcase⟩
  · rw [h, Except.ok.injEq, Prod.mk.injEq] at hcase
    exact hcase.2 ▸ hk
  · rw [h, Except.ok.injEq, Prod.mk.injEq] at hcase
    rw [hcase.2] at hk
    exact (contains_of_eraseBelow hk).2
  · rw [h, Except.ok.injEq, Prod.mk.injEq] at hcase
    exact hcase.2 ▸ hk

variable {t t' : Threads} {es : List Event}

/-- The steps of the main thread keep these facts. -/
theorem Buffered.mainStep (hb : Buffered t) (h : Guarded t) (hstep : MainStep t es t') :
    Buffered t' := by
  cases hstep with
  | @check answer s hpc hcheck =>
    refine ⟨fun k hk => hb.lt k (contains_of_nextFrameComplete h.inv hcheck hk), ?_⟩
    cases answer with
    | true => simp [MainAt.pushed]
    | false => simp [MainAt.pushed]
  | begin => exact ⟨hb.lt, by simp [MainAt.pushed]⟩
  | keep _ hnext _ => exact ⟨hb.lt, fun _ => contains_of_nextCompleteFrame hnext⟩
  | lock => exact ⟨hb.lt, by simp [MainAt.pushed]⟩
  | push _ hfind =>
    have hcontains : t.decoder.frameBuf.contains t.decoder.nextFrame := by
      simp [OrderedMap.contains, hfind]
    refine ⟨fun k hk => hb.lt k ?_, fun _ => ?_⟩
    · rwa [contains_dispatch hcontains] at hk
    · show (t.decoder.dispatch _).frameBuf.contains t.decoder.nextFrame
      rwa [contains_dispatch hcontains]
  | unlock hpc => exact ⟨hb.lt, fun _ => hb.next (by rw [hpc]; rfl)⟩
  | notify hpc => exact ⟨hb.lt, fun _ => hb.next (by rw [hpc]; rfl)⟩
  | advance => exact ⟨fun k hk => hb.lt k (contains_of_eraseBelow hk).2, by simp [MainAt.pushed]⟩

/-- Every step keeps them, when the datagrams that arrive have ids below the last one. -/
theorem Buffered.step (hb : Buffered t) (h : Guarded t) (hstep : Step t es t')
    (hids : ∀ d, .received d ∈ es → d.frameId < maxUInt32) : Buffered t' := by
  rcases hstep with (hstep | hstep) | hstep
  · exact hb.mainStep h hstep
  · cases hstep with
    | lock => exact ⟨hb.lt, hb.next⟩
    | sleep => exact ⟨hb.lt, hb.next⟩
    | relock => exact ⟨hb.lt, hb.next⟩
    | proceed => exact ⟨hb.lt, hb.next⟩
    | move => exact ⟨hb.lt, hb.next⟩
    | unlock => exact ⟨hb.lt, hb.next⟩
    | process => exact ⟨hb.lt, hb.next⟩
    | again => exact ⟨hb.lt, hb.next⟩
  · cases hstep with
    | @arrival d s _ hadd =>
      refine ⟨fun k hk => ?_, by simp [MainAt.pushed]⟩
      rcases Decoder.addDatagram_cases hadd with ⟨-, rfl⟩ | ⟨-, -, -, -, -, _, -, -, -, hfind⟩
      · exact hb.lt k hk
      · dsimp only at hk
        rw [OrderedMap.contains, hfind] at hk
        split_ifs at hk with hkd
        · exact hkd ▸ hids d List.mem_cons_self
        · exact hb.lt k hk
    | spurious => exact ⟨hb.lt, hb.next⟩

/-- They hold in every run over datagrams with ids below the last one. -/
theorem buffered_of_steps {lazyLevel : LazyLevel}
    (h : Run.Steps Step (initial lazyLevel) es t)
    (hids : ∀ d, .received d ∈ es → d.frameId < maxUInt32) : Guarded t ∧ Buffered t := by
  refine h.invariant_of_guard (fun es => ∀ d, .received d ∈ es → d.frameId < maxUInt32)
    (fun _ t => Guarded t ∧ Buffered t) ?_ ⟨guarded_initial lazyLevel, buffered_initial lazyLevel⟩
    ?_ hids
  · exact fun es es' hG d hd => hG d (List.mem_append_left _ hd)
  · exact fun es t es' u hG hI hstep => ⟨hI.1.step hstep,
      hI.2.step hI.1 hstep (fun d hd => hG d (List.mem_append_right _ hd))⟩

/-! ## The measure -/

/-- A bound for the steps that the main thread has left.  A buffered frame pays for the seven
steps from one test to the next, for the six units that its push adds to the worker's bound,
and for the two that the notification adds. -/
def mainRank (t : Threads) : ℕ :=
  let n := 16 * t.decoder.frameBuf.entries.length
  match t.main with
  | .receive => 0
  | .check => n + 1
  | .consume => n
  | .lock => n - 1
  | .push => n - 2
  | .unlock => n - 9
  | .notify => n - 10
  | .advance => n - 13

/-- A bound for the steps that the worker has left. -/
def workerRank (t : Threads) : ℕ :=
  let shared := t.decoder.sharedQueue.length
  match t.worker with
  | .absent => 0
  | .lock => 2 + 6 * shared
  | .test => 1 + 6 * shared
  | .asleep => 6 * shared
  | .woken => 2 + 6 * shared
  | .move => 4 + 2 * shared + t.localQueue.length
  | .process => 3 + 6 * shared + t.localQueue.length

/-- The measure. -/
def rank (t : Threads) : ℕ := t.mainRank + t.workerRank

/-- A map with a key has an entry. -/
theorem length_pos_of_contains {m : OrderedMap UInt32 Frame} {k : UInt32} (h : m.contains k) :
    0 < m.entries.length := by
  obtain ⟨v, hv⟩ := Option.isSome_iff_exists.mp h
  exact List.length_pos_of_mem (OrderedMap.find?_eq_some_iff.mp hv)

/-- Where the worker's bound stays, the main thread's decides. -/
theorem rank_lt_of_mainRank_lt (hworker : t'.workerRank = t.workerRank)
    (hmain : t'.mainRank < t.mainRank) : t'.rank < t.rank := by
  unfold rank
  omega

/-- Each step of the main thread makes the measure smaller. -/
theorem rank_lt_of_mainStep (h : Guarded t) (hb : Buffered t) (hstep : MainStep t es t') :
    t'.rank < t.rank := by
  cases hstep with
  | @check answer s hpc hcheck =>
    obtain ⟨-, hqueue⟩ := Decoder.fixed_nextFrameComplete h.inv hcheck
    have hle := OrderedMap.length_le_of_contains
      (fun k hk => contains_of_nextFrameComplete h.inv hcheck (k := k) hk)
    refine rank_lt_of_mainRank_lt ?_ ?_
    · unfold workerRank
      rw [hqueue]
    unfold mainRank
    rw [hpc]
    cases answer with
    | true =>
      simp only [if_true]
      omega
    | false =>
      simp only [Bool.false_eq_true, if_false]
      omega
  | begin hpc hnext _ =>
    have hpos := length_pos_of_contains (contains_of_nextCompleteFrame hnext)
    refine rank_lt_of_mainRank_lt rfl ?_
    unfold mainRank
    rw [hpc]
    dsimp only
    omega
  | keep hpc hnext _ =>
    have hpos := length_pos_of_contains (contains_of_nextCompleteFrame hnext)
    refine rank_lt_of_mainRank_lt rfl ?_
    unfold mainRank
    rw [hpc]
    dsimp only
    omega
  | lock hpc _ =>
    obtain ⟨frame, hnext⟩ := h.next (by rw [hpc]; rfl)
    have hpos := length_pos_of_contains (contains_of_nextCompleteFrame hnext)
    refine rank_lt_of_mainRank_lt rfl ?_
    unfold mainRank
    rw [hpc]
    dsimp only
    omega
  | @push frame hpc hfind =>
    have hcontains : t.decoder.frameBuf.contains t.decoder.nextFrame := by
      simp [OrderedMap.contains, hfind]
    have hpos := length_pos_of_contains hcontains
    have hlen : (t.decoder.dispatch frame).frameBuf.entries.length
        = t.decoder.frameBuf.entries.length := List.length_map _
    have hqueue : (t.decoder.dispatch frame).sharedQueue.length
        = t.decoder.sharedQueue.length + 1 := List.length_append
    unfold rank mainRank workerRank
    rw [hpc]
    dsimp only
    rw [hlen, hqueue]
    cases t.worker with
    | absent => dsimp only; omega
    | lock => dsimp only; omega
    | test => dsimp only; omega
    | asleep => dsimp only; omega
    | woken => dsimp only; omega
    | move => dsimp only; omega
    | process => dsimp only; omega
  | unlock hpc =>
    have hpos := length_pos_of_contains (hb.next (by rw [hpc]; rfl))
    refine rank_lt_of_mainRank_lt rfl ?_
    unfold mainRank
    rw [hpc]
    dsimp only
    omega
  | notify hpc =>
    have hpos := length_pos_of_contains (hb.next (by rw [hpc]; rfl))
    unfold rank mainRank workerRank notifyOne
    rw [hpc]
    dsimp only
    split_ifs with hsleep
    · rw [hsleep]
      dsimp only
      omega
    · omega
  | advance hpc =>
    -- the frame leaves the buffer, since its id is not the last one
    have hcontains := hb.next (by rw [hpc]; rfl)
    have hlt := hb.lt _ hcontains
    have hgone : ¬ (t.decoder.advanceNextFrame 1).frameBuf.contains t.decoder.nextFrame := by
      intro hk
      have hle := (contains_of_eraseBelow hk).1
      exact absurd ((lt_iff_add_one_le hlt).mpr hle) (lt_irrefl _)
    have hlen : (t.decoder.advanceNextFrame 1).frameBuf.entries.length
        < t.decoder.frameBuf.entries.length :=
      OrderedMap.length_lt_of_contains (fun k hk => (contains_of_eraseBelow hk).2) hcontains hgone
    refine rank_lt_of_mainRank_lt rfl ?_
    unfold mainRank
    rw [hpc]
    dsimp only
    omega

/-- Each step of the worker does, too. -/
theorem rank_lt_of_workerStep (h : Guarded t) (hstep : WorkerStep t es t') :
    t'.rank < t.rank := by
  have hlocal := h.local_eq
  cases hstep with
  | lock hpc _ =>
    unfold rank mainRank workerRank
    rw [hpc]
    dsimp only
    omega
  | sleep hpc hempty =>
    unfold rank mainRank workerRank
    rw [hpc, hempty]
    dsimp only
    omega
  | relock hpc _ =>
    unfold rank mainRank workerRank
    rw [hpc]
    dsimp only
    omega
  | proceed hpc hne =>
    rw [hpc] at hlocal
    have hempty : t.localQueue = [] := by simpa using hlocal
    have hpos := List.length_pos_iff.mpr hne
    unfold rank mainRank workerRank
    rw [hpc, hempty]
    dsimp only
    rw [List.length_nil]
    omega
  | move hpc hqueue =>
    unfold rank mainRank workerRank
    rw [hpc, hqueue]
    dsimp only [Decoder.withQueue]
    rw [List.length_append, List.length_singleton, List.length_cons]
    omega
  | unlock hpc hempty =>
    unfold rank mainRank workerRank
    rw [hpc, hempty]
    dsimp only
    rw [List.length_nil]
    omega
  | process hpc hqueue =>
    unfold rank mainRank workerRank
    rw [hpc, hqueue]
    dsimp only
    rw [List.length_cons]
    omega
  | again hpc hempty =>
    unfold rank mainRank workerRank
    rw [hpc, hempty]
    dsimp only
    omega

/-- So does each step of either thread. -/
theorem rank_lt_of_threadStep (h : Guarded t) (hb : Buffered t) (hstep : ThreadStep t es t') :
    t'.rank < t.rank := by
  rcases hstep with hstep | hstep
  · exact rank_lt_of_mainStep h hb hstep
  · exact rank_lt_of_workerStep h hstep

/-! ## Where the threads stop -/

/-- Neither thread can take a step. -/
def AtRest (t : Threads) : Prop := ∀ es t', ¬ ThreadStep t es t'

/-- A worker in its section is never stuck there. -/
theorem exists_workerStep (hsection : t.worker.inSection) : ∃ es t', WorkerStep t es t' := by
  cases hpc : t.worker with
  | test =>
    by_cases hempty : t.decoder.sharedQueue = []
    · exact ⟨_, _, WorkerStep.sleep hpc hempty⟩
    · exact ⟨_, _, WorkerStep.proceed hpc hempty⟩
  | move =>
    cases hqueue : t.decoder.sharedQueue with
    | nil => exact ⟨_, _, WorkerStep.unlock hpc hqueue⟩
    | cons frame rest => exact ⟨_, _, WorkerStep.move hpc hqueue⟩
  | absent => simp [hpc, WorkerAt.inSection] at hsection
  | lock => simp [hpc, WorkerAt.inSection] at hsection
  | asleep => simp [hpc, WorkerAt.inSection] at hsection
  | woken => simp [hpc, WorkerAt.inSection] at hsection
  | process => simp [hpc, WorkerAt.inSection] at hsection

/-- The main thread is stuck in `recv` only, or waits for a worker in its section. -/
theorem exists_mainStep (h : Guarded t) (hmain : t.main ≠ .receive)
    (hworker : ¬ t.worker.inSection) : ∃ es t', MainStep t es t' := by
  cases hpc : t.main with
  | receive => exact absurd hpc hmain
  | check =>
    rcases Decoder.nextFrameComplete_cases h.inv with ⟨-, hcase⟩ | ⟨-, k, -, -, -, hcase⟩ |
      ⟨-, -, hcase⟩
    · exact ⟨_, _, MainStep.check hpc hcase⟩
    · exact ⟨_, _, MainStep.check hpc hcase⟩
    · exact ⟨_, _, MainStep.check hpc hcase⟩
  | consume =>
    obtain ⟨frame, hnext⟩ := h.next (by rw [hpc]; rfl)
    by_cases huses : t.decoder.lazyLevel.usesWorker
    · exact ⟨_, _, MainStep.begin hpc hnext huses⟩
    · exact ⟨_, _, MainStep.keep hpc hnext huses⟩
  | lock =>
    -- the lock is free: neither thread is in its section
    have hfree : t.mutex = none := by
      cases hmutex : t.mutex with
      | none => rfl
      | some thread =>
        cases thread with
        | main =>
          have := h.main_iff.mp hmutex
          rw [hpc] at this
          simp [MainAt.inSection] at this
        | worker => exact absurd (h.worker_iff.mp hmutex) hworker
    exact ⟨_, _, MainStep.lock hpc hfree⟩
  | push =>
    obtain ⟨frame, hnext⟩ := h.next (by rw [hpc]; rfl)
    exact ⟨_, _, MainStep.push hpc (Decoder.nextCompleteFrame_eq_ok_iff.mp hnext).1⟩
  | unlock => exact ⟨_, _, MainStep.unlock hpc⟩
  | notify => exact ⟨_, _, MainStep.notify hpc⟩
  | advance => exact ⟨_, _, MainStep.advance hpc⟩

/-- Where neither thread can take a step, the main thread waits for a datagram, the lock is
free, and the worker, if there is one, is asleep with nothing left to do. -/
theorem AtRest.cases (hrest : t.AtRest) (h : Guarded t) :
    t.main = .receive ∧ t.mutex = none ∧
      (t.decoder.lazyLevel.usesWorker →
        t.worker = .asleep ∧ t.decoder.sharedQueue = [] ∧ t.localQueue = []) := by
  have hworker : ¬ t.worker.inSection := by
    intro hsection
    obtain ⟨es, t', hstep⟩ := exists_workerStep hsection
    exact hrest es t' (Or.inr hstep)
  have hmain : t.main = .receive := by
    by_contra hne
    obtain ⟨es, t', hstep⟩ := exists_mainStep h hne hworker
    exact hrest es t' (Or.inl hstep)
  have hfree : t.mutex = none := by
    cases hmutex : t.mutex with
    | none => rfl
    | some thread =>
      cases thread with
      | main =>
        have := h.main_iff.mp hmutex
        rw [hmain] at this
        simp [MainAt.inSection] at this
      | worker => exact absurd (h.worker_iff.mp hmutex) hworker
  refine ⟨hmain, hfree, fun huses => ?_⟩
  have hasleep : t.worker = .asleep := by
    cases hpc : t.worker with
    | absent => exact absurd huses (h.absent_iff.mp hpc)
    | lock => exact absurd (Or.inr (WorkerStep.lock hpc hfree)) (hrest _ _)
    | test => exact absurd (by rw [hpc]; rfl) hworker
    | asleep => rfl
    | woken => exact absurd (Or.inr (WorkerStep.relock hpc hfree)) (hrest _ _)
    | move => exact absurd (by rw [hpc]; rfl) hworker
    | process =>
      cases hqueue : t.localQueue with
      | nil => exact absurd (Or.inr (WorkerStep.again hpc hqueue)) (hrest _ _)
      | cons frame rest => exact absurd (Or.inr (WorkerStep.process hpc hqueue)) (hrest _ _)
  have hlocal := h.local_eq
  have hshared := h.asleep hasleep
  rw [hasleep] at hlocal
  rw [hmain] at hshared
  exact ⟨hasleep, by simpa using hshared, by simpa using hlocal⟩

/-- At rest, every frame that was consumed has been taken up by the worker. -/
theorem AtRest.takenFrames_eq (hrest : t.AtRest) {lazyLevel : LazyLevel}
    (h : Run.Steps Step (initial lazyLevel) es t)
    (hids : ∀ d, .received d ∈ es → d.frameId < maxUInt32)
    (huses : t.decoder.lazyLevel.usesWorker) : takenFrames es = consumedFrames es := by
  obtain ⟨hmain, -, hworker⟩ := hrest.cases (guarded_of_steps h)
  obtain ⟨hasleep, hshared, hlocal⟩ := hworker huses
  have hqueues := (inv_of_steps (atomic_of_steps h) hids).queues
  have hatomic : t.atomic = ⟨t.decoder, .receive, []⟩ := by
    unfold atomic WorkerAt.seen
    rw [hmain, hasleep, hlocal]
    rfl
  rw [hatomic, if_pos huses] at hqueues
  dsimp only at hqueues
  rw [hshared, List.append_nil, List.append_nil] at hqueues
  exact hqueues.symm

/-- Without arrivals and spurious wake-ups, the two threads come to rest.  In every state of
every run: the worker is asleep beside a frame only while the main thread is about to notify
it; neither thread, nor both together, can go on forever; and where they stop, the main
thread waits for a datagram, the lock is free, and a worker is asleep and has taken up every
frame that was consumed. -/
theorem come_to_rest {lazyLevel : LazyLevel} (h : Run.Steps Step (initial lazyLevel) es t)
    (hids : ∀ d, .received d ∈ es → d.frameId < maxUInt32) :
    (t.worker = .asleep → t.decoder.sharedQueue ≠ [] → t.main = .unlock ∨ t.main = .notify) ∧
      (∀ f : ℕ → Threads, f 0 = t → ¬ ∀ n, ∃ es', ThreadStep (f n) es' (f (n + 1))) ∧
      (t.AtRest → t.main = .receive ∧ t.mutex = none ∧
        (t.decoder.lazyLevel.usesWorker →
          t.worker = .asleep ∧ takenFrames es = consumedFrames es)) := by
  obtain ⟨hguarded, hbuffered⟩ := buffered_of_steps h hids
  refine ⟨fun hsleep hne => (hguarded.asleep hsleep).resolve_left hne, ?_, ?_⟩
  · rintro f rfl
    refine Run.not_infinite (fun t => Guarded t ∧ Buffered t) rank ?_ f ⟨hguarded, hbuffered⟩
    rintro s es' s' ⟨hg, hb⟩ hstep
    refine ⟨⟨hg.step (Or.inl hstep), hb.step hg (Or.inl hstep) ?_⟩,
      rank_lt_of_threadStep hg hb hstep⟩
    exact fun d hd => absurd hd (received_notMem_of_threadStep hstep d)
  · intro hrest
    obtain ⟨hmain, hfree, hworker⟩ := hrest.cases hguarded
    exact ⟨hmain, hfree, fun huses => ⟨(hworker huses).1, hrest.takenFrames_eq h hids huses⟩⟩

/-- After one key frame, the threads are at rest and the worker has taken it. -/
theorem come_to_rest_single :
    let d : Datagram := ⟨0, .key, 0, 1, 10, [7], 0, 0⟩
    let frame : Frame := ⟨0, .key, [some d], 0, 1⟩
    ∃ es t, Run.Steps Step (initial .decodeOnly) es t ∧ t.AtRest ∧ takenFrames es = [frame] ∧
      t.worker = .asleep ∧ takenFrames es = consumedFrames es := by
  intro d frame
  let s : Decoder := ⟨.decodeOnly, 0, ⟨[(0, frame)], List.pairwise_singleton _ _⟩, []⟩
  let s₁ : Decoder := ⟨.decodeOnly, 1, OrderedMap.empty, [frame]⟩
  let s₂ : Decoder := ⟨.decodeOnly, 1, OrderedMap.empty, []⟩
  have h₁ : Step ⟨s.dispatch frame, some .main, .unlock, .asleep, []⟩ []
      ⟨s.dispatch frame, none, .notify, .asleep, []⟩ := Or.inl (Or.inl (MainStep.unlock rfl))
  have h₂ : Step ⟨s.dispatch frame, none, .notify, .asleep, []⟩ []
      ⟨s.dispatch frame, none, .advance, .woken, []⟩ := Or.inl (Or.inl (MainStep.notify rfl))
  have h₃ : Step ⟨s.dispatch frame, none, .advance, .woken, []⟩ []
      ⟨s₁, none, .check, .woken, []⟩ := Or.inl (Or.inl (MainStep.advance rfl))
  have h₄ : Step ⟨s₁, none, .check, .woken, []⟩ [] ⟨s₁, none, .receive, .woken, []⟩ :=
    Or.inl (Or.inl (@MainStep.check _ false _ rfl rfl))
  have h₅ : Step ⟨s₁, none, .receive, .woken, []⟩ []
      ⟨s₁, some .worker, .receive, .test, []⟩ := Or.inl (Or.inr (WorkerStep.relock rfl rfl))
  have h₆ : Step ⟨s₁, some .worker, .receive, .test, []⟩ []
      ⟨s₁, some .worker, .receive, .move, []⟩ :=
    Or.inl (Or.inr (WorkerStep.proceed rfl (List.cons_ne_nil _ _)))
  have h₇ : Step ⟨s₁, some .worker, .receive, .move, []⟩ []
      ⟨s₂, some .worker, .receive, .move, [frame]⟩ := Or.inl (Or.inr (WorkerStep.move rfl rfl))
  have h₈ : Step ⟨s₂, some .worker, .receive, .move, [frame]⟩ []
      ⟨s₂, none, .receive, .process, [frame]⟩ := Or.inl (Or.inr (WorkerStep.unlock rfl rfl))
  have h₉ : Step ⟨s₂, none, .receive, .process, [frame]⟩ [.taken frame]
      ⟨s₂, none, .receive, .process, []⟩ := Or.inl (Or.inr (WorkerStep.process rfl rfl))
  have h₁₀ : Step ⟨s₂, none, .receive, .process, []⟩ [] ⟨s₂, none, .receive, .lock, []⟩ :=
    Or.inl (Or.inr (WorkerStep.again rfl rfl))
  have h₁₁ : Step ⟨s₂, none, .receive, .lock, []⟩ [] ⟨s₂, some .worker, .receive, .test, []⟩ :=
    Or.inl (Or.inr (WorkerStep.lock rfl rfl))
  have h₁₂ : Step ⟨s₂, some .worker, .receive, .test, []⟩ []
      ⟨s₂, none, .receive, .asleep, []⟩ := Or.inl (Or.inr (WorkerStep.sleep rfl rfl))
  have h := (((((((((((steps_push.tail h₁).tail h₂).tail h₃).tail h₄).tail h₅).tail h₆).tail
    h₇).tail h₈).tail h₉).tail h₁₀).tail h₁₁).tail h₁₂
  have hrest : AtRest ⟨s₂, none, .receive, .asleep, []⟩ := by
    rintro es t (hstep | hstep)
    · cases hstep with
      | check hpc _ => exact absurd hpc (by decide)
      | begin hpc _ _ => exact absurd hpc (by decide)
      | keep hpc _ _ => exact absurd hpc (by decide)
      | lock hpc _ => exact absurd hpc (by decide)
      | push hpc _ => exact absurd hpc (by decide)
      | unlock hpc => exact absurd hpc (by decide)
      | notify hpc => exact absurd hpc (by decide)
      | advance hpc => exact absurd hpc (by decide)
    · cases hstep with
      | lock hpc _ => exact absurd hpc (by decide)
      | sleep hpc _ => exact absurd hpc (by decide)
      | relock hpc _ => exact absurd hpc (by decide)
      | proceed hpc _ => exact absurd hpc (by decide)
      | move hpc _ => exact absurd hpc (by decide)
      | unlock hpc _ => exact absurd hpc (by decide)
      | process hpc _ => exact absurd hpc (by decide)
      | again hpc _ => exact absurd hpc (by decide)
  have hids : ∀ d', Event.received d' ∈ [Event.received d, .consumed frame, .taken frame] →
      d'.frameId < maxUInt32 := by
    intro d' hd'
    have heq : d' = d := by simpa using hd'
    rw [heq]
    decide
  exact ⟨_, _, h, hrest, rfl, ((come_to_rest h hids).2.2 hrest).2.2 rfl⟩

end Threads

end HandOff

end Ringmaster
