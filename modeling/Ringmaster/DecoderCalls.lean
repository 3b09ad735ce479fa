/-
# The decoder's calls in every reachable state

What `add_datagram` and `next_frame_complete` do exactly, in any state that calls from the main
thread and the worker can lead to (`Decoder.Reachable`), all 32-bit frame ids included.

The test for a complete next frame neither fails an assertion nor wraps around, and a frame can be
consumed whenever it answers yes (`Decoder.nextFrameComplete_exact`).  A datagram that is refused
leaves the decoder as it was, with one exception: a frame entry is created before the fragment id
is looked at (`Decoder.addDatagram_atomic_iff`).
-/
import Ringmaster.HandOff

namespace Ringmaster

namespace Decoder

/-! ## Reachable states -/

/-- A call of one of the decoder's methods that does not throw, in any order, or a fetch of the
shared queue by the worker.  The two methods `add_datagram` have the same effect
(`addDatagramCopy_eq`). -/
inductive Call : Decoder → Decoder → Prop
  | addDatagram {s s' : Decoder} {d : Datagram} : s.addDatagram d = (.ok (), s') → Call s s'
  | nextFrameComplete {s s' : Decoder} {answer : Bool} :
      s.nextFrameComplete = .ok (answer, s') → Call s s'
  | consumeNextFrame {s s' : Decoder} {frame : Frame} {write : Except Exn Unit} :
      s.consumeNextFrame write = .ok (frame, s') → Call s s'
  | workerFetch {s : Decoder} : Call s { s with sharedQueue := [] }

/-- The states that finitely many calls lead to from a new decoder. -/
def Reachable (lazyLevel : LazyLevel) (s : Decoder) : Prop :=
  Relation.ReflTransGen Call (initial lazyLevel) s

/-- A test for a complete next frame keeps the invariant. -/
theorem Inv.nextFrameComplete {s s' : Decoder} {answer : Bool} (hs : s.Inv)
    (h : s.nextFrameComplete = .ok (answer, s')) : s'.Inv := by
  rcases nextFrameComplete_cases hs with ⟨-, hcase⟩ | ⟨-, k, -, -, -, hcase⟩ | ⟨-, -, hcase⟩
  · rw [h, Except.ok.injEq, Prod.mk.injEq] at hcase
    rw [hcase.2]
    exact hs
  · rw [h, Except.ok.injEq, Prod.mk.injEq] at hcase
    rw [hcase.2]
    exact hs.eraseBelow k
  · rw [h, Except.ok.injEq, Prod.mk.injEq] at hcase
    rw [hcase.2]
    exact hs

/-- Every call keeps the invariant. -/
theorem Inv.call {s s' : Decoder} (hs : s.Inv) (h : Call s s') : s'.Inv := by
  cases h with
  | addDatagram h => exact hs.addDatagram h
  | nextFrameComplete h => exact hs.nextFrameComplete h
  | consumeNextFrame h => exact hs.consumeNextFrame h
  | workerFetch => exact ⟨hs.id_eq, hs.nextFrame_le⟩

/-- The invariant holds in every reachable state. -/
theorem Reachable.inv {lazyLevel : LazyLevel} {s : Decoder} (h : Reachable lazyLevel s) :
    s.Inv := by
  induction h with
  | refl => exact inv_initial lazyLevel
  | tail _ hcall ih => exact ih.call hcall

/-- Whatever the two threads of the receiver do, the decoder is in a reachable state. -/
theorem reachable_of_handOff {lazyLevel : LazyLevel} {es : List HandOff.Event}
    {p : HandOff.Pipeline} (h : Run.Steps HandOff.Step (HandOff.initial lazyLevel) es p) :
    Reachable lazyLevel p.decoder := by
  refine h.invariant (fun _ (p : HandOff.Pipeline) => Reachable lazyLevel p.decoder) ?_ ?_
  · exact Relation.ReflTransGen.refl
  · intro es p es' p' hI hstep
    cases hstep with
    | receive _ hadd => exact hI.tail (Call.addDatagram hadd)
    | check _ hcheck => exact hI.tail (Call.nextFrameComplete hcheck)
    | consume _ hcons => exact hI.tail (Call.consumeNextFrame hcons)
    | workerFetch => exact hI.tail Call.workerFetch
    | workerTake => exact hI

/-! ## The test for a complete next frame -/

/-- A test that answers yes leaves a state from which the next frame can be consumed. -/
theorem isComplete_of_nextFrameComplete {s s' : Decoder} (hs : s.Inv)
    (h : s.nextFrameComplete = .ok (true, s')) : s'.IsComplete s'.nextFrame := by
  rcases nextFrameComplete_cases hs with ⟨hc, hcase⟩ | ⟨-, k, -, hk, -, hcase⟩ | ⟨-, -, hcase⟩
  · rw [h, Except.ok.injEq, Prod.mk.injEq] at hcase
    rw [hcase.2]
    exact hc
  · rw [h, Except.ok.injEq, Prod.mk.injEq] at hcase
    rw [hcase.2]
    obtain ⟨frame, hfind, -, hc⟩ := hk
    refine ⟨frame, ?_, hc⟩
    rw [OrderedMap.find?_eraseBelow, if_neg (lt_irrefl k), hfind]
  · rw [h, Except.ok.injEq, Prod.mk.injEq] at hcase
    simp at hcase

/-- The exact effect of `next_frame_complete` in a reachable state.  Frames are buffered under
their own ids, none of them below `next_frame_`.  The answer is yes exactly when the next frame or
some key frame is buffered and complete.  Only if the next frame is not complete and the answer is
yes, anything changes: `next_frame_` moves up to the greatest complete key frame, without wrapping
around, and the frames below it are erased.  After a yes, the next frame can be consumed: the call
raises nothing, except what the writing of the output line raises without a worker. -/
theorem nextFrameComplete_exact {lazyLevel : LazyLevel} {s : Decoder}
    (h : Reachable lazyLevel s) :
    (∀ k frame, s.frameBuf.find? k = some frame → s.nextFrame ≤ k ∧ frame.id = k) ∧
    ∃ answer s', s.nextFrameComplete = .ok (answer, s') ∧
      (answer = true ↔ s.IsComplete s.nextFrame ∨ ∃ k, s.IsCompleteKey k) ∧
      (s.IsComplete s.nextFrame ∨ answer = false → s' = s) ∧
      (¬ s.IsComplete s.nextFrame → answer = true →
        IsGreatest {k | s.IsCompleteKey k} s'.nextFrame ∧ s.nextFrame < s'.nextFrame ∧
        (s'.nextFrame - s.nextFrame).toNat = s'.nextFrame.toNat - s.nextFrame.toNat ∧
        s'.frameBuf.entries = s.frameBuf.entries.filter (fun e => decide (s'.nextFrame ≤ e.1)) ∧
        s'.lazyLevel = s.lazyLevel ∧ s'.sharedQueue = s.sharedQueue) ∧
      (answer = true → ∀ write, (∃ frame s'', s'.consumeNextFrame write = .ok (frame, s'')) ∨
        ¬ s'.lazyLevel.usesWorker ∧
          ∃ e, write = .error e ∧ s'.consumeNextFrame write = .error e) := by
  have hs := h.inv
  refine ⟨fun k frame hk => ⟨hs.nextFrame_le k frame hk, hs.id_eq k frame hk⟩, ?_⟩
  rcases nextFrameComplete_cases hs with ⟨hc, hcase⟩ | ⟨hnot, k, hlt, hk, hmax, hcase⟩ |
    ⟨hnot, hnokey, hcase⟩
  · refine ⟨true, s, hcase, iff_of_true rfl (Or.inl hc), fun _ => rfl,
      fun hnot => absurd hc hnot, fun _ => ?_⟩
    exact consumeNextFrame_of_isComplete (isComplete_of_nextFrameComplete hs hcase)
  · refine ⟨true, _, hcase, iff_of_true rfl (Or.inr ⟨k, hk⟩), ?_, fun _ _ => ?_, fun _ => ?_⟩
    · rintro (hc | hfalse)
      · exact absurd hc hnot
      · simp at hfalse
    · refine ⟨⟨hk, hmax⟩, hlt, ?_, OrderedMap.entries_eraseBelow _ _, rfl, rfl⟩
      exact UInt32.toNat_sub_of_le _ _ (le_of_lt hlt)
    · exact consumeNextFrame_of_isComplete (isComplete_of_nextFrameComplete hs hcase)
  · refine ⟨false, s, hcase, iff_of_false (by simp) ?_, fun _ => rfl, fun _ htrue => ?_,
      fun htrue => ?_⟩
    · rintro (hc | ⟨k, hk⟩)
      · exact hnot hc
      · exact hnokey k hk
    · simp at htrue
    · simp at htrue

/-- The state after a complete key frame ahead of the next frame has arrived. -/
def keyAhead : Decoder where
  lazyLevel := .decodeOnly
  nextFrame := 0
  frameBuf := ⟨[(3, ⟨3, .key, [some ⟨3, .key, 0, 1, 10, [7], 0, 0⟩], 0, 1⟩)],
    List.pairwise_singleton _ _⟩
  sharedQueue := []

/-- The test skips to the key frame ahead. -/
theorem nextFrameComplete_exact_keyAhead : Reachable .decodeOnly keyAhead ∧
    ∃ s', keyAhead.nextFrameComplete = .ok (true, s') ∧ s'.nextFrame = 3 ∧
      ∃ frame s'', s'.consumeNextFrame (.ok ()) = .ok (frame, s'') := by
  have hadd : (initial .decodeOnly).addDatagram ⟨3, .key, 0, 1, 10, [7], 0, 0⟩
      = (.ok (), keyAhead) := by decide
  have hreach : Reachable .decodeOnly keyAhead :=
    Relation.ReflTransGen.single (Call.addDatagram hadd)
  have hcall : keyAhead.nextFrameComplete = .ok (true, _) := rfl
  obtain ⟨-, answer, s', heq, -, -, -, hconsume⟩ := nextFrameComplete_exact hreach
  rw [hcall, Except.ok.injEq, Prod.mk.injEq] at heq
  obtain ⟨rfl, rfl⟩ := heq
  refine ⟨hreach, _, hcall, rfl, (hconsume rfl (.ok ())).resolve_right ?_⟩
  rintro ⟨-, e, he, -⟩
  simp at he

/-! ## A datagram that is refused -/

/-- A call of `add_datagram` that either succeeds or changes nothing. -/
def AddsAtomically (s : Decoder) (d : Datagram) : Prop :=
  (∃ s', s.addDatagram d = (.ok (), s')) ∨ ∃ e, s.addDatagram d = (.error e, s)

/-- The datagram opens a new frame with a fragment id that is outside of the frame. -/
def OpensFrameOutside (s : Decoder) (d : Datagram) : Prop :=
  s.nextFrame ≤ d.frameId ∧ ¬ s.frameBuf.contains d.frameId ∧ 0 < d.fragCnt ∧ d.fragCnt ≤ d.fragId

/-- In every state, an addition is atomic unless the datagram opens a new frame with a fragment
id outside of it.  Then the frame stays behind. -/
theorem addDatagram_atomic_iff (s : Decoder) (d : Datagram) :
    s.AddsAtomically d ↔ ¬ s.OpensFrameOutside d := by
  unfold AddsAtomically OpensFrameOutside addDatagram addDatagramCommon
  by_cases hold : d.frameId < s.nextFrame
  · rw [if_pos hold]
    exact iff_of_true (Or.inl ⟨s, rfl⟩) (fun hopens => absurd hold (not_lt.mpr hopens.1))
  rw [if_neg hold]
  by_cases hc : s.frameBuf.contains d.frameId
  · -- the frame is known, and is validated before it is changed
    rw [if_pos hc]
    obtain ⟨frame, hframe⟩ := Option.isSome_iff_exists.mp hc
    refine iff_of_true ?_ (fun hopens => hopens.2.1 hc)
    simp only [hframe]
    cases hins : frame.insertFragMove d with
    | error e => exact Or.inr ⟨e, rfl⟩
    | ok p => exact Or.inl ⟨_, rfl⟩
  rw [if_neg hc]
  have hnone : s.frameBuf.find? d.frameId = none := by simpa [OrderedMap.contains] using hc
  cases hnew : Frame.new d.frameId d.frameType d.fragCnt with
  | error e =>
    -- the constructor refuses a frame without fragments
    refine iff_of_true (Or.inr ⟨e, rfl⟩) (fun hopens => ?_)
    have hne : d.fragCnt ≠ 0 := ne_of_gt hopens.2.2.1
    rw [Frame.new, if_neg hne] at hnew
    simp at hnew
  | ok frame =>
    obtain ⟨hne, hframe⟩ := Frame.new_eq_ok_iff.mp hnew
    have hlen : frame.frags.length = d.fragCnt.toNat := by rw [hframe, List.length_replicate]
    have hpos : 0 < d.fragCnt := by
      rw [UInt16.lt_iff_toNat_lt, UInt16.toNat_zero]
      exact Nat.pos_of_ne_zero (fun hzero => hne (UInt16.toNat_inj.mp hzero))
    have hfind := OrderedMap.find?_emplace (v := frame) hnone
    simp only [hfind, if_true]
    by_cases hlt : d.fragId < d.fragCnt
    · -- the fragment belongs to the new frame
      have hvalid : frame.validateDatagram d = .ok () := by
        rw [Frame.validateDatagram_eq_ok_iff, hlen]
        exact ⟨by rw [hframe], by rw [hframe], UInt16.lt_iff_toNat_lt.mp hlt, rfl⟩
      obtain ⟨frame', left, hins⟩ := Frame.exists_insertFragMove hvalid
      refine iff_of_true (Or.inl ⟨_, by rw [hins]⟩) (fun hopens => ?_)
      exact absurd hlt (not_lt.mpr hopens.2.2.2)
    · refine iff_of_false ?_ (not_not_intro ⟨not_lt.mp hold, hc, hpos, not_lt.mp hlt⟩)
      cases hins : frame.insertFragMove d with
      | ok p =>
        obtain ⟨frame', left⟩ := p
        obtain ⟨hvalid, -⟩ := Frame.insertFragMove_cases hins
        have := (Frame.validateDatagram_eq_ok_iff.mp hvalid).2.2.1
        rw [hlen] at this
        exact absurd (UInt16.lt_iff_toNat_lt.mpr this) hlt
      | error e =>
        -- the new frame is in the buffer, and was not there before
        rintro (⟨s', hs'⟩ | ⟨e', hs'⟩)
        · simp at hs'
        · have hbuf := congrArg (fun r => r.2.frameBuf.find? d.frameId) hs'
          simp only [hfind, if_true, hnone] at hbuf
          simp at hbuf

/-- A datagram whose fragment id is not below its fragment count. -/
def outsideDatagram : Datagram :=
  { frameId := 0
    frameType := .nonkey
    fragId := 2
    fragCnt := 2 }

/-- The only fragment of a frame. -/
def onlyDatagram : Datagram :=
  { frameId := 0
    frameType := .key
    fragId := 0
    fragCnt := 1
    payload := [7] }

/-- A new decoder refuses the one datagram, and then also the other one, which it would have
accepted before. -/
theorem exists_not_addsAtomically : ∃ (e e' : Exn) (s' : Decoder),
    (initial .decodeDisplay).addDatagram outsideDatagram = (.error e, s') ∧
      ¬ (initial .decodeDisplay).AddsAtomically outsideDatagram ∧
      (∃ s'', (initial .decodeDisplay).addDatagram onlyDatagram = (.ok (), s'')) ∧
      s'.addDatagram onlyDatagram = (.error e', s') := by
  refine ⟨_, _, _, rfl, ?_, ⟨_, rfl⟩, rfl⟩
  rintro (⟨s', hs'⟩ | ⟨e, hs'⟩)
  · have hok : ((initial .decodeDisplay).addDatagram outsideDatagram).1 = .ok () := by rw [hs']
    exact absurd hok (by decide)
  · have hbuf : ((initial .decodeDisplay).addDatagram outsideDatagram).2
        = initial .decodeDisplay := by rw [hs']
    exact absurd hbuf (by decide)

end Decoder

end Ringmaster
