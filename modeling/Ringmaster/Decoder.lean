/-
# The decoder's frame buffer

The class `Decoder` of `src/app/decoder.hh` and `decoder.cc`, as far as the main thread of
the receiver uses it: datagrams are added to the frames of `frame_buf_`, complete frames
are consumed in order, and a complete key frame ahead lets the decoder skip what is missing
before it.

`Decoder.Inv` is the invariant that the unchecked accesses of the code rest on: a buffered
frame is stored under its own id, and no id below `next_frame_` is buffered.  It holds for
all 32-bit ids, also past the point where `next_frame_` wraps around.
-/
import Ringmaster.Library.OrderedMap
import Ringmaster.Library.Unsigned
import Ringmaster.Frame

open Unsigned

namespace Ringmaster

/-! ## The class -/

/-- The enumeration `LazyLevel`. -/
inductive LazyLevel where
  | decodeDisplay
  | decodeOnly
  | noDecodeDisplay
  deriving DecidableEq, Repr

/-- The test `lazy_level <= DECODE_ONLY`: frames are handed to a worker thread. -/
def LazyLevel.usesWorker : LazyLevel → Bool
  | .decodeDisplay => true
  | .decodeOnly => true
  | .noDecodeDisplay => false

/-- The class `Decoder`: the state of the main thread and the queue it shares with the
worker thread. -/
structure Decoder where
  lazyLevel : LazyLevel
  nextFrame : UInt32
  frameBuf : OrderedMap UInt32 Frame
  sharedQueue : List Frame
  deriving DecidableEq

namespace Decoder

/-- The state that the constructor sets up. -/
def initial (lazyLevel : LazyLevel) : Decoder := ⟨lazyLevel, 0, OrderedMap.empty, []⟩

/-- The method `clean_up_to`: erase buffered frames from the beginning, up to the first
whose id is not below the frontier. -/
def cleanUpTo (s : Decoder) (frontier : UInt32) : Decoder :=
  { s with frameBuf := s.frameBuf.eraseBelow frontier }

/-- The method `advance_next_frame`. -/
def advanceNextFrame (s : Decoder) (n : UInt32) : Decoder :=
  { s with nextFrame := s.nextFrame + n }.cleanUpTo (s.nextFrame + n)

/-- The method `add_datagram_common`: `false` for a datagram of an old frame, otherwise the
frame of the datagram is in the buffer afterwards. -/
def addDatagramCommon (s : Decoder) (d : Datagram) : Except Exn (Bool × Decoder) :=
  -- ignore any datagrams from the old frames
  if d.frameId < s.nextFrame then
    .ok (false, s)
  else if s.frameBuf.contains d.frameId then
    .ok (true, s)
  else
    match Frame.new d.frameId d.frameType d.fragCnt with
    | .error e => .error e
    | .ok frame => .ok (true, { s with frameBuf := s.frameBuf.emplace d.frameId frame })

/-- The method `add_datagram` that moves the datagram, with the state it leaves also when
it throws. -/
def addDatagram (s : Decoder) (d : Datagram) : Except Exn Unit × Decoder :=
  match s.addDatagramCommon d with
  | .error e => (.error e, s)
  | .ok (false, s') => (.ok (), s')
  | .ok (true, s') =>
    match s'.frameBuf.find? d.frameId with
    | none => (.error (.outOfRange "map::at"), s')
    | some frame =>
      match frame.insertFragMove d with
      | .error e => (.error e, s')
      | .ok (frame', _) =>
        (.ok (), { s' with frameBuf := s'.frameBuf.update d.frameId frame' })

/-- The method `add_datagram` that copies the datagram. -/
def addDatagramCopy (s : Decoder) (d : Datagram) : Except Exn Unit × Decoder :=
  match s.addDatagramCommon d with
  | .error e => (.error e, s)
  | .ok (false, s') => (.ok (), s')
  | .ok (true, s') =>
    match s'.frameBuf.find? d.frameId with
    | none => (.error (.outOfRange "map::at"), s')
    | some frame =>
      match frame.insertFrag d with
      | .error e => (.error e, s')
      | .ok frame' => (.ok (), { s' with frameBuf := s'.frameBuf.update d.frameId frame' })

/-- The method `next_frame_complete`: whether a frame can be consumed now, possibly after
skipping to a key frame ahead. -/
def nextFrameComplete (s : Decoder) : Except Exn (Bool × Decoder) :=
  if (s.frameBuf.find? s.nextFrame).any Frame.complete then
    .ok (true, s)
  else
    -- seek forward, from the last buffered frame on, for a complete key frame
    match s.frameBuf.entries.reverse.find?
        (fun e => decide (e.2.type = .key) && e.2.complete) with
    | none => .ok (false, s)
    | some (frameId, _) =>
      if frameId > s.nextFrame then
        .ok (true, s.advanceNextFrame (frameId - s.nextFrame))
      else
        .error (.assertion "frame_id > next_frame_")

/-- The method `consume_next_frame`, with the frame that it consumes.  Without a worker thread it
writes a line to the output file, if there is one, and `write` is the result of that. -/
def consumeNextFrame (s : Decoder) (write : Except Exn Unit) : Except Exn (Frame × Decoder) :=
  match s.frameBuf.find? s.nextFrame with
  | none => .error (.outOfRange "map::at")
  | some frame =>
    if frame.complete then
      if s.lazyLevel.usesWorker then
        -- dispatch the frame to the worker thread; the buffer keeps what is left of it
        let s' := { s with
          sharedQueue := s.sharedQueue ++ [frame]
          frameBuf := s.frameBuf.update s.nextFrame frame.movedFrom }
        .ok (frame, s'.advanceNextFrame 1)
      else
        match write with
        | .error e => .error e
        | .ok () => .ok (frame, s.advanceNextFrame 1)
    else
      .error (.runtimeError "next frame must be complete before consuming it")

/-! ## Advancing -/

@[simp] theorem nextFrame_advanceNextFrame (s : Decoder) (n : UInt32) :
    (s.advanceNextFrame n).nextFrame = s.nextFrame + n := rfl

@[simp] theorem lazyLevel_advanceNextFrame (s : Decoder) (n : UInt32) :
    (s.advanceNextFrame n).lazyLevel = s.lazyLevel := rfl

@[simp] theorem sharedQueue_advanceNextFrame (s : Decoder) (n : UInt32) :
    (s.advanceNextFrame n).sharedQueue = s.sharedQueue := rfl

@[simp] theorem frameBuf_advanceNextFrame (s : Decoder) (n : UInt32) :
    (s.advanceNextFrame n).frameBuf = s.frameBuf.eraseBelow (s.nextFrame + n) := rfl

/-! ## The invariant -/

/-- A buffered frame is stored under its own id, which is not below `next_frame_`. -/
structure Inv (s : Decoder) : Prop where
  id_eq : ∀ k frame, s.frameBuf.find? k = some frame → frame.id = k
  nextFrame_le : ∀ k frame, s.frameBuf.find? k = some frame → s.nextFrame ≤ k

theorem inv_initial (lazyLevel : LazyLevel) : (initial lazyLevel).Inv :=
  ⟨fun k frame h => by simp [initial] at h, fun k frame h => by simp [initial] at h⟩

/-! ## What `add_datagram` does -/

/-- The frame that a datagram is inserted into: the buffered one, or a new one. -/
def frameFor (s : Decoder) (d : Datagram) : Except Exn Frame :=
  match s.frameBuf.find? d.frameId with
  | some frame => .ok frame
  | none => Frame.new d.frameId d.frameType d.fragCnt

/-- The two additions have the same effect on the decoder. -/
theorem addDatagramCopy_eq (s : Decoder) (d : Datagram) :
    s.addDatagramCopy d = s.addDatagram d := by
  unfold addDatagramCopy addDatagram
  split
  · rfl
  · rfl
  · next s' _ =>
    cases s'.frameBuf.find? d.frameId with
    | none => rfl
    | some frame =>
      simp only [Frame.insertFrag_eq]
      cases frame.insertFragMove d with
      | error e => rfl
      | ok p => rfl

/-- An addition that succeeds ignores the datagram of an old frame, and otherwise stores
the fragment in its frame and leaves everything else alone. -/
theorem addDatagram_cases {s s' : Decoder} {d : Datagram} (h : s.addDatagram d = (.ok (), s')) :
    (d.frameId < s.nextFrame ∧ s' = s) ∨
      (s.nextFrame ≤ d.frameId ∧ s'.nextFrame = s.nextFrame ∧ s'.lazyLevel = s.lazyLevel ∧
        s'.sharedQueue = s.sharedQueue ∧ ∃ frame frame' left, s.frameFor d = .ok frame ∧
          frame.insertFragMove d = .ok (frame', left) ∧
          ∀ k, s'.frameBuf.find? k
            = if k = d.frameId then some frame' else s.frameBuf.find? k) := by
  rw [addDatagram, addDatagramCommon] at h
  by_cases hlt : d.frameId < s.nextFrame
  · rw [if_pos hlt] at h
    exact Or.inl ⟨hlt, (Prod.ext_iff.mp h).2.symm⟩
  rw [if_neg hlt] at h
  right
  refine ⟨not_lt.mp hlt, ?_⟩
  by_cases hc : s.frameBuf.contains d.frameId
  · -- the frame is buffered already
    obtain ⟨frame, hframe⟩ := Option.isSome_iff_exists.mp hc
    simp only [if_pos hc, hframe] at h
    cases hins : frame.insertFragMove d with
    | error e => simp [hins] at h
    | ok p =>
      obtain ⟨frame', left⟩ := p
      simp only [hins, Prod.mk.injEq, true_and] at h
      subst h
      refine ⟨rfl, rfl, rfl, frame, frame', left, ?_, hins, ?_⟩
      · rw [frameFor, hframe]
      · exact OrderedMap.find?_update hc
  · -- a new frame is put into the buffer first
    have hnone : s.frameBuf.find? d.frameId = none := by
      simpa [OrderedMap.contains] using hc
    rw [if_neg hc] at h
    cases hnew : Frame.new d.frameId d.frameType d.fragCnt with
    | error e => simp [hnew] at h
    | ok frame =>
      have hfind := OrderedMap.find?_emplace (v := frame) hnone
      simp only [hnew, hfind, if_true] at h
      cases hins : frame.insertFragMove d with
      | error e => simp [hins] at h
      | ok p =>
        obtain ⟨frame', left⟩ := p
        simp only [hins, Prod.mk.injEq, true_and] at h
        subst h
        refine ⟨rfl, rfl, rfl, frame, frame', left, ?_, hins, ?_⟩
        · rw [frameFor, hnone, hnew]
        · intro k
          have hc' : (s.frameBuf.emplace d.frameId frame).contains d.frameId := by
            simp [OrderedMap.contains, hfind]
          rw [OrderedMap.find?_update hc', hfind]
          split_ifs
          · rfl
          · rfl

/-- An addition does not move `next_frame_`. -/
theorem nextFrame_addDatagram {s s' : Decoder} {d : Datagram}
    (h : s.addDatagram d = (.ok (), s')) : s'.nextFrame = s.nextFrame := by
  rcases addDatagram_cases h with ⟨-, rfl⟩ | ⟨-, hnext, -⟩
  · rfl
  · exact hnext

/-- An addition succeeds when the datagram is old or belongs to its frame. -/
theorem exists_addDatagram {s : Decoder} {d : Datagram}
    (h : s.nextFrame ≤ d.frameId → ∃ frame, s.frameFor d = .ok frame ∧
      frame.validateDatagram d = .ok ()) : ∃ s', s.addDatagram d = (.ok (), s') := by
  rw [addDatagram, addDatagramCommon]
  by_cases hlt : d.frameId < s.nextFrame
  · exact ⟨s, by rw [if_pos hlt]⟩
  obtain ⟨frame, hframe, hvalid⟩ := h (not_lt.mp hlt)
  obtain ⟨frame', left, hins⟩ := Frame.exists_insertFragMove hvalid
  rw [if_neg hlt]
  rw [frameFor] at hframe
  cases hfind : s.frameBuf.find? d.frameId with
  | some frame₀ =>
    simp only [hfind, Except.ok.injEq] at hframe
    subst hframe
    have hc : s.frameBuf.contains d.frameId := by simp [OrderedMap.contains, hfind]
    simp [hc, hfind, hins]
  | none =>
    simp only [hfind] at hframe
    have hc : ¬ s.frameBuf.contains d.frameId := by simp [OrderedMap.contains, hfind]
    simp [hc, hframe, OrderedMap.find?_emplace hfind, hins]

/-- The frame for a datagram carries its id. -/
theorem id_frameFor {s : Decoder} (hs : s.Inv) {d : Datagram} {frame : Frame}
    (h : s.frameFor d = .ok frame) : frame.id = d.frameId := by
  rw [frameFor] at h
  cases hfind : s.frameBuf.find? d.frameId with
  | some frame₀ =>
    simp only [hfind, Except.ok.injEq] at h
    exact h ▸ hs.id_eq _ _ hfind
  | none =>
    simp only [hfind] at h
    obtain ⟨-, rfl⟩ := Frame.new_eq_ok_iff.mp h
    rfl

/-- An addition keeps the invariant. -/
theorem Inv.addDatagram {s s' : Decoder} {d : Datagram} (hs : s.Inv)
    (h : s.addDatagram d = (.ok (), s')) : s'.Inv := by
  rcases addDatagram_cases h with ⟨-, rfl⟩ | ⟨hle, hnext, -, -, frame, frame', left, hfor, hins,
    hfind⟩
  · exact hs
  · constructor
    · intro k fr hk
      rw [hfind] at hk
      split_ifs at hk with hkd
      · rw [Option.some_inj] at hk
        rw [← hk, (Frame.insertFragMove_eq hins).1, id_frameFor hs hfor, hkd]
      · exact hs.id_eq k fr hk
    · intro k fr hk
      rw [hnext]
      rw [hfind] at hk
      split_ifs at hk with hkd
      · exact hkd ▸ hle
      · exact hs.nextFrame_le k fr hk

/-! ## What `next_frame_complete` does -/

/-- The id of a buffered complete key frame. -/
def IsCompleteKey (s : Decoder) (k : UInt32) : Prop :=
  ∃ frame, s.frameBuf.find? k = some frame ∧ frame.type = .key ∧ frame.complete

/-- A buffered complete frame. -/
def IsComplete (s : Decoder) (k : UInt32) : Prop :=
  ∃ frame, s.frameBuf.find? k = some frame ∧ frame.complete

/-- The search from the last buffered frame on finds the greatest complete key frame. -/
theorem find?_reverse_eq_some {s : Decoder} {e : UInt32 × Frame}
    (h : s.frameBuf.entries.reverse.find?
      (fun e => decide (e.2.type = .key) && e.2.complete) = some e) :
    s.IsCompleteKey e.1 ∧ ∀ k, s.IsCompleteKey k → k ≤ e.1 := by
  have hp := List.find?_some h
  simp only [Bool.and_eq_true, decide_eq_true_eq] at hp
  have hmem : e ∈ s.frameBuf.entries := List.mem_reverse.mp (List.mem_of_find?_eq_some h)
  refine ⟨⟨e.2, OrderedMap.find?_eq_some_iff.mpr hmem, hp.1, hp.2⟩, ?_⟩
  rintro k ⟨frame, hfind, htype, hcomplete⟩
  rw [OrderedMap.find?_eq_some_iff] at hfind
  by_contra hlt
  -- entries behind `e` come earlier in the reversed list, and the search passed them by
  obtain ⟨-, as, bs, hsplit, hbefore⟩ := List.find?_eq_some_iff_append.mp h
  have hrev : s.frameBuf.entries = bs.reverse ++ e :: as.reverse := by
    rw [← List.reverse_reverse s.frameBuf.entries, hsplit]
    simp
  have hsorted := s.frameBuf.sorted
  rw [hrev] at hsorted hfind
  rw [List.mem_append, List.mem_cons, List.mem_reverse, List.mem_reverse] at hfind
  rcases hfind with hbs | rfl | has
  · have := (List.pairwise_append.mp hsorted).2.2 _ (List.mem_reverse.mpr hbs) e List.mem_cons_self
    exact hlt (le_of_lt this)
  · exact hlt le_rfl
  · simpa [htype, hcomplete] using hbefore _ has

/-- What a call of `next_frame_complete` does.  It answers at once when the next frame is
complete; otherwise it skips to the last complete key frame, if there is one. -/
theorem nextFrameComplete_cases {s : Decoder} (hs : s.Inv) :
    (s.IsComplete s.nextFrame ∧ s.nextFrameComplete = .ok (true, s)) ∨
    (¬ s.IsComplete s.nextFrame ∧ ∃ k, s.nextFrame < k ∧ s.IsCompleteKey k ∧
      (∀ k', s.IsCompleteKey k' → k' ≤ k) ∧
      s.nextFrameComplete
        = .ok (true, { s with nextFrame := k, frameBuf := s.frameBuf.eraseBelow k })) ∨
    (¬ s.IsComplete s.nextFrame ∧ (∀ k, ¬ s.IsCompleteKey k) ∧
      s.nextFrameComplete = .ok (false, s)) := by
  rw [nextFrameComplete]
  by_cases hnext : s.IsComplete s.nextFrame
  · obtain ⟨frame, hfind, hcomplete⟩ := hnext
    refine Or.inl ⟨⟨frame, hfind, hcomplete⟩, ?_⟩
    rw [hfind, Option.any_some, if_pos hcomplete]
  right
  have hany : ¬ (s.frameBuf.find? s.nextFrame).any Frame.complete := by
    cases hfind : s.frameBuf.find? s.nextFrame with
    | none => simp
    | some frame => exact fun hc => hnext ⟨frame, hfind, by simpa using hc⟩
  rw [if_neg hany]
  cases hsearch : s.frameBuf.entries.reverse.find?
      (fun e => decide (e.2.type = .key) && e.2.complete) with
  | none =>
    refine Or.inr ⟨hnext, ?_, rfl⟩
    rintro k ⟨frame, hfind, htype, hcomplete⟩
    rw [OrderedMap.find?_eq_some_iff] at hfind
    have := List.find?_eq_none.mp hsearch _ (List.mem_reverse.mpr hfind)
    simp [htype, hcomplete] at this
  | some e =>
    obtain ⟨k, fr⟩ := e
    obtain ⟨hkey, hmax⟩ := find?_reverse_eq_some hsearch
    have hlt : s.nextFrame < k := by
      obtain ⟨frame, hfind, -, hcomplete⟩ := hkey
      refine lt_of_le_of_ne (hs.nextFrame_le _ _ hfind) ?_
      rintro rfl
      exact hnext ⟨frame, hfind, hcomplete⟩
    refine Or.inl ⟨hnext, k, hlt, hkey, hmax, ?_⟩
    have hsum : s.nextFrame + (k - s.nextFrame) = k := by
      rw [UInt32.add_comm, UInt32.sub_add_cancel]
    simp only [gt_iff_lt, hlt, if_true, advanceNextFrame, cleanUpTo, hsum]

/-- Skipping to an id keeps the invariant. -/
theorem Inv.eraseBelow {s : Decoder} (hs : s.Inv) (k : UInt32) :
    Inv { s with nextFrame := k, frameBuf := s.frameBuf.eraseBelow k } := by
  constructor
  · intro k' frame hk'
    rw [OrderedMap.find?_eraseBelow] at hk'
    split_ifs at hk' with hlt
    exact hs.id_eq k' frame hk'
  · intro k' frame hk'
    rw [OrderedMap.find?_eraseBelow] at hk'
    split_ifs at hk' with hlt
    exact not_lt.mp hlt

/-! ## What `consume_next_frame` does -/

/-- A call of `consume_next_frame` that succeeds took a complete frame with the id
`next_frame_`, moved on, and cleaned up below the new `next_frame_`. -/
theorem consumeNextFrame_cases {s s' : Decoder} {frame : Frame} {write : Except Exn Unit}
    (h : s.consumeNextFrame write = .ok (frame, s')) :
    s.frameBuf.find? s.nextFrame = some frame ∧ frame.complete ∧
      s'.nextFrame = s.nextFrame + 1 ∧ s'.lazyLevel = s.lazyLevel ∧
      s'.sharedQueue = (if s.lazyLevel.usesWorker then s.sharedQueue ++ [frame]
        else s.sharedQueue) ∧
      ∀ k, s'.frameBuf.find? k =
        if k < s.nextFrame + 1 then none
        else if k = s.nextFrame ∧ s.lazyLevel.usesWorker then some frame.movedFrom
        else s.frameBuf.find? k := by
  rw [consumeNextFrame] at h
  cases hfind : s.frameBuf.find? s.nextFrame with
  | none => simp [hfind] at h
  | some frame₀ =>
    simp only [hfind] at h
    by_cases hc : frame₀.complete
    · have hcontains : s.frameBuf.contains s.nextFrame := by simp [OrderedMap.contains, hfind]
      by_cases hw : s.lazyLevel.usesWorker
      · rw [if_pos hc, if_pos hw, Except.ok.injEq, Prod.mk.injEq] at h
        obtain ⟨rfl, rfl⟩ := h
        simp only [hw, if_true, and_true, nextFrame_advanceNextFrame,
          lazyLevel_advanceNextFrame, sharedQueue_advanceNextFrame, frameBuf_advanceNextFrame]
        refine ⟨trivial, hc, trivial, trivial, trivial, fun k => ?_⟩
        rw [OrderedMap.find?_eraseBelow, OrderedMap.find?_update hcontains]
      · rw [if_pos hc, if_neg hw] at h
        cases write with
        | error e => simp at h
        | ok _ =>
          rw [Except.ok.injEq, Prod.mk.injEq] at h
          obtain ⟨rfl, rfl⟩ := h
          simp only [hw, Bool.false_eq_true, if_false, and_false, nextFrame_advanceNextFrame,
            lazyLevel_advanceNextFrame, sharedQueue_advanceNextFrame, frameBuf_advanceNextFrame]
          refine ⟨trivial, hc, trivial, trivial, trivial, fun k => ?_⟩
          rw [OrderedMap.find?_eraseBelow]
    · rw [if_neg hc] at h
      simp at h

/-- A complete next frame is consumed, or the output line cannot be written. -/
theorem consumeNextFrame_of_isComplete {s : Decoder} (h : s.IsComplete s.nextFrame)
    (write : Except Exn Unit) :
    (∃ frame s', s.consumeNextFrame write = .ok (frame, s')) ∨
      ¬ s.lazyLevel.usesWorker ∧ ∃ e, write = .error e ∧ s.consumeNextFrame write = .error e := by
  obtain ⟨frame, hfind, hc⟩ := h
  simp only [consumeNextFrame, hfind, if_pos hc]
  by_cases hw : s.lazyLevel.usesWorker
  · rw [if_pos hw]
    exact Or.inl ⟨_, _, rfl⟩
  · rw [if_neg hw]
    cases write with
    | error e => exact Or.inr ⟨hw, e, rfl, rfl⟩
    | ok _ => exact Or.inl ⟨_, _, rfl⟩

/-- A complete next frame can be consumed. -/
theorem exists_consumeNextFrame {s : Decoder} (h : s.IsComplete s.nextFrame) :
    ∃ frame s', s.consumeNextFrame (.ok ()) = .ok (frame, s') := by
  rcases consumeNextFrame_of_isComplete h (.ok ()) with hok | ⟨-, e, he, -⟩
  · exact hok
  · simp at he

/-- Consuming a frame keeps the invariant, whatever its id. -/
theorem Inv.consumeNextFrame {s s' : Decoder} {frame : Frame} {write : Except Exn Unit}
    (hs : s.Inv) (h : s.consumeNextFrame write = .ok (frame, s')) : s'.Inv := by
  obtain ⟨hframe, -, hnext, -, -, hfind⟩ := consumeNextFrame_cases h
  constructor
  · intro k fr hk
    rw [hfind] at hk
    split_ifs at hk with h₁ h₂
    · rw [Option.some_inj] at hk
      rw [← hk, h₂.1]
      show frame.id = s.nextFrame
      exact hs.id_eq _ _ hframe
    · exact hs.id_eq k fr hk
  · intro k fr hk
    rw [hfind] at hk
    rw [hnext]
    split_ifs at hk with h₁ h₂
    · exact not_lt.mp h₁
    · exact not_lt.mp h₁

/-- Below the last id, the consumed frame is gone from the buffer and the other frames are
as before. -/
theorem find?_consumeNextFrame {s s' : Decoder} {frame : Frame} {write : Except Exn Unit}
    (hs : s.Inv) (h : s.consumeNextFrame write = .ok (frame, s')) (hlt : s.nextFrame < maxUInt32) (k : UInt32) :
    s'.frameBuf.find? k = if k = s.nextFrame then none else s.frameBuf.find? k := by
  obtain ⟨-, -, -, -, -, hfind⟩ := consumeNextFrame_cases h
  rw [hfind]
  by_cases hk : k = s.nextFrame
  · rw [if_pos hk, if_pos]
    rw [hk]
    exact (lt_iff_add_one_le hlt).mpr le_rfl
  · rw [if_neg hk]
    split_ifs with hlow hsame
    · -- an id up to `next_frame_` other than `next_frame_` is not buffered
      symm
      by_contra hne
      obtain ⟨fr, hfr⟩ := Option.ne_none_iff_exists'.mp hne
      have hle := hs.nextFrame_le k fr hfr
      have hlt' : s.nextFrame < k := lt_of_le_of_ne hle (Ne.symm hk)
      exact absurd ((lt_iff_add_one_le hlt).mp hlt') (not_le.mpr hlow)
    · exact absurd hsame.1 hk
    · rfl

end Decoder

end Ringmaster
