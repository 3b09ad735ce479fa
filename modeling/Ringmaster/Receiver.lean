/-
# The receiver's loop

The main loop of `src/app/video_receiver.cc`: each datagram is added to the decoder, and
then frames are consumed while the next one is complete.

`Takes` says what one round of the inner loop does.  From it follow the end state of the
loop (`DrainEnds.isFrontier`), and exactly when the loop ends at all: it does unless the
frame with the last 32-bit id is a complete key frame, because `next_frame_` then wraps
around to zero and `clean_up_to` never erases that frame.
-/
import Ringmaster.Library.Frontier
import Ringmaster.Library.Loop
import Ringmaster.Decoder

open Unsigned

namespace Ringmaster

namespace Receiver

/-! ## The loops -/

/-- The loop `while (decoder.next_frame_complete()) decoder.consume_next_frame()`: one test
of its condition with the body that follows.  The output line is written; where it cannot be,
`consume_next_frame` throws, and the program ends. -/
def drainBody (s : Decoder) : Except Exn (Loop.Round Decoder Frame) :=
  match s.nextFrameComplete with
  | .error e => .error e
  | .ok (false, s') => .ok (.leave s')
  | .ok (true, s') =>
    match s'.consumeNextFrame (.ok ()) with
    | .error e => .error e
    | .ok (frame, s'') => .ok (.again frame s'')

/-- The inner loop, started in `s`, ends in `t` after consuming the frames `frames`. -/
def DrainEnds (s : Decoder) (frames : List Frame) (t : Decoder) : Prop :=
  Loop.Ends drainBody s frames t

/-- The outer loop over datagrams, without an exception: each one is added, and the inner
loop then runs to its end.  The consumed frames are listed in order. -/
inductive Processes (s₀ : Decoder) : List Datagram → List Frame → Decoder → Prop
  | nil : Processes s₀ [] [] s₀
  | snoc {ds : List Datagram} {fs gs : List Frame} {d : Datagram} {s s₁ t : Decoder} :
      Processes s₀ ds fs s → s.addDatagram d = (.ok (), s₁) → DrainEnds s₁ gs t →
      Processes s₀ (ds ++ [d]) (fs ++ gs) t

/-! ## One round of the inner loop -/

/-- A round that takes the frame `b`, which is the next one or the last complete key frame,
and what it leaves. -/
structure Takes (s : Decoder) (b : UInt32) (frame : Frame) (s' : Decoder) : Prop where
  pos : b = s.nextFrame ∨ s.IsCompleteKey b ∧ s.nextFrame ≤ b ∧ ∀ k, s.IsCompleteKey k → k ≤ b
  find?_pos : s.frameBuf.find? b = some frame
  complete : frame.complete
  nextFrame_eq : s'.nextFrame = b + 1
  lazyLevel_eq : s'.lazyLevel = s.lazyLevel
  sharedQueue_eq : s'.sharedQueue =
    if s.lazyLevel.usesWorker then s.sharedQueue ++ [frame] else s.sharedQueue
  find?_eq : ∀ k, s'.frameBuf.find? k =
    if k < b ∨ k < b + 1 then none
    else if k = b ∧ s.lazyLevel.usesWorker then some frame.movedFrom
    else s.frameBuf.find? k

/-- A call of `consume_next_frame` takes the next frame. -/
theorem takes_of_consumeNextFrame {s s' : Decoder} {frame : Frame} {write : Except Exn Unit}
    (hs : s.Inv) (h : s.consumeNextFrame write = .ok (frame, s')) : Takes s s.nextFrame frame s' := by
  obtain ⟨hfind, hc, hnext, hlazy, hqueue, hall⟩ := Decoder.consumeNextFrame_cases h
  refine ⟨Or.inl rfl, hfind, hc, hnext, hlazy, hqueue, fun k => ?_⟩
  by_cases hlow : k < s.nextFrame
  · -- nothing is buffered below `next_frame_`
    have hnone : s.frameBuf.find? k = none := by
      by_contra hne
      obtain ⟨fr, hfr⟩ := Option.ne_none_iff_exists'.mp hne
      exact absurd hlow (not_lt.mpr (hs.nextFrame_le k fr hfr))
    have hne : ¬ (k = s.nextFrame ∧ s.lazyLevel.usesWorker) := fun hk => ne_of_lt hlow hk.1
    rw [hall, if_pos (Or.inl hlow), if_neg hne, hnone, ite_self]
  · rw [hall]
    simp only [hlow, false_or]

/-- A round of the inner loop leaves it when there is nothing to take, and otherwise takes
a frame. -/
theorem drainBody_cases {s : Decoder} (hs : s.Inv) :
    (¬ s.IsComplete s.nextFrame ∧ (∀ k, ¬ s.IsCompleteKey k) ∧
      drainBody s = .ok (.leave s)) ∨
    ∃ b frame s', Takes s b frame s' ∧ s'.Inv ∧ drainBody s = .ok (.again frame s') := by
  rcases Decoder.nextFrameComplete_cases hs with ⟨hc, h⟩ | ⟨-, k, hlt, hk, hmax, h⟩ |
    ⟨hc, hk, h⟩
  · right
    obtain ⟨frame, s', hcons⟩ := Decoder.exists_consumeNextFrame hc
    exact ⟨s.nextFrame, frame, s', takes_of_consumeNextFrame hs hcons,
      hs.consumeNextFrame hcons, by simp only [drainBody, h, hcons]⟩
  · -- the state after the skip, from which the key frame `k` is consumed
    right
    have hs' := hs.eraseBelow k
    have hfind' : ∀ k', (s.frameBuf.eraseBelow k).find? k'
        = if k' < k then none else s.frameBuf.find? k' := OrderedMap.find?_eraseBelow _ _
    obtain ⟨frame₀, hfind₀, -, hc₀⟩ := id hk
    have hc' :
        Decoder.IsComplete { s with nextFrame := k, frameBuf := s.frameBuf.eraseBelow k } k :=
      ⟨frame₀, by rw [hfind', if_neg (lt_irrefl k), hfind₀], hc₀⟩
    obtain ⟨frame, s', hcons⟩ := Decoder.exists_consumeNextFrame hc'
    have htakes := takes_of_consumeNextFrame hs' hcons
    refine ⟨k, frame, s', ?_, hs'.consumeNextFrame hcons, by simp only [drainBody, h, hcons]⟩
    refine ⟨Or.inr ⟨hk, le_of_lt hlt, hmax⟩, ?_, htakes.complete, htakes.nextFrame_eq,
      htakes.lazyLevel_eq, htakes.sharedQueue_eq, fun k' => ?_⟩
    · have := htakes.find?_pos
      dsimp only at this
      rwa [hfind', if_neg (lt_irrefl k)] at this
    · have := htakes.find?_eq k'
      dsimp only at this
      rw [this, hfind']
      split_ifs with h₁ h₂ h₃
      · rfl
      · rfl
      · exact absurd (Or.inl h₃) h₁
      · rfl
  · exact Or.inl ⟨hc, hk, by simp only [drainBody, h]⟩

namespace Takes

variable {s s' : Decoder} {b : UInt32} {frame : Frame}

theorem nextFrame_le (h : Takes s b frame s') : s.nextFrame ≤ b := by
  rcases h.pos with rfl | ⟨-, hle, -⟩
  · exact le_rfl
  · exact hle

/-- Below the last id, a round empties the buffer up to the frame it takes, and leaves the
rest alone. -/
theorem find?_of_lt (h : Takes s b frame s') (hb : b < maxUInt32) (k : UInt32) :
    s'.frameBuf.find? k = if k ≤ b then none else s.frameBuf.find? k := by
  rw [h.find?_eq]
  by_cases hk : k ≤ b
  · have : k < b + 1 := not_le.mp (fun hle => absurd ((lt_iff_add_one_le hb).mpr hle)
      (not_lt.mpr hk))
    rw [if_pos (Or.inr this), if_pos hk]
  · have hlt : b < k := not_le.mp hk
    have hle : b + 1 ≤ k := (lt_iff_add_one_le hb).mp hlt
    rw [if_neg hk, if_neg, if_neg (fun hkb => ne_of_gt hlt hkb.1)]
    rintro (h₁ | h₁)
    · exact lt_asymm hlt h₁
    · exact absurd hle (not_le.mpr h₁)

/-- The frame with the last id stays in the buffer, possibly moved from. -/
theorem find?_max (h : Takes s b frame s') {fr : Frame}
    (hfr : s.frameBuf.find? maxUInt32 = some fr) :
    s'.frameBuf.find? maxUInt32 = some fr ∨ s'.frameBuf.find? maxUInt32 = some fr.movedFrom := by
  rw [h.find?_eq, if_neg]
  · split_ifs with hb
    · have : frame = fr := by
        have := h.find?_pos
        rw [← hb.1, hfr] at this
        exact (Option.some.inj this).symm
      exact Or.inr (by rw [this])
    · exact Or.inl hfr
  · rintro (hlt | hlt)
    · exact absurd (le_maxUInt32 b) (not_le.mpr hlt)
    · exact absurd (le_maxUInt32 (b + 1)) (not_le.mpr hlt)

/-- A round buffers no new frame. -/
theorem contains_of_contains (h : Takes s b frame s') (k : UInt32)
    (hk : s'.frameBuf.contains k) : s.frameBuf.contains k := by
  rw [OrderedMap.contains, h.find?_eq] at hk
  rw [OrderedMap.contains]
  split_ifs at hk with h₁ h₂
  · simp at hk
  · rw [h₂.1, h.find?_pos]
    rfl
  · exact hk

/-- A frame other than the taken one survives a round exactly when its id is greater. -/
theorem isComplete_iff (h : Takes s b frame s') (hb : b < maxUInt32) (k : UInt32) :
    s'.IsComplete k ↔ b < k ∧ s.IsComplete k := by
  unfold Decoder.IsComplete
  rw [h.find?_of_lt hb]
  split_ifs with hk
  · simp [not_lt.mpr hk]
  · simp [not_le.mp hk]

/-- The same for the complete key frames. -/
theorem isCompleteKey_iff (h : Takes s b frame s') (hb : b < maxUInt32) (k : UInt32) :
    s'.IsCompleteKey k ↔ b < k ∧ s.IsCompleteKey k := by
  unfold Decoder.IsCompleteKey
  rw [h.find?_of_lt hb]
  split_ifs with hk
  · simp [not_lt.mpr hk]
  · simp [not_le.mp hk]

/-- A round neither completes nor removes a key frame with the last id. -/
theorem isCompleteKey_max_iff (h : Takes s b frame s') :
    s'.IsCompleteKey maxUInt32 ↔ s.IsCompleteKey maxUInt32 := by
  constructor
  · rintro ⟨fr, hfr, htype, hc⟩
    obtain ⟨fr₀, hfr₀⟩ := Option.isSome_iff_exists.mp
      (h.contains_of_contains maxUInt32 (by simp [OrderedMap.contains, hfr]))
    refine ⟨fr₀, hfr₀, ?_⟩
    rcases h.find?_max hfr₀ with heq | heq
    · rw [hfr, Option.some_inj] at heq
      exact heq ▸ ⟨htype, hc⟩
    · rw [hfr, Option.some_inj] at heq
      subst heq
      exact ⟨htype, hc⟩
  · rintro ⟨fr, hfr, htype, hc⟩
    rcases h.find?_max hfr with heq | heq
    · exact ⟨fr, heq, htype, hc⟩
    · exact ⟨fr.movedFrom, heq, htype, hc⟩

end Takes

/-! ## When the inner loop ends -/

/-- While the frame with the last id is a complete key frame, the loop never ends. -/
theorem not_drainEnds {s : Decoder} (hs : s.Inv) (hmax : s.IsCompleteKey maxUInt32)
    (frames : List Frame) (t : Decoder) : ¬ DrainEnds s frames t := by
  refine Loop.not_ends_of_invariant (fun s => s.Inv ∧ s.IsCompleteKey maxUInt32) ?_ s
    ⟨hs, hmax⟩ frames t
  rintro s ⟨hs, hmax⟩
  rcases drainBody_cases hs with ⟨-, hnone, -⟩ | ⟨b, frame, s', htakes, hs', hbody⟩
  · exact absurd hmax (hnone maxUInt32)
  · exact ⟨frame, s', hbody, hs', htakes.isCompleteKey_max_iff.mpr hmax⟩

/-- A bound for the rounds left: each one removes a frame, or takes the one with the last
id, after which `next_frame_` is zero. -/
def drainMeasure (s : Decoder) : ℕ :=
  2 * s.frameBuf.entries.length + if s.nextFrame = maxUInt32 then 1 else 0

/-- Without a complete key frame under the last id, each round makes the bound smaller. -/
theorem Takes.drainMeasure_lt {s s' : Decoder} {b : UInt32} {frame : Frame}
    (h : Takes s b frame s') (hmax : ¬ s.IsCompleteKey maxUInt32) :
    drainMeasure s' < drainMeasure s := by
  have hle := OrderedMap.length_le_of_contains h.contains_of_contains
  unfold drainMeasure
  by_cases hb : b = maxUInt32
  · -- the loop moves past the last id, and only once
    have hs : s.nextFrame = maxUInt32 := by
      rcases h.pos with hpos | ⟨hkey, -, -⟩
      · rw [← hpos, hb]
      · exact absurd (hb ▸ hkey) hmax
    have hs' : s'.nextFrame ≠ maxUInt32 := by
      rw [h.nextFrame_eq, hb, maxUInt32_add_one]
      decide
    rw [if_pos hs, if_neg hs']
    omega
  · have hlt : b < maxUInt32 := lt_maxUInt32_iff.mpr hb
    have hcontains : s.frameBuf.contains b := by simp [OrderedMap.contains, h.find?_pos]
    have hgone : ¬ s'.frameBuf.contains b := by
      simp [OrderedMap.contains, h.find?_of_lt hlt]
    have := OrderedMap.length_lt_of_contains h.contains_of_contains hcontains hgone
    split_ifs
    · omega
    · omega
    · omega
    · omega

/-- Without a complete key frame under the last id, the loop ends. -/
theorem exists_drainEnds {s : Decoder} (hs : s.Inv) (hmax : ¬ s.IsCompleteKey maxUInt32) :
    ∃ frames t, DrainEnds s frames t := by
  refine Loop.ends_of_measure (fun s => s.Inv ∧ ¬ s.IsCompleteKey maxUInt32) drainMeasure ?_ s
    ⟨hs, hmax⟩
  rintro s ⟨hs, hmax⟩
  rcases drainBody_cases hs with ⟨-, -, hbody⟩ | ⟨b, frame, s', htakes, hs', hbody⟩
  · exact Or.inl ⟨s, hbody⟩
  · exact Or.inr ⟨frame, s', hbody, ⟨hs', fun h => hmax (htakes.isCompleteKey_max_iff.mp h)⟩,
      htakes.drainMeasure_lt hmax⟩

/-- After a round that took the frame with the last id there is nothing more to take. -/
theorem Takes.eq_nil_of_max {s s' t : Decoder} {frame : Frame} {frames : List Frame}
    (h : Takes s maxUInt32 frame s') (hs' : s'.Inv) (hmax : ¬ s.IsCompleteKey maxUInt32)
    (hends : DrainEnds s' frames t) : frames = [] := by
  have honly : ∀ k, s'.frameBuf.contains k → k = maxUInt32 := by
    intro k hk
    by_contra hne
    rw [OrderedMap.contains, h.find?_eq, if_pos (Or.inl (lt_maxUInt32_iff.mpr hne))] at hk
    simp at hk
  have hleave : ∀ b fr s'', ¬ Takes s' b fr s'' := by
    intro b fr s'' h'
    have hb : b = maxUInt32 := honly b (by simp [OrderedMap.contains, h'.find?_pos])
    rcases h'.pos with hpos | ⟨hkey, -, -⟩
    · rw [hb, h.nextFrame_eq, maxUInt32_add_one] at hpos
      exact absurd hpos (by decide)
    · exact hmax (h.isCompleteKey_max_iff.mp (hb ▸ hkey))
  rcases drainBody_cases hs' with ⟨-, -, hbody⟩ | ⟨b, fr, s'', htakes, -, -⟩
  · exact (hends.unique (Loop.ends_of_leave hbody)).1
  · exact absurd htakes (hleave b fr s'')

/-- A loop that ends consumed buffered frames, in the strict order of their ids. -/
theorem DrainEnds.frames {s t : Decoder} {frames : List Frame} (h : DrainEnds s frames t)
    (hs : s.Inv) : (∀ frame ∈ frames, s.nextFrame ≤ frame.id ∧ frame.complete ∧
      s.frameBuf.find? frame.id = some frame) ∧ frames.Pairwise (fun a b => a.id < b.id) := by
  revert hs
  refine Loop.Ends.rec_on h (P := fun s frames _ => s.Inv →
    (∀ frame ∈ frames, s.nextFrame ≤ frame.id ∧ frame.complete ∧
      s.frameBuf.find? frame.id = some frame) ∧ frames.Pairwise (fun a b => a.id < b.id)) ?_ ?_
  · intro s t _ _
    simp
  · intro s frame s' frames t hbody hends ih hs
    have hmax : ¬ s.IsCompleteKey maxUInt32 := fun hkey =>
      not_drainEnds hs hkey (frame :: frames) t (Loop.ends_of_again hbody hends)
    rcases drainBody_cases hs with ⟨-, -, hbody'⟩ | ⟨b, fr, s'', htakes, hs', hbody'⟩
    · rw [hbody] at hbody'
      simp at hbody'
    rw [hbody, Except.ok.injEq, Loop.Round.again.injEq] at hbody'
    obtain ⟨rfl, rfl⟩ := hbody'
    have hid : frame.id = b := hs.id_eq b frame htakes.find?_pos
    have hhead : s.nextFrame ≤ frame.id ∧ frame.complete ∧
        s.frameBuf.find? frame.id = some frame :=
      ⟨hid ▸ htakes.nextFrame_le, htakes.complete, hid ▸ htakes.find?_pos⟩
    by_cases hb : b = maxUInt32
    · obtain rfl := (hb ▸ htakes).eq_nil_of_max hs' hmax hends
      simpa using hhead
    · have hlt : b < maxUInt32 := lt_maxUInt32_iff.mpr hb
      obtain ⟨hmem, hsorted⟩ := ih hs'
      -- the frames of the later rounds come from behind `b`
      have hlater : ∀ fr ∈ frames, b < fr.id := by
        intro fr hfr
        have := (hmem fr hfr).1
        rw [htakes.nextFrame_eq] at this
        exact (lt_iff_add_one_le hlt).mpr this
      refine ⟨?_, List.pairwise_cons.mpr ⟨fun fr hfr => hid ▸ hlater fr hfr, hsorted⟩⟩
      intro fr hfr
      rcases List.mem_cons.mp hfr with rfl | hmem'
      · exact hhead
      · have hbfr := hlater fr hmem'
        refine ⟨le_trans htakes.nextFrame_le (le_of_lt hbfr), (hmem fr hmem').2.1, ?_⟩
        have := (hmem fr hmem').2.2
        rwa [htakes.find?_of_lt hlt, if_neg (not_le.mpr hbfr)] at this

/-- The loop stops, after taking each buffered frame at most once. -/
def DrainStops (s : Decoder) : Prop :=
  ∃ frames t, DrainEnds s frames t ∧ (frames.map Frame.id).Nodup ∧
    ∀ frame ∈ frames, s.frameBuf.find? frame.id = some frame

/-- The loop stops exactly when the frame with the last id is not a complete key frame. -/
theorem drainStops_iff_not_isCompleteKey {s : Decoder} (hs : s.Inv) :
    DrainStops s ↔ ¬ s.IsCompleteKey maxUInt32 := by
  constructor
  · rintro ⟨frames, t, h, -⟩ hmax
    exact not_drainEnds hs hmax frames t h
  · intro hmax
    obtain ⟨frames, t, h⟩ := exists_drainEnds hs hmax
    obtain ⟨hmem, hsorted⟩ := h.frames hs
    refine ⟨frames, t, h, ?_, fun frame hframe => (hmem frame hframe).2.2⟩
    rw [List.Nodup, List.pairwise_map]
    exact hsorted.imp ne_of_lt

/-! ## Where the inner loop ends -/

/-- What a run of the inner loop does when the frame with the last id is not complete: it
stops at the frontier of the complete frames, keeps what is buffered from there on, and
hands every consumed frame to the worker, if there is one. -/
structure Drained (s : Decoder) (frames : List Frame) (t : Decoder) : Prop where
  inv : t.Inv
  isFrontier : IsFrontier {k | s.IsComplete k} {k | s.IsCompleteKey k} s.nextFrame t.nextFrame
  find?_eq : ∀ k, t.frameBuf.find? k = if k < t.nextFrame then none else s.frameBuf.find? k
  lazyLevel_eq : t.lazyLevel = s.lazyLevel
  sharedQueue_eq : t.sharedQueue =
    if s.lazyLevel.usesWorker then s.sharedQueue ++ frames else s.sharedQueue

/-- An empty run of the inner loop. -/
theorem drained_self {s : Decoder} (hs : s.Inv) (hc : ¬ s.IsComplete s.nextFrame)
    (hk : ∀ k, ¬ s.IsCompleteKey k) : Drained s [] s where
  inv := hs
  isFrontier := IsFrontier.self hc (fun k hkey _ => hk k hkey)
  find?_eq := fun k => by
    split_ifs with hlt
    · by_contra hne
      obtain ⟨fr, hfr⟩ := Option.ne_none_iff_exists'.mp hne
      exact absurd hlt (not_lt.mpr (hs.nextFrame_le k fr hfr))
    · rfl
  lazyLevel_eq := rfl
  sharedQueue_eq := by simp

/-- A round in front of a run of the inner loop. -/
theorem Takes.drained {s s' t : Decoder} {b : UInt32} {frame : Frame} {frames : List Frame}
    (h : Takes s b frame s') (hb : b < maxUInt32) (ht : Drained s' frames t) :
    Drained s (frame :: frames) t := by
  have hcomplete : s.IsComplete b := ⟨frame, h.find?_pos, h.complete⟩
  have hsucc : ∀ x, b < x ↔ b + 1 ≤ x := fun x => lt_iff_add_one_le hb
  have hle : b + 1 ≤ t.nextFrame := h.nextFrame_eq ▸ ht.isFrontier.le
  refine ⟨ht.inv, ?_, ?_, ?_, ?_⟩
  · refine IsFrontier.step (m := b + 1) hcomplete ?_ hsucc ?_
    · exact h.pos.imp id (fun ⟨hkey, hlow, hmax⟩ => ⟨hkey, hlow, hmax⟩)
    · rw [← h.nextFrame_eq]
      refine ht.isFrontier.congr (fun m hm => ?_) (fun m hm => ?_)
      · rw [h.nextFrame_eq, ← hsucc] at hm
        exact ((h.isComplete_iff hb m).trans (and_iff_right hm)).symm
      · rw [h.nextFrame_eq, ← hsucc] at hm
        exact ((h.isCompleteKey_iff hb m).trans (and_iff_right hm)).symm
  · intro k
    rw [ht.find?_eq]
    split_ifs with hk
    · rfl
    · rw [h.find?_of_lt hb, if_neg]
      exact not_le.mpr ((hsucc k).mpr (le_trans hle (not_lt.mp hk)))
  · rw [ht.lazyLevel_eq, h.lazyLevel_eq]
  · rw [ht.sharedQueue_eq, h.lazyLevel_eq, h.sharedQueue_eq]
    split_ifs
    · simp
    · rfl

/-- The inner loop, as a whole. -/
theorem DrainEnds.drained {s t : Decoder} {frames : List Frame} (h : DrainEnds s frames t)
    (hs : s.Inv) (hmax : ¬ s.IsComplete maxUInt32) : Drained s frames t := by
  revert hs hmax
  refine Loop.Ends.rec_on h (P := fun s frames t => s.Inv → ¬ s.IsComplete maxUInt32 →
    Drained s frames t) ?_ ?_
  · intro s t hbody hs _
    rcases drainBody_cases hs with ⟨hc, hk, hbody'⟩ | ⟨b, frame, s', -, -, hbody'⟩
    · rw [hbody, Except.ok.injEq, Loop.Round.leave.injEq] at hbody'
      subst hbody'
      exact drained_self hs hc hk
    · rw [hbody] at hbody'
      simp at hbody'
  · intro s frame s' frames t hbody _ ih hs hmax
    rcases drainBody_cases hs with ⟨-, -, hbody'⟩ | ⟨b, fr, s'', htakes, hs', hbody'⟩
    · rw [hbody] at hbody'
      simp at hbody'
    rw [hbody, Except.ok.injEq, Loop.Round.again.injEq] at hbody'
    obtain ⟨rfl, rfl⟩ := hbody'
    have hb : b < maxUInt32 := by
      rw [lt_maxUInt32_iff]
      rintro rfl
      exact hmax ⟨frame, htakes.find?_pos, htakes.complete⟩
    refine htakes.drained hb (ih hs' ?_)
    rw [htakes.isComplete_iff hb]
    exact fun h => hmax h.2

end Receiver

end Ringmaster
