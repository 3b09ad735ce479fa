/-
# What the receiver's buffer knows about the delivered datagrams

An arbitrary sequence of datagrams has been delivered.  `Whole` and `WholeKey` say, of the
sequence alone, that all fragments of a frame are among them; `Tracks` says that a buffered
frame holds exactly what was delivered of it.

The main results: the buffer tracks the delivered datagrams from `next_frame_` on, and
`next_frame_` is the frontier of the whole frames (`reassembled_of_processes`), for every
order in which datagrams with ids below the last one arrive; and the inner loop stops after
a datagram if and only if the frame with the last id is not a whole key frame
(`drainStops_iff`).
-/
import Ringmaster.Receiver

open Unsigned

namespace Ringmaster

namespace Receiver

/-! ## Whole frames -/

/-- The datagram `d` was delivered for the frame `k`, and so was one for each fragment that
it announces. -/
def WholeBy (ds : List Datagram) (k : UInt32) (d : Datagram) : Prop :=
  d ∈ ds ∧ d.frameId = k ∧
    ∀ i < d.fragCnt.toNat, ∃ e ∈ ds, e.frameId = k ∧ e.fragId.toNat = i

/-- All fragments of the frame `k` were delivered. -/
def Whole (ds : List Datagram) (k : UInt32) : Prop := ∃ d, WholeBy ds k d

/-- All fragments of the frame `k` were delivered, and it is a key frame. -/
def WholeKey (ds : List Datagram) (k : UInt32) : Prop :=
  ∃ d, WholeBy ds k d ∧ d.frameType = .key

/-- More datagrams make no frame less whole. -/
theorem WholeBy.append {ds : List Datagram} {k : UInt32} {d : Datagram} (h : WholeBy ds k d)
    (ds' : List Datagram) : WholeBy (ds ++ ds') k d := by
  refine ⟨List.mem_append_left _ h.1, h.2.1, fun i hi => ?_⟩
  obtain ⟨e, he, hid, hfrag⟩ := h.2.2 i hi
  exact ⟨e, List.mem_append_left _ he, hid, hfrag⟩

/-! ## Tracking one frame -/

/-- A buffered frame with the id `k` agrees with the delivered datagrams. -/
structure Tracks (ds : List Datagram) (k : UInt32) (frame : Frame) : Prop where
  valid : frame.Valid
  id_eq : frame.id = k
  pos : 0 < frame.frags.length
  agree : ∀ d ∈ ds, d.frameId = k →
    d.frameType = frame.type ∧ d.fragCnt.toNat = frame.frags.length
  slot : ∀ (i : ℕ) (d : Datagram), frame.frags[i]? = some (some d) → d ∈ ds
  filled : ∀ d ∈ ds, d.frameId = k → ∃ e, frame.frags[d.fragId.toNat]? = some (some e)

/-- What the buffer has under the id `k` agrees with the delivered datagrams. -/
def TracksAt (ds : List Datagram) (k : UInt32) (entry : Option Frame) : Prop :=
  match entry with
  | none => ∀ d ∈ ds, d.frameId ≠ k
  | some frame => (∃ d ∈ ds, d.frameId = k) ∧ Tracks ds k frame

/-- A new frame agrees when nothing of it was delivered. -/
theorem tracks_of_new {ds : List Datagram} {k : UInt32} {frameType : FrameType}
    {fragCnt : UInt16} {frame : Frame} (h : Frame.new k frameType fragCnt = .ok frame)
    (hnone : ∀ d ∈ ds, d.frameId ≠ k) : Tracks ds k frame := by
  have hvalid := Frame.valid_of_new h
  obtain ⟨hcnt, rfl⟩ := Frame.new_eq_ok_iff.mp h
  refine ⟨hvalid, rfl, ?_, fun d hd hk => absurd hk (hnone d hd), ?_,
    fun d hd hk => absurd hk (hnone d hd)⟩
  · have : fragCnt.toNat ≠ 0 := fun h0 => hcnt (UInt16.toNat_inj.mp h0)
    simp only [List.length_replicate]
    omega
  · intro i d hi
    rw [List.getElem?_replicate] at hi
    split_ifs at hi
    simp at hi

/-- An insertion into a frame that agrees. -/
theorem Tracks.insertFragMove {ds : List Datagram} {k : UInt32} {frame frame' : Frame}
    {d left : Datagram} (h : Tracks ds k frame)
    (hins : frame.insertFragMove d = .ok (frame', left)) : Tracks (ds ++ [d]) k frame' := by
  obtain ⟨hid, htype, hlen⟩ := Frame.insertFragMove_eq hins
  obtain ⟨hv, -⟩ := Frame.insertFragMove_cases hins
  obtain ⟨-, hdtype, -, hdcnt⟩ := Frame.validateDatagram_eq_ok_iff.mp hv
  refine ⟨h.valid.insertFragMove hins, hid.trans h.id_eq, by rw [hlen]; exact h.pos, ?_, ?_, ?_⟩
  · intro e he hk
    rw [htype, hlen]
    rcases List.mem_append.mp he with he | he
    · exact h.agree e he hk
    · rw [List.mem_singleton.mp he]
      exact ⟨hdtype, hdcnt⟩
  · intro i e hi
    rw [Frame.getElem?_insertFragMove hins] at hi
    split_ifs at hi
    · rw [Option.some_inj, Option.some_inj] at hi
      exact List.mem_append_right _ (List.mem_singleton.mpr hi.symm)
    · exact List.mem_append_left _ (h.slot i e hi)
  · intro e he hk
    rcases List.mem_append.mp he with he | he
    · obtain ⟨e', he'⟩ := h.filled e he hk
      rw [Frame.getElem?_insertFragMove hins]
      split_ifs
      · exact ⟨d, rfl⟩
      · exact ⟨e', he'⟩
    · rw [List.mem_singleton.mp he]
      exact Frame.isSome_insertFragMove hins

/-- Datagrams of other frames change nothing for a frame. -/
theorem TracksAt.append_of_ne {ds : List Datagram} {k : UInt32} {entry : Option Frame}
    {d : Datagram} (h : TracksAt ds k entry) (hne : d.frameId ≠ k) :
    TracksAt (ds ++ [d]) k entry := by
  have hmem : ∀ e ∈ ds ++ [d], e.frameId = k → e ∈ ds := by
    intro e he hk
    rcases List.mem_append.mp he with he | he
    · exact he
    · rw [List.mem_singleton.mp he] at hk
      exact absurd hk hne
  cases entry with
  | none => exact fun e he hk => h e (hmem e he hk) hk
  | some frame =>
    obtain ⟨⟨d₀, hd₀, hk₀⟩, ht⟩ := h
    refine ⟨⟨d₀, List.mem_append_left _ hd₀, hk₀⟩, ht.valid, ht.id_eq, ht.pos, ?_, ?_, ?_⟩
    · exact fun e he hk => ht.agree e (hmem e he hk) hk
    · exact fun i e hi => List.mem_append_left _ (ht.slot i e hi)
    · exact fun e he hk => ht.filled e (hmem e he hk) hk

/-- An addition keeps the buffer in agreement, at every id from `next_frame_` on. -/
theorem TracksAt.addDatagram {ds : List Datagram} {k : UInt32} {s s₁ : Decoder} {d : Datagram}
    (h : TracksAt ds k (s.frameBuf.find? k)) (hk : s.nextFrame ≤ k)
    (hadd : s.addDatagram d = (.ok (), s₁)) :
    TracksAt (ds ++ [d]) k (s₁.frameBuf.find? k) := by
  rcases Decoder.addDatagram_cases hadd with ⟨hlt, rfl⟩ | ⟨-, -, -, -, frame, frame', left, hfor,
    hins, hfind⟩
  · exact h.append_of_ne (ne_of_lt (lt_of_lt_of_le hlt hk))
  · rw [hfind]
    split_ifs with hkd
    · subst hkd
      have ht : Tracks ds d.frameId frame := by
        rw [Decoder.frameFor] at hfor
        cases hbuf : s.frameBuf.find? d.frameId with
        | none =>
          rw [hbuf] at h
          simp only [hbuf] at hfor
          exact tracks_of_new hfor h
        | some frame₀ =>
          rw [hbuf] at h
          simp only [hbuf, Except.ok.injEq] at hfor
          exact hfor ▸ h.2
      exact ⟨⟨d, List.mem_append_right _ List.mem_cons_self, rfl⟩, ht.insertFragMove hins⟩
    · exact h.append_of_ne (Ne.symm hkd)

/-- A frame in agreement is complete exactly when all its fragments were delivered. -/
theorem Tracks.complete_iff {ds : List Datagram} {k : UInt32} {frame : Frame}
    (h : Tracks ds k frame) : frame.complete ↔
      ∀ i < frame.frags.length, ∃ e ∈ ds, e.frameId = k ∧ e.fragId.toNat = i := by
  rw [h.valid.complete_iff]
  constructor
  · intro hall i hi
    obtain ⟨e, he⟩ := hall i hi
    obtain ⟨hid, -, hfrag, -⟩ := h.valid.slot i e he
    exact ⟨e, h.slot i e he, hid.trans h.id_eq, hfrag⟩
  · intro hall i hi
    obtain ⟨e, he, hid, rfl⟩ := hall i hi
    exact h.filled e he hid

/-- At an id in agreement, the complete frames are the whole ones. -/
theorem TracksAt.isComplete_iff {ds : List Datagram} {k : UInt32} {s : Decoder}
    (h : TracksAt ds k (s.frameBuf.find? k)) : s.IsComplete k ↔ Whole ds k := by
  unfold Decoder.IsComplete
  cases hbuf : s.frameBuf.find? k with
  | none =>
    rw [hbuf] at h
    simp only [reduceCtorEq, false_and, exists_false, false_iff]
    rintro ⟨d, hd, hk, -⟩
    exact h d hd hk
  | some frame =>
    rw [hbuf] at h
    obtain ⟨⟨d₀, hd₀, hk₀⟩, ht⟩ := h
    simp only [Option.some.injEq, exists_eq_left', ht.complete_iff]
    constructor
    · intro hall
      exact ⟨d₀, hd₀, hk₀, fun i hi => hall i ((ht.agree d₀ hd₀ hk₀).2 ▸ hi)⟩
    · rintro ⟨d, hd, hk, hall⟩ i hi
      exact hall i ((ht.agree d hd hk).2.symm ▸ hi)

/-- At an id in agreement, the complete key frames are the whole key frames. -/
theorem TracksAt.isCompleteKey_iff {ds : List Datagram} {k : UInt32} {s : Decoder}
    (h : TracksAt ds k (s.frameBuf.find? k)) : s.IsCompleteKey k ↔ WholeKey ds k := by
  constructor
  · rintro ⟨frame, hbuf, htype, hc⟩
    obtain ⟨d, hd⟩ := h.isComplete_iff.mp ⟨frame, hbuf, hc⟩
    rw [hbuf] at h
    exact ⟨d, hd, (h.2.agree d hd.1 hd.2.1).1.trans htype⟩
  · rintro ⟨d, hd, htype⟩
    obtain ⟨frame, hbuf, hc⟩ := h.isComplete_iff.mpr ⟨d, hd⟩
    rw [hbuf] at h
    exact ⟨frame, hbuf, (h.2.agree d hd.1 hd.2.1).1.symm.trans htype, hc⟩

/-! ## Tracking the whole buffer -/

/-- From `next_frame_` on, the buffer agrees with the delivered datagrams. -/
structure Agrees (ds : List Datagram) (s : Decoder) : Prop where
  inv : s.Inv
  tracksAt : ∀ k, s.nextFrame ≤ k → TracksAt ds k (s.frameBuf.find? k)

theorem agrees_initial (lazyLevel : LazyLevel) : Agrees [] (Decoder.initial lazyLevel) where
  inv := Decoder.inv_initial lazyLevel
  tracksAt := fun _ _ _ hd => absurd hd List.not_mem_nil

/-- An addition keeps the buffer in agreement. -/
theorem Agrees.addDatagram {ds : List Datagram} {s s₁ : Decoder} {d : Datagram}
    (h : Agrees ds s) (hadd : s.addDatagram d = (.ok (), s₁)) : Agrees (ds ++ [d]) s₁ := by
  refine ⟨h.inv.addDatagram hadd, fun k hk => ?_⟩
  rw [Decoder.nextFrame_addDatagram hadd] at hk
  exact (h.tracksAt k hk).addDatagram hk hadd

/-- The inner loop keeps the buffer in agreement. -/
theorem Agrees.drained {ds : List Datagram} {s t : Decoder} {frames : List Frame}
    (h : Agrees ds s) (ht : Drained s frames t) : Agrees ds t := by
  refine ⟨ht.inv, fun k hk => ?_⟩
  rw [ht.find?_eq, if_neg (not_lt.mpr hk)]
  exact h.tracksAt k (le_trans ht.isFrontier.le hk)

/-- The frame with the last id is complete only if it was delivered. -/
theorem Agrees.not_isComplete_max {ds : List Datagram} {s : Decoder} (h : Agrees ds s)
    (hids : ∀ d ∈ ds, d.frameId < maxUInt32) : ¬ s.IsComplete maxUInt32 := by
  rw [(h.tracksAt maxUInt32 (le_maxUInt32 _)).isComplete_iff]
  rintro ⟨d, hd, hk, -⟩
  exact ne_of_lt (hids d hd) hk

/-- What a whole run of the receiver establishes: the buffer agrees with the delivered
datagrams, `next_frame_` is the frontier of the whole frames, and each consumed frame agreed
with what had been delivered when it was consumed. -/
structure Reassembled (ds : List Datagram) (fs : List Frame) (s : Decoder) : Prop where
  agrees : Agrees ds s
  isFrontier : IsFrontier {k | Whole ds k} {k | WholeKey ds k} 0 s.nextFrame
  consumed : ∀ frame ∈ fs, frame.complete ∧ ∃ ds', ds' <+: ds ∧ Tracks ds' frame.id frame

theorem reassembled_initial (lazyLevel : LazyLevel) :
    Reassembled [] [] (Decoder.initial lazyLevel) where
  agrees := agrees_initial lazyLevel
  isFrontier := IsFrontier.self (fun ⟨_, hd⟩ => absurd hd.1 List.not_mem_nil)
    (fun _ ⟨_, hd, _⟩ => absurd hd.1 List.not_mem_nil)
  consumed := fun _ hframe => absurd hframe List.not_mem_nil

/-- One more datagram and the inner loop after it. -/
theorem Reassembled.snoc {ds : List Datagram} {fs gs : List Frame} {s s₁ t : Decoder}
    {d : Datagram} (h : Reassembled ds fs s) (hadd : s.addDatagram d = (.ok (), s₁))
    (hends : DrainEnds s₁ gs t) (hids : ∀ e ∈ ds ++ [d], e.frameId < maxUInt32) :
    Reassembled (ds ++ [d]) (fs ++ gs) t := by
  have hagrees := h.agrees.addDatagram hadd
  have hdrained := hends.drained hagrees.inv (hagrees.not_isComplete_max hids)
  refine ⟨hagrees.drained hdrained, ?_, ?_⟩
  · -- the loop goes on from the frontier reached before
    refine h.isFrontier.trans (fun k ⟨e, he⟩ => ⟨e, he.append [d]⟩)
      (fun k ⟨e, he, htype⟩ => ⟨e, he.append [d], htype⟩) ?_
    rw [← Decoder.nextFrame_addDatagram hadd]
    exact hdrained.isFrontier.congr
      (fun m hm => (hagrees.tracksAt m hm).isComplete_iff.symm)
      (fun m hm => (hagrees.tracksAt m hm).isCompleteKey_iff.symm)
  · intro frame hframe
    rcases List.mem_append.mp hframe with hmem | hmem
    · obtain ⟨hc, ds', hpre, ht⟩ := h.consumed frame hmem
      exact ⟨hc, ds', hpre.trans (List.prefix_append ds [d]), ht⟩
    · obtain ⟨hle, hc, hfind⟩ := (hends.frames hagrees.inv).1 frame hmem
      have ht := hagrees.tracksAt frame.id hle
      rw [hfind] at ht
      exact ⟨hc, ds ++ [d], List.prefix_rfl, ht.2⟩

/-- Every run over datagrams with ids below the last one. -/
theorem reassembled_of_processes {lazyLevel : LazyLevel} {ds : List Datagram}
    {fs : List Frame} {s : Decoder} (h : Processes (Decoder.initial lazyLevel) ds fs s)
    (hids : ∀ d ∈ ds, d.frameId < maxUInt32) : Reassembled ds fs s := by
  induction h with
  | nil => exact reassembled_initial lazyLevel
  | snoc hrun hadd hends ih =>
    exact (ih (fun e he => hids e (List.mem_append_left _ he))).snoc hadd hends hids

/-! ## Runs that raise nothing -/

/-- The datagrams fit together: a fragment id lies below the fragment count, and the
datagrams of one frame have one type and one fragment count. -/
def Consistent (ds : List Datagram) : Prop :=
  (∀ d ∈ ds, d.frameId < maxUInt32 ∧ d.fragId < d.fragCnt) ∧
    ∀ d ∈ ds, ∀ e ∈ ds, d.frameId = e.frameId →
      d.frameType = e.frameType ∧ d.fragCnt = e.fragCnt

/-- A consistent sequence, without its last datagram. -/
theorem Consistent.of_append {ds ds' : List Datagram} (h : Consistent (ds ++ ds')) :
    Consistent ds :=
  ⟨fun d hd => h.1 d (List.mem_append_left _ hd), fun d hd e he =>
    h.2 d (List.mem_append_left _ hd) e (List.mem_append_left _ he)⟩

/-- The addition of one more consistent datagram succeeds. -/
theorem Agrees.exists_addDatagram {ds : List Datagram} {s : Decoder} {d : Datagram}
    (h : Agrees ds s) (hcons : Consistent (ds ++ [d])) :
    ∃ s₁, s.addDatagram d = (.ok (), s₁) := by
  have hd : d ∈ ds ++ [d] := List.mem_append_right _ List.mem_cons_self
  have hlt : d.fragId.toNat < d.fragCnt.toNat := UInt16.lt_iff_toNat_lt.mp (hcons.1 d hd).2
  apply Decoder.exists_addDatagram
  intro hle
  have ht := h.tracksAt d.frameId hle
  unfold Decoder.frameFor
  cases hbuf : s.frameBuf.find? d.frameId with
  | none =>
    have hcnt : d.fragCnt ≠ 0 := by
      intro h0
      rw [h0] at hlt
      exact absurd hlt (Nat.not_lt_zero _)
    refine ⟨_, Frame.new_eq_ok_iff.mpr ⟨hcnt, rfl⟩, ?_⟩
    rw [Frame.validateDatagram_eq_ok_iff]
    simp [hlt]
  | some frame =>
    rw [hbuf] at ht
    obtain ⟨⟨d₀, hd₀, hk₀⟩, htracks⟩ := ht
    obtain ⟨htype, hcnt⟩ := htracks.agree d₀ hd₀ hk₀
    obtain ⟨htype', hcnt'⟩ := hcons.2 d hd d₀ (List.mem_append_left _ hd₀) hk₀.symm
    refine ⟨frame, rfl, ?_⟩
    rw [Frame.validateDatagram_eq_ok_iff]
    refine ⟨htracks.id_eq.symm, htype'.trans htype, ?_, ?_⟩
    · rwa [← hcnt, ← hcnt']
    · rw [hcnt', hcnt]

/-- A consistent sequence is processed to its end. -/
theorem exists_processes (lazyLevel : LazyLevel) {ds : List Datagram} (h : Consistent ds) :
    ∃ fs s, Processes (Decoder.initial lazyLevel) ds fs s := by
  induction ds using List.reverseRecOn with
  | nil => exact ⟨[], _, Processes.nil⟩
  | append_singleton ds d ih =>
    obtain ⟨fs, s, hrun⟩ := ih h.of_append
    have hagrees := (reassembled_of_processes hrun (fun e he => (h.of_append.1 e he).1)).agrees
    obtain ⟨s₁, hadd⟩ := hagrees.exists_addDatagram h
    have hagrees₁ := hagrees.addDatagram hadd
    have hmax : ¬ s₁.IsCompleteKey maxUInt32 := by
      rintro ⟨frame, hfind, -, hc⟩
      exact hagrees₁.not_isComplete_max (fun e he => (h.1 e he).1) ⟨frame, hfind, hc⟩
    obtain ⟨gs, t, hends⟩ := exists_drainEnds hagrees₁.inv hmax
    exact ⟨fs ++ gs, t, hrun.snoc hadd hends⟩

/-! ## The last id -/

/-- The frame with the last id agrees with the delivered datagrams, or it is not a key
frame, and neither is any datagram delivered for it. -/
def TracksMax (ds : List Datagram) (s : Decoder) : Prop :=
  TracksAt ds maxUInt32 (s.frameBuf.find? maxUInt32) ∨
    ∃ frame, s.frameBuf.find? maxUInt32 = some frame ∧ frame.type ≠ .key ∧
      ∀ d ∈ ds, d.frameId = maxUInt32 → d.frameType ≠ .key

/-- Under either alternative a complete key frame is a whole key frame. -/
theorem TracksMax.isCompleteKey_iff {ds : List Datagram} {s : Decoder} (h : TracksMax ds s) :
    s.IsCompleteKey maxUInt32 ↔ WholeKey ds maxUInt32 := by
  rcases h with h | ⟨frame, hfind, htype, hds⟩
  · exact h.isCompleteKey_iff
  · constructor
    · rintro ⟨frame', hfind', htype', -⟩
      rw [hfind, Option.some_inj] at hfind'
      exact absurd (hfind' ▸ htype') htype
    · rintro ⟨d, ⟨hd, hk, -⟩, htype'⟩
      exact absurd htype' (hds d hd hk)

/-- An addition keeps track of the frame with the last id. -/
theorem TracksMax.addDatagram {ds : List Datagram} {s s₁ : Decoder} {d : Datagram}
    (h : TracksMax ds s) (hadd : s.addDatagram d = (.ok (), s₁)) :
    TracksMax (ds ++ [d]) s₁ := by
  rcases h with h | ⟨frame, hfind, htype, hds⟩
  · exact Or.inl (h.addDatagram (le_maxUInt32 _) hadd)
  right
  rcases Decoder.addDatagram_cases hadd with ⟨hlt, rfl⟩ | ⟨-, -, -, -, frame₀, frame', left, hfor,
    hins, hfind'⟩
  · refine ⟨frame, hfind, htype, fun e he hk => ?_⟩
    rcases List.mem_append.mp he with he | he
    · exact hds e he hk
    · rw [List.mem_singleton.mp he] at hk
      exact absurd (le_maxUInt32 _) (not_le.mpr (hk ▸ hlt))
  · by_cases hd : d.frameId = maxUInt32
    · -- the datagram had to pass the validation by the frame that is there
      have hframe : frame₀ = frame := by
        rw [Decoder.frameFor, hd, hfind] at hfor
        exact (Except.ok.inj hfor).symm
      subst hframe
      obtain ⟨hv, -⟩ := Frame.insertFragMove_cases hins
      obtain ⟨-, hdtype, -, -⟩ := Frame.validateDatagram_eq_ok_iff.mp hv
      refine ⟨frame', by rw [hfind', if_pos hd.symm], ?_, fun e he hk => ?_⟩
      · rwa [(Frame.insertFragMove_eq hins).2.1]
      · rcases List.mem_append.mp he with he | he
        · exact hds e he hk
        · rw [List.mem_singleton.mp he, hdtype]
          exact htype
    · refine ⟨frame, by rw [hfind', if_neg (Ne.symm hd), hfind], htype, fun e he hk => ?_⟩
      rcases List.mem_append.mp he with he | he
      · exact hds e he hk
      · rw [List.mem_singleton.mp he] at hk
        exact absurd hk hd

/-- A round keeps track of the frame with the last id, unless it is a complete key frame. -/
theorem TracksMax.takes {ds : List Datagram} {s s' : Decoder} {b : UInt32} {frame : Frame}
    (h : TracksMax ds s) (hmax : ¬ s.IsCompleteKey maxUInt32) (ht : Takes s b frame s') :
    TracksMax ds s' := by
  by_cases hb : b = maxUInt32
  · -- the frame that is taken is not a key frame, and it stays in the buffer
    subst hb
    have hfind := ht.find?_pos
    have htype : frame.type ≠ .key := fun hkey => hmax ⟨frame, hfind, hkey, ht.complete⟩
    have hds : ∀ d ∈ ds, d.frameId = maxUInt32 → d.frameType ≠ .key := by
      rcases h with h | ⟨frame', -, -, hds⟩
      · rw [hfind] at h
        intro d hd hk
        rw [(h.2.agree d hd hk).1]
        exact htype
      · exact hds
    right
    rcases ht.find?_max hfind with heq | heq
    · exact ⟨frame, heq, htype, hds⟩
    · exact ⟨frame.movedFrom, heq, htype, hds⟩
  · have hlt : b < maxUInt32 := lt_maxUInt32_iff.mpr hb
    unfold TracksMax
    rw [ht.find?_of_lt hlt, if_neg (not_le.mpr hlt)]
    exact h

/-- A loop that ends keeps track of the frame with the last id. -/
theorem TracksMax.drainEnds {ds : List Datagram} {s t : Decoder} {frames : List Frame}
    (h : TracksMax ds s) (hs : s.Inv) (hends : DrainEnds s frames t) :
    t.Inv ∧ TracksMax ds t := by
  revert hs h
  refine Loop.Ends.rec_on hends (P := fun s _ t => TracksMax ds s → s.Inv →
    t.Inv ∧ TracksMax ds t) ?_ ?_
  · intro s t hbody h hs
    rcases drainBody_cases hs with ⟨-, -, hbody'⟩ | ⟨b, frame, s', -, -, hbody'⟩
    · rw [hbody, Except.ok.injEq, Loop.Round.leave.injEq] at hbody'
      subst hbody'
      exact ⟨hs, h⟩
    · rw [hbody] at hbody'
      simp at hbody'
  · intro s frame s' frames t hbody hends ih h hs
    have hmax : ¬ s.IsCompleteKey maxUInt32 := fun hkey =>
      not_drainEnds hs hkey (frame :: frames) t (Loop.ends_of_again hbody hends)
    rcases drainBody_cases hs with ⟨-, -, hbody'⟩ | ⟨b, fr, s'', htakes, hs', hbody'⟩
    · rw [hbody] at hbody'
      simp at hbody'
    rw [hbody, Except.ok.injEq, Loop.Round.again.injEq] at hbody'
    obtain ⟨rfl, rfl⟩ := hbody'
    exact ih (h.takes hmax htakes) hs'

/-- Every run keeps track of the frame with the last id. -/
theorem tracksMax_of_processes {lazyLevel : LazyLevel} {ds : List Datagram}
    {fs : List Frame} {s : Decoder} (h : Processes (Decoder.initial lazyLevel) ds fs s) :
    s.Inv ∧ TracksMax ds s := by
  induction h with
  | nil =>
    exact ⟨Decoder.inv_initial lazyLevel, Or.inl fun _ hd => absurd hd List.not_mem_nil⟩
  | snoc _ hadd hends ih =>
    exact (ih.2.addDatagram hadd).drainEnds (ih.1.addDatagram hadd) hends

/-- After any run, and one more datagram of whatever content, the inner loop stops, taking
each buffered frame at most once, if and only if the frame with the last 32-bit id is not a
key frame of which all fragments have been delivered. -/
theorem drainStops_iff {lazyLevel : LazyLevel} {ds : List Datagram} {fs : List Frame}
    {s s₁ : Decoder} {d : Datagram} (hrun : Processes (Decoder.initial lazyLevel) ds fs s)
    (hadd : s.addDatagram d = (.ok (), s₁)) :
    DrainStops s₁ ↔ ¬ WholeKey (ds ++ [d]) maxUInt32 := by
  obtain ⟨hs, hmax⟩ := tracksMax_of_processes hrun
  rw [drainStops_iff_not_isCompleteKey (hs.addDatagram hadd),
    (hmax.addDatagram hadd).isCompleteKey_iff]

/-- The datagram of a key frame with the last id and a single fragment. -/
def lastKeyDatagram : Datagram :=
  { frameId := maxUInt32
    frameType := .key
    fragId := 0
    fragCnt := 1
    sendTs := 0
    payload := [7] }

/-- The equivalence at a datagram of an ordinary frame, and at the one on which the loop
does not stop. -/
theorem drainStops_iff_lastKeyDatagram :
    ∃ s₁ s₂, (Decoder.initial .decodeOnly).addDatagram { lastKeyDatagram with frameId := 0 }
        = (.ok (), s₁) ∧
      (Decoder.initial .decodeOnly).addDatagram lastKeyDatagram = (.ok (), s₂) ∧
      (DrainStops s₁ ↔ ¬ WholeKey [{ lastKeyDatagram with frameId := 0 }] maxUInt32) ∧
      (DrainStops s₂ ↔ ¬ WholeKey [lastKeyDatagram] maxUInt32) :=
  ⟨_, _, rfl, rfl, drainStops_iff Processes.nil rfl, drainStops_iff Processes.nil rfl⟩

/-- A datagram that arrives off the wire, is added without an exception, and after which the
inner loop does not stop. -/
theorem exists_not_drainStops :
    ∃ s₁, ({} : Datagram).parseFromString lastKeyDatagram.serializeToString
        = .ok (true, lastKeyDatagram) ∧
      (Decoder.initial .decodeOnly).addDatagram lastKeyDatagram = (.ok (), s₁) ∧
      ¬ DrainStops s₁ := by
  obtain ⟨s₁, hadd⟩ : ∃ s₁, (Decoder.initial .decodeOnly).addDatagram lastKeyDatagram
      = (.ok (), s₁) := ⟨_, rfl⟩
  refine ⟨s₁, Datagram.parseFromString_serializeToString {} lastKeyDatagram, hadd, ?_⟩
  rw [drainStops_iff_not_isCompleteKey ((Decoder.inv_initial .decodeOnly).addDatagram hadd),
    not_not]
  obtain rfl := (Prod.ext_iff.mp hadd).2
  exact ⟨_, rfl, rfl, rfl⟩

end Receiver

end Ringmaster
