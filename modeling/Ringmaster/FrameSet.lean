/-
# Sets of frames, and the order in which their fragments arrive

A `FrameSet` is what a sender may have to say: under each id at most one frame, cut into
fragments.  The network delivers copies of the fragments, in any order and any number.

The main result is that the receiver does not depend on the order
(`processes_order_independent`): after copies of exactly the fragments in `S` have arrived,
its `next_frame_` and the content of its buffer are functions of `S` alone.
-/
import Ringmaster.Reassembly

open Unsigned

namespace Ringmaster

/-! ## Frames and fragments -/

/-- A frame as the sender splits it: its type and the payloads of its fragments, at least
one of them and not too many for a 16-bit count. -/
structure FrameSource where
  type : FrameType
  payloads : List Bytes
  ne_nil : payloads ≠ []
  length_lt : payloads.length < 2 ^ 16

/-- Frames under ids below the last 32-bit one. -/
structure FrameSet where
  source : UInt32 → Option FrameSource
  lt_max : ∀ k, (source k).isSome → k < maxUInt32

namespace FrameSet

/-- The number of fragments of the frame `k`. -/
def fragCnt (F : FrameSet) (k : UInt32) : ℕ := (F.source k).elim 0 (fun src => src.payloads.length)

/-- The fragment `i` of the frame `k`, as a datagram with the time stamp zero. -/
def fragment (F : FrameSet) (k : UInt32) (i : UInt16) : Option Datagram :=
  (F.source k).bind fun src => src.payloads[i.toNat]?.map fun payload =>
    { frameId := k
      frameType := src.type
      fragId := i
      fragCnt := UInt16.ofNat src.payloads.length
      sendTs := 0
      payload := payload }

/-- A datagram that differs from a fragment of the set at most in its time stamp. -/
def IsCopy (F : FrameSet) (d : Datagram) : Prop :=
  F.fragment d.frameId d.fragId = some { d with sendTs := 0 }

/-- The datagrams are copies of the fragments in `S`, at least one of each. -/
def Delivers (F : FrameSet) (S : Finset (UInt32 × UInt16)) (ds : List Datagram) : Prop :=
  (∀ d ∈ ds, F.IsCopy d ∧ (d.frameId, d.fragId) ∈ S) ∧
    ∀ p ∈ S, ∃ d ∈ ds, (d.frameId, d.fragId) = p

instance (F : FrameSet) (d : Datagram) : Decidable (F.IsCopy d) :=
  inferInstanceAs (Decidable (_ = _))

instance (F : FrameSet) (S : Finset (UInt32 × UInt16)) (ds : List Datagram) :
    Decidable (F.Delivers S ds) :=
  @instDecidableAnd _ _ _ Finset.decidableDforallFinset

/-- All fragments of the frame `k` are in `S`. -/
def whollyIn (F : FrameSet) (S : Finset (UInt32 × UInt16)) (k : UInt32) : Bool :=
  (F.source k).any fun src =>
    (List.range src.payloads.length).all fun i => decide ((k, UInt16.ofNat i) ∈ S)

/-- The frame `k` is a key frame. -/
def isKey (F : FrameSet) (k : UInt32) : Bool :=
  (F.source k).any fun src => decide (src.type = .key)

/-- The largest id of a key frame that is wholly in `S`, and 0 when there is none. -/
def base (F : FrameSet) (S : Finset (UInt32 × UInt16)) : UInt32 :=
  ((S.image Prod.fst).filter fun k => F.isKey k ∧ F.whollyIn S k).max.unbotD 0

/-- What is known of the frame `k` when `S` has arrived: the slots of its fragments. -/
def stored (F : FrameSet) (S : Finset (UInt32 × UInt16)) (k : UInt32) : List (Option Datagram) :=
  (List.range (F.fragCnt k)).map fun i =>
    if (k, UInt16.ofNat i) ∈ S then F.fragment k (UInt16.ofNat i) else none

end FrameSet

/-- The slots of a buffered frame, up to the time stamps. -/
def Frame.withoutSendTs (frame : Frame) : List (Option Datagram) :=
  frame.frags.map (Option.map fun d => { d with sendTs := 0 })

namespace FrameSet

variable {F : FrameSet} {S : Finset (UInt32 × UInt16)} {ds : List Datagram}

/-! ## Copies -/

/-- The fragment count of a frame of the set fits into 16 bits. -/
theorem toNat_ofNat_length (src : FrameSource) :
    (UInt16.ofNat src.payloads.length).toNat = src.payloads.length := by
  rw [UInt16.toNat_ofNat']
  exact Nat.mod_eq_of_lt src.length_lt

/-- What a copy has from its frame. -/
theorem isCopy_iff {d : Datagram} : F.IsCopy d ↔ ∃ src, F.source d.frameId = some src ∧
    src.payloads[d.fragId.toNat]? = some d.payload ∧ d.frameType = src.type ∧
      d.fragCnt = UInt16.ofNat src.payloads.length ∧ d.numRtx = 0 ∧ d.lastSendTs = 0 := by
  obtain ⟨frameId, frameType, fragId, fragCnt, sendTs, payload, numRtx, lastSendTs⟩ := d
  simp only [IsCopy, fragment, Option.bind_eq_some_iff, Option.map_eq_some_iff,
    Datagram.mk.injEq, true_and]
  constructor
  · rintro ⟨src, hsrc, p, hp, htype, hcnt, rfl, hrtx, hlast⟩
    exact ⟨src, hsrc, hp, htype.symm, hcnt.symm, hrtx.symm, hlast.symm⟩
  · rintro ⟨src, hsrc, hp, htype, hcnt, hrtx, hlast⟩
    exact ⟨src, hsrc, payload, hp, htype.symm, hcnt.symm, rfl, hrtx.symm, hlast.symm⟩

/-- A copy lies within the fragments of its frame. -/
theorem IsCopy.lt_length {d : Datagram} {src : FrameSource} (h : F.IsCopy d)
    (hsrc : F.source d.frameId = some src) :
    d.fragId.toNat < src.payloads.length ∧ d.fragCnt.toNat = src.payloads.length ∧
      d.frameType = src.type := by
  obtain ⟨src', hsrc', hp, htype, hcnt, -⟩ := isCopy_iff.mp h
  obtain rfl : src' = src := by rwa [hsrc', Option.some_inj] at hsrc
  refine ⟨(List.getElem?_eq_some_iff.mp hp).1, ?_, htype⟩
  rw [hcnt, toNat_ofNat_length]

/-- Copies of the fragments of one set fit together. -/
theorem consistent_of_forall_isCopy (h : ∀ d ∈ ds, F.IsCopy d) : Receiver.Consistent ds := by
  constructor
  · intro d hd
    obtain ⟨src, hsrc, -⟩ := isCopy_iff.mp (h d hd)
    obtain ⟨hlt, hcnt, -⟩ := (h d hd).lt_length hsrc
    refine ⟨F.lt_max _ (by rw [hsrc]; rfl), ?_⟩
    rw [UInt16.lt_iff_toNat_lt]
    omega
  · intro d hd e he hid
    obtain ⟨src, hsrc, -, htype, hcnt, -⟩ := isCopy_iff.mp (h d hd)
    obtain ⟨src', hsrc', -, htype', hcnt', -⟩ := isCopy_iff.mp (h e he)
    obtain rfl : src = src' := by rwa [hid, hsrc', Option.some_inj, eq_comm] at hsrc
    exact ⟨htype.trans htype'.symm, hcnt.trans hcnt'.symm⟩

/-! ## Delivered sets -/

/-- A fragment is in the delivered set exactly when some datagram carries its numbers. -/
theorem Delivers.mem_iff (h : F.Delivers S ds) {k : UInt32} {i : ℕ} (hi : i < 2 ^ 16) :
    (k, UInt16.ofNat i) ∈ S ↔ ∃ d ∈ ds, d.frameId = k ∧ d.fragId.toNat = i := by
  constructor
  · intro hmem
    obtain ⟨d, hd, heq⟩ := h.2 _ hmem
    rw [Prod.mk.injEq] at heq
    refine ⟨d, hd, heq.1, ?_⟩
    rw [heq.2, UInt16.toNat_ofNat']
    exact Nat.mod_eq_of_lt hi
  · rintro ⟨d, hd, rfl, rfl⟩
    rw [UInt16.ofNat_toNat]
    exact (h.1 d hd).2

/-- A frame is wholly in `S` when the set has it and all its fragments are in `S`. -/
theorem whollyIn_iff {k : UInt32} : F.whollyIn S k ↔
    ∃ src, F.source k = some src ∧ ∀ i < src.payloads.length, (k, UInt16.ofNat i) ∈ S := by
  unfold whollyIn
  cases hsrc : F.source k with
  | none => simp
  | some src => simp

/-- The whole frames are those wholly in the delivered set. -/
theorem Delivers.whole_iff (h : F.Delivers S ds) (k : UInt32) :
    Receiver.Whole ds k ↔ F.whollyIn S k := by
  rw [whollyIn_iff]
  constructor
  · rintro ⟨d, hd, rfl, hall⟩
    have hcopy := (h.1 d hd).1
    obtain ⟨src, hsrc, -⟩ := isCopy_iff.mp hcopy
    refine ⟨src, hsrc, fun i hi => ?_⟩
    rw [h.mem_iff (lt_trans hi src.length_lt)]
    apply hall
    rwa [(hcopy.lt_length hsrc).2.1]
  · rintro ⟨src, hsrc, hall⟩
    have hmem : ∀ i < src.payloads.length, ∃ e ∈ ds, e.frameId = k ∧ e.fragId.toNat = i :=
      fun i hi => (h.mem_iff (lt_trans hi src.length_lt)).mp (hall i hi)
    -- the frame has a first fragment, which tells the number of the others
    obtain ⟨d, hd, rfl, -⟩ := hmem 0 (List.length_pos_iff.mpr src.ne_nil)
    refine ⟨d, hd, rfl, fun i hi => hmem i ?_⟩
    rwa [((h.1 d hd).1.lt_length hsrc).2.1] at hi

/-- The whole key frames are the key frames wholly in the delivered set. -/
theorem Delivers.wholeKey_iff (h : F.Delivers S ds) (k : UInt32) :
    Receiver.WholeKey ds k ↔ F.isKey k ∧ F.whollyIn S k := by
  have hkey : ∀ d, Receiver.WholeBy ds k d → (d.frameType = .key ↔ F.isKey k) := by
    rintro d ⟨hd, rfl, -⟩
    obtain ⟨src, hsrc, -, htype, -⟩ := isCopy_iff.mp (h.1 d hd).1
    rw [isKey, hsrc, Option.any_some, decide_eq_true_iff, htype]
  rw [← h.whole_iff]
  constructor
  · rintro ⟨d, hd, htype⟩
    exact ⟨(hkey d hd).mp htype, d, hd⟩
  · rintro ⟨htype, d, hd⟩
    exact ⟨d, hd, (hkey d hd).mpr htype⟩

/-- The base is the last key frame that is wholly in `S`, or 0 when there is none. -/
theorem base_spec (F : FrameSet) (S : Finset (UInt32 × UInt16)) :
    IsGreatest {k | (F.isKey k ∧ F.whollyIn S k) ∧ 0 ≤ k} (F.base S) ∨
      (∀ k, (F.isKey k ∧ F.whollyIn S k) → ¬ 0 ≤ k) ∧ F.base S = 0 := by
  have hmem : ∀ k, k ∈ (S.image Prod.fst).filter (fun k => F.isKey k ∧ F.whollyIn S k) ↔
      F.isKey k ∧ F.whollyIn S k := by
    intro k
    rw [Finset.mem_filter, and_iff_right_iff_imp]
    rintro ⟨-, hk⟩
    obtain ⟨src, -, hall⟩ := whollyIn_iff.mp hk
    exact Finset.mem_image.mpr ⟨_, hall 0 (List.length_pos_iff.mpr src.ne_nil), rfl⟩
  unfold base
  rcases Finset.eq_empty_or_nonempty
    ((S.image Prod.fst).filter (fun k => F.isKey k ∧ F.whollyIn S k)) with hempty | hne
  · right
    rw [hempty]
    refine ⟨fun k hk => ?_, rfl⟩
    rw [← hmem, hempty] at hk
    exact absurd hk (Finset.notMem_empty k)
  · left
    rw [← Finset.coe_max' hne, WithBot.unbotD_coe]
    constructor
    · exact ⟨(hmem _).mp (Finset.max'_mem _ hne), zero_le_uint32 _⟩
    · rintro k ⟨hk, -⟩
      exact Finset.le_max' _ k ((hmem k).mpr hk)

/-! ## The buffer -/

/-- A buffered frame that agrees with the delivered datagrams holds what `S` has of it. -/
theorem Delivers.withoutSendTs_eq (h : F.Delivers S ds) {k : UInt32} {frame : Frame}
    (ht : Receiver.Tracks ds k frame) (hd : ∃ d ∈ ds, d.frameId = k) :
    frame.withoutSendTs = F.stored S k := by
  obtain ⟨d₀, hd₀, rfl⟩ := hd
  obtain ⟨src, hsrc, -⟩ := isCopy_iff.mp (h.1 d₀ hd₀).1
  have hcnt : F.fragCnt d₀.frameId = frame.frags.length := by
    rw [← (ht.agree d₀ hd₀ rfl).2, ((h.1 d₀ hd₀).1.lt_length hsrc).2.1, fragCnt, hsrc]
    rfl
  apply List.ext_getElem?
  intro i
  unfold Frame.withoutSendTs stored
  rw [List.getElem?_map, List.getElem?_map, hcnt]
  by_cases hi : i < frame.frags.length
  · rw [List.getElem?_range hi, List.getElem?_eq_getElem hi, Option.map_some, Option.map_some,
      Option.some_inj]
    have hi16 : i < 2 ^ 16 := lt_trans hi ht.valid.length_lt
    cases hslot : frame.frags[i] with
    | none =>
      -- an empty slot: no datagram for it has arrived
      rw [if_neg]
      · rfl
      · rw [h.mem_iff hi16]
        rintro ⟨d, hd, hid, rfl⟩
        obtain ⟨e, he⟩ := ht.filled d hd hid
        rw [List.getElem?_eq_getElem hi, hslot] at he
        simp at he
    | some d =>
      have hget : frame.frags[i]? = some (some d) := by rw [List.getElem?_eq_getElem hi, hslot]
      obtain ⟨hid, -, hfrag, -⟩ := ht.valid.slot i d hget
      have hd := ht.slot i d hget
      have hid' : d.frameId = d₀.frameId := hid.trans ht.id_eq
      rw [if_pos ((h.mem_iff hi16).mpr ⟨d, hd, hid', hfrag⟩), ← hfrag, UInt16.ofNat_toNat, ← hid']
      exact (h.1 d hd).1.symm
  · rw [List.getElem?_eq_none (by simpa using hi), List.getElem?_eq_none (by simpa using hi)]
    rfl

/-- The whole buffer after the datagrams of `S`: from `next_frame_` on, every frame of which
a fragment is in `S`, with those fragments. -/
theorem Delivers.frameBuf_eq (h : F.Delivers S ds) {s : Decoder} (ha : Receiver.Agrees ds s)
    (k : UInt32) : (s.frameBuf.find? k).map Frame.withoutSendTs =
      if s.nextFrame ≤ k ∧ ∃ p ∈ S, p.1 = k then some (F.stored S k) else none := by
  have hmem : (∃ p ∈ S, p.1 = k) ↔ ∃ d ∈ ds, d.frameId = k := by
    constructor
    · rintro ⟨p, hp, rfl⟩
      obtain ⟨d, hd, rfl⟩ := h.2 p hp
      exact ⟨d, hd, rfl⟩
    · rintro ⟨d, hd, rfl⟩
      exact ⟨_, (h.1 d hd).2, rfl⟩
  cases hbuf : s.frameBuf.find? k with
  | none =>
    rw [if_neg]
    · rfl
    · rintro ⟨hle, hp⟩
      obtain ⟨d, hd, hk⟩ := hmem.mp hp
      have ht := ha.tracksAt k hle
      rw [hbuf] at ht
      exact ht d hd hk
  | some frame =>
    have hle := ha.inv.nextFrame_le k frame hbuf
    have ht := ha.tracksAt k hle
    rw [hbuf] at ht
    rw [if_pos ⟨hle, hmem.mpr ht.1⟩, Option.map_some, h.withoutSendTs_eq ht.2 ht.1]

/-! ## Reassembled frames -/

/-- A buffered frame that agrees with delivered copies is a frame of the set, with a slot for
each of its fragments. -/
theorem exists_source_of_tracks (hcopy : ∀ d ∈ ds, F.IsCopy d) {k : UInt32} {frame : Frame}
    (ht : Receiver.Tracks ds k frame) (hd : ∃ d ∈ ds, d.frameId = k) :
    ∃ src, F.source k = some src ∧ frame.type = src.type ∧
      frame.frags.length = src.payloads.length := by
  obtain ⟨d, hmem, rfl⟩ := hd
  obtain ⟨src, hsrc, -⟩ := isCopy_iff.mp (hcopy d hmem)
  obtain ⟨-, hcnt, htype⟩ := (hcopy d hmem).lt_length hsrc
  obtain ⟨htype', hcnt'⟩ := ht.agree d hmem rfl
  exact ⟨src, hsrc, htype'.symm.trans htype, hcnt'.symm.trans hcnt⟩

/-- The content of a complete frame is put together from the payloads of the fragments. -/
theorem content_of_complete (hcopy : ∀ d ∈ ds, F.IsCopy d) {k : UInt32} {frame : Frame}
    (ht : Receiver.Tracks ds k frame) (hc : frame.complete) {src : FrameSource}
    (hsrc : F.source k = some src) (hlength : frame.frags.length = src.payloads.length) :
    frame.content = src.payloads.flatten := by
  have hpayloads : (frame.frags.map fun slot => slot.elim [] Datagram.payload) = src.payloads := by
    apply List.ext_getElem?
    intro i
    rw [List.getElem?_map]
    by_cases hi : i < frame.frags.length
    · obtain ⟨d, hslot⟩ := ht.valid.complete_iff.mp hc i hi
      obtain ⟨hid, -, hfrag, -⟩ := ht.valid.slot i d hslot
      have hk : d.frameId = k := hid.trans ht.id_eq
      obtain ⟨src', hsrc', hpayload, -⟩ := isCopy_iff.mp (hcopy d (ht.slot i d hslot))
      obtain rfl : src' = src := by rwa [hk, hsrc, Option.some_inj, eq_comm] at hsrc'
      rw [hslot, ← hfrag, hpayload]
      rfl
    · rw [List.getElem?_eq_none (not_lt.mp hi), List.getElem?_eq_none (hlength ▸ not_lt.mp hi)]
      rfl
  unfold Frame.content
  rw [List.flatMap_def, hpayloads]

/-! ## Independence of the order -/

/-- The state of the receiver, as a function of what has arrived. -/
structure Settled (F : FrameSet) (S : Finset (UInt32 × UInt16)) (s : Decoder) : Prop where
  isLeast : IsLeast {n | F.base S ≤ n ∧ ¬ F.whollyIn S n} s.nextFrame
  frameBuf_eq : ∀ k, (s.frameBuf.find? k).map Frame.withoutSendTs =
    if s.nextFrame ≤ k ∧ ∃ p ∈ S, p.1 = k then some (F.stored S k) else none

/-- After the datagrams of `S` the receiver is in the state that `S` determines. -/
theorem Delivers.settled (h : F.Delivers S ds) {lazyLevel : LazyLevel} {fs : List Frame}
    {s : Decoder} (hrun : Receiver.Processes (Decoder.initial lazyLevel) ds fs s) :
    Settled F S s := by
  have hcons := consistent_of_forall_isCopy (fun d hd => (h.1 d hd).1)
  have hre := Receiver.reassembled_of_processes hrun (fun d hd => (hcons.1 d hd).1)
  refine ⟨?_, h.frameBuf_eq hre.agrees⟩
  have hfrontier : IsFrontier {k | F.whollyIn S k} {k | F.isKey k ∧ F.whollyIn S k} 0 s.nextFrame :=
    hre.isFrontier.congr (fun m _ => (h.whole_iff m).symm) (fun m _ => (h.wholeKey_iff m).symm)
  exact hfrontier.isLeast (base_spec F S)

/-- The order in which fragments arrive does not matter, nor how often each arrives.  Two
sequences of datagrams that deliver the same set `S` of fragments are both processed to the
end.  Afterwards both receivers have the same `next_frame_`, the least id from the last
whole key frame on whose frame is not whole, and the same buffer up to time stamps: every
frame from `next_frame_` on that has a fragment in `S`. -/
theorem processes_order_independent (F : FrameSet) (S : Finset (UInt32 × UInt16))
    (lazyLevel : LazyLevel) (ds ds' : List Datagram) (h : F.Delivers S ds)
    (h' : F.Delivers S ds') :
    (∃ fs s, Receiver.Processes (Decoder.initial lazyLevel) ds fs s) ∧
    (∃ fs' s', Receiver.Processes (Decoder.initial lazyLevel) ds' fs' s') ∧
    ∀ fs s fs' s', Receiver.Processes (Decoder.initial lazyLevel) ds fs s →
      Receiver.Processes (Decoder.initial lazyLevel) ds' fs' s' →
      s.nextFrame = s'.nextFrame ∧
      (∀ k, s.frameBuf.contains k ↔ s'.frameBuf.contains k) ∧
      (∀ k, (s.frameBuf.find? k).map Frame.withoutSendTs
        = (s'.frameBuf.find? k).map Frame.withoutSendTs) ∧
      IsLeast {n | F.base S ≤ n ∧ ¬ F.whollyIn S n} s.nextFrame ∧
      (∀ k, s.frameBuf.contains k ↔ s.nextFrame ≤ k ∧ ∃ p ∈ S, p.1 = k) := by
  have hcons := consistent_of_forall_isCopy (fun d hd => (h.1 d hd).1)
  have hcons' := consistent_of_forall_isCopy (fun d hd => (h'.1 d hd).1)
  refine ⟨Receiver.exists_processes lazyLevel hcons, Receiver.exists_processes lazyLevel hcons', ?_⟩
  intro fs s fs' s' hrun hrun'
  have hs := h.settled hrun
  have hs' := h'.settled hrun'
  have hnext : s.nextFrame = s'.nextFrame := hs.isLeast.unique hs'.isLeast
  have hbuf : ∀ k, (s.frameBuf.find? k).map Frame.withoutSendTs
      = (s'.frameBuf.find? k).map Frame.withoutSendTs := by
    intro k
    rw [hs.frameBuf_eq, hs'.frameBuf_eq, hnext]
  have hcontains : ∀ s : Decoder, ∀ k, s.frameBuf.contains k ↔
      ((s.frameBuf.find? k).map Frame.withoutSendTs).isSome := by
    intro s k
    rw [OrderedMap.contains, Option.isSome_map]
  refine ⟨hnext, fun k => ?_, hbuf, hs.isLeast, fun k => ?_⟩
  · rw [hcontains, hcontains, hbuf]
  · rw [hcontains, hs.frameBuf_eq]
    split_ifs with hk
    · simpa using hk
    · simpa using hk

/-- A frame of two fragments under the id 0, and a key frame of one fragment under 2. -/
def twoFrames : FrameSet where
  source := fun k =>
    if k = 0 then some ⟨.nonkey, [[1], [2]], by decide, by decide⟩
    else if k = 2 then some ⟨.key, [[3]], by decide, by decide⟩
    else none
  lt_max := by
    intro k hk
    split_ifs at hk with h₀ h₂
    · rw [h₀]
      decide
    · rw [h₂]
      decide
    · simp at hk

/-- Two orders in which copies of the three fragments may arrive: in the first one the frame
0 is consumed before the key frame, in the second one it is skipped. -/
theorem processes_order_independent_twoFrames :
    let first : Datagram := ⟨0, .nonkey, 0, 2, 10, [1], 0, 0⟩
    let second : Datagram := ⟨0, .nonkey, 1, 2, 20, [2], 0, 0⟩
    let third : Datagram := ⟨2, .key, 0, 1, 30, [3], 0, 0⟩
    ∃ fs s fs' s',
      Receiver.Processes (Decoder.initial .decodeOnly) [first, second, third] fs s ∧
      Receiver.Processes (Decoder.initial .decodeOnly)
        [{ third with sendTs := 40 }, second, first, third] fs' s' ∧
      s.nextFrame = s'.nextFrame := by
  intro first second third
  have h := processes_order_independent twoFrames {(0, 0), (0, 1), (2, 0)} .decodeOnly
    [first, second, third] [{ third with sendTs := 40 }, second, first, third]
    (by decide) (by decide)
  obtain ⟨⟨fs, s, hrun⟩, ⟨fs', s', hrun'⟩, hall⟩ := h
  exact ⟨fs, s, fs', s', hrun, hrun', (hall fs s fs' s' hrun hrun').1⟩

end FrameSet

end Ringmaster
