/-
# From the encoded frames to the consumed ones

The encoder packetizes a sequence of encoded frames.  The network carries the serialized
datagrams, each with any time stamp, and loses, duplicates and reorders them.  The receiver
parses what arrives, adds it to its buffer and consumes the complete frames.

The datagrams of the encoder are the fragments of a `FrameSet`, so what was proved about its
copies applies: the receiver raises nothing, and what it consumes under an id is the frame
that was packetized under it, byte for byte (`consumed_eq_packetized`).
-/
import Ringmaster.FrameSet
import Ringmaster.Encoder

open Unsigned

namespace Ringmaster

open Packetization

namespace Integrity

variable {E : Type}

/-! ## The two ends -/

/-- The encoder packetizes the frames one after another, each under the next id. -/
def packetizeAll (maxPayload : ℕ) : Encoder E → List (Bytes × Bool) → Except Exn (Encoder E)
  | enc, [] => .ok enc
  | enc, (buf, isKey) :: frames =>
    match enc.packetizeEncodedFrame maxPayload [.frame buf isKey] with
    | (.error e, _) => .error e
    | (.ok _, enc) => packetizeAll maxPayload { enc with frameId := enc.frameId + 1 } frames

/-- The byte string is one of the datagrams, serialized with some time stamp. -/
def Carries (ds : List Datagram) (binary : Bytes) : Prop :=
  ∃ d ∈ ds, ∃ sendTs, binary = { d with sendTs := sendTs }.serializeToString

/-- The main loop of the receiver over what `recv` returns, without an exception. -/
inductive Receives (s₀ : Decoder) : List Bytes → List Frame → Decoder → Prop
  | nil : Receives s₀ [] [] s₀
  | snoc {binaries : List Bytes} {fs gs : List Frame} {s s₁ t : Decoder} {binary : Bytes}
      {d : Datagram} :
      Receives s₀ binaries fs s → Datagram.parseFromString {} binary = .ok (true, d) →
      s.addDatagram d = (.ok (), s₁) → Receiver.DrainEnds s₁ gs t →
      Receives s₀ (binaries ++ [binary]) (fs ++ gs) t

/-- The frames in the buffer are complete exactly when each of their datagrams is among the
delivered ones. -/
def CompleteIffDelivered (ds : List Datagram) (binaries : List Bytes) (s : Decoder) : Prop :=
  ∀ k frame, s.frameBuf.find? k = some frame →
    (frame.complete ↔ ∀ d ∈ ds, d.frameId = k → ∃ binary ∈ binaries, Carries [d] binary)

/-! ## The datagrams of the encoder -/

/-- The datagrams that the frames are packetized into, when the first of them has the id
`first`. -/
def datagramsFrom (maxPayload : ℕ) (first : UInt32) : List (Bytes × Bool) → List Datagram
  | [] => []
  | (buf, isKey) :: frames =>
    packetize first maxPayload buf isKey ++ datagramsFrom maxPayload (first + 1) frames

/-- A packetization of all frames that succeeds. -/
theorem packetizeAll_cases {maxPayload : ℕ} {enc enc' : Encoder E} {frames : List (Bytes × Bool)}
    (h : packetizeAll maxPayload enc frames = .ok enc') :
    (∀ frame ∈ frames, fragCntOf maxPayload frame.1.length < 2 ^ 16) ∧
      enc'.sendBuf = enc.sendBuf ++ datagramsFrom maxPayload enc.frameId frames := by
  induction frames generalizing enc with
  | nil =>
    rw [packetizeAll, Except.ok.injEq] at h
    rw [← h]
    exact ⟨fun _ hmem => absurd hmem List.not_mem_nil, (List.append_nil _).symm⟩
  | cons frame frames ih =>
    obtain ⟨buf, isKey⟩ := frame
    unfold packetizeAll Encoder.packetizeEncodedFrame at h
    cases hloop : packetsLoop enc.frameId maxPayload [.frame buf isKey] 0 0 enc.sendBuf with
    | mk result sendBuf =>
      cases result with
      | error e => simp [hloop] at h
      | ok size =>
        obtain ⟨ds, ⟨hnone, -⟩ | ⟨buf', isKey', hframes, -, hlt, rfl⟩, rfl⟩ :=
          packetsLoop_cases hloop
        · simp [framesOf] at hnone
        obtain ⟨rfl, rfl⟩ : buf = buf' ∧ isKey = isKey' := by simpa [framesOf] using hframes
        simp only [hloop] at h
        obtain ⟨hall, hbuf⟩ := ih h
        refine ⟨?_, ?_⟩
        · intro frame hmem
          rcases List.mem_cons.mp hmem with rfl | hmem'
          · exact hlt
          · exact hall frame hmem'
        · rw [hbuf, datagramsFrom, List.append_assoc]

/-- Where a datagram comes from. -/
theorem mem_datagramsFrom {maxPayload : ℕ} {first : UInt32} {frames : List (Bytes × Bool)}
    (hlen : first.toNat + frames.length < 2 ^ 32) {d : Datagram} :
    d ∈ datagramsFrom maxPayload first frames ↔ ∃ i buf isKey, frames[i]? = some (buf, isKey) ∧
      d ∈ packetize d.frameId maxPayload buf isKey ∧ d.frameId.toNat = first.toNat + i := by
  induction frames generalizing first with
  | nil => simp [datagramsFrom]
  | cons frame frames ih =>
    obtain ⟨buf, isKey⟩ := frame
    rw [List.length_cons] at hlen
    have hid : ∀ d ∈ packetize first maxPayload buf isKey, d.frameId = first := by
      intro d hd
      rw [(isFragmentation_packetize first maxPayload buf isKey).header d hd]
    rw [datagramsFrom, List.mem_append]
    constructor
    · rintro (hd | hd)
      · refine ⟨0, buf, isKey, rfl, ?_, ?_⟩
        · rwa [hid d hd]
        · rw [hid d hd, Nat.add_zero]
      · -- there is a frame behind the first one, so its id does not wrap around
        have hne : frames ≠ [] := by
          rintro rfl
          exact absurd hd List.not_mem_nil
        have hpos := List.length_pos_iff.mpr hne
        have hlt : first < maxUInt32 := by
          rw [UInt32.lt_iff_toNat_lt]
          show first.toNat < 4294967295
          omega
        have hsucc : (first + 1).toNat = first.toNat + 1 := toNat_add_one hlt
        obtain ⟨i, buf', isKey', hi, hmem, hfirst⟩ := (ih (by omega)).mp hd
        exact ⟨i + 1, buf', isKey', hi, hmem, by omega⟩
    · rintro ⟨i, buf', isKey', hi, hmem, hfirst⟩
      cases i with
      | zero =>
        rw [List.getElem?_cons_zero, Option.some_inj, Prod.mk.injEq] at hi
        obtain ⟨rfl, rfl⟩ := hi
        have hk : d.frameId = first := UInt32.toNat_inj.mp (by omega)
        rw [hk] at hmem
        exact Or.inl hmem
      | succ i =>
        rw [List.getElem?_cons_succ] at hi
        have hlt' := (List.getElem?_eq_some_iff.mp hi).1
        have hlt : first < maxUInt32 := by
          rw [UInt32.lt_iff_toNat_lt]
          show first.toNat < 4294967295
          omega
        have hsucc : (first + 1).toNat = first.toNat + 1 := toNat_add_one hlt
        exact Or.inr ((ih (by omega)).mpr ⟨i, buf', isKey', hi, hmem, by omega⟩)

/-! ## The frames as a set -/

/-- An encoded frame, cut into the payloads of its datagrams. -/
def frameSource (maxPayload : ℕ) (k : UInt32) (buf : Bytes) (isKey : Bool)
    (h : fragCntOf maxPayload buf.length < 2 ^ 16) : FrameSource where
  type := if isKey then .key else .nonkey
  payloads := (packetize k maxPayload buf isKey).map Datagram.payload
  ne_nil := by
    have hlength := (isFragmentation_packetize k maxPayload buf isKey).length_eq
    rw [← List.length_pos_iff, List.length_map, hlength, (toNat_fragCntOf h).1]
    exact (toNat_fragCntOf h).2
  length_lt := by
    rw [List.length_map, (isFragmentation_packetize k maxPayload buf isKey).length_eq,
      (toNat_fragCntOf h).1]
    exact h

/-- The encoded frames under their ids, those that are too long left out. -/
def frameSet (maxPayload : ℕ) (frames : List (Bytes × Bool)) (hlen : frames.length < 2 ^ 32 - 1) :
    FrameSet where
  source := fun k => frames[k.toNat]?.bind fun frame =>
    if h : fragCntOf maxPayload frame.1.length < 2 ^ 16 then
      some (frameSource maxPayload k frame.1 frame.2 h)
    else none
  lt_max := by
    intro k hk
    obtain ⟨src, hsrc⟩ := Option.isSome_iff_exists.mp hk
    obtain ⟨frame, hframe, -⟩ := Option.bind_eq_some_iff.mp hsrc
    have hlt := (List.getElem?_eq_some_iff.mp hframe).1
    rw [UInt32.lt_iff_toNat_lt]
    show k.toNat < 4294967295
    omega

section Frames

variable {maxPayload : ℕ} {frames : List (Bytes × Bool)} {hlen : frames.length < 2 ^ 32 - 1}

/-- The frame under an id, when it is not too long. -/
theorem frameSet_source {k : UInt32} {buf : Bytes} {isKey : Bool}
    (hframe : frames[k.toNat]? = some (buf, isKey))
    (hfit : fragCntOf maxPayload buf.length < 2 ^ 16) :
    (frameSet maxPayload frames hlen).source k
      = some (frameSource maxPayload k buf isKey hfit) := by
  show (frames[k.toNat]?.bind _) = _
  rw [hframe, Option.bind_some, dif_pos hfit]

/-- What the frames of the set are. -/
theorem exists_of_frameSet_source {k : UInt32} {src : FrameSource}
    (h : (frameSet maxPayload frames hlen).source k = some src) :
    ∃ buf isKey hfit, frames[k.toNat]? = some (buf, isKey) ∧
      src = frameSource maxPayload k buf isKey hfit := by
  obtain ⟨⟨buf, isKey⟩, hframe, hsrc⟩ := Option.bind_eq_some_iff.mp h
  dsimp only at hsrc
  split_ifs at hsrc with hfit
  rw [Option.some_inj] at hsrc
  exact ⟨buf, isKey, hfit, hframe, hsrc.symm⟩

/-- The payloads of a frame add up to it. -/
theorem flatten_frameSource {k : UInt32} {buf : Bytes} {isKey : Bool}
    (h : fragCntOf maxPayload buf.length < 2 ^ 16) :
    (frameSource maxPayload k buf isKey h).payloads.flatten = buf := by
  have hcnt : 0 < (UInt16.ofNat (fragCntOf maxPayload buf.length)).toNat := by
    rw [(toNat_fragCntOf h).1]
    exact (toNat_fragCntOf h).2
  show ((packetize k maxPayload buf isKey).map Datagram.payload).flatten = buf
  rw [← List.flatMap_def]
  exact (isFragmentation_packetize k maxPayload buf isKey).content hcnt

/-- The datagrams of the encoder, under any time stamp, are copies of the fragments. -/
theorem isCopy_of_mem (hfit : ∀ frame ∈ frames, fragCntOf maxPayload frame.1.length < 2 ^ 16)
    {d : Datagram} (hd : d ∈ datagramsFrom maxPayload 0 frames) :
    d.sendTs = 0 ∧ d.numRtx = 0 ∧ d.lastSendTs = 0 ∧
      ∀ sendTs, (frameSet maxPayload frames hlen).IsCopy { d with sendTs := sendTs } := by
  have hlt : (0 : UInt32).toNat + frames.length < 2 ^ 32 := by
    rw [UInt32.toNat_zero]
    omega
  obtain ⟨i, buf, isKey, hframe, hmem, hid⟩ := (mem_datagramsFrom hlt).mp hd
  rw [UInt32.toNat_zero, Nat.zero_add] at hid
  subst hid
  have hfrag := isFragmentation_packetize d.frameId maxPayload buf isKey
  have hheader := hfrag.header d hmem
  have hbuf : fragCntOf maxPayload buf.length < 2 ^ 16 :=
    hfit _ (List.mem_of_getElem? hframe)
  obtain ⟨j, hj⟩ := List.getElem?_of_mem hmem
  have hpayload : ((packetize d.frameId maxPayload buf isKey).map Datagram.payload)[d.fragId.toNat]?
      = some d.payload := by
    rw [hfrag.toNat_fragId hj, List.getElem?_map, hj, Option.map_some]
  refine ⟨by rw [hheader], by rw [hheader], by rw [hheader], fun sendTs => ?_⟩
  rw [FrameSet.isCopy_iff]
  refine ⟨_, frameSet_source hframe hbuf, hpayload, ?_, ?_, ?_, ?_⟩
  · rw [hheader]
    rfl
  · have hlength : (packetize d.frameId maxPayload buf isKey).length
        = fragCntOf maxPayload buf.length := by rw [hfrag.length_eq, (toNat_fragCntOf hbuf).1]
    show d.fragCnt = UInt16.ofNat ((packetize d.frameId maxPayload buf isKey).map _).length
    rw [List.length_map, hlength, hheader]
  · rw [hheader]
  · rw [hheader]

/-- A datagram of the encoder is known by its two numbers. -/
theorem eq_of_mem_of_mem (hlen : frames.length < 2 ^ 32 - 1)
    (hfit : ∀ frame ∈ frames, fragCntOf maxPayload frame.1.length < 2 ^ 16)
    {d e : Datagram} (hd : d ∈ datagramsFrom maxPayload 0 frames)
    (he : e ∈ datagramsFrom maxPayload 0 frames) (hframe : d.frameId = e.frameId)
    (hfrag : d.fragId = e.fragId) : d = e := by
  obtain ⟨hd0, -, -, hdcopy⟩ := @isCopy_of_mem _ _ hlen hfit _ hd
  obtain ⟨he0, -, -, hecopy⟩ := @isCopy_of_mem _ _ hlen hfit _ he
  have hd' : (frameSet maxPayload frames hlen).fragment d.frameId d.fragId
      = some { d with sendTs := 0 } := hdcopy 0
  have he' : (frameSet maxPayload frames hlen).fragment e.frameId e.fragId
      = some { e with sendTs := 0 } := hecopy 0
  have heq : ({ d with sendTs := 0 } : Datagram) = { e with sendTs := 0 } := by
    apply Option.some.inj
    rw [← hd', ← he', hframe, hfrag]
  calc d = { d with sendTs := 0 } := by rw [← hd0]
    _ = { e with sendTs := 0 } := heq
    _ = e := by rw [← he0]

/-- Each fragment of a frame is a datagram of the encoder. -/
theorem exists_mem_datagramsFrom (hlen : frames.length < 2 ^ 32 - 1) {k : UInt32} {buf : Bytes}
    {isKey : Bool} (hframe : frames[k.toNat]? = some (buf, isKey)) {i : ℕ}
    (hi : i < (packetize k maxPayload buf isKey).length) :
    ∃ d ∈ datagramsFrom maxPayload 0 frames, d.frameId = k ∧ d.fragId.toNat = i := by
  have hfrag := isFragmentation_packetize k maxPayload buf isKey
  obtain ⟨d, hd⟩ : ∃ d, (packetize k maxPayload buf isKey)[i]? = some d :=
    ⟨_, List.getElem?_eq_getElem hi⟩
  have hmem := List.mem_of_getElem? hd
  have hk : d.frameId = k := by rw [hfrag.header d hmem]
  have hlt : (0 : UInt32).toNat + frames.length < 2 ^ 32 := by
    rw [UInt32.toNat_zero]
    omega
  refine ⟨d, (mem_datagramsFrom hlt).mpr ⟨k.toNat, buf, isKey, hframe, ?_, ?_⟩, hk,
    hfrag.toNat_fragId hd⟩
  · rwa [hk]
  · rw [hk, UInt32.toNat_zero, Nat.zero_add]

/-! ## The byte strings on the network -/

/-- The datagram in a byte string that is long enough. -/
def parsed (binary : Bytes) : Datagram :=
  match Datagram.parseFromString {} binary with
  | .error _ => {}
  | .ok (_, d) => d

/-- A datagram of the encoder survives the wire, under any time stamp. -/
theorem parsed_serializeToString (hlen : frames.length < 2 ^ 32 - 1)
    (hfit : ∀ frame ∈ frames, fragCntOf maxPayload frame.1.length < 2 ^ 16)
    {d : Datagram} (hd : d ∈ datagramsFrom maxPayload 0 frames) (sendTs : UInt64) :
    Datagram.parseFromString {} { d with sendTs := sendTs }.serializeToString
        = .ok (true, { d with sendTs := sendTs }) ∧
      parsed { d with sendTs := sendTs }.serializeToString = { d with sendTs := sendTs } := by
  obtain ⟨-, hrtx, hlast, -⟩ := @isCopy_of_mem _ _ hlen hfit _ hd
  have hparse : Datagram.parseFromString {} { d with sendTs := sendTs }.serializeToString
      = .ok (true, { d with sendTs := sendTs }) := by
    rw [Datagram.parseFromString_serializeToString]
    simp only [← hrtx, ← hlast]
  refine ⟨hparse, ?_⟩
  unfold parsed
  rw [hparse]

/-- A byte string on the network is parsed to a copy of a fragment. -/
theorem parse_of_carries (hlen : frames.length < 2 ^ 32 - 1)
    (hfit : ∀ frame ∈ frames, fragCntOf maxPayload frame.1.length < 2 ^ 16)
    {binary : Bytes} (h : Carries (datagramsFrom maxPayload 0 frames) binary) :
    Datagram.parseFromString {} binary = .ok (true, parsed binary) ∧
      (frameSet maxPayload frames hlen).IsCopy (parsed binary) := by
  obtain ⟨d, hd, sendTs, rfl⟩ := h
  obtain ⟨hparse, hparsed⟩ := parsed_serializeToString hlen hfit hd sendTs
  rw [hparsed]
  exact ⟨hparse, (isCopy_of_mem hfit hd).2.2.2 sendTs⟩

/-- The main loop of the receiver processes the parsed datagrams. -/
theorem Receives.processes {s₀ s : Decoder} {binaries : List Bytes} {fs : List Frame}
    (h : Receives s₀ binaries fs s) : Receiver.Processes s₀ (binaries.map parsed) fs s := by
  induction h with
  | nil => exact Receiver.Processes.nil
  | @snoc binaries fs gs s s₁ t binary d _ hparse hadd hends ih =>
    have hd : parsed binary = d := by
      unfold parsed
      rw [hparse]
    rw [List.map_append, List.map_singleton, hd]
    exact ih.snoc hadd hends

/-- If everything can be parsed, the main loop goes through. -/
theorem receives_of_processes {s₀ s : Decoder} {ds : List Datagram} {fs : List Frame}
    (h : Receiver.Processes s₀ ds fs s) {binaries : List Bytes} (hds : binaries.map parsed = ds)
    (hparse : ∀ binary ∈ binaries,
      Datagram.parseFromString {} binary = .ok (true, parsed binary)) :
    Receives s₀ binaries fs s := by
  induction h generalizing binaries with
  | nil =>
    rw [List.map_eq_nil_iff.mp hds]
    exact Receives.nil
  | snoc _ hadd hends ih =>
    obtain ⟨binaries, last, rfl, hinit, hlast⟩ := List.map_eq_append_iff.mp hds
    obtain ⟨binary, rfl, rfl⟩ := List.map_eq_singleton_iff.mp hlast
    refine (ih hinit fun b hb => hparse b (List.mem_append_left _ hb)).snoc ?_ hadd hends
    exact hparse binary (List.mem_append_right _ List.mem_cons_self)

/-- A buffer that agrees with the delivered datagrams has the whole frames complete. -/
theorem completeIffDelivered_of_agrees (hlen : frames.length < 2 ^ 32 - 1)
    (hfit : ∀ frame ∈ frames, fragCntOf maxPayload frame.1.length < 2 ^ 16)
    {binaries : List Bytes}
    (hcarry : ∀ binary ∈ binaries, Carries (datagramsFrom maxPayload 0 frames) binary)
    {s : Decoder} (h : Receiver.Agrees (binaries.map parsed) s) :
    CompleteIffDelivered (datagramsFrom maxPayload 0 frames) binaries s := by
  intro k frame hfind
  have ht := h.tracksAt k (h.inv.nextFrame_le k frame hfind)
  rw [hfind] at ht
  obtain ⟨hd, ht⟩ := ht
  have hcopy : ∀ d ∈ binaries.map parsed, (frameSet maxPayload frames hlen).IsCopy d := by
    intro d hd
    obtain ⟨binary, hb, rfl⟩ := List.mem_map.mp hd
    exact (parse_of_carries hlen hfit (hcarry binary hb)).2
  obtain ⟨src, hsrc, -, hslots⟩ := FrameSet.exists_source_of_tracks hcopy ht hd
  rw [ht.complete_iff, hslots]
  constructor
  · intro hall d hd hk
    have hlt := ((isCopy_of_mem hfit hd).2.2.2 d.sendTs).lt_length (hk ▸ hsrc) |>.1
    obtain ⟨e, he, hid, hfrag⟩ := hall _ hlt
    obtain ⟨binary, hb, rfl⟩ := List.mem_map.mp he
    obtain ⟨d', hd', sendTs, rfl⟩ := hcarry binary hb
    rw [(parsed_serializeToString hlen hfit hd' sendTs).2] at hid hfrag
    -- the datagram with these numbers is the only one
    have heq : d' = d := eq_of_mem_of_mem hlen hfit hd' hd (hid.trans hk.symm)
      (UInt16.toNat_inj.mp hfrag)
    exact ⟨_, hb, d, List.mem_singleton_self d, sendTs, by rw [heq]⟩
  · intro hall i hi
    obtain ⟨buf, isKey, hbuf, hframe, rfl⟩ := exists_of_frameSet_source hsrc
    have hlength : i < (packetize k maxPayload buf isKey).length := by
      simpa [frameSource] using hi
    obtain ⟨d, hd, hk, hfrag⟩ := exists_mem_datagramsFrom hlen hframe hlength
    obtain ⟨binary, hb, e, he, sendTs, rfl⟩ := hall d hd hk
    rw [List.mem_singleton] at he
    subst he
    refine ⟨_, List.mem_map_of_mem hb, ?_⟩
    rw [(parsed_serializeToString hlen hfit hd sendTs).2]
    exact ⟨hk, hfrag⟩

/-- A consumed frame is the one that was packetized under its id. -/
theorem consumed_of_tracks (hlen : frames.length < 2 ^ 32 - 1) {ds : List Datagram}
    (hcopy : ∀ d ∈ ds, (frameSet maxPayload frames hlen).IsCopy d) {frame : Frame}
    (ht : Receiver.Tracks ds frame.id frame) (hc : frame.complete) :
    ∃ buf isKey, frames[frame.id.toNat]? = some (buf, isKey) ∧
      frame.type = (if isKey then .key else .nonkey) ∧ frame.frameSize? = some buf.length ∧
      frame.content = buf := by
  -- a complete frame has a first fragment
  have hd : ∃ d ∈ ds, d.frameId = frame.id := by
    obtain ⟨d, hd, hid, -⟩ := ht.complete_iff.mp hc 0 ht.pos
    exact ⟨d, hd, hid⟩
  obtain ⟨src, hsrc, htype, hslots⟩ := FrameSet.exists_source_of_tracks hcopy ht hd
  have hcontent := FrameSet.content_of_complete hcopy ht hc hsrc hslots
  obtain ⟨buf, isKey, hbuf, hframe, rfl⟩ := exists_of_frameSet_source hsrc
  rw [flatten_frameSource hbuf] at hcontent
  refine ⟨buf, isKey, hframe, htype, ?_, hcontent⟩
  unfold Frame.frameSize?
  rw [if_pos hc, ht.valid.frameSize_eq_length, hcontent]

end Frames

/-! ## Integrity -/

/-- End-to-end integrity.  The encoder packetizes frames, fewer than `2 ^ 32 - 1` of them, and
the network delivers some of the datagrams, serialized with any time stamps, any number of
times and in any order.  Then the receiver goes through them without an exception, and through
every datagram that may come next.  At any time a buffered frame is complete exactly when each
of its fragments was delivered, and every consumed frame has the type, the size and the bytes
of the frame that was packetized under its id. -/
theorem consumed_eq_packetized {maxPayload : ℕ} {frames : List (Bytes × Bool)}
    {displayWidth displayHeight : UInt16} {hasOutput : Bool} {enc : Encoder E}
    {lazyLevel : LazyLevel} {binaries : List Bytes}
    (henc : packetizeAll maxPayload (Encoder.initial displayWidth displayHeight hasOutput) frames
      = .ok enc) (hlen : frames.length < 2 ^ 32 - 1)
    (hcarry : ∀ binary ∈ binaries, Carries enc.sendBuf binary) :
    (∃ fs s, Receives (Decoder.initial lazyLevel) binaries fs s) ∧
    ∀ fs s, Receives (Decoder.initial lazyLevel) binaries fs s →
      (∀ binary, Carries enc.sendBuf binary → ∃ d s₁,
        Datagram.parseFromString {} binary = .ok (true, d) ∧ s.addDatagram d = (.ok (), s₁) ∧
          CompleteIffDelivered enc.sendBuf (binaries ++ [binary]) s₁) ∧
      CompleteIffDelivered enc.sendBuf binaries s ∧
      ∀ frame ∈ fs, ∃ buf isKey, frames[frame.id.toNat]? = some (buf, isKey) ∧
        frame.type = (if isKey then .key else .nonkey) ∧ frame.frameSize? = some buf.length ∧
        frame.content = buf := by
  obtain ⟨hfit, hbuf⟩ := packetizeAll_cases henc
  have hds : enc.sendBuf = datagramsFrom maxPayload 0 frames := hbuf
  rw [hds] at hcarry ⊢
  have hcopies : ∀ bs : List Bytes,
      (∀ b ∈ bs, Carries (datagramsFrom maxPayload 0 frames) b) →
        ∀ d ∈ bs.map parsed, (frameSet maxPayload frames hlen).IsCopy d := by
    intro bs hbs d hd
    obtain ⟨b, hb, rfl⟩ := List.mem_map.mp hd
    exact (parse_of_carries hlen hfit (hbs b hb)).2
  have hcons := FrameSet.consistent_of_forall_isCopy (hcopies binaries hcarry)
  constructor
  · obtain ⟨fs, s, hrun⟩ := Receiver.exists_processes lazyLevel hcons
    exact ⟨fs, s, receives_of_processes hrun rfl fun b hb =>
      (parse_of_carries hlen hfit (hcarry b hb)).1⟩
  intro fs s hrun
  have hre := Receiver.reassembled_of_processes hrun.processes fun d hd => (hcons.1 d hd).1
  refine ⟨?_, completeIffDelivered_of_agrees hlen hfit hcarry hre.agrees, ?_⟩
  · intro binary hb
    have hcarry' : ∀ b ∈ binaries ++ [binary], Carries (datagramsFrom maxPayload 0 frames) b := by
      intro b hmem
      rcases List.mem_append.mp hmem with hmem' | hmem'
      · exact hcarry b hmem'
      · rw [List.mem_singleton.mp hmem']
        exact hb
    have hcons' := FrameSet.consistent_of_forall_isCopy (hcopies _ hcarry')
    rw [List.map_append, List.map_singleton] at hcons'
    obtain ⟨s₁, hadd⟩ := hre.agrees.exists_addDatagram hcons'
    refine ⟨_, s₁, (parse_of_carries hlen hfit hb).1, hadd, ?_⟩
    refine completeIffDelivered_of_agrees hlen hfit hcarry' ?_
    rw [List.map_append, List.map_singleton]
    exact hre.agrees.addDatagram hadd
  · intro frame hframe
    obtain ⟨hc, ds', hpre, ht⟩ := hre.consumed frame hframe
    exact consumed_of_tracks hlen
      (fun d hd => hcopies binaries hcarry d (hpre.subset hd)) ht hc

/-- A key frame of two fragments and a frame of one, which arrive in the opposite order, and
then once more. -/
theorem consumed_eq_packetized_twoFrames :
    let frames : List (Bytes × Bool) := [([1, 2, 3, 4], true), ([5], false)]
    ∃ (enc : Encoder ℚ) (binaries : List Bytes) (fs : List Frame) (s : Decoder),
      packetizeAll 2 (Encoder.initial 2 2 false) frames = .ok enc ∧ enc.sendBuf.length = 3 ∧
      Receives (Decoder.initial .decodeOnly) binaries fs s ∧
      ∀ frame ∈ fs, ∃ buf isKey, frames[frame.id.toNat]? = some (buf, isKey) ∧
        frame.frameSize? = some buf.length ∧ frame.content = buf := by
  intro frames
  obtain ⟨enc, henc, hlength⟩ : ∃ enc : Encoder ℚ,
      packetizeAll 2 (Encoder.initial 2 2 false) frames = .ok enc ∧ enc.sendBuf.length = 3 :=
    ⟨_, rfl, rfl⟩
  have hcarry : ∀ binary ∈ (enc.sendBuf.reverse ++ enc.sendBuf).map
      (fun d => { d with sendTs := 9 }.serializeToString), Carries enc.sendBuf binary := by
    intro binary hb
    obtain ⟨d, hd, rfl⟩ := List.mem_map.mp hb
    exact ⟨d, by simpa using hd, 9, rfl⟩
  obtain ⟨⟨fs, s, hrun⟩, hall⟩ :=
    @consumed_eq_packetized _ _ _ _ _ _ _ .decodeOnly _ henc (by decide) hcarry
  refine ⟨enc, _, fs, s, henc, hlength, hrun, fun frame hframe => ?_⟩
  obtain ⟨buf, isKey, hbuf, -, hsize, hcontent⟩ := (hall fs s hrun).2.2 frame hframe
  exact ⟨buf, isKey, hbuf, hsize, hcontent⟩

end Integrity

end Ringmaster
