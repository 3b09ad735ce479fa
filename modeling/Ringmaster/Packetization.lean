/-
# Packetization of an encoded frame

The method `Encoder::packetize_encoded_frame` of `src/app/encoder.cc`: it goes through the
packets that libvpx made of one raw image, and splits the encoded frame among them into
datagrams, which it appends to `send_buf_`.

`IsFragmentation` says what the datagrams of a frame are: they carry the numbers 0, 1, … in
order, and their payloads add up to the frame.
-/
import Ringmaster.Protocol

namespace Ringmaster

/-! ## The loop over the fragments -/

/-- A packet of `vpx_codec_get_cx_data`: an encoded frame, with its `VPX_FRAME_IS_KEY` flag,
or a packet of another kind. -/
inductive CxPkt where
  | frame (buf : Bytes) (isKey : Bool)
  | other
  deriving DecidableEq, Repr

namespace Packetization

/-- The loop `for (frag_id = 0; frag_id < frag_cnt; frag_id++)`, from `fragId` on, where
`buf` is what is left of the frame and `rounds` bounds the number of rounds. -/
def fragmentsFrom (frameId : UInt32) (frameType : FrameType) (fragCnt : UInt16)
    (maxPayload : ℕ) : ℕ → UInt16 → Bytes → List Datagram
  | 0, _, _ => []
  | rounds + 1, fragId, buf =>
    if fragId < fragCnt then
      -- the comparison `frag_id < frag_cnt - 1` is made on `int`
      let payloadSize := if fragId.toNat + 1 < fragCnt.toNat then maxPayload else buf.length
      { frameId := frameId
        frameType := frameType
        fragId := fragId
        fragCnt := fragCnt
        payload := buf.take payloadSize } ::
          fragmentsFrom frameId frameType fragCnt maxPayload rounds (fragId + 1)
            (buf.drop payloadSize)
    else []

/-- The datagrams that the loop over the fragments enqueues for a frame. -/
def fragments (frameId : UInt32) (frameType : FrameType) (fragCnt : UInt16) (maxPayload : ℕ)
    (buf : Bytes) : List Datagram :=
  fragmentsFrom frameId frameType fragCnt maxPayload fragCnt.toNat 0 buf

/-- The datagrams `ds` are the fragments `first`, `first + 1`, … of a frame, of which they
carry the part `buf`. -/
structure IsFragmentation (frameId : UInt32) (frameType : FrameType) (fragCnt : UInt16)
    (first : ℕ) (buf : Bytes) (ds : List Datagram) : Prop where
  fragIds : ds.map (fun d => d.fragId.toNat) = List.range' first (fragCnt.toNat - first)
  header : ∀ d ∈ ds, d = ⟨frameId, frameType, d.fragId, fragCnt, 0, d.payload, 0, 0⟩
  content : first < fragCnt.toNat → ds.flatMap Datagram.payload = buf

/-- The loop over the fragments, from any of them on. -/
theorem isFragmentation_fragmentsFrom (frameId : UInt32) (frameType : FrameType)
    (fragCnt : UInt16) (maxPayload rounds : ℕ) (fragId : UInt16) (buf : Bytes)
    (h : fragId.toNat + rounds = fragCnt.toNat) :
    IsFragmentation frameId frameType fragCnt fragId.toNat buf
      (fragmentsFrom frameId frameType fragCnt maxPayload rounds fragId buf) := by
  induction rounds generalizing fragId buf with
  | zero =>
    refine ⟨?_, fun d hd => absurd hd List.not_mem_nil, fun hlt => absurd hlt (by omega)⟩
    rw [show fragCnt.toNat - fragId.toNat = 0 from by omega]
    rfl
  | succ rounds ih =>
    have hlt : fragId < fragCnt := by
      rw [UInt16.lt_iff_toNat_lt]
      omega
    have hcnt : fragCnt.toNat < 65536 := fragCnt.toNat_lt
    have hsucc : (fragId + 1).toNat = fragId.toNat + 1 := by
      rw [UInt16.toNat_add]
      simp only [UInt16.reduceToNat]
      omega
    unfold fragmentsFrom
    rw [if_pos hlt]
    set payloadSize := if fragId.toNat + 1 < fragCnt.toNat then maxPayload else buf.length
      with hsize
    have hrest := ih (fragId + 1) (buf.drop payloadSize) (by omega)
    rw [hsucc] at hrest
    refine ⟨?_, ?_, fun _ => ?_⟩
    · rw [List.map_cons, hrest.fragIds, show fragCnt.toNat - fragId.toNat
        = (fragCnt.toNat - (fragId.toNat + 1)) + 1 from by omega, List.range'_succ]
    · intro d hd
      rcases List.mem_cons.mp hd with rfl | hmem
      · rfl
      · exact hrest.header d hmem
    · rw [List.flatMap_cons]
      by_cases hmore : fragId.toNat + 1 < fragCnt.toNat
      · rw [hrest.content hmore, List.take_append_drop]
      · -- the last fragment takes all that is left
        have hnil : fragmentsFrom frameId frameType fragCnt maxPayload rounds (fragId + 1)
            (buf.drop payloadSize) = [] := by
          rw [show rounds = 0 from by omega]
          rfl
        rw [hnil, hsize, if_neg hmore, List.take_length]
        simp

/-- The datagrams of a frame with at least one fragment. -/
theorem isFragmentation_fragments (frameId : UInt32) (frameType : FrameType)
    (fragCnt : UInt16) (maxPayload : ℕ) (buf : Bytes) :
    IsFragmentation frameId frameType fragCnt 0 buf
      (fragments frameId frameType fragCnt maxPayload buf) :=
  isFragmentation_fragmentsFrom frameId frameType fragCnt maxPayload fragCnt.toNat 0 buf
    (by simp)

namespace IsFragmentation

variable {frameId : UInt32} {frameType : FrameType} {fragCnt : UInt16} {first : ℕ} {buf : Bytes}
  {ds : List Datagram}

/-- There is one datagram for each fragment. -/
theorem length_eq (h : IsFragmentation frameId frameType fragCnt 0 buf ds) :
    ds.length = fragCnt.toNat := by
  have := congrArg List.length h.fragIds
  simpa using this

/-- The datagram at each position carries the number of the position. -/
theorem toNat_fragId (h : IsFragmentation frameId frameType fragCnt 0 buf ds) {i : ℕ}
    {d : Datagram} (hd : ds[i]? = some d) : d.fragId.toNat = i := by
  have hi : i < fragCnt.toNat := h.length_eq ▸ (List.getElem?_eq_some_iff.mp hd).1
  have hmap : (ds.map (fun d => d.fragId.toNat))[i]? = some d.fragId.toNat := by
    rw [List.getElem?_map, hd, Option.map_some]
  rw [h.fragIds, List.getElem?_range' (by omega)] at hmap
  have := Option.some.inj hmap
  omega

/-- The datagrams of a frame are in the order of their sequence numbers. -/
theorem pairwise_seqNum (h : IsFragmentation frameId frameType fragCnt first buf ds) :
    ds.Pairwise (fun a b => a.seqNum < b.seqNum) := by
  have hids : ds.Pairwise (fun a b => a.fragId.toNat < b.fragId.toNat) := by
    rw [← List.pairwise_map (f := fun d : Datagram => d.fragId.toNat) (R := (· < ·)), h.fragIds]
    exact List.pairwise_lt_range'
  refine hids.imp_of_mem (fun {a b} ha hb hlt => ?_)
  have hframe : a.frameId = b.frameId := by rw [h.header a ha, h.header b hb]
  unfold Datagram.seqNum
  rw [Prod.Lex.toLex_lt_toLex]
  exact Or.inr ⟨hframe, UInt16.lt_iff_toNat_lt.mpr hlt⟩

end IsFragmentation

/-! ## The loop over the packets -/

/-- The loop over the packets of `vpx_codec_get_cx_data`: the size of the frame or an
exception, and what `send_buf_` is afterwards. -/
def packetsLoop (frameId : UInt32) (maxPayload : ℕ) :
    List CxPkt → ℕ → ℕ → List Datagram → Except Exn ℕ × List Datagram
  | [], _, frameSize, sendBuf => (.ok frameSize, sendBuf)
  | .other :: pkts, framesEncoded, frameSize, sendBuf =>
    packetsLoop frameId maxPayload pkts framesEncoded frameSize sendBuf
  | .frame buf isKey :: pkts, framesEncoded, _, sendBuf =>
    let framesEncoded := framesEncoded + 1
    -- there should be exactly one frame encoded
    if framesEncoded > 1 then
      (.error (.runtimeError "Multiple frames were encoded at once"), sendBuf)
    else
      let frameSize := buf.length
      if frameSize = 0 then
        (.error (.assertion "frame_size > 0"), sendBuf)
      else
        let frameType := if isKey then FrameType.key else FrameType.nonkey
        match narrowCast .uint16 .sizeT (frameSize / (maxPayload + 1) + 1 : ℕ) with
        | .error e => (.error e, sendBuf)
        | .ok fragCnt =>
          packetsLoop frameId maxPayload pkts framesEncoded frameSize
            (sendBuf ++ fragments frameId frameType (UInt16.ofNat fragCnt.toNat) maxPayload buf)

/-- The encoded frames among the packets. -/
def framesOf (pkts : List CxPkt) : List (Bytes × Bool) :=
  pkts.filterMap fun pkt => match pkt with
    | .frame buf isKey => some (buf, isKey)
    | .other => none

/-- The number of fragments for a frame of the given size. -/
def fragCntOf (maxPayload frameSize : ℕ) : ℕ := frameSize / (maxPayload + 1) + 1

/-- The datagrams of one encoded frame. -/
def packetize (frameId : UInt32) (maxPayload : ℕ) (buf : Bytes) (isKey : Bool) :
    List Datagram :=
  fragments frameId (if isKey then .key else .nonkey)
    (UInt16.ofNat (fragCntOf maxPayload buf.length)) maxPayload buf

/-- The datagrams `ds` are what the packets are made into: nothing without an encoded frame,
and otherwise the datagrams of the only one, which is not empty and not too long. -/
def Packetizes (frameId : UInt32) (maxPayload : ℕ) (pkts : List CxPkt) (ds : List Datagram) :
    Prop :=
  (framesOf pkts = [] ∧ ds = []) ∨
    ∃ buf isKey, framesOf pkts = [(buf, isKey)] ∧ buf ≠ [] ∧
      fragCntOf maxPayload buf.length < 2 ^ 16 ∧ ds = packetize frameId maxPayload buf isKey

/-- A frame that is enqueued when it comes first: it is not empty, and its fragments can be
counted with 16 bits. -/
def Enqueues (maxPayload : ℕ) (buf : Bytes) : Prop :=
  buf ≠ [] ∧ fragCntOf maxPayload buf.length < 2 ^ 16

/-- The loop after the first frame: a second one makes it throw, and packets of other kinds are
passed over. -/
theorem packetsLoop_eq_of_pos (frameId : UInt32) (maxPayload : ℕ) (pkts : List CxPkt)
    {framesEncoded : ℕ} (frameSize : ℕ) (sendBuf : List Datagram) (hpos : 0 < framesEncoded) :
    packetsLoop frameId maxPayload pkts framesEncoded frameSize sendBuf
      = (if framesOf pkts = [] then .ok frameSize
        else .error (.runtimeError "Multiple frames were encoded at once"), sendBuf) := by
  induction pkts with
  | nil => rfl
  | cons pkt pkts ih =>
    cases pkt with
    | other => exact ih
    | frame buf isKey =>
      have hne : framesOf (.frame buf isKey :: pkts) ≠ [] := List.cons_ne_nil _ _
      rw [packetsLoop, if_pos (by omega), if_neg hne]

/-- The loop over packets without a frame. -/
theorem packetsLoop_eq_of_nil (frameId : UInt32) (maxPayload : ℕ) {pkts : List CxPkt}
    (frameSize : ℕ) (sendBuf : List Datagram) (h : framesOf pkts = []) :
    packetsLoop frameId maxPayload pkts 0 frameSize sendBuf = (.ok frameSize, sendBuf) := by
  induction pkts with
  | nil => rfl
  | cons pkt pkts ih =>
    cases pkt with
    | other => exact ih h
    | frame buf isKey => exact absurd h (List.cons_ne_nil _ _)

/-- The loop over packets of which the first frame is enqueued: its datagrams are appended also
when another frame follows and makes the loop throw. -/
theorem packetsLoop_eq_of_enqueues (frameId : UInt32) {maxPayload : ℕ} {pkts : List CxPkt}
    (frameSize : ℕ) (sendBuf : List Datagram) {buf : Bytes} {isKey : Bool}
    {rest : List (Bytes × Bool)} (h : framesOf pkts = (buf, isKey) :: rest)
    (henq : Enqueues maxPayload buf) :
    packetsLoop frameId maxPayload pkts 0 frameSize sendBuf
      = (if rest = [] then .ok buf.length
          else .error (.runtimeError "Multiple frames were encoded at once"),
        sendBuf ++ packetize frameId maxPayload buf isKey) := by
  induction pkts with
  | nil => simp [framesOf] at h
  | cons pkt pkts ih =>
    cases pkt with
    | other => exact ih h
    | frame buf' isKey' =>
      have hcons : (buf', isKey') :: framesOf pkts = (buf, isKey) :: rest := h
      rw [List.cons.injEq, Prod.mk.injEq] at hcons
      obtain ⟨⟨rfl, rfl⟩, rfl⟩ := hcons
      have hsize : ¬ buf'.length = 0 := fun hzero => henq.1 (List.eq_nil_of_length_eq_zero hzero)
      have hcast := (narrowCast_uint16_eq_ok_iff _ _).mpr ⟨henq.2, rfl⟩
      unfold fragCntOf at hcast
      rw [packetsLoop, if_neg (by omega), if_neg hsize, hcast]
      exact packetsLoop_eq_of_pos frameId maxPayload pkts buf'.length _ (by omega)

/-- The loop over packets of which the first frame cannot be enqueued: it throws, and
`send_buf_` is as before. -/
theorem exists_packetsLoop_eq_error (frameId : UInt32) {maxPayload : ℕ} {pkts : List CxPkt}
    (frameSize : ℕ) (sendBuf : List Datagram) {buf : Bytes} {isKey : Bool}
    {rest : List (Bytes × Bool)} (h : framesOf pkts = (buf, isKey) :: rest)
    (henq : ¬ Enqueues maxPayload buf) :
    ∃ e, packetsLoop frameId maxPayload pkts 0 frameSize sendBuf = (.error e, sendBuf) := by
  induction pkts with
  | nil => simp [framesOf] at h
  | cons pkt pkts ih =>
    cases pkt with
    | other => exact ih h
    | frame buf' isKey' =>
      have hcons : (buf', isKey') :: framesOf pkts = (buf, isKey) :: rest := h
      rw [List.cons.injEq, Prod.mk.injEq] at hcons
      obtain ⟨⟨rfl, rfl⟩, rfl⟩ := hcons
      rw [packetsLoop, if_neg (by omega)]
      by_cases hsize : buf'.length = 0
      · exact ⟨_, by rw [if_pos hsize]⟩
      · rw [if_neg hsize]
        cases hcast : narrowCast .uint16 .sizeT (buf'.length / (maxPayload + 1) + 1 : ℕ) with
        | error e => exact ⟨e, rfl⟩
        | ok fragCnt =>
          have hlt := ((narrowCast_uint16_eq_ok_iff _ _).mp hcast).1
          exact absurd ⟨fun hnil => hsize (by rw [hnil]; rfl), hlt⟩ henq

/-- A packetization that succeeds appends to `send_buf_` what the packets are made into. -/
theorem packetsLoop_cases {frameId : UInt32} {maxPayload : ℕ} {pkts : List CxPkt}
    {frameSize size : ℕ} {sendBuf sendBuf' : List Datagram}
    (h : packetsLoop frameId maxPayload pkts 0 frameSize sendBuf = (.ok size, sendBuf')) :
    ∃ ds, Packetizes frameId maxPayload pkts ds ∧ sendBuf' = sendBuf ++ ds := by
  cases hframes : framesOf pkts with
  | nil =>
    rw [packetsLoop_eq_of_nil frameId maxPayload frameSize sendBuf hframes, Prod.mk.injEq] at h
    exact ⟨[], Or.inl ⟨hframes, rfl⟩, by rw [List.append_nil, h.2]⟩
  | cons frame rest =>
    obtain ⟨buf, isKey⟩ := frame
    by_cases henq : Enqueues maxPayload buf
    · rw [packetsLoop_eq_of_enqueues frameId frameSize sendBuf hframes henq, Prod.mk.injEq] at h
      split_ifs at h with hrest
      · rw [hrest] at hframes
        exact ⟨_, Or.inr ⟨buf, isKey, hframes, henq.1, henq.2, rfl⟩, h.2.symm⟩
      · simp at h
    · obtain ⟨e, he⟩ := exists_packetsLoop_eq_error frameId frameSize sendBuf hframes henq
      rw [he] at h
      simp at h

/-- The datagrams of an encoded frame. -/
theorem isFragmentation_packetize (frameId : UInt32) (maxPayload : ℕ) (buf : Bytes)
    (isKey : Bool) : IsFragmentation frameId (if isKey then .key else .nonkey)
      (UInt16.ofNat (fragCntOf maxPayload buf.length)) 0 buf
      (packetize frameId maxPayload buf isKey) :=
  isFragmentation_fragments _ _ _ _ _

/-- The fragment count of a frame that is not too long, as the datagrams carry it. -/
theorem toNat_fragCntOf {maxPayload : ℕ} {buf : Bytes}
    (h : fragCntOf maxPayload buf.length < 2 ^ 16) :
    (UInt16.ofNat (fragCntOf maxPayload buf.length)).toNat = fragCntOf maxPayload buf.length ∧
      0 < fragCntOf maxPayload buf.length := by
  constructor
  · rw [UInt16.toNat_ofNat']
    exact Nat.mod_eq_of_lt h
  · exact Nat.succ_pos _

namespace Packetizes

variable {frameId : UInt32} {maxPayload : ℕ} {pkts : List CxPkt} {ds : List Datagram}

/-- A fresh datagram belongs to the frame that is packetized, and was never transmitted. -/
theorem fresh (h : Packetizes frameId maxPayload pkts ds) {d : Datagram} (hd : d ∈ ds) :
    d.frameId = frameId ∧ d.sendTs = 0 ∧ d.numRtx = 0 := by
  rcases h with ⟨-, rfl⟩ | ⟨buf, isKey, -, -, -, rfl⟩
  · exact absurd hd List.not_mem_nil
  · rw [(isFragmentation_packetize frameId maxPayload buf isKey).header d hd]
    exact ⟨rfl, rfl, rfl⟩

/-- The fresh datagrams are in the order of their sequence numbers. -/
theorem pairwise_seqNum (h : Packetizes frameId maxPayload pkts ds) :
    ds.Pairwise (fun a b => a.seqNum < b.seqNum) := by
  rcases h with ⟨-, rfl⟩ | ⟨buf, isKey, -, -, -, rfl⟩
  · exact List.Pairwise.nil
  · exact (isFragmentation_packetize frameId maxPayload buf isKey).pairwise_seqNum

end Packetizes

end Packetization

end Ringmaster
