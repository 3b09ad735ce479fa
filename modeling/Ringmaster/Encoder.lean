/-
# The encoder's send queue and unacked datagrams

The class `Encoder` of `src/app/encoder.hh` and `encoder.cc`: frames are encoded and
packetized into `send_buf_`, a transmitted datagram is kept in `unacked_` until it is
acknowledged, and an acknowledgement triggers the retransmission of the datagrams before it.

What comes from outside is an argument: readings of the clock, the packets that libvpx
returns, and the result of writing to the output file.  The methods also return a trace of
what they did, which the run-level results are about; the trace has no influence on the
state.  The RTT estimate is a `double` in the source; the model is over any type with the
three operations that are used (`RttArith`), with the exact rationals as an instance; that of
`double` is in `RttArithmetic.lean`.
-/
import Ringmaster.Library.OrderedMap
import Ringmaster.Packetization

namespace Ringmaster

open Packetization

/-! ## The class -/

/-- The arithmetic on `double` that the estimate of the RTT uses. -/
class RttArith (E : Type) where
  /-- The conversion of a sample. -/
  ofRtt : UInt32 → E
  /-- The value `ALPHA * rtt_us + (1 - ALPHA) * ewma`. -/
  smooth : UInt32 → E → E
  /-- The comparison of a time with the estimate, `us > ewma`. -/
  exceeds : UInt64 → E → Bool

/-- The arithmetic without rounding, with the constant `ALPHA = 0.2`. -/
instance : RttArith ℚ where
  ofRtt rtt := rtt.toNat
  smooth rtt ewma := 1 / 5 * rtt.toNat + (1 - 1 / 5) * ewma
  exceeds us ewma := decide (ewma < us.toNat)

/-- What an observer of the sender sees: readings of the clock, a give-up, a datagram put
into `send_buf_`, a frame that is finished, a datagram accepted by the socket, an entry that
an acknowledgement removes from `unacked_`. -/
inductive SenderEvent where
  | clock (t : UInt64)
  | gaveUp (t : UInt64)
  | enqueued (d : Datagram)
  | encoded (frameId : UInt32)
  | sent (d : Datagram)
  | erased (seq : SeqNum)
  deriving DecidableEq

/-- The class `Encoder`. -/
structure Encoder (E : Type) where
  displayWidth : UInt16
  displayHeight : UInt16
  hasOutput : Bool
  frameId : UInt32
  sendBuf : List Datagram
  unacked : OrderedMap SeqNum Datagram
  minRttUs : Option UInt32
  ewmaRttUs : Option E

/-- What `compress_frame` gets from outside: the size of the raw image, the readings of the
clock in their order, the packets that libvpx returns for the raw image with or without the
flag `VPX_EFLAG_FORCE_KF`, and the result of writing to the output file. -/
structure CompressInput where
  imgWidth : UInt16
  imgHeight : UInt16
  generationTs : UInt64
  encodeTs : UInt64
  encodedTs : UInt64
  vpx : Bool → Except Exn (List CxPkt)
  write : Except Exn Unit

namespace Encoder

variable {E : Type}

/-- The constant `MAX_NUM_RTX`. -/
def maxNumRtx : UInt32 := 3

/-- The constant `MAX_UNACKED_US`. -/
def maxUnackedUs : UInt64 := 1000 * 1000

/-- The state that the constructor sets up. -/
def initial (displayWidth displayHeight : UInt16) (hasOutput : Bool) : Encoder E :=
  ⟨displayWidth, displayHeight, hasOutput, 0, [], OrderedMap.empty, none, none⟩

/-! ## Compressing a frame -/

/-- The method `encode_frame`, with the packets that the encoder has ready afterwards. -/
def encodeFrame (enc : Encoder E) (inp : CompressInput) :
    Except Exn (List CxPkt) × List SenderEvent × Encoder E :=
  if inp.imgWidth ≠ enc.displayWidth ∨ inp.imgHeight ≠ enc.displayHeight then
    (.error (.runtimeError "Encoder: image dimensions don't match"), [], enc)
  else
    match enc.unacked.entries.head? with
    | none => (inp.vpx false, [], enc)
    | some (_, firstUnacked) =>
      -- give up if the first unacked datagram was initially sent too long ago
      let usSinceFirstSend := inp.encodeTs - firstUnacked.sendTs
      if usSinceFirstSend > maxUnackedUs then
        (inp.vpx true, [.clock inp.encodeTs, .gaveUp inp.encodeTs],
          { enc with sendBuf := [], unacked := OrderedMap.empty })
      else
        (inp.vpx false, [.clock inp.encodeTs], enc)

/-- The method `packetize_encoded_frame`. -/
def packetizeEncodedFrame (enc : Encoder E) (maxPayload : ℕ) (pkts : List CxPkt) :
    Except Exn ℕ × Encoder E :=
  let (result, sendBuf) := packetsLoop enc.frameId maxPayload pkts 0 0 enc.sendBuf
  (result, { enc with sendBuf := sendBuf })

/-- The method `compress_frame`. -/
def compressFrame (enc : Encoder E) (maxPayload : ℕ) (inp : CompressInput) :
    Except Exn Unit × List SenderEvent × Encoder E :=
  match enc.encodeFrame inp with
  | (.error e, es, enc₁) => (.error e, .clock inp.generationTs :: es, enc₁)
  | (.ok pkts, es, enc₁) =>
    match enc₁.packetizeEncodedFrame maxPayload pkts with
    | (result, enc₂) =>
      let es₂ := .clock inp.generationTs ::
        (es ++ (enc₂.sendBuf.drop enc₁.sendBuf.length).map .enqueued)
      match result with
      | .error e => (.error e, es₂, enc₂)
      | .ok _ =>
        if enc₂.hasOutput then
          match inp.write with
          | .error e => (.error e, es₂ ++ [.clock inp.encodedTs], enc₂)
          | .ok () =>
            (.ok (), es₂ ++ [.clock inp.encodedTs, .encoded enc₂.frameId],
              { enc₂ with frameId := enc₂.frameId + 1 })
        else
          (.ok (), es₂ ++ [.encoded enc₂.frameId], { enc₂ with frameId := enc₂.frameId + 1 })

/-! ## Unacked datagrams -/

/-- The method `add_unacked`. -/
def addUnacked (enc : Encoder E) (d : Datagram) : Except Exn (Encoder E) :=
  if enc.unacked.contains d.seqNum then
    .error (.runtimeError "datagram already exists in unacked")
  else
    .ok { enc with unacked := enc.unacked.emplace d.seqNum { d with lastSendTs := d.sendTs } }

/-- The method `add_rtt_sample`. -/
def addRttSample [RttArith E] (enc : Encoder E) (rttUs : UInt32) : Encoder E :=
  { enc with
    minRttUs :=
      match enc.minRttUs with
      | none => some rttUs
      | some minRtt => if rttUs < minRtt then some rttUs else some minRtt
    ewmaRttUs :=
      match enc.ewmaRttUs with
      | none => some (RttArith.ofRtt rttUs)
      | some ewma => some (RttArith.smooth rttUs ewma) }

/-- The condition for a retransmission: the first one, or the last one was about one RTT
ago. -/
def dueForRtx [RttArith E] (ewmaRttUs : Option E) (currTs : UInt64) (d : Datagram) :
    Except Exn Bool :=
  if d.numRtx = 0 then
    .ok true
  else
    match ewmaRttUs with
    | none => .error .badOptionalAccess
    | some ewma => .ok (RttArith.exceeds (currTs - d.lastSendTs) ewma)

/-- The loop of `handle_ack` over the unacked datagrams before the acked one.  The list has
them in the order of the iteration, last one first. -/
def retransmitLoop [RttArith E] (ewmaRttUs : Option E) (currTs : UInt64) :
    List (SeqNum × Datagram) → OrderedMap SeqNum Datagram → List Datagram →
      Except Exn (List Datagram × OrderedMap SeqNum Datagram × List Datagram)
  | [], unacked, sendBuf => .ok ([], unacked, sendBuf)
  | (seq, d) :: rest, unacked, sendBuf =>
    -- skip if a datagram has been retransmitted MAX_NUM_RTX times
    if d.numRtx ≥ maxNumRtx then
      retransmitLoop ewmaRttUs currTs rest unacked sendBuf
    else
      match dueForRtx ewmaRttUs currTs d with
      | .error e => .error e
      | .ok false => retransmitLoop ewmaRttUs currTs rest unacked sendBuf
      | .ok true =>
        let d' := { d with numRtx := d.numRtx + 1, lastSendTs := currTs }
        -- retransmissions are more urgent
        match retransmitLoop ewmaRttUs currTs rest (unacked.update seq d') (d' :: sendBuf) with
        | .error e => .error e
        | .ok (rtx, result) => .ok (d' :: rtx, result)

/-- The method `handle_ack`. -/
def handleAck [RttArith E] (enc : Encoder E) (ack : AckMsg) (currTs : UInt64) :
    Except Exn (List SenderEvent × Encoder E) :=
  let enc := enc.addRttSample (currTs - ack.sendTs).toUInt32
  match enc.unacked.find? ack.seqNum with
  | none => .ok ([.clock currTs], enc)
  | some _ =>
    let before := enc.unacked.entries.filter (fun e => decide (e.1 < ack.seqNum))
    match retransmitLoop enc.ewmaRttUs currTs before.reverse enc.unacked enc.sendBuf with
    | .error e => .error e
    | .ok (rtx, unacked, sendBuf) =>
      .ok (.clock currTs :: (rtx.map .enqueued ++ [.erased ack.seqNum]),
        { enc with unacked := unacked.erase ack.seqNum, sendBuf := sendBuf })

/-! ## What `compress_frame` does -/

/-- Whether `encode_frame` gives up when it reads the clock at `t`. -/
def givesUp (enc : Encoder E) (t : UInt64) : Bool :=
  enc.unacked.entries.head?.any fun e => decide (t - e.2.sendTs > maxUnackedUs)

/-- What `encode_frame` leaves of the queues. -/
def afterGiveUp (enc : Encoder E) (t : UInt64) : Encoder E :=
  if enc.givesUp t then { enc with sendBuf := [], unacked := OrderedMap.empty } else enc

/-- The trace of `encode_frame`: the clock is read when there is an unacked datagram. -/
def encodeEvents (enc : Encoder E) (t : UInt64) : List SenderEvent :=
  if enc.unacked.entries = [] then []
  else if enc.givesUp t then [.clock t, .gaveUp t]
  else [.clock t]

/-- The trace of `compress_frame`, when it queues the datagrams `ds`. -/
def compressEvents (enc : Encoder E) (inp : CompressInput) (ds : List Datagram) :
    List SenderEvent :=
  [.clock inp.generationTs] ++ enc.encodeEvents inp.encodeTs ++ ds.map .enqueued ++
    (if enc.hasOutput then [.clock inp.encodedTs] else []) ++ [.encoded enc.frameId]

/-- The method `encode_frame`, for an image of the right size. -/
theorem encodeFrame_eq {enc : Encoder E} {inp : CompressInput}
    (h : inp.imgWidth = enc.displayWidth ∧ inp.imgHeight = enc.displayHeight) :
    enc.encodeFrame inp = (inp.vpx (enc.givesUp inp.encodeTs), enc.encodeEvents inp.encodeTs,
      enc.afterGiveUp inp.encodeTs) := by
  unfold encodeFrame encodeEvents afterGiveUp givesUp
  rw [if_neg (by rw [not_or, not_not, not_not]; exact h)]
  cases hhead : enc.unacked.entries with
  | nil => rfl
  | cons e rest =>
    simp only [List.head?_cons, Option.any_some, decide_eq_true_eq, reduceCtorEq, if_false]
    split_ifs with hold
    · simp only [hold, decide_true]
    · simp only [hold, decide_false]

/-- What a call of `compress_frame` that succeeds did: it gave up or not, and then appended
the datagrams of the packets that libvpx returned. -/
theorem compressFrame_cases {enc enc' : Encoder E} {maxPayload : ℕ} {inp : CompressInput}
    {es : List SenderEvent} (h : enc.compressFrame maxPayload inp = (.ok (), es, enc')) :
    ∃ pkts ds, inp.vpx (enc.givesUp inp.encodeTs) = .ok pkts ∧
      Packetizes enc.frameId maxPayload pkts ds ∧
      enc' = { enc.afterGiveUp inp.encodeTs with
        sendBuf := (enc.afterGiveUp inp.encodeTs).sendBuf ++ ds
        frameId := enc.frameId + 1 } ∧ es = enc.compressEvents inp ds := by
  unfold compressFrame at h
  by_cases hdim : inp.imgWidth = enc.displayWidth ∧ inp.imgHeight = enc.displayHeight
  swap
  · rw [encodeFrame, if_pos (by rw [← not_and_or]; exact hdim)] at h
    simp at h
  rw [encodeFrame_eq hdim] at h
  cases hvpx : inp.vpx (enc.givesUp inp.encodeTs) with
  | error e => simp [hvpx] at h
  | ok pkts =>
    have hid : (enc.afterGiveUp inp.encodeTs).frameId = enc.frameId := by
      unfold afterGiveUp
      split_ifs
      · rfl
      · rfl
    have hout : (enc.afterGiveUp inp.encodeTs).hasOutput = enc.hasOutput := by
      unfold afterGiveUp
      split_ifs
      · rfl
      · rfl
    cases hloop : packetsLoop (enc.afterGiveUp inp.encodeTs).frameId maxPayload pkts 0 0
        (enc.afterGiveUp inp.encodeTs).sendBuf with
    | mk result sendBuf =>
      simp only [hvpx, packetizeEncodedFrame, hloop] at h
      cases result with
      | error e => simp at h
      | ok size =>
        obtain ⟨ds, hds, rfl⟩ := packetsLoop_cases hloop
        rw [hid] at hds
        refine ⟨pkts, ds, rfl, hds, ?_⟩
        simp only [List.drop_left, hid] at h
        by_cases hwrite : enc.hasOutput
        · rw [if_pos (by rw [hout]; exact hwrite)] at h
          cases hres : inp.write with
          | error e => simp [hres] at h
          | ok u =>
            simp only [hres, Prod.mk.injEq, true_and] at h
            refine ⟨h.2.symm, ?_⟩
            rw [← h.1, compressEvents, if_pos hwrite]
            simp
        · rw [if_neg (by rw [hout]; exact hwrite)] at h
          simp only [Prod.mk.injEq, true_and] at h
          refine ⟨h.2.symm, ?_⟩
          rw [← h.1, compressEvents, if_neg hwrite]
          simp

/-! ## What `add_unacked` does -/

/-- An addition that succeeds is at a new key. -/
theorem addUnacked_eq_ok_iff {enc enc' : Encoder E} {d : Datagram} :
    enc.addUnacked d = .ok enc' ↔ enc.unacked.find? d.seqNum = none ∧
      enc' = { enc with
        unacked := enc.unacked.emplace d.seqNum { d with lastSendTs := d.sendTs } } := by
  unfold addUnacked OrderedMap.contains
  cases hfind : enc.unacked.find? d.seqNum with
  | none => simp [eq_comm]
  | some d' => simp

/-! ## What `handle_ack` does -/

variable [RttArith E]

/-- After a sample there is an estimate of the RTT. -/
theorem exists_ewmaRttUs_addRttSample (enc : Encoder E) (rttUs : UInt32) :
    ∃ ewma, (enc.addRttSample rttUs).ewmaRttUs = some ewma := by
  unfold addRttSample
  cases enc.ewmaRttUs with
  | none => exact ⟨_, rfl⟩
  | some ewma => exact ⟨_, rfl⟩

/-- Whether an unacked datagram is retransmitted, given the estimate of the RTT. -/
def isDue (ewma : E) (t : UInt64) (d : Datagram) : Bool :=
  decide (d.numRtx < maxNumRtx) &&
    (decide (d.numRtx = 0) || RttArith.exceeds (t - d.lastSendTs) ewma)

/-- Below the limit, the condition for a retransmission decides. -/
theorem dueForRtx_eq {ewma : E} {t : UInt64} {d : Datagram} (h : d.numRtx < maxNumRtx) :
    dueForRtx (some ewma) t d = .ok (isDue ewma t d) := by
  unfold dueForRtx isDue
  rw [decide_eq_true h, Bool.true_and]
  by_cases h0 : d.numRtx = 0
  · rw [if_pos h0, decide_eq_true h0, Bool.true_or]
  · rw [if_neg h0, decide_eq_false h0, Bool.false_or]

/-- An unacked datagram after it was retransmitted. -/
def retransmitted (t : UInt64) (d : Datagram) : Datagram :=
  { d with numRtx := d.numRtx + 1, lastSendTs := t }

/-- The loop over the datagrams before the acked one, in closed form. -/
theorem retransmitLoop_eq (ewma : E) (t : UInt64) (l : List (SeqNum × Datagram))
    (unacked : OrderedMap SeqNum Datagram) (sendBuf : List Datagram) :
    let due := (l.filter fun e => isDue ewma t e.2).map fun e => (e.1, retransmitted t e.2)
    retransmitLoop (some ewma) t l unacked sendBuf
      = .ok (due.map Prod.snd, due.foldl (fun m e => m.update e.1 e.2) unacked,
        (due.map Prod.snd).reverse ++ sendBuf) := by
  induction l generalizing unacked sendBuf with
  | nil => rfl
  | cons e l ih =>
    obtain ⟨seq, d⟩ := e
    unfold retransmitLoop
    by_cases hmax : d.numRtx ≥ maxNumRtx
    · have hdue : ¬ isDue ewma t d := by simp [isDue, not_lt.mpr hmax]
      rw [if_pos hmax, ih, List.filter_cons_of_neg (by simpa using hdue)]
    · rw [if_neg hmax, dueForRtx_eq (not_le.mp hmax)]
      by_cases hdue : isDue ewma t d
      · rw [List.filter_cons_of_pos (by simpa using hdue)]
        simp only [hdue, List.map_cons, List.foldl_cons, List.reverse_cons, List.append_assoc,
          List.singleton_append]
        rw [show ({ d with numRtx := d.numRtx + 1, lastSendTs := t } : Datagram)
          = retransmitted t d from rfl, ih]
      · rw [List.filter_cons_of_neg (by simpa using hdue)]
        simp only [hdue]
        exact ih unacked sendBuf

/-- The entries that an acknowledgement of `seq` at the time `t` makes due, last one first,
as they are after their retransmission. -/
def rtxEntries (enc : Encoder E) (seq : SeqNum) (ewma : E) (t : UInt64) :
    List (SeqNum × Datagram) :=
  ((enc.unacked.entries.filter fun e => decide (e.1 < seq)).reverse.filter
    fun e => isDue ewma t e.2).map fun e => (e.1, retransmitted t e.2)

/-- The trace of an acknowledgement of `seq` that retransmits `rtx`. -/
def ackEvents (t : UInt64) (rtx : List Datagram) (seq : SeqNum) : List SenderEvent :=
  [.clock t] ++ rtx.map .enqueued ++ [.erased seq]

/-- The retransmissions come from unacked datagrams before the acked one that are due. -/
theorem mem_rtxEntries {enc : Encoder E} {seq k : SeqNum} {ewma : E} {t : UInt64}
    {d : Datagram} : (k, d) ∈ enc.rtxEntries seq ewma t ↔
      ∃ d₀, enc.unacked.find? k = some d₀ ∧ k < seq ∧ isDue ewma t d₀ ∧ d = retransmitted t d₀ := by
  simp only [rtxEntries, List.mem_map, List.mem_filter, List.mem_reverse, decide_eq_true_eq,
    Prod.mk.injEq, OrderedMap.find?_eq_some_iff]
  constructor
  · rintro ⟨⟨k', d₀⟩, ⟨⟨hmem, hlt⟩, hdue⟩, rfl, rfl⟩
    exact ⟨d₀, hmem, hlt, hdue, rfl⟩
  · rintro ⟨d₀, hmem, hlt, hdue, rfl⟩
    exact ⟨(k, d₀), ⟨⟨hmem, hlt⟩, hdue⟩, rfl, rfl⟩

/-- The retransmissions have distinct keys, the last one first. -/
theorem pairwise_rtxEntries (enc : Encoder E) (seq : SeqNum) (ewma : E) (t : UInt64) :
    (enc.rtxEntries seq ewma t).Pairwise (fun a b => b.1 < a.1) := by
  unfold rtxEntries
  rw [List.pairwise_map]
  refine List.Pairwise.filter _ ?_
  rw [List.pairwise_reverse]
  exact enc.unacked.sorted.filter _

/-- What `handle_ack` does.  It always succeeds.  An acknowledgement of a datagram that is
not unacked only contributes to the estimate of the RTT.  Otherwise the datagrams before it
that are due are retransmitted, and the acknowledged one is erased. -/
theorem handleAck_cases (enc : Encoder E) (ack : AckMsg) (t : UInt64) :
    ∃ es enc', enc.handleAck ack t = .ok (es, enc') ∧ enc'.frameId = enc.frameId ∧
      ((enc.unacked.find? ack.seqNum = none ∧ es = [.clock t] ∧ enc'.sendBuf = enc.sendBuf ∧
          enc'.unacked = enc.unacked) ∨
        (enc.unacked.contains ack.seqNum ∧ ∃ ewma, enc'.ewmaRttUs = some ewma ∧
          es = ackEvents t ((enc.rtxEntries ack.seqNum ewma t).map Prod.snd) ack.seqNum ∧
          enc'.sendBuf = ((enc.rtxEntries ack.seqNum ewma t).map Prod.snd).reverse ++ enc.sendBuf ∧
          ∀ k, enc'.unacked.find? k = if k = ack.seqNum then none
            else (enc.unacked.find? k).map fun d =>
              if k < ack.seqNum ∧ isDue ewma t d then retransmitted t d else d)) := by
  obtain ⟨ewma, hewma⟩ := exists_ewmaRttUs_addRttSample enc (t - ack.sendTs).toUInt32
  unfold handleAck
  dsimp only
  have hunacked : (enc.addRttSample (t - ack.sendTs).toUInt32).unacked = enc.unacked := rfl
  have hsendBuf : (enc.addRttSample (t - ack.sendTs).toUInt32).sendBuf = enc.sendBuf := rfl
  rw [hunacked, hsendBuf, hewma]
  cases hfind : enc.unacked.find? ack.seqNum with
  | none => exact ⟨_, _, rfl, rfl, Or.inl ⟨rfl, rfl, rfl, rfl⟩⟩
  | some d =>
    dsimp only
    rw [retransmitLoop_eq]
    refine ⟨_, _, rfl, rfl, Or.inr ⟨by simp [OrderedMap.contains, hfind], ewma, rfl, rfl,
      rfl, ?_⟩⟩
    intro k
    have hpairwise := pairwise_rtxEntries enc ack.seqNum ewma t
    have hnodup : ((enc.rtxEntries ack.seqNum ewma t).map Prod.fst).Nodup := by
      rw [List.Nodup, List.pairwise_map]
      exact hpairwise.imp (fun h => ne_of_gt h)
    have hcontains : ∀ e ∈ enc.rtxEntries ack.seqNum ewma t, enc.unacked.contains e.1 := by
      rintro ⟨k', d'⟩ he
      obtain ⟨d₀, hd₀, -⟩ := mem_rtxEntries.mp he
      simp [OrderedMap.contains, hd₀]
    obtain ⟨hmem, hother⟩ := OrderedMap.find?_foldl_update hnodup hcontains
    show ((List.foldl _ enc.unacked (enc.rtxEntries ack.seqNum ewma t)).erase
      ack.seqNum).find? k = _
    rw [OrderedMap.find?_erase]
    split_ifs with hk
    · rfl
    · by_cases hkey : k ∈ (enc.rtxEntries ack.seqNum ewma t).map Prod.fst
      · -- the entry was retransmitted
        obtain ⟨⟨k', d'⟩, he, rfl⟩ := List.mem_map.mp hkey
        obtain ⟨d₀, hd₀, hlt, hdue, rfl⟩ := mem_rtxEntries.mp he
        rw [hmem _ he, hd₀, Option.map_some, if_pos ⟨hlt, hdue⟩]
      · rw [hother k hkey]
        cases hfindk : enc.unacked.find? k with
        | none => rfl
        | some d₀ =>
          rw [Option.map_some, if_neg]
          rintro ⟨hlt, hdue⟩
          exact hkey (List.mem_map.mpr
            ⟨(k, _), mem_rtxEntries.mpr ⟨d₀, hfindk, hlt, hdue, rfl⟩, rfl⟩)

end Encoder

end Ringmaster
