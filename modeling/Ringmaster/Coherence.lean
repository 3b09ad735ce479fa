/-
# The two ends agree

The composed system of `Delivery.lean` once more, now with the contents of the frames: what the
sender encoded, what is on the network and what the receiver has put together belong to one
list of frames (`Coherent`).

Two results about every reachable state come from it.  A sender that has nothing left to send
and nothing unacked has brought the receiver up to date, whatever was lost on the way and
however often it gave up: the receiver waits for the very frame that the encoder will encode
next, with an empty buffer (`caught_up`).  And no party ever raises an exception, whatever
happens next (`raises_nothing`).
-/
import Ringmaster.Compression
import Ringmaster.Genuine

open Unsigned

namespace Ringmaster

open Packetization Encoder

namespace Delivery

variable {E : Type}

/-! ## The invariant -/

/-- The frames that were encoded: the sender packetized them, the network carries their
fragments, and the receiver processed what it got from there. -/
structure Coherent (maxPayload : ℕ) (lazyLevel : LazyLevel) (frames : List (Bytes × Bool))
    (es : List Event) (s : System E) : Prop where
  kept : Kept es s
  sourced : Sourced maxPayload frames (senderEvents es) s.encoder s.toReceiver
  count : encodedCount (senderEvents es) = frames.length
  received : ∀ d ∈ receivedDatagrams es,
    ∃ binary ∈ s.toReceiver, Datagram.parseFromString {} binary = .ok (true, d)
  processes : ∃ fs, Receiver.Processes (Decoder.initial lazyLevel) (receivedDatagrams es) fs
    s.decoder

variable {maxPayload : ℕ} {lazyLevel : LazyLevel} {frames : List (Bytes × Bool)}
  {es : List Event} {s : System E}

theorem coherent_initial (displayWidth displayHeight : UInt16) (hasOutput : Bool) :
    Coherent maxPayload lazyLevel [] []
      (initial displayWidth displayHeight hasOutput lazyLevel : System E) where
  kept := kept_initial displayWidth displayHeight hasOutput lazyLevel
  sourced := sourced_initial maxPayload displayWidth displayHeight hasOutput
  count := rfl
  received := fun _ hd => absurd hd List.not_mem_nil
  processes := ⟨[], Receiver.Processes.nil⟩

/-- The number of frames that were encoded when one is compressed. -/
theorem encodedCount_compressFrame {enc enc' : Encoder E} {inp : CompressInput}
    {ses : List SenderEvent} (h : enc.compressFrame maxPayload inp = (.ok (), ses, enc')) :
    encodedCount ses = 1 := by
  obtain ⟨pkts, ds, -, -, -, rfl⟩ := compressFrame_cases h
  exact encodedCount_compressEvents enc inp ds

/-- A round of the receiver. -/
theorem Coherent.receive (h : Coherent maxPayload lazyLevel frames es s) {binary : Bytes}
    {d : Datagram} {decoder decoder' : Decoder} {gs : List Frame} (hb : binary ∈ s.toReceiver)
    (hparse : Datagram.parseFromString {} binary = .ok (true, d))
    (hadd : s.decoder.addDatagram d = (.ok (), decoder))
    (hends : Receiver.DrainEnds decoder gs decoder') :
    Coherent maxPayload lazyLevel frames (es ++ [Event.received d]) { s with
      decoder := decoder'
      toSender := s.toSender ++ [(AckMsg.ofDatagram d).serializeToString] } := by
  have hses : senderEvents (es ++ [Event.received d]) = senderEvents es := by simp
  have hrcv : receivedDatagrams (es ++ [Event.received d]) = receivedDatagrams es ++ [d] := by simp
  obtain ⟨fs, hrun⟩ := h.processes
  refine ⟨h.kept.receive hb hparse hadd hends, hses ▸ h.sourced, hses ▸ h.count, ?_, ?_⟩
  · rw [hrcv]
    intro e he
    rcases List.mem_append.mp he with hmem | hmem
    · exact h.received e hmem
    · rw [List.mem_singleton.mp hmem]
      exact ⟨binary, hb, hparse⟩
  · rw [hrcv]
    exact ⟨fs ++ gs, hrun.snoc hadd hends⟩

/-- A step of the sender. -/
theorem Coherent.sends (h : Coherent maxPayload lazyLevel frames es s) {encoder : Encoder E}
    {ses : List SenderEvent} {frames' : List (Bytes × Bool)}
    (hkept : Kept (es ++ ses.map .sender) (s.sends encoder ses))
    (hsourced : Sourced maxPayload (frames ++ frames') (senderEvents es ++ ses) encoder
      (s.toReceiver ++ (sentDatagrams ses).map Datagram.serializeToString))
    (hcount : encodedCount ses = frames'.length) :
    Coherent maxPayload lazyLevel (frames ++ frames') (es ++ ses.map .sender)
      (s.sends encoder ses) := by
  have hses : senderEvents (es ++ ses.map .sender) = senderEvents es ++ ses := by simp
  have hrcv : receivedDatagrams (es ++ ses.map .sender) = receivedDatagrams es := by simp
  refine ⟨hkept, hses ▸ hsourced, ?_, ?_, hrcv ▸ h.processes⟩
  · rw [hses, encodedCount_append, h.count, hcount, List.length_append]
  · rw [hrcv]
    intro d hd
    obtain ⟨binary, hb, hparse⟩ := h.received d hd
    exact ⟨binary, List.mem_append_left _ hb, hparse⟩

variable [RttArith E]

/-- Every step keeps the ends in agreement, about the same frames or one more. -/
theorem Coherent.step (h : Coherent maxPayload lazyLevel frames es s) {es' : List Event}
    {s' : System E} (hstep : Step maxPayload s es' s')
    (hcount : encodedCount (senderEvents (es ++ es')) < 2 ^ 32) :
    ∃ frames', Coherent maxPayload lazyLevel (frames ++ frames') (es ++ es') s' := by
  have hkept := h.kept.step hstep hcount
  cases hstep with
  | @compress encoder inp ses hvpx hcompress =>
    obtain ⟨pkts, -, hpkts, -, -, -⟩ := compressFrame_cases hcompress
    obtain ⟨buf, isKey, hframes, -, -⟩ := hvpx _ _ hpkts
    obtain ⟨hsourced, hnone⟩ := h.sourced.compressFrame (fun pkts' hpkts' => by
      rw [hpkts, Except.ok.injEq] at hpkts'
      exact hpkts' ▸ hframes) hcompress
    refine ⟨[(buf, isKey)], h.sends hkept ?_ (encodedCount_compressFrame hcompress)⟩
    rw [hnone, List.map_nil, List.append_nil]
    exact hsourced
  | @send encoder d rest t outcome ses more hbuf hsend =>
    refine ⟨[], h.sends hkept ?_ ?_⟩
    · rw [List.append_nil]
      exact h.sourced.sendFront hbuf hsend
    · rcases events_sendFront hsend with rfl | rfl
      · rfl
      · rfl
  | @ack encoder binary msg t ses _ _ hack =>
    obtain ⟨hsourced, hnone⟩ := h.sourced.handleAck hack
    refine ⟨[], h.sends hkept ?_ ?_⟩
    · rw [hnone, List.map_nil, List.append_nil, List.append_nil]
      exact hsourced
    · obtain ⟨ses', enc', hack', -, hcases⟩ := handleAck_cases s.encoder msg t
      rw [hack, Except.ok.injEq, Prod.mk.injEq] at hack'
      obtain ⟨rfl, rfl⟩ := hack'
      rcases hcases with ⟨-, rfl, -⟩ | ⟨-, ewma, -, rfl, -⟩
      · rfl
      · exact encodedCount_ackEvents _ _ _
  | receive hb hparse hadd hends =>
    refine ⟨[], ?_⟩
    rw [List.append_nil]
    exact h.receive hb hparse hadd hends

/-- In every run over fewer than `2 ^ 32` frames the ends agree about some frames. -/
theorem coherent_of_steps {displayWidth displayHeight : UInt16} {hasOutput : Bool}
    (h : Run.Steps (Step maxPayload) (initial displayWidth displayHeight hasOutput lazyLevel) es s)
    (hcount : encodedCount (senderEvents es) < 2 ^ 32) :
    ∃ frames, Coherent maxPayload lazyLevel frames es s := by
  refine h.invariant_of_lt (fun es => encodedCount (senderEvents es))
    (fun es s => ∃ frames, Coherent maxPayload lazyLevel frames es s)
    encodedCount_senderEvents_le_append
    ⟨[], coherent_initial displayWidth displayHeight hasOutput⟩ ?_ hcount
  rintro es s es' s' hG ⟨frames, hI⟩ hstep
  obtain ⟨frames', hI'⟩ := hI.step hstep hG
  exact ⟨frames ++ frames', hI'⟩

omit [RttArith E]

/-! ## A sender without anything outstanding -/

/-- The last key frame among the frames, or the frame 0 when there is none. -/
theorem exists_lastKey (frames : List (Bytes × Bool)) :
    ∃ b ≤ frames.length, (b = 0 ∨ ∃ buf, frames[b]? = some (buf, true)) ∧
      ∀ (k : ℕ) buf, frames[k]? = some (buf, true) → k ≤ b := by
  classical
  let IsKey : ℕ → Prop := fun k => ∃ buf, frames[k]? = some (buf, true)
  refine ⟨Nat.findGreatest IsKey frames.length, Nat.findGreatest_le _, ?_, ?_⟩
  · by_cases h0 : Nat.findGreatest IsKey frames.length = 0
    · exact Or.inl h0
    · exact Or.inr (Nat.findGreatest_of_ne_zero rfl h0)
  · intro k buf hk
    have hlt := (List.getElem?_eq_some_iff.mp hk).1
    exact Nat.le_findGreatest (le_of_lt hlt) ⟨buf, hk⟩

/-- The type of a datagram is that of its frame. -/
theorem exists_of_mem_datagramsFrom (hlen : frames.length < 2 ^ 32) {d : Datagram}
    (hd : d ∈ Integrity.datagramsFrom maxPayload 0 frames) :
    ∃ buf isKey, frames[d.frameId.toNat]? = some (buf, isKey) ∧
      d.frameType = if isKey then .key else .nonkey := by
  have hlt : (0 : UInt32).toNat + frames.length < 2 ^ 32 := by
    rw [UInt32.toNat_zero]
    omega
  obtain ⟨i, buf, isKey, hframe, hmem, hid⟩ := (Integrity.mem_datagramsFrom hlt).mp hd
  rw [UInt32.toNat_zero, Nat.zero_add] at hid
  subst hid
  refine ⟨buf, isKey, hframe, ?_⟩
  rw [(isFragmentation_packetize d.frameId maxPayload buf isKey).header d hmem]

/-- All datagrams that were received are copies of fragments. -/
theorem Coherent.isCopy (h : Coherent maxPayload lazyLevel frames es s)
    (hlen : frames.length < 2 ^ 32 - 1) :
    ∀ d ∈ receivedDatagrams es, (Integrity.frameSet maxPayload frames hlen).IsCopy d := by
  intro d hd
  obtain ⟨binary, hb, hparse⟩ := h.received d hd
  exact h.sourced.isCopy hlen hb hparse

/-- The sender has nothing to send for the first time, and nothing unacked. -/
def NothingOutstanding (enc : Encoder E) : Prop :=
  enc.freshKeys = [] ∧ enc.unacked.entries = []

/-- A frame is whole when each of its fragments was received. -/
theorem Coherent.wholeBy_of_received (h : Coherent maxPayload lazyLevel frames es s)
    (hlen : frames.length < 2 ^ 32 - 1) {k : UInt32} {buf : Bytes} {isKey : Bool}
    (hframe : frames[k.toNat]? = some (buf, isKey))
    (hall : ∀ d ∈ packetizedDatagrams (senderEvents es), d.frameId = k →
      ∃ e ∈ receivedDatagrams es, e.seqNum = d.seqNum) :
    ∃ d, Receiver.WholeBy (receivedDatagrams es) k d ∧
      d.frameType = if isKey then .key else .nonkey := by
  have hfit := h.sourced.fits _ (List.mem_of_getElem? hframe)
  have hlength : (packetize k maxPayload buf isKey).length = fragCntOf maxPayload buf.length := by
    rw [(isFragmentation_packetize k maxPayload buf isKey).length_eq, (toNat_fragCntOf hfit).1]
  have hreceived : ∀ i < fragCntOf maxPayload buf.length,
      ∃ e ∈ receivedDatagrams es, e.frameId = k ∧ e.fragId.toNat = i := by
    intro i hi
    rw [← hlength] at hi
    obtain ⟨d, hd, rfl, rfl⟩ := Integrity.exists_mem_datagramsFrom hlen hframe hi
    rw [← h.sourced.packetized] at hd
    obtain ⟨e, he, hseq⟩ := hall d hd rfl
    have hnumbers : (e.frameId, e.fragId) = (d.frameId, d.fragId) := hseq
    rw [Prod.mk.injEq] at hnumbers
    exact ⟨e, he, hnumbers.1, by rw [hnumbers.2]⟩
  obtain ⟨d, hd, hid, -⟩ := hreceived 0 (toNat_fragCntOf hfit).2
  have hsrc := @Integrity.frameSet_source _ _ hlen _ _ _ hframe hfit
  rw [← hid] at hsrc
  obtain ⟨-, hcnt, htype⟩ := (h.isCopy hlen d hd).lt_length hsrc
  refine ⟨d, ⟨hd, hid, fun i hi => hreceived i ?_⟩, htype⟩
  rw [← hlength, ← hid]
  rwa [hcnt, Integrity.frameSource, List.length_map] at hi

/-- Then the frames from the last key frame on were received as a whole. -/
theorem Coherent.wholeBy (h : Coherent maxPayload lazyLevel frames es s)
    (hlen : frames.length < 2 ^ 32 - 1) (hnone : NothingOutstanding s.encoder) {b : ℕ}
    (hlast : ∀ (k : ℕ) buf, frames[k]? = some (buf, true) → k ≤ b) {k : UInt32} (hbk : b ≤ k.toNat)
    {buf : Bytes} {isKey : Bool} (hframe : frames[k.toNat]? = some (buf, isKey)) :
    ∃ d, Receiver.WholeBy (receivedDatagrams es) k d ∧
      d.frameType = if isKey then .key else .nonkey := by
  obtain ⟨hfresh, hunacked⟩ := hnone
  apply h.wholeBy_of_received hlen hframe
  -- each fragment was received, as no later key frame makes it superfluous
  rintro d hd rfl
  rcases h.kept.somewhere d hd with hmem | hmem | hreceived | ⟨e, he, htype, hlt⟩
  · rw [hfresh] at hmem
    exact absurd hmem List.not_mem_nil
  · rw [OrderedMap.contains, OrderedMap.find?, hunacked] at hmem
    simp at hmem
  · exact hreceived
  · rw [h.sourced.packetized] at he
    obtain ⟨buf', isKey', hframe', htype'⟩ := exists_of_mem_datagramsFrom (by omega) he
    have hkey : isKey' = true := by
      rw [htype'] at htype
      cases isKey' with
      | true => rfl
      | false => exact absurd htype (by decide)
    have := hlast _ buf' (hkey ▸ hframe')
    rw [UInt32.lt_iff_toNat_lt] at hlt
    omega

/-- The receiver is where the sender is, with nothing in its buffer. -/
theorem Coherent.caughtUp (h : Coherent maxPayload lazyLevel frames es s)
    (hlen : frames.length < 2 ^ 32 - 1) (hnone : NothingOutstanding s.encoder) :
    s.decoder.nextFrame = s.encoder.frameId ∧ ∀ k, s.decoder.frameBuf.find? k = none := by
  have hcopies := FrameSet.consistent_of_forall_isCopy (h.isCopy hlen)
  obtain ⟨fs, hrun⟩ := h.processes
  have hre := Receiver.reassembled_of_processes hrun fun d hd => (hcopies.1 d hd).1
  have hfrontier := hre.isFrontier
  have hid : s.encoder.frameId.toNat = frames.length := by
    rw [h.sourced.frameId, UInt32.toNat_ofNat']
    exact Nat.mod_eq_of_lt (by omega)
  obtain ⟨b, hble, hb, hlast⟩ := exists_lastKey frames
  -- the receiver is not before the last key frame
  have hbnext : b ≤ s.decoder.nextFrame.toNat := by
    rcases hb with rfl | ⟨buf, hframe⟩
    · exact Nat.zero_le _
    · have hblt := (List.getElem?_eq_some_iff.mp hframe).1
      have hbid : (UInt32.ofNat b).toNat = b := by
        rw [UInt32.toNat_ofNat']
        exact Nat.mod_eq_of_lt (by omega)
      obtain ⟨d, hwhole, htype⟩ := h.wholeBy hlen hnone hlast (le_of_eq hbid.symm)
        (hbid.symm ▸ hframe)
      have hlt := hfrontier.restart_lt (UInt32.ofNat b) ⟨d, hwhole, htype⟩ (zero_le_uint32 _)
      rw [UInt32.lt_iff_toNat_lt, hbid] at hlt
      exact le_of_lt hlt
  have hge : frames.length ≤ s.decoder.nextFrame.toNat := by
    by_contra hlt
    obtain ⟨⟨buf, isKey⟩, hframe⟩ : ∃ frame, frames[s.decoder.nextFrame.toNat]? = some frame :=
      ⟨_, List.getElem?_eq_getElem (not_le.mp hlt)⟩
    obtain ⟨d, hwhole, -⟩ := h.wholeBy hlen hnone hlast hbnext hframe
    exact hfrontier.notMem ⟨d, hwhole⟩
  have hle : s.decoder.nextFrame ≤ s.encoder.frameId := by
    by_contra hlt
    obtain ⟨c, hc, -, hall⟩ := hfrontier.base
    have hcle : c ≤ s.encoder.frameId := by
      rcases hc with rfl | ⟨⟨d, hwhole, -⟩, -⟩
      · exact zero_le_uint32 _
      · rw [← hwhole.2.1]
        exact le_of_lt (h.kept.received_lt d hwhole.1)
    -- it would have taken a frame that was not encoded yet
    obtain ⟨d, hwhole⟩ := hall s.encoder.frameId hcle (not_le.mp hlt)
    exact absurd (h.kept.received_lt d hwhole.1) (by rw [hwhole.2.1]; exact lt_irrefl _)
  have hnext : s.decoder.nextFrame = s.encoder.frameId :=
    le_antisymm hle (UInt32.le_iff_toNat_le.mpr (by omega))
  refine ⟨hnext, fun k => ?_⟩
  cases hfind : s.decoder.frameBuf.find? k with
  | none => rfl
  | some frame =>
    have hk := h.kept.agrees.inv.nextFrame_le k frame hfind
    have ht := h.kept.agrees.tracksAt k hk
    rw [hfind] at ht
    obtain ⟨⟨d, hd, rfl⟩, -⟩ := ht
    rw [hnext] at hk
    exact absurd (h.kept.received_lt d hd) (not_lt.mpr hk)

/-- A sender without anything outstanding has brought the receiver up to date.  Over fewer than
`2 ^ 32 - 1` frames, whatever the network lost, duplicated and reordered and however often the
sender gave up: when nothing waits for its first transmission and nothing is unacked, the
receiver waits for the frame that the encoder will encode next, and its buffer is empty. -/
theorem caught_up [RttArith E] {displayWidth displayHeight : UInt16} {hasOutput : Bool}
    (h : Run.Steps (Step maxPayload) (initial displayWidth displayHeight hasOutput lazyLevel) es s)
    (hcount : encodedCount (senderEvents es) < 2 ^ 32 - 1) (hnone : NothingOutstanding s.encoder) :
    s.decoder.nextFrame = s.encoder.frameId ∧ ∀ k, s.decoder.frameBuf.find? k = none := by
  obtain ⟨frames, hcoherent⟩ := coherent_of_steps h (by omega)
  exact hcoherent.caughtUp (hcoherent.count ▸ hcount) hnone

/-- The only datagram of the first frame is lost.  After more than a second the sender gives up
on it, and the key frame that follows brings the receiver up to date. -/
theorem caught_up_gaveUp : ∃ es s,
    Run.Steps (Step 2000) (initial 2 2 false .decodeOnly : System ℚ) es s ∧
      (giveUps (senderEvents es)).length = 1 ∧ (receivedDatagrams es).length = 1 ∧
      s.decoder.nextFrame = 2 ∧ ∀ k, s.decoder.frameBuf.find? k = none := by
  have h₁ : Step 2000 (initial 2 2 false .decodeOnly : System ℚ) _ _ :=
    Step.compress (returnsOneFrame_smallFrame 5) rfl
  have h₂ := (Run.Steps.single h₁).tail (@Step.send _ _ _ _ _ _ _ 10 .accepted _ _ rfl rfl)
  have h₃ := h₂.tail (Step.compress (returnsOneFrame_smallFrame 2000000) rfl)
  have h₄ := h₃.tail (@Step.send _ _ _ _ _ _ _ 2000010 .accepted _ _ rfl rfl)
  have h₅ := h₄.tail (Step.receive (List.mem_of_getLast? rfl) rfl rfl
    (Loop.ends_of_again rfl (Loop.ends_of_leave rfl)))
  have h₆ := h₅.tail (@Step.ack _ _ _ _ _ _ _ 2000030 _ (List.mem_singleton_self _) rfl rfl)
  refine ⟨_, _, h₆, rfl, rfl, ?_⟩
  exact caught_up h₆ (by decide) ⟨rfl, rfl⟩

/-! ## No exceptions -/

/-- Whatever happens next, no party raises an exception: an image of the right size is
compressed, when libvpx makes it into one frame that can be split and the line about it can be
written; a datagram at the front is sent, or put back; what arrives at the sender is an
acknowledgement and handled; what arrives at the receiver is parsed and added, and the loop
over complete frames ends. -/
structure RaisesNothing [RttArith E] (maxPayload : ℕ) (s : System E) : Prop where
  compress : ∀ inp pkts buf isKey,
    inp.imgWidth = s.encoder.displayWidth ∧ inp.imgHeight = s.encoder.displayHeight →
    inp.vpx (s.encoder.givesUp inp.encodeTs) = .ok pkts → framesOf pkts = [(buf, isKey)] →
    Enqueues maxPayload buf → s.encoder.OutputSucceeds inp →
    ∃ ses encoder, s.encoder.compressFrame maxPayload inp = (.ok (), ses, encoder)
  send : ∀ d rest t outcome, s.encoder.sendBuf = d :: rest → (∀ e, outcome ≠ .raised e) →
    ∃ ses more encoder, s.encoder.sendFront d rest t outcome = .ok (ses, more, encoder)
  ack : ∀ binary ∈ s.toSender, ∃ msg, Msg.parseFromString binary = .ok (some (.ack msg)) ∧
    ∀ t, ∃ ses encoder, s.encoder.handleAck msg t = .ok (ses, encoder)
  receive : ∀ binary ∈ s.toReceiver, ∃ d decoder frames decoder',
    Datagram.parseFromString {} binary = .ok (true, d) ∧
      s.decoder.addDatagram d = (.ok (), decoder) ∧ Receiver.DrainEnds decoder frames decoder'

/-- An attempt to send raises nothing of its own. -/
theorem exists_sendFront {ses : List SenderEvent} {enc : Encoder E} (h : Ordered ses enc)
    {d : Datagram} {rest : List Datagram} (hbuf : enc.sendBuf = d :: rest) (t : UInt64)
    {outcome : SendOutcome} (hraised : ∀ e, outcome ≠ .raised e) :
    ∃ ses' more enc', enc.sendFront d rest t outcome = .ok (ses', more, enc') := by
  unfold sendFront
  cases outcome with
  | raised e => exact absurd rfl (hraised e)
  | wouldBlock => exact ⟨_, _, _, rfl⟩
  | accepted =>
    dsimp only
    split_ifs with h0
    · -- the key of a fresh datagram is greater than those of the unacked ones
      have hnone : enc.unacked.find? d.seqNum = none := by
        by_contra hsome
        have hcontains : enc.unacked.contains d.seqNum := Option.isSome_iff_ne_none.mpr hsome
        have hfresh : d.seqNum ∈ enc.freshKeys :=
          mem_freshKeys.mpr ⟨d, hbuf ▸ List.mem_cons_self, h0, rfl⟩
        exact lt_irrefl _ (h.unacked_lt_fresh _ hcontains _ hfresh)
      have hadd : enc.addUnacked { d with sendTs := t } = .ok { enc with
          unacked := enc.unacked.emplace d.seqNum { d with sendTs := t, lastSendTs := t } } :=
        addUnacked_eq_ok_iff.mpr ⟨hnone, rfl⟩
      rw [hadd]
      exact ⟨_, _, _, rfl⟩
    · exact ⟨_, _, _, rfl⟩

/-- Compressing raises nothing of its own. -/
theorem exists_compressFrame {enc : Encoder E} {inp : CompressInput} {pkts : List CxPkt}
    {buf : Bytes} {isKey : Bool}
    (hdim : inp.imgWidth = enc.displayWidth ∧ inp.imgHeight = enc.displayHeight)
    (hvpx : inp.vpx (enc.givesUp inp.encodeTs) = .ok pkts)
    (hframes : framesOf pkts = [(buf, isKey)]) (henq : Enqueues maxPayload buf)
    (hout : enc.OutputSucceeds inp) :
    ∃ ses enc', enc.compressFrame maxPayload inp = (.ok (), ses, enc') := by
  have hencode := encodeFrame_eq hdim
  rw [hvpx] at hencode
  have hpack : (enc.afterGiveUp inp.encodeTs).packetizeEncodedFrame maxPayload pkts
      = (.ok buf.length, { enc.afterGiveUp inp.encodeTs with
        sendBuf := (enc.afterGiveUp inp.encodeTs).sendBuf ++
          packetize (enc.afterGiveUp inp.encodeTs).frameId maxPayload buf isKey }) := by
    unfold packetizeEncodedFrame
    rw [packetsLoop_eq_of_enqueues _ 0 _ hframes henq, if_pos rfl]
  have hout' : (enc.afterGiveUp inp.encodeTs).OutputSucceeds inp := by
    unfold OutputSucceeds at hout ⊢
    unfold afterGiveUp
    split_ifs
    · exact hout
    · exact hout
  obtain ⟨ses, ⟨e, he, -⟩ | ⟨n, e, -, hnot, -⟩ | ⟨n, -, -, hok⟩⟩ :=
    compressFrame_of_packetizeEncodedFrame hencode hpack
  · simp at he
  · exact absurd hout' hnot
  · exact ⟨ses, _, hok⟩

/-- The receiver raises nothing, and its loop ends. -/
theorem Coherent.exists_receive (h : Coherent maxPayload lazyLevel frames es s)
    (hlen : frames.length < 2 ^ 32 - 1) {binary : Bytes} (hb : binary ∈ s.toReceiver) :
    ∃ d decoder gs decoder', Datagram.parseFromString {} binary = .ok (true, d) ∧
      s.decoder.addDatagram d = (.ok (), decoder) ∧ Receiver.DrainEnds decoder gs decoder' := by
  have hcarry := h.sourced.network binary hb
  rw [h.sourced.packetized] at hcarry
  obtain ⟨hparse, hcopy⟩ := Integrity.parse_of_carries hlen h.sourced.fits hcarry
  have hcons : Receiver.Consistent (receivedDatagrams es ++ [Integrity.parsed binary]) := by
    refine @FrameSet.consistent_of_forall_isCopy (Integrity.frameSet maxPayload frames hlen) _
      fun d hd => ?_
    rcases List.mem_append.mp hd with hmem | hmem
    · exact h.isCopy hlen d hmem
    · rw [List.mem_singleton.mp hmem]
      exact hcopy
  obtain ⟨decoder, hadd⟩ := h.kept.agrees.exists_addDatagram hcons
  have hagrees := h.kept.agrees.addDatagram hadd
  have hmax : ¬ decoder.IsCompleteKey maxUInt32 := by
    rintro ⟨frame, hfind, -, hc⟩
    exact hagrees.not_isComplete_max (fun d hd => (hcons.1 d hd).1) ⟨frame, hfind, hc⟩
  obtain ⟨gs, decoder', hends⟩ := Receiver.exists_drainEnds hagrees.inv hmax
  exact ⟨_, decoder, gs, decoder', hparse, hadd, hends⟩

/-- In every run over fewer than `2 ^ 32 - 1` frames, no party can raise an exception in its
next step, whatever the network lost, duplicated and reordered before. -/
theorem raises_nothing [RttArith E] {displayWidth displayHeight : UInt16} {hasOutput : Bool}
    (h : Run.Steps (Step maxPayload) (initial displayWidth displayHeight hasOutput lazyLevel) es s)
    (hcount : encodedCount (senderEvents es) < 2 ^ 32 - 1) : RaisesNothing maxPayload s := by
  obtain ⟨frames, hcoherent⟩ := coherent_of_steps h (by omega)
  have hlen : frames.length < 2 ^ 32 - 1 := hcoherent.count ▸ hcount
  refine ⟨fun inp pkts buf isKey hdim hvpx hframes henq hout =>
      exists_compressFrame hdim hvpx hframes henq hout,
    fun d rest t outcome hbuf hraised =>
      exists_sendFront hcoherent.kept.ordered hbuf t hraised, ?_,
    fun binary hb => hcoherent.exists_receive hlen hb⟩
  intro binary hb
  obtain ⟨d, -, rfl⟩ := hcoherent.kept.acked binary hb
  refine ⟨AckMsg.ofDatagram d, Msg.parseFromString_ack _, fun t => ?_⟩
  obtain ⟨ses, encoder, hack, -⟩ := handleAck_cases s.encoder (AckMsg.ofDatagram d) t
  exact ⟨ses, encoder, hack⟩

/-- A small frame was sent: the datagram can be received. -/
theorem raises_nothing_smallFrame : ∃ es s,
    Run.Steps (Step 2000) (initial 2 2 false .decodeOnly : System ℚ) es s ∧
      s.toReceiver.length = 1 ∧ RaisesNothing 2000 s := by
  have h₁ : Step 2000 (initial 2 2 false .decodeOnly : System ℚ) _ _ :=
    Step.compress (returnsOneFrame_smallFrame 5) rfl
  have h₂ := (Run.Steps.single h₁).tail (@Step.send _ _ _ _ _ _ _ 10 .accepted _ _ rfl rfl)
  exact ⟨_, _, h₂, rfl, raises_nothing h₂ (by decide)⟩

end Delivery

end Ringmaster
