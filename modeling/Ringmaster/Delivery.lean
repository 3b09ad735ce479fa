/-
# The sender, the network and the receiver

The encoder of the sender and the decoder of the receiver, between them a network that may
lose, duplicate and reorder what is given to it but does not forge anything.  The sender
takes the steps of `SenderSteps`; a step of the receiver is one round of its main loop.  The
network is the list of all byte strings that were ever given to it, in each direction, and
delivers any of them at any time.

No fragment is silently lost (`no_fragment_lost`): it is queued or unacked, or the receiver
has it, or a later key frame makes it superfluous.
-/
import Ringmaster.Messages
import Ringmaster.SendOrder
import Ringmaster.Reassembly

open Unsigned

namespace Ringmaster

open Packetization Encoder

namespace Delivery

/-! ## The composed system -/

/-- The state of both ends and of the network. -/
structure System (E : Type) where
  encoder : Encoder E
  decoder : Decoder
  toReceiver : List Bytes
  toSender : List Bytes

/-- What an observer sees: an event of the sender, or a datagram processed by the receiver. -/
inductive Event where
  | sender (e : SenderEvent)
  | received (d : Datagram)
  deriving DecidableEq

/-- The assumption about libvpx: when it succeeds, it returns exactly one frame, which is not
empty, and a key frame when one is forced. -/
def ReturnsOneFrame (inp : CompressInput) : Prop :=
  ∀ force pkts, inp.vpx force = .ok pkts →
    ∃ buf isKey, framesOf pkts = [(buf, isKey)] ∧ buf ≠ [] ∧ (force → isKey)

variable {E : Type}

/-- The system at the start. -/
def initial (displayWidth displayHeight : UInt16) (hasOutput : Bool) (lazyLevel : LazyLevel) :
    System E :=
  ⟨Encoder.initial displayWidth displayHeight hasOutput, Decoder.initial lazyLevel, [], []⟩

/-- The sender has become `encoder`, and put the datagrams that it sent on the network. -/
def System.sends (s : System E) (encoder : Encoder E) (es : List SenderEvent) : System E :=
  { s with
    encoder := encoder
    toReceiver := s.toReceiver ++ (sentDatagrams es).map Datagram.serializeToString }

/-- The steps of the system. -/
inductive Step [RttArith E] (maxPayload : ℕ) : System E → List Event → System E → Prop
  /-- The frame timer fires, and a frame is compressed. -/
  | compress {s : System E} {encoder : Encoder E} {inp : CompressInput} {es : List SenderEvent} :
      ReturnsOneFrame inp → s.encoder.compressFrame maxPayload inp = (.ok (), es, encoder) →
      Step maxPayload s (es.map .sender) (s.sends encoder es)
  /-- The socket is writable, and the datagram at the front is given to it. -/
  | send {s : System E} {encoder : Encoder E} {d : Datagram} {rest : List Datagram} {t : UInt64}
      {outcome : SendOutcome} {es : List SenderEvent} {more : Bool} :
      s.encoder.sendBuf = d :: rest →
      s.encoder.sendFront d rest t outcome = .ok (es, more, encoder) →
      Step maxPayload s (es.map .sender) (s.sends encoder es)
  /-- The sender receives an acknowledgement. -/
  | ack {s : System E} {encoder : Encoder E} {binary : Bytes} {msg : AckMsg} {t : UInt64}
      {es : List SenderEvent} :
      binary ∈ s.toSender → Msg.parseFromString binary = .ok (some (.ack msg)) →
      s.encoder.handleAck msg t = .ok (es, encoder) →
      Step maxPayload s (es.map .sender) (s.sends encoder es)
  /-- The receiver receives a datagram, acknowledges it, adds it, and consumes the frames that
  are complete.  The states are those between the rounds of its main loop: the one in which the
  acknowledgement is sent and the datagram not yet added is not among them. -/
  | receive {s : System E} {binary : Bytes} {d : Datagram} {decoder decoder' : Decoder}
      {frames : List Frame} :
      binary ∈ s.toReceiver → Datagram.parseFromString {} binary = .ok (true, d) →
      s.decoder.addDatagram d = (.ok (), decoder) → Receiver.DrainEnds decoder frames decoder' →
      Step maxPayload s [.received d] { s with
        decoder := decoder'
        toSender := s.toSender ++ [(AckMsg.ofDatagram d).serializeToString] }

/-! ## Traces -/

/-- The events of the sender, in order. -/
def senderEvents (es : List Event) : List SenderEvent :=
  es.filterMap fun e => match e with
    | .sender e => some e
    | .received _ => none

/-- The datagrams that the receiver processed, in order. -/
def receivedDatagrams (es : List Event) : List Datagram :=
  es.filterMap fun e => match e with
    | .sender _ => none
    | .received d => some d

/-- The fragments that were packetized: what was queued before any retransmission. -/
def packetizedDatagrams (es : List SenderEvent) : List Datagram :=
  (enqueuedDatagrams es).filter fun d => decide (d.numRtx = 0)

section Traces

variable (es es' : List Event) (ses ses' : List SenderEvent)

@[simp] theorem senderEvents_append :
    senderEvents (es ++ es') = senderEvents es ++ senderEvents es' :=
  List.filterMap_append

@[simp] theorem receivedDatagrams_append :
    receivedDatagrams (es ++ es') = receivedDatagrams es ++ receivedDatagrams es' :=
  List.filterMap_append

@[simp] theorem packetizedDatagrams_append :
    packetizedDatagrams (ses ++ ses') = packetizedDatagrams ses ++ packetizedDatagrams ses' := by
  unfold packetizedDatagrams
  rw [enqueuedDatagrams_append, List.filter_append]

theorem encodedCount_senderEvents_le_append :
    encodedCount (senderEvents es) ≤ encodedCount (senderEvents (es ++ es')) := by
  rw [senderEvents_append]
  exact encodedCount_le_append _ _

@[simp] theorem senderEvents_map_sender : senderEvents (ses.map .sender) = ses := by
  unfold senderEvents
  rw [List.filterMap_map]
  exact List.filterMap_some

@[simp] theorem receivedDatagrams_map_sender : receivedDatagrams (ses.map .sender) = [] := by
  simp [receivedDatagrams]

@[simp] theorem senderEvents_received (d : Datagram) : senderEvents [.received d] = [] := rfl

@[simp] theorem receivedDatagrams_received (d : Datagram) :
    receivedDatagrams [.received d] = [d] := rfl

end Traces

/-! ## What a step of the sender keeps -/

section Effects

variable [RttArith E] {ses ses' : List SenderEvent} {enc enc' : Encoder E}

/-- What is queued or sent in a step belongs to a finished frame. -/
theorem frameId_lt_of_effect (h : Ordered ses enc) (heff : Effect enc enc' ses')
    (hcount : encodedCount (ses ++ ses') < 2 ^ 32) : enc.frameId ≤ enc'.frameId ∧
      (∀ d ∈ enqueuedDatagrams ses', d.frameId < enc'.frameId) ∧
      (∀ d ∈ sentDatagrams ses', d.frameId < enc'.frameId) := by
  have hfront : ∀ {d : Datagram} {rest : List Datagram}, enc.sendBuf = d :: rest →
      d.frameId < enc.frameId := fun hd => h.queued_lt _ (by rw [hd]; exact List.mem_cons_self)
  cases heff with
  | compressed inp ds hds hpairwise hid hbuf hunacked =>
    rw [encodedCount_append, encodedCount_compressEvents] at hcount
    have hlt := (h.toNat_frameId_add_one hcount).2
    rw [hid, enqueuedDatagrams_compressEvents, sentDatagrams_compressEvents]
    refine ⟨le_of_lt hlt, fun d hd => ?_, fun d hd => absurd hd List.not_mem_nil⟩
    rw [(hds d hd).1]
    exact hlt
  | sentFresh d rest t hd h0 hnone hid hbuf hfind =>
    have hlt := hfront hd
    rw [hid]
    refine ⟨le_rfl, fun d' hd' => absurd hd' List.not_mem_nil, fun d' hd' => ?_⟩
    rw [List.mem_singleton.mp hd']
    exact hlt
  | sentRtx d rest t hd h0 hid hbuf hunacked =>
    have hlt := hfront hd
    rw [hid]
    refine ⟨le_rfl, fun d' hd' => absurd hd' List.not_mem_nil, fun d' hd' => ?_⟩
    rw [List.mem_singleton.mp hd']
    exact hlt
  | blocked d rest t hd hid hbuf hunacked =>
    rw [hid]
    exact ⟨le_rfl, fun d' hd' => absurd hd' List.not_mem_nil,
      fun d' hd' => absurd hd' List.not_mem_nil⟩
  | stray t hid hbuf hunacked =>
    rw [hid]
    exact ⟨le_rfl, fun d' hd' => absurd hd' List.not_mem_nil,
      fun d' hd' => absurd hd' List.not_mem_nil⟩
  | acked seq ewma t hc hid hbuf hfind =>
    rw [hid, sentDatagrams_ackEvents, enqueuedDatagrams_ackEvents]
    refine ⟨le_rfl, fun d hd => ?_, fun d hd => absurd hd List.not_mem_nil⟩
    obtain ⟨k, d₀, hd₀, -, -, rfl, -⟩ := numRtx_rtxEntries hd
    exact (h.unacked_lt k d₀ hd₀).2

/-- What is fresh or unacked stays so in a step, unless it is erased or given up. -/
theorem kept_of_effect (heff : Effect enc enc' ses') {k : SeqNum}
    (hk : k ∈ enc.freshKeys ∨ enc.unacked.contains k) :
    k ∈ enc'.freshKeys ∨ enc'.unacked.contains k ∨ .erased k ∈ ses' ∨ giveUps ses' ≠ [] := by
  cases heff with
  | compressed inp ds hds hpairwise hid hbuf hunacked =>
    rcases afterGiveUp_cases enc inp.encodeTs with ⟨hgive, -, -⟩ | ⟨-, heq⟩
    · right; right; right
      rw [giveUps_compressEvents, if_pos hgive]
      exact List.cons_ne_nil _ _
    · rw [heq] at hbuf hunacked
      rcases hk with hk | hk
      · left
        unfold freshKeys
        rw [hbuf, List.filter_append, List.map_append]
        exact List.mem_append_left _ hk
      · right; left
        rwa [hunacked]
  | sentFresh d rest t hd h0 hnone hid hbuf hfind =>
    rw [freshKeys_cons_of_fresh hd h0 hbuf, List.mem_cons] at hk
    by_cases hkd : k = d.seqNum
    · -- the first transmission moves the key to `unacked_`
      right; left
      rw [OrderedMap.contains, hfind, if_pos hkd]
      rfl
    · rcases hk with (hk | hk) | hk
      · exact absurd hk hkd
      · exact Or.inl hk
      · right; left
        rwa [OrderedMap.contains, hfind, if_neg hkd]
  | sentRtx d rest t hd h0 hid hbuf hunacked =>
    rw [freshKeys_cons_of_rtx hd h0 hbuf, hunacked]
    exact hk.imp_right Or.inl
  | blocked d rest t hd hid hbuf hunacked =>
    rw [freshKeys_blocked hd hbuf, hunacked]
    exact hk.imp_right Or.inl
  | stray t hid hbuf hunacked =>
    unfold freshKeys at hk ⊢
    rw [hbuf, hunacked]
    exact hk.imp_right Or.inl
  | acked seq ewma t hc hid hbuf hfind =>
    rw [freshKeys_acked hbuf]
    rcases hk with hk | hk
    · exact Or.inl hk
    · right
      by_cases hseq : k = seq
      · right; left
        rw [hseq]
        simp [ackEvents]
      · left
        rwa [OrderedMap.contains, hfind, if_neg hseq, Option.isSome_map]

/-- What is packetized in a step is fresh afterwards. -/
theorem fresh_of_effect (heff : Effect enc enc' ses') {d : Datagram}
    (hd : d ∈ packetizedDatagrams ses') : d.seqNum ∈ enc'.freshKeys := by
  obtain ⟨hd, h0⟩ := List.mem_filter.mp hd
  cases heff with
  | compressed inp ds hds hpairwise hid hbuf hunacked =>
    rw [enqueuedDatagrams_compressEvents] at hd
    refine mem_freshKeys.mpr ⟨d, ?_, of_decide_eq_true h0, rfl⟩
    rw [hbuf]
    exact List.mem_append_right _ hd
  | sentFresh => exact absurd hd List.not_mem_nil
  | sentRtx => exact absurd hd List.not_mem_nil
  | blocked => exact absurd hd List.not_mem_nil
  | stray => exact absurd hd List.not_mem_nil
  | acked seq ewma t hc hid hbuf hfind =>
    rw [enqueuedDatagrams_ackEvents] at hd
    obtain ⟨k, d₀, -, -, -, -, hnum, -⟩ := numRtx_rtxEntries hd
    rw [of_decide_eq_true h0, UInt32.toNat_zero] at hnum
    omega

end Effects

/-! ## The invariant -/

/-- A key frame with a greater id was packetized. -/
def Superseded (ses : List SenderEvent) (d : Datagram) : Prop :=
  ∃ e ∈ packetizedDatagrams ses, e.frameType = .key ∧ d.frameId < e.frameId

/-- Nothing on the network is forged, the buffer of the receiver agrees with what it received,
an erased datagram was received, and every fragment is somewhere. -/
structure Kept (es : List Event) (s : System E) : Prop where
  ordered : Ordered (senderEvents es) s.encoder
  agrees : Receiver.Agrees (receivedDatagrams es) s.decoder
  queued_lt : ∀ d ∈ enqueuedDatagrams (senderEvents es), d.frameId < s.encoder.frameId
  sent : ∀ binary ∈ s.toReceiver, ∃ d, binary = Datagram.serializeToString d ∧
    d.frameId < s.encoder.frameId
  received_lt : ∀ d ∈ receivedDatagrams es, d.frameId < s.encoder.frameId
  acked : ∀ binary ∈ s.toSender, ∃ d ∈ receivedDatagrams es,
    binary = (AckMsg.ofDatagram d).serializeToString
  erased : ∀ k, .erased k ∈ senderEvents es → ∃ d ∈ receivedDatagrams es, d.seqNum = k
  somewhere : ∀ d ∈ packetizedDatagrams (senderEvents es),
    d.seqNum ∈ s.encoder.freshKeys ∨ s.encoder.unacked.contains d.seqNum ∨
      (∃ e ∈ receivedDatagrams es, e.seqNum = d.seqNum) ∨ Superseded (senderEvents es) d

theorem kept_initial (displayWidth displayHeight : UInt16) (hasOutput : Bool)
    (lazyLevel : LazyLevel) :
    Kept [] (initial displayWidth displayHeight hasOutput lazyLevel : System E) where
  ordered := ordered_initial _ _ _
  agrees := Receiver.agrees_initial lazyLevel
  queued_lt := fun _ hd => absurd hd List.not_mem_nil
  sent := fun _ hb => absurd hb List.not_mem_nil
  received_lt := fun _ hd => absurd hd List.not_mem_nil
  acked := fun _ hb => absurd hb List.not_mem_nil
  erased := fun _ hk => absurd hk List.not_mem_nil
  somewhere := fun _ hd => absurd hd List.not_mem_nil

/-- A compressed frame that is forced to be a key frame is packetized as one. -/
theorem exists_key_of_gaveUp {enc enc' : Encoder E} {maxPayload : ℕ} {inp : CompressInput}
    {ses : List SenderEvent} (hvpx : ReturnsOneFrame inp)
    (h : enc.compressFrame maxPayload inp = (.ok (), ses, enc')) (hgive : giveUps ses ≠ []) :
    ∃ e ∈ packetizedDatagrams ses, e.frameType = .key ∧ e.frameId = enc.frameId := by
  obtain ⟨pkts, ds, hpkts, hds, -, rfl⟩ := compressFrame_cases h
  have hgaveUp : enc.givesUp inp.encodeTs := by
    by_contra hnot
    rw [giveUps_compressEvents, if_neg hnot] at hgive
    exact hgive rfl
  obtain ⟨buf, isKey, hframes, -, hkey⟩ := hvpx _ _ hpkts
  rcases hds with ⟨hnone, -⟩ | ⟨buf', isKey', hframes', -, hfit, rfl⟩
  · rw [hframes] at hnone
    cases hnone
  rw [hframes, List.cons.injEq, Prod.mk.injEq] at hframes'
  obtain ⟨⟨rfl, rfl⟩, -⟩ := hframes'
  have hfrag := isFragmentation_packetize enc.frameId maxPayload buf isKey
  have hpos : 0 < (packetize enc.frameId maxPayload buf isKey).length := by
    rw [hfrag.length_eq, (toNat_fragCntOf hfit).1]
    exact (toNat_fragCntOf hfit).2
  obtain ⟨e, he⟩ := List.exists_mem_of_length_pos hpos
  have hheader := hfrag.header e he
  refine ⟨e, ?_, ?_, ?_⟩
  · unfold packetizedDatagrams
    rw [enqueuedDatagrams_compressEvents, List.mem_filter]
    exact ⟨he, by rw [hheader]; rfl⟩
  · rw [hheader, if_pos (hkey hgaveUp)]
  · rw [hheader]

/-- A round of the receiver keeps what the network carries, and adds to what was received. -/
theorem Kept.receive {es : List Event} {s : System E} (h : Kept es s) {binary : Bytes}
    {d : Datagram} {decoder decoder' : Decoder} {frames : List Frame} (hb : binary ∈ s.toReceiver)
    (hparse : Datagram.parseFromString {} binary = .ok (true, d))
    (hadd : s.decoder.addDatagram d = (.ok (), decoder))
    (hends : Receiver.DrainEnds decoder frames decoder') :
    Kept (es ++ [Event.received d]) { s with
      decoder := decoder'
      toSender := s.toSender ++ [(AckMsg.ofDatagram d).serializeToString] } := by
  have hses : senderEvents (es ++ [Event.received d]) = senderEvents es := by simp
  have hrcv : receivedDatagrams (es ++ [Event.received d]) = receivedDatagrams es ++ [d] := by simp
  have hlt : d.frameId < s.encoder.frameId := by
    obtain ⟨d', rfl, hlt⟩ := h.sent binary hb
    rw [Datagram.parseFromString_serializeToString, Except.ok.injEq, Prod.mk.injEq] at hparse
    rw [← hparse.2]
    exact hlt
  have hreceived : ∀ e ∈ receivedDatagrams es ++ [d], e.frameId < s.encoder.frameId := by
    intro e he
    rcases List.mem_append.mp he with hmem | hmem
    · exact h.received_lt e hmem
    · rw [List.mem_singleton.mp hmem]
      exact hlt
  have hids : ∀ e ∈ receivedDatagrams es ++ [d], e.frameId < maxUInt32 :=
    fun e he => lt_of_lt_of_le (hreceived e he) (le_maxUInt32 _)
  have hagrees := h.agrees.addDatagram hadd
  refine ⟨?_, ?_, ?_, h.sent, ?_, ?_, ?_, ?_⟩
  · rw [hses]
    exact h.ordered
  · rw [hrcv]
    exact hagrees.drained (hends.drained hagrees.inv (hagrees.not_isComplete_max hids))
  · rw [hses]
    exact h.queued_lt
  · rw [hrcv]
    exact hreceived
  · rw [hrcv]
    intro b hb'
    rcases List.mem_append.mp hb' with hmem | hmem
    · obtain ⟨e, he, heq⟩ := h.acked b hmem
      exact ⟨e, List.mem_append_left _ he, heq⟩
    · exact ⟨d, List.mem_append_right _ List.mem_cons_self, List.mem_singleton.mp hmem⟩
  · rw [hses, hrcv]
    intro k hk
    obtain ⟨e, he, hseq⟩ := h.erased k hk
    exact ⟨e, List.mem_append_left _ he, hseq⟩
  · rw [hses, hrcv]
    intro d' hd'
    refine (h.somewhere d' hd').imp_right (Or.imp_right (Or.imp_left ?_))
    rintro ⟨e, he, hseq⟩
    exact ⟨e, List.mem_append_left _ he, hseq⟩

/-- The receiver has the fragment of a received datagram, or is past its frame. -/
theorem Kept.receiverHas {es : List Event} {s : System E} (h : Kept es s) {d : Datagram}
    (hd : d ∈ receivedDatagrams es) :
    d.frameId < s.decoder.nextFrame ∨ ∃ frame, s.decoder.frameBuf.find? d.frameId = some frame ∧
      frame.hasFrag d.fragId = .ok true := by
  rcases lt_or_ge d.frameId s.decoder.nextFrame with hlt | hle
  · exact Or.inl hlt
  right
  have ht := h.agrees.tracksAt d.frameId hle
  cases hfind : s.decoder.frameBuf.find? d.frameId with
  | none =>
    rw [hfind] at ht
    exact absurd rfl (ht d hd)
  | some frame =>
    rw [hfind] at ht
    obtain ⟨e, he⟩ := ht.2.filled d hd rfl
    refine ⟨frame, rfl, ?_⟩
    unfold Frame.hasFrag
    rw [he]
    rfl

section Steps

variable [RttArith E] {es : List Event} {s : System E}

/-- A step of the sender keeps every fragment somewhere, if it erases only what was received,
and packetizes a key frame when it gives up. -/
theorem Kept.sends (h : Kept es s) {enc' : Encoder E} {ses' : List SenderEvent}
    (heff : Effect s.encoder enc' ses')
    (hcount : encodedCount (senderEvents es ++ ses') < 2 ^ 32)
    (herased : ∀ k, .erased k ∈ ses' → ∃ d ∈ receivedDatagrams es, d.seqNum = k)
    (hgive : giveUps ses' ≠ [] → ∃ e ∈ packetizedDatagrams ses', e.frameType = .key ∧
      e.frameId = s.encoder.frameId) :
    Kept (es ++ ses'.map .sender) (s.sends enc' ses') := by
  obtain ⟨hle, hqueued, hsent⟩ := frameId_lt_of_effect h.ordered heff hcount
  have hses : senderEvents (es ++ ses'.map .sender) = senderEvents es ++ ses' := by simp
  have hrcv : receivedDatagrams (es ++ ses'.map .sender) = receivedDatagrams es := by simp
  refine ⟨?_, ?_, ?_, ?_, ?_, ?_, ?_, ?_⟩
  · rw [hses]
    exact h.ordered.step heff hcount
  · rw [hrcv]
    exact h.agrees
  · rw [hses, enqueuedDatagrams_append]
    intro d hd
    rcases List.mem_append.mp hd with hmem | hmem
    · exact lt_of_lt_of_le (h.queued_lt d hmem) hle
    · exact hqueued d hmem
  · intro binary hb
    rcases List.mem_append.mp hb with hmem | hmem
    · obtain ⟨d, rfl, hlt⟩ := h.sent binary hmem
      exact ⟨d, rfl, lt_of_lt_of_le hlt hle⟩
    · obtain ⟨d, hd, rfl⟩ := List.mem_map.mp hmem
      exact ⟨d, rfl, hsent d hd⟩
  · rw [hrcv]
    exact fun d hd => lt_of_lt_of_le (h.received_lt d hd) hle
  · rw [hrcv]
    exact h.acked
  · rw [hses, hrcv]
    intro k hk
    rcases List.mem_append.mp hk with hmem | hmem
    · exact h.erased k hmem
    · exact herased k hmem
  · rw [hses, hrcv, packetizedDatagrams_append]
    have hsuper : ∀ d, Superseded (senderEvents es) d → Superseded (senderEvents es ++ ses') d := by
      rintro d ⟨e, he, htype, hlt⟩
      exact ⟨e, by rw [packetizedDatagrams_append]; exact List.mem_append_left _ he, htype, hlt⟩
    intro d hd
    rcases List.mem_append.mp hd with hmem | hmem
    · rw [← or_assoc]
      rcases or_assoc.mpr (h.somewhere d hmem) with hk | hreceived | hlater
      · rcases kept_of_effect heff hk with hfresh | hunacked | hack | hgaveUp
        · exact Or.inl (Or.inl hfresh)
        · exact Or.inl (Or.inr hunacked)
        · exact Or.inr (Or.inl (herased _ hack))
        · -- the frame that is packetized after a give-up supersedes all others
          obtain ⟨e, he, htype, hid⟩ := hgive hgaveUp
          refine Or.inr (Or.inr ⟨e, ?_, htype, ?_⟩)
          · rw [packetizedDatagrams_append]
            exact List.mem_append_right _ he
          · rw [hid]
            exact h.queued_lt d (List.mem_filter.mp hmem).1
      · exact Or.inr (Or.inl hreceived)
      · exact Or.inr (Or.inr (hsuper d hlater))
    · exact Or.inl (fresh_of_effect heff hmem)

/-- Every step keeps all fragments somewhere. -/
theorem Kept.step (h : Kept es s) {maxPayload : ℕ} {es' : List Event} {s' : System E}
    (hstep : Step maxPayload s es' s')
    (hcount : encodedCount (senderEvents (es ++ es')) < 2 ^ 32) : Kept (es ++ es') s' := by
  cases hstep with
  | compress hvpx hcompress =>
    rw [senderEvents_append, senderEvents_map_sender] at hcount
    refine h.sends (effect_compressFrame hcompress) hcount ?_
      (exists_key_of_gaveUp hvpx hcompress)
    intro k hk
    obtain ⟨pkts, ds, -, -, -, rfl⟩ := compressFrame_cases hcompress
    exact absurd hk (erased_notMem_compressEvents _ _ _ k)
  | send hbuf hsend =>
    rw [senderEvents_append, senderEvents_map_sender] at hcount
    refine h.sends (effect_sendFront hbuf hsend) hcount ?_ ?_
    · intro k hk
      rcases events_sendFront hsend with rfl | rfl
      · simp at hk
      · simp at hk
    · intro hgive
      rcases events_sendFront hsend with rfl | rfl
      · exact absurd rfl hgive
      · exact absurd rfl hgive
  | @ack encoder binary msg t ses hb hparse hack =>
    rw [senderEvents_append, senderEvents_map_sender] at hcount
    -- the acknowledgement is for a datagram that was received
    obtain ⟨d, hd, rfl⟩ := h.acked binary hb
    rw [Msg.parseFromString_ack, Except.ok.injEq, Option.some_inj,
      Msg.ack.injEq] at hparse
    obtain ⟨ses', enc', hack', -, hcases⟩ := handleAck_cases s.encoder msg t
    rw [hack, Except.ok.injEq, Prod.mk.injEq] at hack'
    obtain ⟨rfl, rfl⟩ := hack'
    refine h.sends (effect_handleAck hack) hcount ?_ ?_
    · intro k hk
      refine ⟨d, hd, ?_⟩
      rcases hcases with ⟨-, rfl, -⟩ | ⟨-, ewma, -, rfl, -⟩
      · simp at hk
      · have hseq : k = msg.seqNum := by simpa [ackEvents] using hk
        rw [hseq, ← hparse]
        rfl
    · intro hgive
      rcases hcases with ⟨-, rfl, -⟩ | ⟨-, ewma, -, rfl, -⟩
      · exact absurd rfl hgive
      · exact absurd (giveUps_ackEvents _ _ _) hgive
  | receive hb hparse hadd hends => exact h.receive hb hparse hadd hends

/-- Every run over fewer than `2 ^ 32` frames keeps all fragments somewhere. -/
theorem kept_of_steps {maxPayload : ℕ} {displayWidth displayHeight : UInt16} {hasOutput : Bool}
    {lazyLevel : LazyLevel}
    (h : Run.Steps (Step maxPayload) (initial displayWidth displayHeight hasOutput lazyLevel) es s)
    (hcount : encodedCount (senderEvents es) < 2 ^ 32) : Kept es s :=
  h.invariant_of_lt (fun es => encodedCount (senderEvents es)) Kept
    encodedCount_senderEvents_le_append
    (kept_initial displayWidth displayHeight hasOutput lazyLevel)
    (fun _ _ _ _ hG hI hstep => hI.step hstep hG) hcount

/-! ## No fragment is lost -/

/-- No fragment is silently lost.  In every run over fewer than `2 ^ 32` frames, every fragment
that was packetized is queued for its first transmission, or unacked, or the receiver has it or
is past its frame, or a key frame with a greater id was packetized.  What an acknowledgement
has erased was received. -/
theorem no_fragment_lost {maxPayload : ℕ} {displayWidth displayHeight : UInt16} {hasOutput : Bool}
    {lazyLevel : LazyLevel}
    (h : Run.Steps (Step maxPayload) (initial displayWidth displayHeight hasOutput lazyLevel) es s)
    (hcount : encodedCount (senderEvents es) < 2 ^ 32) :
    (∀ d ∈ packetizedDatagrams (senderEvents es),
      (∃ e ∈ s.encoder.sendBuf, e.numRtx = 0 ∧ e.seqNum = d.seqNum) ∨
      s.encoder.unacked.contains d.seqNum ∨
      (d.frameId < s.decoder.nextFrame ∨ ∃ frame, s.decoder.frameBuf.find? d.frameId = some frame ∧
        frame.hasFrag d.fragId = .ok true) ∨
      ∃ e ∈ packetizedDatagrams (senderEvents es), e.frameType = .key ∧ d.frameId < e.frameId) ∧
    ∀ k, .erased k ∈ senderEvents es → ∃ d ∈ receivedDatagrams es, d.seqNum = k := by
  have hkept := kept_of_steps h hcount
  refine ⟨fun d hd => ?_, hkept.erased⟩
  rcases hkept.somewhere d hd with hfresh | hunacked | ⟨e, he, hseq⟩ | hlater
  · exact Or.inl (mem_freshKeys.mp hfresh)
  · exact Or.inr (Or.inl hunacked)
  · have hhas := hkept.receiverHas he
    have hnumbers : (e.frameId, e.fragId) = (d.frameId, d.fragId) := hseq
    rw [Prod.mk.injEq] at hnumbers
    rw [hnumbers.1, hnumbers.2] at hhas
    exact Or.inr (Or.inr (Or.inl hhas))
  · exact Or.inr (Or.inr (Or.inr hlater))

theorem returnsOneFrame_smallFrame (t : UInt64) : ReturnsOneFrame (smallFrame t) := by
  intro force pkts hpkts
  have heq : pkts = [.frame [1, 2, 3] true] := (Except.ok.inj hpkts).symm
  exact ⟨[1, 2, 3], true, by rw [heq]; rfl, List.cons_ne_nil _ _, fun _ => rfl⟩

/-- A small frame is sent, received and acknowledged. -/
theorem no_fragment_lost_smallFrame : ∃ es s,
    Run.Steps (Step 2000) (initial 2 2 false .decodeOnly : System ℚ) es s ∧
      (receivedDatagrams es).length = 1 ∧ .erased (toLex (0, 0)) ∈ senderEvents es ∧
      ∃ d ∈ receivedDatagrams es, d.seqNum = toLex (0, 0) := by
  have h₁ : Step 2000 (initial 2 2 false .decodeOnly : System ℚ) _ _ :=
    Step.compress (returnsOneFrame_smallFrame 5) rfl
  have h₂ := (Run.Steps.single h₁).tail (@Step.send _ _ _ _ _ _ _ 10 .accepted _ _ rfl rfl)
  have h₃ := h₂.tail (Step.receive (List.mem_singleton_self _) rfl rfl
    (Loop.ends_of_again rfl (Loop.ends_of_leave rfl)))
  have h₄ := h₃.tail (@Step.ack _ _ _ _ _ _ _ 30 _ (List.mem_singleton_self _) rfl rfl)
  refine ⟨_, _, h₄, rfl, List.mem_of_getLast? rfl, ?_⟩
  exact (no_fragment_lost h₄ (by decide)).2 _ (List.mem_of_getLast? rfl)

end Steps

end Delivery

end Ringmaster
