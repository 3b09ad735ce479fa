/-
# A network that keeps the order

The two ends with a network between them that may lose what is given to it, but does not
duplicate or reorder.  Each direction is a queue: what was given to it first arrives first.

Over such a network the sender retransmits nothing needlessly (`retransmits_only_lost`): what it
queues again was lost on its way, or its acknowledgement was.
-/
import Ringmaster.InFlight

open Unsigned

namespace Ringmaster

open Packetization Encoder

namespace Delivery

namespace InOrder

/-! ## The composed system -/

/-- What an observer sees: an event of the sender, a fresh datagram that a give-up clears from
`send_buf_`, a datagram processed and a frame consumed by the receiver, and what the network
loses. -/
inductive Event where
  | sender (e : SenderEvent)
  | cleared (seq : SeqNum)
  | received (d : Datagram)
  | consumed (frameId : UInt32)
  | lostDatagram (seq : SeqNum)
  | lostAck (seq : SeqNum)
  deriving DecidableEq

variable {E : Type}

/-- The fresh datagrams that `encode_frame` clears from `send_buf_`. -/
def clearedKeys (enc : Encoder E) (inp : CompressInput) : List SeqNum :=
  if enc.givesUp inp.encodeTs then enc.freshKeys else []

/-- The steps of the system.  The lists of what is on the network are queues now, the oldest
message first. -/
inductive Step [RttArith E] (maxPayload : ℕ) : System E → List Event → System E → Prop
  /-- The frame timer fires, and a frame is compressed. -/
  | compress {s : System E} {encoder : Encoder E} {inp : CompressInput} {es : List SenderEvent} :
      ReturnsOneFrame inp → s.encoder.compressFrame maxPayload inp = (.ok (), es, encoder) →
      Step maxPayload s ((clearedKeys s.encoder inp).map .cleared ++ es.map .sender)
        (s.sends encoder es)
  /-- The socket is writable, and the datagram at the front is given to it. -/
  | send {s : System E} {encoder : Encoder E} {d : Datagram} {rest : List Datagram} {t : UInt64}
      {outcome : SendOutcome} {es : List SenderEvent} {more : Bool} :
      s.encoder.sendBuf = d :: rest →
      s.encoder.sendFront d rest t outcome = .ok (es, more, encoder) →
      Step maxPayload s (es.map .sender) (s.sends encoder es)
  /-- The oldest acknowledgement arrives at the sender. -/
  | ack {s : System E} {encoder : Encoder E} {binary : Bytes} {rest : List Bytes} {msg : AckMsg}
      {t : UInt64} {es : List SenderEvent} :
      s.toSender = binary :: rest → Msg.parseFromString binary = .ok (some (.ack msg)) →
      s.encoder.handleAck msg t = .ok (es, encoder) →
      Step maxPayload s (es.map .sender) { s.sends encoder es with toSender := rest }
  /-- The oldest datagram arrives at the receiver, which acknowledges it, adds it, and consumes
  the frames that are complete.  The states are those between the rounds of its main loop. -/
  | receive {s : System E} {binary : Bytes} {rest : List Bytes} {d : Datagram}
      {decoder decoder' : Decoder} {frames : List Frame} :
      s.toReceiver = binary :: rest → Datagram.parseFromString {} binary = .ok (true, d) →
      s.decoder.addDatagram d = (.ok (), decoder) → Receiver.DrainEnds decoder frames decoder' →
      Step maxPayload s (.received d :: frames.map fun frame => .consumed frame.id) { s with
        decoder := decoder'
        toReceiver := rest
        toSender := s.toSender ++ [(AckMsg.ofDatagram d).serializeToString] }
  /-- The network loses a datagram. -/
  | loseDatagram {s : System E} {front back : List Bytes} {binary : Bytes} {d : Datagram} :
      s.toReceiver = front ++ binary :: back →
      Datagram.parseFromString {} binary = .ok (true, d) →
      Step maxPayload s [.lostDatagram d.seqNum] { s with toReceiver := front ++ back }
  /-- The network loses an acknowledgement. -/
  | loseAck {s : System E} {front back : List Bytes} {binary : Bytes} {msg : AckMsg} :
      s.toSender = front ++ binary :: back → Msg.parseFromString binary = .ok (some (.ack msg)) →
      Step maxPayload s [.lostAck msg.seqNum] { s with toSender := front ++ back }

/-! ## Traces -/

/-- The events of the sender, in order. -/
def senderEvents (es : List Event) : List SenderEvent :=
  es.filterMap fun e => match e with
    | .sender e => some e
    | _ => none

/-- The keys that the network lost, on a datagram or on its acknowledgement. -/
def lostKeys (es : List Event) : List SeqNum :=
  es.filterMap fun e => match e with
    | .lostDatagram seq => some seq
    | .lostAck seq => some seq
    | _ => none

/-- The key of a datagram on the network. -/
def datagramKey (binary : Bytes) : Option SeqNum :=
  match Datagram.parseFromString {} binary with
  | .ok (true, d) => some d.seqNum
  | _ => none

/-- The key of an acknowledgement on the network. -/
def ackKey (binary : Bytes) : Option SeqNum :=
  match Msg.parseFromString binary with
  | .ok (some (.ack msg)) => some msg.seqNum
  | _ => none

/-- The keys of the datagrams that are in flight. -/
def dataFlight (s : System E) : List SeqNum := s.toReceiver.filterMap datagramKey

/-- The keys in flight, from the acknowledgement that is about to arrive to the datagram that
was sent last. -/
def inFlight (s : System E) : List SeqNum := s.toSender.filterMap ackKey ++ dataFlight s

section Traces

variable (es es' : List Event) (ses : List SenderEvent)

@[simp] theorem senderEvents_append :
    senderEvents (es ++ es') = senderEvents es ++ senderEvents es' :=
  List.filterMap_append

@[simp] theorem lostKeys_append : lostKeys (es ++ es') = lostKeys es ++ lostKeys es' :=
  List.filterMap_append

theorem encodedCount_senderEvents_le_append :
    encodedCount (senderEvents es) ≤ encodedCount (senderEvents (es ++ es')) := by
  rw [senderEvents_append]
  exact encodedCount_le_append _ _

@[simp] theorem senderEvents_map_sender : senderEvents (ses.map .sender) = ses := by
  unfold senderEvents
  rw [List.filterMap_map]
  exact List.filterMap_some

@[simp] theorem lostKeys_map_sender : lostKeys (ses.map .sender) = [] := by
  simp [lostKeys]

@[simp] theorem senderEvents_map_cleared (ks : List SeqNum) :
    senderEvents (ks.map .cleared) = [] := by
  simp [senderEvents]

@[simp] theorem lostKeys_map_cleared (ks : List SeqNum) : lostKeys (ks.map .cleared) = [] := by
  simp [lostKeys]

@[simp] theorem senderEvents_received (d : Datagram) (frames : List Frame) :
    senderEvents (.received d :: frames.map fun frame => .consumed frame.id) = [] := by
  simp [senderEvents]

@[simp] theorem lostKeys_received (d : Datagram) (frames : List Frame) :
    lostKeys (.received d :: frames.map fun frame => .consumed frame.id) = [] := by
  simp [lostKeys]

theorem datagramKey_of_parse {binary : Bytes} {d : Datagram}
    (h : Datagram.parseFromString {} binary = .ok (true, d)) :
    datagramKey binary = some d.seqNum := by
  unfold datagramKey
  rw [h]

theorem ackKey_of_parse {binary : Bytes} {msg : AckMsg}
    (h : Msg.parseFromString binary = .ok (some (.ack msg))) : ackKey binary = some msg.seqNum := by
  unfold ackKey
  rw [h]

@[simp] theorem datagramKey_serializeToString (d : Datagram) :
    datagramKey d.serializeToString = some d.seqNum := by
  unfold datagramKey
  rw [Datagram.parseFromString_serializeToString]
  rfl

@[simp] theorem ackKey_ofDatagram (d : Datagram) :
    ackKey (AckMsg.ofDatagram d).serializeToString = some d.seqNum :=
  ackKey_of_parse (Msg.parseFromString_ack _)

end Traces

variable {es : List Event} {s : System E}

/-- The datagrams in flight after a step of the sender. -/
theorem dataFlight_sends (encoder : Encoder E) (ses : List SenderEvent) :
    dataFlight (s.sends encoder ses) = dataFlight s ++ sentKeys ses := by
  have hsent : ((sentDatagrams ses).map Datagram.serializeToString).filterMap datagramKey
      = sentKeys ses := by
    rw [List.filterMap_map]
    have hcomp : datagramKey ∘ Datagram.serializeToString = some ∘ Datagram.seqNum :=
      funext datagramKey_serializeToString
    rw [hcomp, List.filterMap_eq_map]
    rfl
  unfold dataFlight
  show (s.toReceiver ++ _).filterMap datagramKey = _
  rw [List.filterMap_append, hsent]

theorem inFlight_sends (encoder : Encoder E) (ses : List SenderEvent) :
    inFlight (s.sends encoder ses) = inFlight s ++ sentKeys ses := by
  unfold inFlight
  rw [dataFlight_sends, ← List.append_assoc]
  rfl

/-- A datagram that arrives turns into its acknowledgement, at the same place. -/
theorem inFlight_receive {binary : Bytes} {rest : List Bytes} {d : Datagram} {decoder : Decoder}
    (hb : s.toReceiver = binary :: rest)
    (hparse : Datagram.parseFromString {} binary = .ok (true, d)) :
    inFlight { s with
      decoder := decoder
      toReceiver := rest
      toSender := s.toSender ++ [(AckMsg.ofDatagram d).serializeToString] } = inFlight s := by
  unfold inFlight dataFlight
  rw [hb, List.filterMap_cons_some (datagramKey_of_parse hparse), List.filterMap_append,
    List.filterMap_cons_some (ackKey_ofDatagram d), List.filterMap_nil, List.append_assoc]
  rfl

/-! ## Runs -/

/-- The sender is in order, with what is in flight and what was lost so far. -/
structure Kept (es : List Event) (s : System E) : Prop where
  ordered : Ordered (senderEvents es) s.encoder
  orderly : Orderly (lostKeys es) (inFlight s) (senderEvents es) s.encoder

theorem kept_initial (displayWidth displayHeight : UInt16) (hasOutput : Bool)
    (lazyLevel : LazyLevel) :
    Kept [] (initial displayWidth displayHeight hasOutput lazyLevel : System E) where
  ordered := ordered_initial displayWidth displayHeight hasOutput
  orderly := orderly_initial displayWidth displayHeight hasOutput

variable [RttArith E]

/-- A step of the sender that handles no acknowledgement. -/
theorem Kept.sends (h : Kept es s) {encoder : Encoder E} {es' : List Event}
    {ses : List SenderEvent} (heff : Effect s.encoder encoder ses)
    (hcount : encodedCount (senderEvents es ++ ses) < 2 ^ 32)
    (herased : ∀ seq, .erased seq ∉ ses) (hses : senderEvents es' = ses)
    (hlost : lostKeys es' = []) :
    Kept (es ++ es') (s.sends encoder ses) := by
  refine ⟨?_, ?_⟩
  · rw [senderEvents_append, hses]
    exact h.ordered.step heff hcount
  · rw [senderEvents_append, lostKeys_append, hses, hlost, List.append_nil, inFlight_sends]
    exact h.orderly.effect h.ordered heff hcount fun seq hmem => absurd hmem (herased seq)

/-- Every step keeps the sender in order. -/
theorem Kept.step (h : Kept es s) {maxPayload : ℕ} {es' : List Event} {s' : System E}
    (hstep : Step maxPayload s es' s')
    (hcount : encodedCount (senderEvents (es ++ es')) < 2 ^ 32) : Kept (es ++ es') s' := by
  cases hstep with
  | @compress encoder inp ses _ hcompress =>
    have hses : senderEvents ((clearedKeys s.encoder inp).map .cleared ++ ses.map .sender) = ses :=
      by simp
    rw [senderEvents_append, hses] at hcount
    refine h.sends (effect_compressFrame hcompress) hcount ?_ hses (by simp)
    intro seq hmem
    obtain ⟨pkts, ds, -, -, -, rfl⟩ := compressFrame_cases hcompress
    exact erased_notMem_compressEvents _ _ _ seq hmem
  | send hbuf hsend =>
    rw [senderEvents_append, senderEvents_map_sender] at hcount
    refine h.sends (effect_sendFront hbuf hsend) hcount ?_ (by simp) (by simp)
    intro seq hmem
    rcases events_sendFront hsend with rfl | rfl
    · simp at hmem
    · simp at hmem
  | @ack encoder binary rest msg t ses hb hparse hack =>
    rw [senderEvents_append, senderEvents_map_sender] at hcount
    have hnone : sentKeys ses = [] := by
      obtain ⟨ses', enc', hack', -, hcases⟩ := handleAck_cases s.encoder msg t
      rw [hack, Except.ok.injEq, Prod.mk.injEq] at hack'
      obtain ⟨rfl, rfl⟩ := hack'
      unfold sentKeys
      rcases hcases with ⟨-, rfl, -⟩ | ⟨-, ewma, -, rfl, -⟩
      · rfl
      · rw [sentDatagrams_ackEvents]
        rfl
    have hbefore : inFlight s = msg.seqNum :: (rest.filterMap ackKey ++ dataFlight s) := by
      unfold inFlight
      rw [hb, List.filterMap_cons_some (ackKey_of_parse hparse), List.cons_append]
    have hafter : inFlight { s.sends encoder ses with toSender := rest }
        = rest.filterMap ackKey ++ dataFlight s := by
      show rest.filterMap ackKey ++ dataFlight (s.sends encoder ses) = _
      rw [dataFlight_sends, hnone, List.append_nil]
    refine ⟨?_, ?_⟩
    · rw [senderEvents_append, senderEvents_map_sender]
      exact h.ordered.step (effect_handleAck hack) hcount
    · rw [senderEvents_append, senderEvents_map_sender, lostKeys_append, lostKeys_map_sender,
        List.append_nil, hafter]
      have horderly := h.orderly
      rw [hbefore] at horderly
      exact horderly.handleAck h.ordered hack hcount
  | receive hb hparse hadd hends =>
    refine ⟨?_, ?_⟩
    · rw [senderEvents_append, senderEvents_received, List.append_nil]
      exact h.ordered
    · rw [senderEvents_append, senderEvents_received, lostKeys_append, lostKeys_received,
        List.append_nil, List.append_nil, inFlight_receive hb hparse]
      exact h.orderly
  | @loseDatagram front back binary d hb hparse =>
    have hbefore : inFlight s = (s.toSender.filterMap ackKey ++ front.filterMap datagramKey) ++
        d.seqNum :: back.filterMap datagramKey := by
      unfold inFlight dataFlight
      rw [hb, List.filterMap_append, List.filterMap_cons_some (datagramKey_of_parse hparse),
        List.append_assoc]
    have hafter : inFlight { s with toReceiver := front ++ back } = (s.toSender.filterMap ackKey ++
        front.filterMap datagramKey) ++ back.filterMap datagramKey := by
      unfold inFlight dataFlight
      rw [List.filterMap_append, List.append_assoc]
    have hses : senderEvents (es ++ [Event.lostDatagram d.seqNum]) = senderEvents es := by
      simp [senderEvents]
    have horderly := h.orderly
    rw [hbefore] at horderly
    refine ⟨hses ▸ h.ordered, ?_⟩
    rw [hses, lostKeys_append, hafter]
    exact horderly.loses
  | @loseAck front back binary msg hb hparse =>
    have hbefore : inFlight s = front.filterMap ackKey ++
        msg.seqNum :: (back.filterMap ackKey ++ dataFlight s) := by
      unfold inFlight
      rw [hb, List.filterMap_append, List.filterMap_cons_some (ackKey_of_parse hparse),
        List.append_assoc, List.cons_append]
    have hafter : inFlight { s with toSender := front ++ back } = front.filterMap ackKey ++
        (back.filterMap ackKey ++ dataFlight s) := by
      unfold inFlight
      rw [List.filterMap_append, List.append_assoc]
      rfl
    have hses : senderEvents (es ++ [Event.lostAck msg.seqNum]) = senderEvents es := by
      simp [senderEvents]
    have horderly := h.orderly
    rw [hbefore] at horderly
    refine ⟨hses ▸ h.ordered, ?_⟩
    rw [hses, lostKeys_append, hafter]
    exact horderly.loses

/-- Every run over fewer than `2 ^ 32` frames keeps the sender in order. -/
theorem kept_of_steps {maxPayload : ℕ} {displayWidth displayHeight : UInt16} {hasOutput : Bool}
    {lazyLevel : LazyLevel}
    (h : Run.Steps (Step maxPayload) (initial displayWidth displayHeight hasOutput lazyLevel) es s)
    (hcount : encodedCount (senderEvents es) < 2 ^ 32) : Kept es s :=
  h.invariant_of_lt (fun es => encodedCount (senderEvents es)) Kept
    encodedCount_senderEvents_le_append
    (kept_initial displayWidth displayHeight hasOutput lazyLevel)
    (fun _ _ _ _ hG hI hstep => hI.step hstep hG) hcount

/-- Over a network that keeps the order, the sender retransmits nothing needlessly.  In every
run over fewer than `2 ^ 32` frames, however many messages are lost and whatever the clock and
the RTT estimate say: a datagram is queued again only if one of its copies or one of its
acknowledgements was lost before. -/
theorem retransmits_only_lost {maxPayload : ℕ} {displayWidth displayHeight : UInt16}
    {hasOutput : Bool} {lazyLevel : LazyLevel}
    (h : Run.Steps (Step maxPayload) (initial displayWidth displayHeight hasOutput lazyLevel) es s)
    (hcount : encodedCount (senderEvents es) < 2 ^ 32) :
    ∀ d ∈ enqueuedDatagrams (senderEvents es), d.numRtx ≠ 0 → d.seqNum ∈ lostKeys es :=
  (kept_of_steps h hcount).orderly.queued_lost

/-- Two frames are sent, and the datagram of the first one is lost.  The acknowledgement of the
second frame queues the first one again. -/
theorem retransmits_only_lost_second : ∃ es s,
    Run.Steps (Step 2000) (initial 2 2 false .decodeOnly : System ℚ) es s ∧
      (∃ d ∈ enqueuedDatagrams (senderEvents es), d.numRtx ≠ 0 ∧ d.seqNum = toLex (0, 0)) ∧
      toLex (0, 0) ∈ lostKeys es := by
  have h₁ : Step 2000 (initial 2 2 false .decodeOnly : System ℚ) _ _ :=
    Step.compress (returnsOneFrame_smallFrame 5) rfl
  have h₂ := (Run.Steps.single h₁).tail (@Step.send _ _ _ _ _ _ _ 10 .accepted _ _ rfl rfl)
  have h₃ := h₂.tail (Step.compress (returnsOneFrame_smallFrame 15) rfl)
  have h₄ := h₃.tail (@Step.send _ _ _ _ _ _ _ 20 .accepted _ _ rfl rfl)
  have h₅ := h₄.tail (@Step.loseDatagram _ _ _ _ [] _ _ _ rfl rfl)
  have h₆ := h₅.tail (Step.receive rfl rfl rfl
    (Loop.ends_of_again rfl (Loop.ends_of_leave rfl)))
  have h₇ := h₆.tail (@Step.ack _ _ _ _ _ _ _ _ 40 _ rfl rfl rfl)
  have hmem : ∀ d, d ∈ enqueuedDatagrams (senderEvents _) → d.numRtx ≠ 0 → _ :=
    retransmits_only_lost h₇ (by decide)
  refine ⟨_, _, h₇, ?_, ?_⟩
  · exact ⟨_, List.mem_of_getLast? rfl, by decide, rfl⟩
  · exact hmem _ (List.mem_of_getLast? rfl) (by decide)

end InOrder

end Delivery

end Ringmaster
