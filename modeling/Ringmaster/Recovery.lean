/-
# Recovery from whatever the network did

The network of `Delivery.lean` may lose every message for as long as it likes.  Here it begins to
deliver: in a round, the sender sends the datagram at the front of its queue, the receiver
receives it and acknowledges it, and the sender receives the acknowledgement (`Round`).

However the run began, one frame is enough for the receiver to catch up (`recovers`): the first
one that the sender compresses with nothing unacked, or after it gave up on what is.  Each datagram
in the queue takes one round, no round is prevented by an exception, and nothing is retransmitted
on the way.
-/
import Ringmaster.Coherence

open Unsigned

namespace Ringmaster

open Packetization Encoder

namespace Delivery

variable {E : Type} {maxPayload : ℕ} {lazyLevel : LazyLevel} {frames : List (Bytes × Bool)}
  {es es' : List Event} {s s' : System E}

/-! ## A sender with nothing unacked -/

/-- Nothing is unacked. -/
def Settled (enc : Encoder E) : Prop := ∀ k, enc.unacked.find? k = none

theorem settled_iff {enc : Encoder E} : Settled enc ↔ enc.unacked.entries = [] := by
  constructor
  · intro h
    rw [List.eq_nil_iff_forall_not_mem]
    exact fun e he => OrderedMap.find?_eq_none_iff.mp (h e.1) e he rfl
  · intro h k
    rw [OrderedMap.find?_eq_none_iff, h]
    exact fun e he => absurd he List.not_mem_nil

/-- A give-up leaves nothing unacked, and so does a frame that is compressed after it. -/
theorem settled_compressFrame {enc enc' : Encoder E} {inp : CompressInput}
    {ses : List SenderEvent} (h : enc.compressFrame maxPayload inp = (.ok (), ses, enc'))
    (hgive : enc.unacked.entries = [] ∨ enc.givesUp inp.encodeTs) : Settled enc' := by
  obtain ⟨pkts, ds, -, -, rfl, -⟩ := compressFrame_cases h
  rcases afterGiveUp_cases enc inp.encodeTs with ⟨-, -, hempty⟩ | ⟨hnot, heq⟩
  · show ∀ k, (enc.afterGiveUp inp.encodeTs).unacked.find? k = none
    intro k
    rw [hempty]
    exact OrderedMap.find?_empty k
  · show Settled (enc.afterGiveUp inp.encodeTs)
    rw [heq, settled_iff]
    exact hgive.resolve_right (by simp [hnot])

/-- What sending a datagram does: all that may become unacked is this datagram. -/
theorem sendFront_accepted {enc enc' : Encoder E} {d : Datagram} {rest : List Datagram}
    {t : UInt64} {ses : List SenderEvent} {more : Bool}
    (h : enc.sendFront d rest t .accepted = .ok (ses, more, enc')) :
    ses = [.clock t, .sent { d with sendTs := t }] ∧ enc'.frameId = enc.frameId ∧
      enc'.sendBuf = rest ∧ ∀ k, k ≠ d.seqNum → enc'.unacked.find? k = enc.unacked.find? k := by
  unfold sendFront at h
  dsimp only at h
  split_ifs at h with h0
  · cases hadd : enc.addUnacked { d with sendTs := t } with
    | error e => simp [hadd] at h
    | ok enc₁ =>
      simp only [hadd, Except.ok.injEq, Prod.mk.injEq] at h
      obtain ⟨rfl, -, rfl⟩ := h
      obtain ⟨hnone, rfl⟩ := addUnacked_eq_ok_iff.mp hadd
      exact ⟨rfl, rfl, rfl, fun k hk => (OrderedMap.find?_emplace hnone k).trans (if_neg hk)⟩
  · simp only [Except.ok.injEq, Prod.mk.injEq] at h
    obtain ⟨rfl, -, rfl⟩ := h
    exact ⟨rfl, rfl, rfl, fun k _ => rfl⟩

variable [RttArith E]

/-- The acknowledgement of the only datagram that may be unacked settles the sender.  Nothing is
retransmitted, as no other datagram was sent before it. -/
theorem settled_handleAck {enc enc' : Encoder E} {msg : AckMsg} {t : UInt64}
    {ses : List SenderEvent} (h : ∀ k, k ≠ msg.seqNum → enc.unacked.find? k = none)
    (hack : enc.handleAck msg t = .ok (ses, enc')) :
    Settled enc' ∧ enc'.frameId = enc.frameId ∧ enc'.sendBuf = enc.sendBuf ∧
      encodedCount ses = 0 ∧ enqueuedDatagrams ses = [] := by
  obtain ⟨ses₁, enc₁, hack₁, hid, hcases⟩ := handleAck_cases enc msg t
  rw [hack, Except.ok.injEq, Prod.mk.injEq] at hack₁
  obtain ⟨rfl, rfl⟩ := hack₁
  rcases hcases with ⟨hnone, rfl, hbuf, hunacked⟩ | ⟨-, ewma, -, rfl, hbuf, hfind⟩
  · refine ⟨fun k => ?_, hid, hbuf, rfl, rfl⟩
    rw [hunacked]
    by_cases hk : k = msg.seqNum
    · rw [hk, hnone]
    · exact h k hk
  · have hrtx : enc.rtxEntries msg.seqNum ewma t = [] := by
      rw [List.eq_nil_iff_forall_not_mem]
      rintro ⟨k, d⟩ he
      obtain ⟨d₀, hd₀, hlt, -, -⟩ := mem_rtxEntries.mp he
      rw [h k (ne_of_lt hlt)] at hd₀
      simp at hd₀
    rw [hrtx] at hbuf ⊢
    refine ⟨fun k => ?_, hid, hbuf, encodedCount_ackEvents _ _ _, enqueuedDatagrams_ackEvents _ _ _⟩
    rw [hfind]
    split_ifs with hk
    · rfl
    · rw [h k hk, Option.map_none]

/-! ## Rounds -/

/-- A round, with the clock of the sender at `t` when it sends, and at `t'` when it receives the
acknowledgement. -/
inductive Round (maxPayload : ℕ) (t t' : UInt64) (s : System E) : List Event → System E → Prop
  | mk {d d' : Datagram} {rest : List Datagram} {encoder encoder' : Encoder E}
      {ses ses' : List SenderEvent} {more : Bool} {decoder decoder' : Decoder}
      {gs : List Frame} :
      s.encoder.sendBuf = d :: rest →
      s.encoder.sendFront d rest t .accepted = .ok (ses, more, encoder) →
      Datagram.parseFromString {} (Datagram.serializeToString { d with sendTs := t })
        = .ok (true, d') →
      s.decoder.addDatagram d' = (.ok (), decoder) →
      Receiver.DrainEnds decoder gs decoder' →
      encoder.handleAck (AckMsg.ofDatagram d') t' = .ok (ses', encoder') →
      Round maxPayload t t' s (ses.map .sender ++ [.received d'] ++ ses'.map .sender)
        (({ s.sends encoder ses with
          decoder := decoder'
          toSender := s.toSender ++ [(AckMsg.ofDatagram d').serializeToString] } :
          System E).sends encoder' ses')

/-- The datagram that a round transmits is received with its numbers. -/
theorem seqNum_of_parse {d d' : Datagram}
    (h : Datagram.parseFromString {} d.serializeToString = .ok (true, d')) :
    (AckMsg.ofDatagram d').seqNum = d.seqNum := by
  rw [Datagram.parseFromString_serializeToString, Except.ok.injEq, Prod.mk.injEq] at h
  rw [← h.2]
  rfl

/-- A round is three steps of the system. -/
theorem Round.steps {t t' : UInt64} (h : Round maxPayload t t' s es s') :
    Run.Steps (Step maxPayload) s es s' := by
  cases h with
  | @mk d d' rest encoder encoder' ses ses' more decoder decoder' gs hbuf hsend hparse hadd hends
      hack =>
    have h₁ : Step maxPayload s (ses.map .sender) (s.sends encoder ses) := Step.send hbuf hsend
    have hsent : Datagram.serializeToString { d with sendTs := t }
        ∈ (s.sends encoder ses).toReceiver := by
      rw [(sendFront_accepted hsend).1]
      exact List.mem_append_right _ (List.mem_singleton_self _)
    have h₂ := (Run.Steps.single h₁).tail (Step.receive hsent hparse hadd hends)
    exact h₂.tail (Step.ack (List.mem_append_right _ (List.mem_singleton_self _))
      (Msg.parseFromString_ack _) hack)

/-- What a round leaves of the queue. -/
theorem Round.settled {t t' : UInt64} (h : Round maxPayload t t' s es s')
    (hsettled : Settled s.encoder) :
    Settled s'.encoder ∧ s'.encoder.frameId = s.encoder.frameId ∧
      s'.encoder.sendBuf.length + 1 = s.encoder.sendBuf.length ∧
      encodedCount (senderEvents es) = 0 ∧ enqueuedDatagrams (senderEvents es) = [] ∧
      (receivedDatagrams es).length = 1 := by
  cases h with
  | @mk d d' rest encoder encoder' ses ses' more decoder decoder' gs hbuf hsend hparse hadd hends
      hack =>
    obtain ⟨hses, hid, hrest, hother⟩ := sendFront_accepted hsend
    have hsole : ∀ k, k ≠ (AckMsg.ofDatagram d').seqNum → encoder.unacked.find? k = none := by
      intro k hk
      rw [seqNum_of_parse hparse] at hk
      rw [hother k hk]
      exact hsettled k
    obtain ⟨hsettled', hid', hrest', hcount, hnone⟩ := settled_handleAck hsole hack
    have hevents : senderEvents (ses.map .sender ++ [.received d'] ++ ses'.map .sender)
        = ses ++ ses' := by
      simp only [senderEvents_append, senderEvents_map_sender, senderEvents_received,
        List.append_nil]
    have hone : receivedDatagrams (ses.map .sender ++ [.received d'] ++ ses'.map .sender)
        = [d'] := by
      simp only [receivedDatagrams_append, receivedDatagrams_map_sender, receivedDatagrams_received,
        List.append_nil, List.nil_append]
    refine ⟨hsettled', hid'.trans hid, ?_, ?_, ?_, by rw [hone]; rfl⟩
    · show encoder'.sendBuf.length + 1 = _
      rw [hrest', hrest, hbuf, List.length_cons]
    · rw [hevents, encodedCount_append, hcount, hses]
      rfl
    · rw [hevents, enqueuedDatagrams_append, hnone, hses]
      rfl

/-- As long as something is in the queue, there is a next round, whatever the clock shows. -/
theorem Coherent.exists_round (h : Coherent maxPayload lazyLevel frames es s)
    (hlen : frames.length < 2 ^ 32 - 1) (hbuf : s.encoder.sendBuf ≠ []) (t t' : UInt64) :
    ∃ es' s', Round maxPayload t t' s es' s' := by
  obtain ⟨d, rest, hbuf⟩ := List.exists_cons_of_ne_nil hbuf
  have hraised : ∀ e, SendOutcome.accepted ≠ .raised e := fun e => by simp
  obtain ⟨ses, more, encoder, hsend⟩ := exists_sendFront h.kept.ordered hbuf t hraised
  have hses := (sendFront_accepted hsend).1
  have hcount : encodedCount (senderEvents (es ++ ses.map .sender)) = frames.length := by
    rw [senderEvents_append, senderEvents_map_sender, encodedCount_append, h.count, hses]
    rfl
  obtain ⟨frames', h₁⟩ := h.step (Step.send hbuf hsend) (by omega)
  have hlen' : (frames ++ frames').length < 2 ^ 32 - 1 := by
    rw [← h₁.count, hcount]
    exact hlen
  have hsent : Datagram.serializeToString { d with sendTs := t }
      ∈ (s.sends encoder ses).toReceiver := by
    rw [hses]
    exact List.mem_append_right _ (List.mem_singleton_self _)
  obtain ⟨d', decoder, gs, decoder', hparse, hadd, hends⟩ := h₁.exists_receive hlen' hsent
  obtain ⟨ses', encoder', hack, -⟩ := handleAck_cases encoder (AckMsg.ofDatagram d') t'
  exact ⟨_, _, Round.mk hbuf hsend hparse hadd hends hack⟩

/-- What holds after some rounds: they emptied the queue by as much, and left the sender settled. -/
theorem settled_of_rounds (hsettled : Settled s.encoder)
    (h : Run.Steps (fun s es s' => ∃ t t', Round maxPayload t t' s es s') s es s') :
    Settled s'.encoder ∧ s'.encoder.frameId = s.encoder.frameId ∧
      s'.encoder.sendBuf.length + (receivedDatagrams es).length = s.encoder.sendBuf.length ∧
      encodedCount (senderEvents es) = 0 ∧ enqueuedDatagrams (senderEvents es) = [] ∧
      Run.Steps (Step maxPayload) s es s' := by
  refine h.invariant (fun es s' => Settled s'.encoder ∧ s'.encoder.frameId = s.encoder.frameId ∧
      s'.encoder.sendBuf.length + (receivedDatagrams es).length = s.encoder.sendBuf.length ∧
      encodedCount (senderEvents es) = 0 ∧ enqueuedDatagrams (senderEvents es) = [] ∧
      Run.Steps (Step maxPayload) s es s')
    ⟨hsettled, rfl, rfl, rfl, rfl, Run.Steps.refl s⟩ ?_
  rintro es s₁ es' s₂ ⟨hsettled₁, hid, hbuf, hcount, hnone, hrun⟩ ⟨t, t', hround⟩
  obtain ⟨hsettled₂, hid', hbuf', hcount', hnone', hone⟩ := hround.settled hsettled₁
  refine ⟨hsettled₂, hid'.trans hid, ?_, ?_, ?_, hrun.trans hround.steps⟩
  · rw [receivedDatagrams_append, List.length_append]
    omega
  · rw [senderEvents_append, encodedCount_append, hcount, hcount']
  · rw [senderEvents_append, enqueuedDatagrams_append, hnone, hnone', List.append_nil]

/-! ## Recovery -/

/-- However the network behaved, one frame is enough to recover.  In every run over fewer than
`2 ^ 32 - 1` frames, when a frame is compressed with nothing unacked or after a give-up, and from
then on there are only rounds, with any clock readings: there is a next round until the queue is
empty, each takes one datagram from it, none queues a retransmission, and when it is empty the
receiver waits for the frame after the compressed one, with nothing in its buffer. -/
theorem recovers {displayWidth displayHeight : UInt16} {hasOutput : Bool}
    (h : Run.Steps (Step maxPayload) (initial displayWidth displayHeight hasOutput lazyLevel) es s)
    {inp : CompressInput} {ses : List SenderEvent} {encoder : Encoder E}
    (hvpx : ReturnsOneFrame inp)
    (hcompress : s.encoder.compressFrame maxPayload inp = (.ok (), ses, encoder))
    (hcount : encodedCount (senderEvents es) + 1 < 2 ^ 32 - 1)
    (hgive : s.encoder.unacked.entries = [] ∨ s.encoder.givesUp inp.encodeTs)
    (hrounds : Run.Steps (fun s es s' => ∃ t t', Round maxPayload t t' s es s')
      (s.sends encoder ses) es' s') :
    s'.encoder.sendBuf.length + (receivedDatagrams es').length = encoder.sendBuf.length ∧
      enqueuedDatagrams (senderEvents es') = [] ∧
      (s'.encoder.sendBuf ≠ [] → ∀ t t', ∃ es'' s'', Round maxPayload t t' s' es'' s'') ∧
      (s'.encoder.sendBuf = [] → s'.decoder.nextFrame = s.encoder.frameId + 1 ∧
        ∀ k, s'.decoder.frameBuf.find? k = none) := by
  obtain ⟨hsettled, hid, hbuf, hnone, hquiet, hrun⟩ :=
    settled_of_rounds (settled_compressFrame hcompress hgive) hrounds
  have hwhole := (h.tail (Step.compress hvpx hcompress)).trans hrun
  have hcount' : encodedCount (senderEvents (es ++ ses.map .sender ++ es'))
      = encodedCount (senderEvents es) + 1 := by
    rw [senderEvents_append, senderEvents_append, encodedCount_append, encodedCount_append,
      senderEvents_map_sender, encodedCount_compressFrame hcompress, hnone]
  obtain ⟨frames, hcoherent⟩ := coherent_of_steps hwhole (by omega)
  have hlen : frames.length < 2 ^ 32 - 1 := by
    rw [← hcoherent.count, hcount']
    exact hcount
  refine ⟨hbuf, hquiet, fun hne t t' => hcoherent.exists_round hlen hne t t', ?_⟩
  intro hempty
  have hfresh : s'.encoder.freshKeys = [] := by
    unfold freshKeys
    rw [hempty]
    rfl
  obtain ⟨hnext, hnothing⟩ := hcoherent.caughtUp hlen ⟨hfresh, settled_iff.mp hsettled⟩
  obtain ⟨pkts, ds, -, -, rfl, -⟩ := compressFrame_cases hcompress
  refine ⟨?_, hnothing⟩
  rw [hnext, hid]
  rfl

/-- The only datagram of the first frame is lost.  After a give-up the second frame, a key frame,
is transmitted in one round. -/
theorem rounds_gaveUp : ∃ (es es' : List Event) (s s' : System ℚ) (ses : List SenderEvent)
    (encoder : Encoder ℚ), Run.Steps (Step 2000) (initial 2 2 false .decodeOnly) es s ∧
      s.encoder.compressFrame 2000 (smallFrame 2000000) = (.ok (), ses, encoder) ∧
      Run.Steps (fun s es s' => ∃ t t', Round 2000 t t' s es s') (s.sends encoder ses) es' s' ∧
      encodedCount (senderEvents es) = 1 ∧ s.encoder.givesUp (smallFrame 2000000).encodeTs ∧
      s.encoder.frameId = 1 ∧ s.decoder.nextFrame = 0 ∧ s'.encoder.sendBuf = [] := by
  have h₁ : Step 2000 (initial 2 2 false .decodeOnly : System ℚ) _ _ :=
    Step.compress (returnsOneFrame_smallFrame 5) rfl
  have h₂ := (Run.Steps.single h₁).tail (@Step.send _ _ _ _ _ _ _ 10 .accepted _ _ rfl rfl)
  exact ⟨_, _, _, _, _, _, h₂, rfl, Run.Steps.single ⟨2000010, 2000030,
    Round.mk rfl rfl rfl rfl (Loop.ends_of_again rfl (Loop.ends_of_leave rfl)) rfl⟩,
    rfl, rfl, rfl, rfl, rfl⟩

/-- The receiver is up to date after this round. -/
theorem recovers_gaveUp : ∃ (es es' : List Event) (s s' : System ℚ),
    Run.Steps (Step 2000) (initial 2 2 false .decodeOnly) es s ∧ s.decoder.nextFrame = 0 ∧
      Run.Steps (Step 2000) (initial 2 2 false .decodeOnly) (es ++ es') s' ∧
      s'.decoder.nextFrame = 2 := by
  obtain ⟨es, es', s, s', ses, encoder, hrun, hcompress, hrounds, hcount, hgive, hid, hnext,
    hempty⟩ := rounds_gaveUp
  have hvpx := returnsOneFrame_smallFrame 2000000
  have hfew : encodedCount (senderEvents es) + 1 < 2 ^ 32 - 1 := by
    rw [hcount]
    norm_num
  obtain ⟨-, -, -, hdone⟩ := recovers hrun hvpx hcompress hfew (Or.inr hgive) hrounds
  obtain ⟨-, -, -, -, -, hsteps⟩ :=
    settled_of_rounds (settled_compressFrame hcompress (Or.inr hgive)) hrounds
  refine ⟨es, ses.map .sender ++ es', s, s', hrun, hnext, ?_, ?_⟩
  · rw [← List.append_assoc]
    exact (hrun.tail (Step.compress hvpx hcompress)).trans hsteps
  · rw [(hdone hempty).1, hid]
    rfl

end Delivery

end Ringmaster
