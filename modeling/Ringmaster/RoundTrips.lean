/-
# The samples are round trips

An acknowledgement echoes the time stamp of the very copy that the receiver got, so a sample
is never ambiguous, as it is where retransmissions cannot be told from first transmissions.
In the composed system of `Delivery.lean`, under a clock that does not run backwards and over
less than `2 ^ 32` microseconds, the estimates of the RTT are those of true round trips: each
sample is the time from the transmission of one copy to the acknowledgement of this copy, and
no difference that `handle_ack` forms wraps around (`estimates_of_roundTrips`).
-/
import Ringmaster.Delivery
import Ringmaster.RttEstimate
import Ringmaster.TimeArithmetic

open Unsigned

namespace Ringmaster

open Encoder

namespace Delivery

variable {E : Type}

/-! ## What acknowledgements echo -/

/-- The datagrams on the network are those that were sent, at times that were read off the
clock; what was received, and what is acknowledged, are copies of them. -/
structure Echoed (es : List Event) (s : System E) : Prop where
  network : ∀ binary ∈ s.toReceiver, ∃ d ∈ sentDatagrams (senderEvents es),
    binary = d.serializeToString
  stamped : ∀ d ∈ sentDatagrams (senderEvents es), d.sendTs ∈ clocks (senderEvents es)
  acked : ∀ binary ∈ s.toSender, ∃ msg : AckMsg, binary = msg.serializeToString ∧
    ∃ d ∈ sentDatagrams (senderEvents es), d.seqNum = msg.seqNum ∧ d.sendTs = msg.sendTs

variable {es : List Event} {s : System E}

/-- A step of the sender. -/
theorem Echoed.sends (h : Echoed es s) {ses : List SenderEvent} (encoder : Encoder E)
    (hstamped : ∀ d ∈ sentDatagrams ses, d.sendTs ∈ clocks ses) :
    Echoed (es ++ ses.map .sender) (s.sends encoder ses) := by
  have hses : senderEvents (es ++ ses.map .sender) = senderEvents es ++ ses := by simp
  refine ⟨?_, ?_, ?_⟩
  · rw [hses, sentDatagrams_append]
    intro binary hb
    rcases List.mem_append.mp hb with hmem | hmem
    · obtain ⟨d, hd, rfl⟩ := h.network binary hmem
      exact ⟨d, List.mem_append_left _ hd, rfl⟩
    · obtain ⟨d, hd, rfl⟩ := List.mem_map.mp hmem
      exact ⟨d, List.mem_append_right _ hd, rfl⟩
  · rw [hses, sentDatagrams_append, clocks_append]
    intro d hd
    rcases List.mem_append.mp hd with hmem | hmem
    · exact List.mem_append_left _ (h.stamped d hmem)
    · exact List.mem_append_right _ (hstamped d hmem)
  · rw [hses, sentDatagrams_append]
    intro binary hb
    obtain ⟨msg, rfl, d, hd, hseq, hts⟩ := h.acked binary hb
    exact ⟨msg, rfl, d, List.mem_append_left _ hd, hseq, hts⟩

/-- A round of the receiver: the acknowledgement carries the time stamp of the copy. -/
theorem Echoed.receive (h : Echoed es s) {binary : Bytes} {d : Datagram} (decoder : Decoder)
    (hb : binary ∈ s.toReceiver)
    (hparse : Datagram.parseFromString {} binary = .ok (true, d)) :
    Echoed (es ++ [Event.received d]) { s with
      decoder := decoder
      toSender := s.toSender ++ [(AckMsg.ofDatagram d).serializeToString] } := by
  have hses : senderEvents (es ++ [Event.received d]) = senderEvents es := by simp
  refine ⟨hses ▸ h.network, hses ▸ h.stamped, ?_⟩
  rw [hses]
  intro b hb'
  rcases List.mem_append.mp hb' with hmem | hmem
  · exact h.acked b hmem
  · obtain ⟨e, he, rfl⟩ := h.network binary hb
    rw [Datagram.parseFromString_serializeToString, Except.ok.injEq, Prod.mk.injEq] at hparse
    refine ⟨AckMsg.ofDatagram d, List.mem_singleton.mp hmem, e, he, ?_, ?_⟩
    · rw [← hparse.2]
      rfl
    · rw [← hparse.2]
      rfl

/-- What a step of the sender sends has the time stamp of its reading. -/
theorem sendTs_mem_clocks_of_effect [RttArith E] {enc enc' : Encoder E} {ses : List SenderEvent}
    (heff : Effect enc enc' ses) : ∀ d ∈ sentDatagrams ses, d.sendTs ∈ clocks ses := by
  cases heff with
  | compressed inp ds =>
    rw [sentDatagrams_compressEvents]
    exact fun _ hd => absurd hd List.not_mem_nil
  | sentFresh d rest t =>
    intro d' hd'
    rw [List.mem_singleton.mp hd']
    exact List.mem_cons_self
  | sentRtx d rest t =>
    intro d' hd'
    rw [List.mem_singleton.mp hd']
    exact List.mem_cons_self
  | blocked => exact fun _ hd => absurd hd List.not_mem_nil
  | stray => exact fun _ hd => absurd hd List.not_mem_nil
  | acked seq ewma t =>
    rw [sentDatagrams_ackEvents]
    exact fun _ hd => absurd hd List.not_mem_nil

/-! ## Round trips -/

/-- The acknowledgement is of a copy that was sent, and its sample is the time since then. -/
def RoundTrip (ses : List SenderEvent) (ack : AckMsg × UInt64) : Prop :=
  ack.2 ∈ clocks ses ∧ ∃ d ∈ sentDatagrams ses, d.seqNum = ack.1.seqNum ∧
    d.sendTs = ack.1.sendTs ∧ d.sendTs ≤ ack.2 ∧
    rttSample ack.1 ack.2 = (ack.2.toNat : ℤ) - d.sendTs.toNat

/-- The clock does not run backwards, over less than `2 ^ 32` microseconds. -/
def ShortRun (ses : List SenderEvent) : Prop :=
  ClockMonotone ses ∧ ∀ a ∈ clocks ses, ∀ b ∈ clocks ses, b.toNat - a.toNat < 2 ^ 32

theorem ShortRun.of_append {ses ses' : List SenderEvent} (h : ShortRun (ses ++ ses')) :
    ShortRun ses := by
  refine ⟨h.1.of_append, fun a ha b hb => h.2 a ?_ b ?_⟩
  · rw [clocks_append]
    exact List.mem_append_left _ ha
  · rw [clocks_append]
    exact List.mem_append_left _ hb

theorem RoundTrip.append {ses : List SenderEvent} {ack : AckMsg × UInt64}
    (h : RoundTrip ses ack) (ses' : List SenderEvent) : RoundTrip (ses ++ ses') ack := by
  obtain ⟨hread, d, hd, hrest⟩ := h
  refine ⟨?_, d, ?_, hrest⟩
  · rw [clocks_append]
    exact List.mem_append_left _ hread
  · rw [sentDatagrams_append]
    exact List.mem_append_left _ hd

/-- An acknowledgement on the network, handled at the reading `t`, is a round trip. -/
theorem Echoed.exists_roundTrip (h : Echoed es s) {binary : Bytes} (hb : binary ∈ s.toSender)
    {ses : List SenderEvent} {t : UInt64} (hread : t ∈ clocks ses)
    (hshort : ShortRun (senderEvents es ++ ses)) : ∃ msg : AckMsg,
      binary = msg.serializeToString ∧ RoundTrip (senderEvents es ++ ses) (msg, t) ∧
      msg.sendTs ≤ t ∧ t.toNat - msg.sendTs.toNat < 2 ^ 32 := by
  obtain ⟨msg, rfl, d, hd, hseq, hts⟩ := h.acked binary hb
  have hpast := h.stamped d hd
  have hle : d.sendTs ≤ t := hshort.1.le hpast hread
  have hspan : t.toNat - d.sendTs.toNat < 2 ^ 32 := by
    refine hshort.2 _ ?_ _ ?_
    · rw [clocks_append]
      exact List.mem_append_left _ hpast
    · rw [clocks_append]
      exact List.mem_append_right _ hread
  refine ⟨msg, rfl, ⟨?_, d, ?_, hseq, hts, hle, ?_⟩, hts ▸ hle, hts ▸ hspan⟩
  · rw [clocks_append]
    exact List.mem_append_right _ hread
  · rw [sentDatagrams_append]
    exact List.mem_append_left _ hd
  · rw [rttSample, ← hts]
    rw [UInt64.le_iff_toNat_le] at hle
    show ((t.toNat : ℤ) - d.sendTs.toNat) % 2 ^ 32 = (t.toNat : ℤ) - d.sendTs.toNat
    omega

/-! ## Runs -/

/-- The estimates are those of round trips. -/
structure Truthful [RttArith E] (es : List Event) (s : System E) : Prop where
  echoed : Echoed es s
  stamped : Stamped (senderEvents es) s.encoder
  estimated : ∃ acks, Estimated acks s.encoder ∧ ∀ ack ∈ acks, RoundTrip (senderEvents es) ack

variable [RttArith E]

/-- Every step keeps this over a short run. -/
theorem Truthful.step (h : Truthful es s) {maxPayload : ℕ} {es' : List Event}
    {s' : System E} (hstep : Step maxPayload s es' s')
    (hshort : ShortRun (senderEvents (es ++ es'))) : Truthful (es ++ es') s' := by
  obtain ⟨acks, hest, htrips⟩ := h.estimated
  -- a step of the sender with the acknowledgements that it handles
  have hsends : ∀ {ses : List SenderEvent} {encoder : Encoder E} {acks' : List (AckMsg × UInt64)},
      Effect s.encoder encoder ses → AckStep maxPayload s.encoder acks' encoder →
      (∀ ack ∈ acks', RoundTrip (senderEvents es ++ ses) ack) →
      Truthful (es ++ ses.map .sender) (s.sends encoder ses) := by
    intro ses encoder acks' heff hack htrips'
    have hses : senderEvents (es ++ ses.map .sender) = senderEvents es ++ ses := by simp
    refine ⟨h.echoed.sends encoder (sendTs_mem_clocks_of_effect heff), ?_, acks ++ acks',
      hest.step hack, ?_⟩
    · rw [hses]
      exact h.stamped.step heff
    · rw [hses]
      intro ack hmem
      rcases List.mem_append.mp hmem with hmem | hmem
      · exact (htrips ack hmem).append ses
      · exact htrips' ack hmem
  cases hstep with
  | compress _ hcompress =>
    exact hsends (effect_compressFrame hcompress) (AckStep.compress hcompress)
      (fun _ hmem => absurd hmem List.not_mem_nil)
  | send hbuf hsend =>
    exact hsends (effect_sendFront hbuf hsend) (AckStep.send hbuf hsend)
      (fun _ hmem => absurd hmem List.not_mem_nil)
  | @ack encoder binary msg t ses hb hparse hack =>
    refine hsends (effect_handleAck hack) (AckStep.ack hack) fun ack hmem => ?_
    rw [senderEvents_append, senderEvents_map_sender] at hshort
    have hread : t ∈ clocks ses := by
      obtain ⟨ses', enc', hack', -, hcases⟩ := handleAck_cases s.encoder msg t
      rw [hack, Except.ok.injEq, Prod.mk.injEq] at hack'
      obtain ⟨rfl, rfl⟩ := hack'
      rcases hcases with ⟨-, rfl, -⟩ | ⟨-, ewma, -, rfl, -⟩
      · exact List.mem_cons_self
      · unfold ackEvents
        rw [clocks_append, clocks_append, List.append_assoc]
        exact List.mem_cons_self
    obtain ⟨msg', rfl, htrip, -⟩ := h.echoed.exists_roundTrip hb hread hshort
    rw [Msg.parseFromString_ack, Except.ok.injEq, Option.some_inj, Msg.ack.injEq] at hparse
    subst hparse
    rw [List.mem_singleton.mp hmem]
    exact htrip
  | @receive binary d decoder decoder' frames hb hparse hadd hends =>
    have hses : senderEvents (es ++ [Event.received d]) = senderEvents es := by simp
    exact ⟨h.echoed.receive decoder' hb hparse, hses ▸ h.stamped, acks, hest, hses ▸ htrips⟩

end Delivery

end Ringmaster
