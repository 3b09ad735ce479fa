/-
# The steps of the sender

What the event loop of `src/app/video_sender.cc` does to the encoder, cut into the smallest
pieces between which something from outside can happen: compressing one frame, one attempt
to send the datagram at the front of `send_buf_`, handling one acknowledgement.  A run of
the sender is any sequence of these steps (`Run.Steps Step`), so whatever holds of every run
holds for every order in which the callbacks are called.

`Effect` says once what a step can do to the two queues; every invariant of the sender is
derived from it.
-/
import Ringmaster.Library.Run
import Ringmaster.Encoder

open Unsigned

namespace Ringmaster

/-! ## Traces -/

namespace SenderEvent

/-- The reading of the clock that an event is. -/
def clock? : SenderEvent → Option UInt64
  | .clock t => some t
  | _ => none

/-- The give-up that an event is. -/
def gaveUp? : SenderEvent → Option UInt64
  | .gaveUp t => some t
  | _ => none

/-- The transmission that an event is. -/
def sent? : SenderEvent → Option Datagram
  | .sent d => some d
  | _ => none

/-- The datagram that an event puts into `send_buf_`. -/
def enqueued? : SenderEvent → Option Datagram
  | .enqueued d => some d
  | _ => none

/-- Whether an event is the end of a frame. -/
def isEncoded : SenderEvent → Bool
  | .encoded _ => true
  | _ => false

end SenderEvent

open SenderEvent

/-- The readings of the clock in a trace, in order. -/
def clocks (es : List SenderEvent) : List UInt64 := es.filterMap clock?

/-- The times at which `encode_frame` gave up, in order. -/
def giveUps (es : List SenderEvent) : List UInt64 := es.filterMap gaveUp?

/-- The datagrams that the socket accepted, in order. -/
def sentDatagrams (es : List SenderEvent) : List Datagram := es.filterMap sent?

/-- The datagrams that were put into `send_buf_`, in order. -/
def enqueuedDatagrams (es : List SenderEvent) : List Datagram := es.filterMap enqueued?

/-- The number of frames that were finished. -/
def encodedCount (es : List SenderEvent) : ℕ := es.countP isEncoded

section Projections

variable (es es' : List SenderEvent) (ds : List Datagram)

@[simp] theorem clocks_append : clocks (es ++ es') = clocks es ++ clocks es' :=
  List.filterMap_append

@[simp] theorem giveUps_append : giveUps (es ++ es') = giveUps es ++ giveUps es' :=
  List.filterMap_append

@[simp] theorem sentDatagrams_append :
    sentDatagrams (es ++ es') = sentDatagrams es ++ sentDatagrams es' :=
  List.filterMap_append

@[simp] theorem enqueuedDatagrams_append :
    enqueuedDatagrams (es ++ es') = enqueuedDatagrams es ++ enqueuedDatagrams es' :=
  List.filterMap_append

@[simp] theorem encodedCount_append :
    encodedCount (es ++ es') = encodedCount es + encodedCount es' :=
  List.countP_append

theorem encodedCount_le_append : encodedCount es ≤ encodedCount (es ++ es') := by
  rw [encodedCount_append]
  exact Nat.le_add_right _ _

@[simp] theorem clocks_map_enqueued : clocks (ds.map .enqueued) = [] := by
  simp [clocks, clock?]

@[simp] theorem giveUps_map_enqueued : giveUps (ds.map .enqueued) = [] := by
  simp [giveUps, gaveUp?]

@[simp] theorem sentDatagrams_map_enqueued : sentDatagrams (ds.map .enqueued) = [] := by
  simp [sentDatagrams, sent?]

@[simp] theorem enqueuedDatagrams_map_enqueued : enqueuedDatagrams (ds.map .enqueued) = ds := by
  simp [enqueuedDatagrams, enqueued?, List.filterMap_map, Function.comp_def]

@[simp] theorem encodedCount_map_enqueued : encodedCount (ds.map .enqueued) = 0 := by
  simp [encodedCount, isEncoded]

end Projections

section CompressEvents

variable {E : Type} (enc : Encoder E) (inp : CompressInput) (ds : List Datagram) (t : UInt64)

/-- The clock is read in `encode_frame` when there is an unacked datagram. -/
theorem clocks_encodeEvents :
    clocks (enc.encodeEvents t) = if enc.unacked.entries = [] then [] else [t] := by
  unfold Encoder.encodeEvents
  split_ifs
  · rfl
  · rfl
  · rfl

theorem giveUps_encodeEvents :
    giveUps (enc.encodeEvents t) = if enc.givesUp t then [t] else [] := by
  unfold Encoder.encodeEvents
  by_cases hnil : enc.unacked.entries = []
  · have hnot : ¬ enc.givesUp t := by simp [Encoder.givesUp, hnil]
    rw [if_pos hnil, if_neg hnot]
    rfl
  · rw [if_neg hnil]
    split_ifs
    · rfl
    · rfl

/-- An event of `encode_frame` is a reading of the clock or a give-up. -/
theorem mem_encodeEvents {e : SenderEvent} (h : e ∈ enc.encodeEvents t) :
    e = .clock t ∨ e = .gaveUp t := by
  unfold Encoder.encodeEvents at h
  split_ifs at h
  · exact absurd h List.not_mem_nil
  · simpa using h
  · exact Or.inl (by simpa using h)

theorem clocks_compressEvents : clocks (enc.compressEvents inp ds)
    = [inp.generationTs] ++ clocks (enc.encodeEvents inp.encodeTs) ++
      (if enc.hasOutput then [inp.encodedTs] else []) := by
  unfold Encoder.compressEvents
  simp only [clocks_append, clocks_map_enqueued, List.append_nil]
  split_ifs
  · simp [clocks, clock?]
  · simp [clocks, clock?]

theorem giveUps_compressEvents :
    giveUps (enc.compressEvents inp ds)
      = if enc.givesUp inp.encodeTs then [inp.encodeTs] else [] := by
  unfold Encoder.compressEvents
  simp only [giveUps_append, giveUps_map_enqueued, List.append_nil, giveUps_encodeEvents]
  split_ifs
  · rfl
  · rfl
  · rfl
  · rfl

theorem sentDatagrams_compressEvents : sentDatagrams (enc.compressEvents inp ds) = [] := by
  have hencode : sentDatagrams (enc.encodeEvents inp.encodeTs) = [] := by
    unfold Encoder.encodeEvents
    split_ifs
    · rfl
    · rfl
    · rfl
  unfold Encoder.compressEvents
  simp only [sentDatagrams_append, sentDatagrams_map_enqueued, hencode, List.append_nil]
  split_ifs
  · rfl
  · rfl

theorem enqueuedDatagrams_compressEvents :
    enqueuedDatagrams (enc.compressEvents inp ds) = ds := by
  have hencode : enqueuedDatagrams (enc.encodeEvents inp.encodeTs) = [] := by
    unfold Encoder.encodeEvents
    split_ifs
    · rfl
    · rfl
    · rfl
  unfold Encoder.compressEvents
  simp only [enqueuedDatagrams_append, enqueuedDatagrams_map_enqueued, hencode]
  split_ifs
  · show [] ++ [] ++ ds ++ [] ++ [] = ds
    simp
  · show [] ++ [] ++ ds ++ [] ++ [] = ds
    simp

theorem encodedCount_compressEvents : encodedCount (enc.compressEvents inp ds) = 1 := by
  have hencode : encodedCount (enc.encodeEvents inp.encodeTs) = 0 := by
    unfold Encoder.encodeEvents
    split_ifs
    · rfl
    · rfl
    · rfl
  unfold Encoder.compressEvents
  simp only [encodedCount_append, encodedCount_map_enqueued, hencode]
  split_ifs
  · rfl
  · rfl

/-- Compressing a frame erases nothing from `unacked_`. -/
theorem erased_notMem_compressEvents (seq : SeqNum) :
    .erased seq ∉ enc.compressEvents inp ds := by
  unfold Encoder.compressEvents
  intro h
  simp only [List.mem_append, List.mem_singleton, List.mem_map, reduceCtorEq, false_or, or_false,
    and_false, exists_false] at h
  rcases h with h | h
  · rcases mem_encodeEvents enc inp.encodeTs h with h | h
    · simp at h
    · simp at h
  · split_ifs at h
    · simp at h
    · simp at h

end CompressEvents

section AckEvents

variable (t : UInt64) (rtx : List Datagram) (seq : SeqNum)

theorem giveUps_ackEvents : giveUps (Encoder.ackEvents t rtx seq) = [] := by
  unfold Encoder.ackEvents
  rw [giveUps_append, giveUps_append, giveUps_map_enqueued]
  rfl

theorem sentDatagrams_ackEvents : sentDatagrams (Encoder.ackEvents t rtx seq) = [] := by
  unfold Encoder.ackEvents
  rw [sentDatagrams_append, sentDatagrams_append, sentDatagrams_map_enqueued]
  rfl

theorem enqueuedDatagrams_ackEvents :
    enqueuedDatagrams (Encoder.ackEvents t rtx seq) = rtx := by
  unfold Encoder.ackEvents
  rw [enqueuedDatagrams_append, enqueuedDatagrams_append, enqueuedDatagrams_map_enqueued]
  show [] ++ rtx ++ [] = rtx
  rw [List.nil_append, List.append_nil]

theorem encodedCount_ackEvents : encodedCount (Encoder.ackEvents t rtx seq) = 0 := by
  unfold Encoder.ackEvents
  rw [encodedCount_append, encodedCount_append, encodedCount_map_enqueued]
  rfl

end AckEvents

/-! ## One attempt to send -/

/-- The answer of `UDPSocket::send`: true, false for `EWOULDBLOCK`, or an exception. -/
inductive SendOutcome where
  | accepted
  | wouldBlock
  | raised (e : Exn)
  deriving DecidableEq

namespace Encoder

variable {E : Type}

/-- One round of the loop in the callback for a writable socket, with a non-empty `send_buf_`
whose front is `datagram`: the trace, whether the loop goes on, and the state. -/
def sendFront (enc : Encoder E) (datagram : Datagram) (rest : List Datagram) (t : UInt64)
    (outcome : SendOutcome) : Except Exn (List SenderEvent × Bool × Encoder E) :=
  -- timestamp the sending time before sending
  let datagram := { datagram with sendTs := t }
  match outcome with
  | .raised e => .error e
  | .accepted =>
    -- move the sent datagram to unacked if not a retransmission
    if datagram.numRtx = 0 then
      match enc.addUnacked datagram with
      | .error e => .error e
      | .ok enc => .ok ([.clock t, .sent datagram], true, { enc with sendBuf := rest })
    else
      .ok ([.clock t, .sent datagram], true, { enc with sendBuf := rest })
  | .wouldBlock =>
    -- try again later
    .ok ([.clock t], false, { enc with sendBuf := { datagram with sendTs := 0 } :: rest })

/-- The queue after an attempt to send: the front is popped if the loop goes on. -/
theorem sendBuf_of_sendFront {enc enc' : Encoder E} {d : Datagram} {rest : List Datagram}
    {t : UInt64} {outcome : SendOutcome} {es : List SenderEvent} {more : Bool}
    (h : enc.sendFront d rest t outcome = .ok (es, more, enc')) :
    enc'.sendBuf = if more then rest else { d with sendTs := 0 } :: rest := by
  unfold sendFront at h
  cases outcome with
  | raised e => simp at h
  | wouldBlock =>
    simp only [Except.ok.injEq, Prod.mk.injEq] at h
    obtain ⟨-, rfl, rfl⟩ := h
    rfl
  | accepted =>
    dsimp only at h
    split_ifs at h with h0
    · cases hadd : enc.addUnacked { d with sendTs := t } with
      | error e => simp [hadd] at h
      | ok enc₁ =>
        simp only [hadd, Except.ok.injEq, Prod.mk.injEq] at h
        obtain ⟨-, rfl, rfl⟩ := h
        rfl
    · simp only [Except.ok.injEq, Prod.mk.injEq] at h
      obtain ⟨-, rfl, rfl⟩ := h
      rfl

/-- The trace of an attempt to send. -/
theorem events_sendFront {enc enc' : Encoder E} {d : Datagram} {rest : List Datagram}
    {t : UInt64} {outcome : SendOutcome} {es : List SenderEvent} {more : Bool}
    (h : enc.sendFront d rest t outcome = .ok (es, more, enc')) :
    es = [.clock t] ∨ es = [.clock t, .sent { d with sendTs := t }] := by
  unfold sendFront at h
  cases outcome with
  | raised e => simp at h
  | wouldBlock =>
    simp only [Except.ok.injEq, Prod.mk.injEq] at h
    exact Or.inl h.1.symm
  | accepted =>
    right
    dsimp only at h
    split_ifs at h with h0
    · cases hadd : enc.addUnacked { d with sendTs := t } with
      | error e => simp [hadd] at h
      | ok enc₁ =>
        simp only [hadd, Except.ok.injEq, Prod.mk.injEq] at h
        exact h.1.symm
    · simp only [Except.ok.injEq, Prod.mk.injEq] at h
      exact h.1.symm

/-- A key frame of three bytes, for the images of a small screen. -/
def smallFrame (t : UInt64) : CompressInput where
  imgWidth := 2
  imgHeight := 2
  generationTs := t
  encodeTs := t
  encodedTs := t
  vpx := fun _ => .ok [.frame [1, 2, 3] true]
  write := .ok ()

/-! ## Steps -/

variable [RttArith E]

/-- The steps of the sender. -/
inductive Step (maxPayload : ℕ) : Encoder E → List SenderEvent → Encoder E → Prop
  /-- A frame is compressed. -/
  | compress {enc enc' : Encoder E} {inp : CompressInput} {es : List SenderEvent} :
      enc.compressFrame maxPayload inp = (.ok (), es, enc') → Step maxPayload enc es enc'
  /-- An attempt is made to send the datagram at the front. -/
  | send {enc enc' : Encoder E} {datagram : Datagram} {rest : List Datagram} {t : UInt64}
      {outcome : SendOutcome} {es : List SenderEvent} {more : Bool} :
      enc.sendBuf = datagram :: rest →
      enc.sendFront datagram rest t outcome = .ok (es, more, enc') → Step maxPayload enc es enc'
  /-- An acknowledgement is handled. -/
  | ack {enc enc' : Encoder E} {msg : AckMsg} {t : UInt64} {es : List SenderEvent} :
      enc.handleAck msg t = .ok (es, enc') → Step maxPayload enc es enc'

/-- What a step does to the frame id and the two queues. -/
inductive Effect (enc enc' : Encoder E) : List SenderEvent → Prop
  /-- The datagrams of a frame are queued, after a give-up has cleared the queues or not. -/
  | compressed (inp : CompressInput) (ds : List Datagram) :
      (∀ d ∈ ds, d.frameId = enc.frameId ∧ d.sendTs = 0 ∧ d.numRtx = 0) →
      ds.Pairwise (fun a b => a.seqNum < b.seqNum) →
      enc'.frameId = enc.frameId + 1 →
      enc'.sendBuf = (enc.afterGiveUp inp.encodeTs).sendBuf ++ ds →
      enc'.unacked = (enc.afterGiveUp inp.encodeTs).unacked →
      Effect enc enc' (enc.compressEvents inp ds)
  /-- A datagram is sent for the first time, and becomes unacked. -/
  | sentFresh (d : Datagram) (rest : List Datagram) (t : UInt64) :
      enc.sendBuf = d :: rest → d.numRtx = 0 → enc.unacked.find? d.seqNum = none →
      enc'.frameId = enc.frameId → enc'.sendBuf = rest →
      (∀ k, enc'.unacked.find? k = if k = d.seqNum
        then some { d with sendTs := t, lastSendTs := t } else enc.unacked.find? k) →
      Effect enc enc' [.clock t, .sent { d with sendTs := t }]
  /-- A retransmission is sent. -/
  | sentRtx (d : Datagram) (rest : List Datagram) (t : UInt64) :
      enc.sendBuf = d :: rest → d.numRtx ≠ 0 → enc'.frameId = enc.frameId →
      enc'.sendBuf = rest → enc'.unacked = enc.unacked →
      Effect enc enc' [.clock t, .sent { d with sendTs := t }]
  /-- The socket would block, and the datagram stays at the front. -/
  | blocked (d : Datagram) (rest : List Datagram) (t : UInt64) :
      enc.sendBuf = d :: rest → enc'.frameId = enc.frameId →
      enc'.sendBuf = { d with sendTs := 0 } :: rest → enc'.unacked = enc.unacked →
      Effect enc enc' [.clock t]
  /-- An acknowledgement of a datagram that is not unacked. -/
  | stray (t : UInt64) :
      enc'.frameId = enc.frameId → enc'.sendBuf = enc.sendBuf → enc'.unacked = enc.unacked →
      Effect enc enc' [.clock t]
  /-- An acknowledgement of an unacked datagram: those before it that are due are queued
  again, in front of the others, and it is erased. -/
  | acked (seq : SeqNum) (ewma : E) (t : UInt64) :
      enc.unacked.contains seq → enc'.frameId = enc.frameId →
      enc'.sendBuf = ((enc.rtxEntries seq ewma t).map Prod.snd).reverse ++ enc.sendBuf →
      (∀ k, enc'.unacked.find? k = if k = seq then none
        else (enc.unacked.find? k).map fun d =>
          if k < seq ∧ isDue ewma t d then retransmitted t d else d) →
      Effect enc enc' (ackEvents t ((enc.rtxEntries seq ewma t).map Prod.snd) seq)

/-- The effect of compressing a frame. -/
theorem effect_compressFrame {maxPayload : ℕ} {enc enc' : Encoder E} {inp : CompressInput}
    {es : List SenderEvent} (h : enc.compressFrame maxPayload inp = (.ok (), es, enc')) :
    Effect enc enc' es := by
  obtain ⟨pkts, ds, -, hds, rfl, rfl⟩ := compressFrame_cases h
  exact Effect.compressed inp ds (fun d hd => hds.fresh hd) hds.pairwise_seqNum rfl rfl rfl

/-- The effect of an attempt to send. -/
theorem effect_sendFront {enc enc' : Encoder E} {d : Datagram} {rest : List Datagram}
    {t : UInt64} {outcome : SendOutcome} {es : List SenderEvent} {more : Bool}
    (hbuf : enc.sendBuf = d :: rest)
    (h : enc.sendFront d rest t outcome = .ok (es, more, enc')) : Effect enc enc' es := by
  unfold sendFront at h
  cases outcome with
  | raised e => simp at h
  | wouldBlock =>
    simp only [Except.ok.injEq, Prod.mk.injEq] at h
    obtain ⟨rfl, -, rfl⟩ := h
    exact Effect.blocked d rest t hbuf rfl rfl rfl
  | accepted =>
    dsimp only at h
    by_cases h0 : d.numRtx = 0
    · rw [if_pos h0] at h
      cases hadd : enc.addUnacked { d with sendTs := t } with
      | error e => simp [hadd] at h
      | ok enc₁ =>
        simp only [hadd, Except.ok.injEq, Prod.mk.injEq] at h
        obtain ⟨rfl, -, rfl⟩ := h
        obtain ⟨hnone, rfl⟩ := addUnacked_eq_ok_iff.mp hadd
        exact Effect.sentFresh d rest t hbuf h0 hnone rfl rfl (OrderedMap.find?_emplace hnone)
    · rw [if_neg h0] at h
      simp only [Except.ok.injEq, Prod.mk.injEq] at h
      obtain ⟨rfl, -, rfl⟩ := h
      exact Effect.sentRtx d rest t hbuf h0 rfl rfl rfl

/-- The effect of an acknowledgement. -/
theorem effect_handleAck {enc enc' : Encoder E} {msg : AckMsg} {t : UInt64}
    {es : List SenderEvent} (h : enc.handleAck msg t = .ok (es, enc')) : Effect enc enc' es := by
  obtain ⟨es₁, enc₁, heq, hid, hcases⟩ := handleAck_cases enc msg t
  rw [h, Except.ok.injEq, Prod.mk.injEq] at heq
  obtain ⟨rfl, rfl⟩ := heq
  rcases hcases with ⟨-, rfl, hbuf, hunacked⟩ | ⟨hc, ewma, -, rfl, hbuf, hfind⟩
  · exact Effect.stray t hid hbuf hunacked
  · exact Effect.acked msg.seqNum ewma t hc hid hbuf hfind

/-- The effect of any step. -/
theorem Step.effect {maxPayload : ℕ} {enc enc' : Encoder E} {es : List SenderEvent}
    (h : Step maxPayload enc es enc') : Effect enc enc' es := by
  cases h with
  | compress h => exact effect_compressFrame h
  | send hbuf h => exact effect_sendFront hbuf h
  | ack h => exact effect_handleAck h

end Encoder

end Ringmaster
