/-
# Where the sender's datagrams come from

On its way through `send_buf_`, the socket and `unacked_`, a datagram changes its time stamps
and its number of retransmissions, and nothing else.  So in every state of every run, what is
queued, what is unacked and what was sent are fragments that were packetized, up to these
fields (`Genuine.step`).  Acknowledgements play no part in it: they may say anything.
-/
import Ringmaster.Delivery
import Ringmaster.Integrity

open Unsigned

namespace Ringmaster

open Packetization Encoder Delivery

namespace Encoder

variable {E : Type}

/-- A datagram of the list, with other time stamps and another number of retransmissions. -/
def Stamps (ds : List Datagram) (d : Datagram) : Prop :=
  ∃ e ∈ ds, ∃ sendTs numRtx lastSendTs,
    d = { e with sendTs := sendTs, numRtx := numRtx, lastSendTs := lastSendTs }

/-- What the sender keeps was packetized. -/
structure Genuine (ds : List Datagram) (enc : Encoder E) : Prop where
  queued : ∀ d ∈ enc.sendBuf, Stamps ds d
  unacked : ∀ k d, enc.unacked.find? k = some d → Stamps ds d

section Stamps

variable {ds ds' : List Datagram} {d : Datagram}

theorem Stamps.mono (h : Stamps ds d) (hsub : ∀ e ∈ ds, e ∈ ds') : Stamps ds' d := by
  obtain ⟨e, he, hd⟩ := h
  exact ⟨e, hsub e he, hd⟩

/-- Stamping a datagram once more. -/
theorem Stamps.stamp (h : Stamps ds d) (sendTs : UInt64) (numRtx : UInt32) (lastSendTs : UInt64) :
    Stamps ds { d with sendTs := sendTs, numRtx := numRtx, lastSendTs := lastSendTs } := by
  obtain ⟨e, he, ts, rtx, last, rfl⟩ := h
  exact ⟨e, he, sendTs, numRtx, lastSendTs, rfl⟩

theorem stamps_of_mem (h : d ∈ ds) : Stamps ds d :=
  ⟨d, h, d.sendTs, d.numRtx, d.lastSendTs, rfl⟩

/-- On the wire, only the time of sending shows. -/
theorem Stamps.carries (h : Stamps ds d) : Integrity.Carries ds d.serializeToString := by
  obtain ⟨e, he, ts, rtx, last, rfl⟩ := h
  exact ⟨e, he, ts, rfl⟩

end Stamps

theorem genuine_initial (displayWidth displayHeight : UInt16) (hasOutput : Bool) :
    Genuine [] (initial displayWidth displayHeight hasOutput : Encoder E) where
  queued := fun _ hd => absurd hd List.not_mem_nil
  unacked := fun _ _ hd => by simp [initial] at hd

variable {ds : List Datagram} {enc enc' : Encoder E}

theorem Genuine.mono (h : Genuine ds enc) {ds' : List Datagram} (hsub : ∀ e ∈ ds, e ∈ ds') :
    Genuine ds' enc :=
  ⟨fun d hd => (h.queued d hd).mono hsub, fun k d hd => (h.unacked k d hd).mono hsub⟩

/-- A give-up only forgets. -/
theorem Genuine.afterGiveUp (h : Genuine ds enc) (t : UInt64) :
    Genuine ds (enc.afterGiveUp t) := by
  unfold Encoder.afterGiveUp
  split_ifs
  · exact ⟨fun _ hd => absurd hd List.not_mem_nil, fun _ _ hd => by simp at hd⟩
  · exact h

variable [RttArith E]

/-- Every step of the sender keeps this, and sends only what was packetized. -/
theorem Genuine.step {es es' : List SenderEvent} (h : Genuine (packetizedDatagrams es) enc)
    (heff : Effect enc enc' es') : Genuine (packetizedDatagrams (es ++ es')) enc' ∧
      ∀ d ∈ sentDatagrams es', Stamps (packetizedDatagrams (es ++ es')) d := by
  have hsub : ∀ e ∈ packetizedDatagrams es, e ∈ packetizedDatagrams (es ++ es') := by
    intro e he
    rw [packetizedDatagrams_append]
    exact List.mem_append_left _ he
  have h' := h.mono hsub
  cases heff with
  | compressed inp ds hds _ _ hbuf hunacked =>
    refine ⟨⟨?_, ?_⟩, ?_⟩
    · rw [hbuf]
      intro d hd
      rcases List.mem_append.mp hd with hmem | hmem
      · exact (h'.afterGiveUp _).queued d hmem
      · refine stamps_of_mem ?_
        rw [packetizedDatagrams_append, packetizedDatagrams, packetizedDatagrams,
          enqueuedDatagrams_compressEvents]
        refine List.mem_append_right _ (List.mem_filter.mpr ⟨hmem, ?_⟩)
        exact decide_eq_true (hds d hmem).2.2
    · rw [hunacked]
      exact (h'.afterGiveUp _).unacked
    · rw [sentDatagrams_compressEvents]
      exact fun _ hd => absurd hd List.not_mem_nil
  | sentFresh d rest t hbuf _ _ _ hrest hfind =>
    have hfront := h'.queued d (hbuf ▸ List.mem_cons_self)
    refine ⟨⟨?_, ?_⟩, ?_⟩
    · rw [hrest]
      exact fun d' hd' => h'.queued d' (hbuf ▸ List.mem_cons_of_mem _ hd')
    · intro k d' hd'
      rw [hfind] at hd'
      split_ifs at hd'
      · rw [Option.some_inj] at hd'
        rw [← hd']
        exact hfront.stamp t d.numRtx t
      · exact h'.unacked k d' hd'
    · intro d' hd'
      rw [List.mem_singleton.mp hd']
      exact hfront.stamp t d.numRtx d.lastSendTs
  | sentRtx d rest t hbuf _ _ hrest hunacked =>
    have hfront := h'.queued d (hbuf ▸ List.mem_cons_self)
    refine ⟨⟨?_, ?_⟩, ?_⟩
    · rw [hrest]
      exact fun d' hd' => h'.queued d' (hbuf ▸ List.mem_cons_of_mem _ hd')
    · rw [hunacked]
      exact h'.unacked
    · intro d' hd'
      rw [List.mem_singleton.mp hd']
      exact hfront.stamp t d.numRtx d.lastSendTs
  | blocked d rest t hbuf _ hfront hunacked =>
    refine ⟨⟨?_, ?_⟩, fun _ hd => absurd hd List.not_mem_nil⟩
    · rw [hfront]
      intro d' hd'
      rcases List.mem_cons.mp hd' with rfl | hmem
      · exact (h'.queued d (hbuf ▸ List.mem_cons_self)).stamp 0 d.numRtx d.lastSendTs
      · exact h'.queued d' (hbuf ▸ List.mem_cons_of_mem _ hmem)
    · rw [hunacked]
      exact h'.unacked
  | stray t _ hbuf hunacked =>
    refine ⟨⟨?_, ?_⟩, fun _ hd => absurd hd List.not_mem_nil⟩
    · rw [hbuf]
      exact h'.queued
    · rw [hunacked]
      exact h'.unacked
  | acked seq ewma t _ _ hbuf hfind =>
    refine ⟨⟨?_, ?_⟩, ?_⟩
    · rw [hbuf]
      intro d hd
      rcases List.mem_append.mp hd with hmem | hmem
      · -- a retransmission is a copy of an unacked datagram
        obtain ⟨k, d₀, hd₀, -, -, rfl, -⟩ := numRtx_rtxEntries (List.mem_reverse.mp hmem)
        exact (h'.unacked k d₀ hd₀).stamp d₀.sendTs (d₀.numRtx + 1) t
      · exact h'.queued d hmem
    · intro k d hd
      rw [hfind] at hd
      split_ifs at hd
      obtain ⟨d₀, hd₀, rfl⟩ := Option.map_eq_some_iff.mp hd
      have := h'.unacked k d₀ hd₀
      split_ifs
      · exact this.stamp d₀.sendTs (d₀.numRtx + 1) t
      · exact this
    · rw [sentDatagrams_ackEvents]
      exact fun _ hd => absurd hd List.not_mem_nil

omit [RttArith E] in
/-- An attempt to send leaves the frame id alone. -/
theorem frameId_sendFront {enc enc' : Encoder E} {d : Datagram} {rest : List Datagram}
    {t : UInt64} {outcome : SendOutcome} {ses : List SenderEvent} {more : Bool}
    (h : enc.sendFront d rest t outcome = .ok (ses, more, enc')) : enc'.frameId = enc.frameId := by
  unfold sendFront at h
  cases outcome with
  | raised e => simp at h
  | wouldBlock =>
    simp only [Except.ok.injEq, Prod.mk.injEq] at h
    obtain ⟨-, -, rfl⟩ := h
    rfl
  | accepted =>
    dsimp only at h
    split_ifs at h with h0
    · cases hadd : enc.addUnacked { d with sendTs := t } with
      | error e => simp [hadd] at h
      | ok enc₁ =>
        simp only [hadd, Except.ok.injEq, Prod.mk.injEq] at h
        obtain ⟨-, -, rfl⟩ := h
        obtain ⟨-, rfl⟩ := addUnacked_eq_ok_iff.mp hadd
        rfl
    · simp only [Except.ok.injEq, Prod.mk.injEq] at h
      obtain ⟨-, -, rfl⟩ := h
      rfl

/-- An acknowledgement packetizes nothing. -/
theorem packetizedDatagrams_ackEvents (enc : Encoder E) (seq seq' : SeqNum) (ewma : E)
    (t : UInt64) :
    packetizedDatagrams (ackEvents t ((enc.rtxEntries seq ewma t).map Prod.snd) seq') = [] := by
  unfold packetizedDatagrams
  rw [enqueuedDatagrams_ackEvents, List.filter_eq_nil_iff]
  intro d hd
  obtain ⟨k, d₀, -, -, -, -, hnum, -⟩ := numRtx_rtxEntries hd
  rw [decide_eq_true_eq]
  intro h0
  rw [h0, UInt32.toNat_zero] at hnum
  omega

end Encoder

/-! ## One frame after the other -/

/-- The datagrams of one more frame. -/
theorem Integrity.datagramsFrom_concat (maxPayload : ℕ) (first : UInt32)
    (frames : List (Bytes × Bool)) (frame : Bytes × Bool) :
    Integrity.datagramsFrom maxPayload first (frames ++ [frame])
      = Integrity.datagramsFrom maxPayload first frames ++
        packetize (first + UInt32.ofNat frames.length) maxPayload frame.1 frame.2 := by
  induction frames generalizing first with
  | nil =>
    show packetize first maxPayload frame.1 frame.2 ++ [] = _
    rw [List.append_nil, List.length_nil]
    show _ = [] ++ packetize (first + 0) maxPayload frame.1 frame.2
    rw [UInt32.add_zero, List.nil_append]
  | cons f frames ih =>
    have hid : first + 1 + UInt32.ofNat frames.length
        = first + UInt32.ofNat (f :: frames).length := by
      rw [List.length_cons, UInt32.ofNat_add, UInt32.add_assoc]
      congr 1
      exact UInt32.add_comm _ _
    rw [List.cons_append, Integrity.datagramsFrom, Integrity.datagramsFrom, ih, hid,
      List.append_assoc]

/-! ## The sender and its frames -/

namespace Encoder

variable {E : Type}

/-- The frames that the sender has encoded: it packetized them one after the other, and what
it keeps and what is on the network are their fragments. -/
structure Sourced (maxPayload : ℕ) (frames : List (Bytes × Bool)) (es : List SenderEvent)
    (enc : Encoder E) (network : List Bytes) : Prop where
  frameId : enc.frameId = UInt32.ofNat frames.length
  packetized : packetizedDatagrams es = Integrity.datagramsFrom maxPayload 0 frames
  fits : ∀ frame ∈ frames, fragCntOf maxPayload frame.1.length < 2 ^ 16
  genuine : Genuine (packetizedDatagrams es) enc
  network : ∀ binary ∈ network, Integrity.Carries (packetizedDatagrams es) binary

theorem sourced_initial (maxPayload : ℕ) (displayWidth displayHeight : UInt16)
    (hasOutput : Bool) :
    Sourced maxPayload [] [] (initial displayWidth displayHeight hasOutput : Encoder E) [] where
  frameId := rfl
  packetized := rfl
  fits := fun _ h => absurd h List.not_mem_nil
  genuine := genuine_initial displayWidth displayHeight hasOutput
  network := fun _ h => absurd h List.not_mem_nil

variable {maxPayload : ℕ} {frames : List (Bytes × Bool)} {es ses : List SenderEvent}
  {enc enc' : Encoder E} {network : List Bytes}

/-- What comes from the network is a copy of a fragment. -/
theorem Sourced.isCopy (h : Sourced maxPayload frames es enc network)
    (hlen : frames.length < 2 ^ 32 - 1) {binary : Bytes} (hb : binary ∈ network) {d : Datagram}
    (hparse : Datagram.parseFromString {} binary = .ok (true, d)) :
    (Integrity.frameSet maxPayload frames hlen).IsCopy d := by
  have hcarry := h.network binary hb
  rw [h.packetized] at hcarry
  obtain ⟨hparse', hcopy⟩ := Integrity.parse_of_carries hlen h.fits hcarry
  rw [hparse, Except.ok.injEq, Prod.mk.injEq] at hparse'
  rw [hparse'.2]
  exact hcopy

variable [RttArith E]

/-- A step that packetizes nothing. -/
theorem Sourced.quiet (h : Sourced maxPayload frames es enc network) (heff : Effect enc enc' ses)
    (hid : enc'.frameId = enc.frameId) (hnone : packetizedDatagrams ses = []) :
    Sourced maxPayload frames (es ++ ses) enc'
      (network ++ (sentDatagrams ses).map Datagram.serializeToString) := by
  have hpacketized : packetizedDatagrams (es ++ ses) = packetizedDatagrams es := by
    rw [packetizedDatagrams_append, hnone, List.append_nil]
  obtain ⟨hgenuine, hsent⟩ := h.genuine.step heff
  refine ⟨hid.trans h.frameId, hpacketized ▸ h.packetized, h.fits, hgenuine, ?_⟩
  intro binary hb
  rcases List.mem_append.mp hb with hmem | hmem
  · rw [hpacketized]
    exact h.network binary hmem
  · obtain ⟨d, hd, rfl⟩ := List.mem_map.mp hmem
    exact (hsent d hd).carries

/-- An attempt to send. -/
theorem Sourced.sendFront (h : Sourced maxPayload frames es enc network) {d : Datagram}
    {rest : List Datagram} {t : UInt64} {outcome : SendOutcome} {more : Bool}
    (hbuf : enc.sendBuf = d :: rest)
    (hsend : enc.sendFront d rest t outcome = .ok (ses, more, enc')) :
    Sourced maxPayload frames (es ++ ses) enc'
      (network ++ (sentDatagrams ses).map Datagram.serializeToString) := by
  refine h.quiet (effect_sendFront hbuf hsend) (frameId_sendFront hsend) ?_
  rcases events_sendFront hsend with rfl | rfl
  · rfl
  · rfl

/-- An acknowledgement. -/
theorem Sourced.handleAck (h : Sourced maxPayload frames es enc network) {msg : AckMsg}
    {t : UInt64} (hack : enc.handleAck msg t = .ok (ses, enc')) :
    Sourced maxPayload frames (es ++ ses) enc' network ∧ sentDatagrams ses = [] := by
  obtain ⟨ses', enc₁, hack', hid, hcases⟩ := handleAck_cases enc msg t
  rw [hack, Except.ok.injEq, Prod.mk.injEq] at hack'
  obtain ⟨rfl, rfl⟩ := hack'
  have hnone : packetizedDatagrams ses = [] ∧ sentDatagrams ses = [] := by
    rcases hcases with ⟨-, rfl, -⟩ | ⟨-, ewma, -, rfl, -⟩
    · exact ⟨rfl, rfl⟩
    · exact ⟨packetizedDatagrams_ackEvents _ _ _ _ _, sentDatagrams_ackEvents _ _ _⟩
  have hsourced := h.quiet (effect_handleAck hack) hid hnone.1
  rw [hnone.2, List.map_nil, List.append_nil] at hsourced
  exact ⟨hsourced, hnone.2⟩

/-- A frame is compressed. -/
theorem Sourced.compressFrame (h : Sourced maxPayload frames es enc network)
    {inp : CompressInput} {frame : Bytes × Bool}
    (hvpx : ∀ pkts, inp.vpx (enc.givesUp inp.encodeTs) = .ok pkts → framesOf pkts = [frame])
    (hcompress : enc.compressFrame maxPayload inp = (.ok (), ses, enc')) :
    Sourced maxPayload (frames ++ [frame]) (es ++ ses) enc' network ∧ sentDatagrams ses = [] := by
  have heff := effect_compressFrame hcompress
  obtain ⟨pkts, ds, hpkts, hds, henc, rfl⟩ := compressFrame_cases hcompress
  obtain ⟨buf, isKey, hframe, hfit, hds'⟩ : ∃ buf isKey, frame = (buf, isKey) ∧
      fragCntOf maxPayload buf.length < 2 ^ 16 ∧
      ds = packetize enc.frameId maxPayload buf isKey := by
    have hone := hvpx pkts hpkts
    rcases hds with ⟨hnone, -⟩ | ⟨buf, isKey, hframes, -, hfit, hds'⟩
    · rw [hone] at hnone
      exact absurd hnone (List.cons_ne_nil _ _)
    · rw [hone, List.cons.injEq] at hframes
      exact ⟨buf, isKey, hframes.1, hfit, hds'⟩
  have hfresh : packetizedDatagrams (enc.compressEvents inp ds) = ds := by
    unfold packetizedDatagrams
    rw [enqueuedDatagrams_compressEvents, List.filter_eq_self]
    exact fun d hd => decide_eq_true (hds.fresh hd).2.2
  refine ⟨⟨?_, ?_, ?_, (h.genuine.step heff).1, ?_⟩, sentDatagrams_compressEvents _ _ _⟩
  · rw [List.length_append, List.length_singleton, UInt32.ofNat_add, ← h.frameId, henc]
    rfl
  · rw [packetizedDatagrams_append, hfresh, h.packetized, Integrity.datagramsFrom_concat,
      ← h.frameId, UInt32.zero_add, hframe, hds']
  · intro f hf
    rcases List.mem_append.mp hf with hmem | hmem
    · exact h.fits f hmem
    · rw [List.mem_singleton.mp hmem, hframe]
      exact hfit
  · intro binary hb
    obtain ⟨d, hd, hcarry⟩ := h.network binary hb
    refine ⟨d, ?_, hcarry⟩
    rw [packetizedDatagrams_append]
    exact List.mem_append_left _ hd

end Encoder

end Ringmaster
