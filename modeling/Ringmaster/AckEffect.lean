/-
# The effect of an acknowledgement

What `handle_ack` does to the two queues, stated without its loop: the unacked datagrams
before the acked one that are due (`DueAt`) go to the front of `send_buf_` in the order of
their sequence numbers, and nothing else changes but the acked one, which is erased.  The
estimate of the RTT is over the exact rationals here, and the differences of timestamps are
differences modulo the width of the type they are stored in.

No datagram is retransmitted more often than `MAX_NUM_RTX` allows (`Limited`).
-/
import Ringmaster.SendOrder

open Unsigned

namespace Ringmaster

namespace Encoder

/-! ## The limit on retransmissions -/

section Limit

variable {E : Type} {enc enc' : Encoder E} {es : List SenderEvent}

/-- The datagrams in `unacked_` are found at their sequence numbers, and none in either queue
was retransmitted more often than allowed. -/
structure Limited (enc : Encoder E) : Prop where
  seqNum_eq : ∀ k d, enc.unacked.find? k = some d → d.seqNum = k
  unacked_le : ∀ k d, enc.unacked.find? k = some d → d.numRtx ≤ maxNumRtx
  queued_le : ∀ d ∈ enc.sendBuf, d.numRtx ≤ maxNumRtx

theorem limited_initial (displayWidth displayHeight : UInt16) (hasOutput : Bool) :
    Limited (initial displayWidth displayHeight hasOutput : Encoder E) where
  seqNum_eq := fun _ _ hd => by simp [initial] at hd
  unacked_le := fun _ _ hd => by simp [initial] at hd
  queued_le := fun _ hd => absurd hd List.not_mem_nil

/-- A give-up keeps the limit. -/
theorem Limited.afterGiveUp (h : Limited enc) (t : UInt64) : Limited (enc.afterGiveUp t) := by
  rcases afterGiveUp_cases enc t with ⟨-, hbuf, hunacked⟩ | ⟨-, heq⟩
  · refine ⟨?_, ?_, ?_⟩
    · rw [hunacked]
      exact fun k d hd => by simp at hd
    · rw [hunacked]
      exact fun k d hd => by simp at hd
    · rw [hbuf]
      exact fun d hd => absurd hd List.not_mem_nil
  · rw [heq]
    exact h

/-- A datagram that is sent for the first time is below the limit. -/
theorem Limited.sentFresh (h : Limited enc) {d : Datagram} {rest : List Datagram} {t : UInt64}
    (hd : enc.sendBuf = d :: rest) (h0 : d.numRtx = 0) (hbuf : enc'.sendBuf = rest)
    (hfind : ∀ k, enc'.unacked.find? k = if k = d.seqNum
      then some { d with sendTs := t, lastSendTs := t } else enc.unacked.find? k) :
    Limited enc' := by
  refine ⟨?_, ?_, fun d' hd' => ?_⟩
  · intro k d' hd'
    rw [hfind] at hd'
    split_ifs at hd' with hk
    · rw [Option.some_inj] at hd'
      subst hd' hk
      rfl
    · exact h.seqNum_eq k d' hd'
  · intro k d' hd'
    rw [hfind] at hd'
    split_ifs at hd' with hk
    · rw [Option.some_inj] at hd'
      subst hd'
      show d.numRtx ≤ maxNumRtx
      rw [h0]
      exact zero_le_uint32 _
    · exact h.unacked_le k d' hd'
  · rw [hbuf] at hd'
    exact h.queued_le d' (by rw [hd]; exact List.mem_cons_of_mem d hd')

variable [RttArith E]

/-- What an acknowledgement retransmits stays within the limit. -/
theorem Limited.acked (h : Limited enc) {seq : SeqNum} {ewma : E} {t : UInt64}
    (hbuf : enc'.sendBuf = ((enc.rtxEntries seq ewma t).map Prod.snd).reverse ++ enc.sendBuf)
    (hfind : ∀ k, enc'.unacked.find? k = if k = seq then none
      else (enc.unacked.find? k).map fun d =>
        if k < seq ∧ isDue ewma t d then retransmitted t d else d) : Limited enc' := by
  have hrtx : ∀ k d', enc'.unacked.find? k = some d' →
      d'.seqNum = k ∧ d'.numRtx ≤ maxNumRtx := by
    intro k d' hd'
    rw [hfind] at hd'
    split_ifs at hd'
    obtain ⟨d, hd, rfl⟩ := Option.map_eq_some_iff.mp hd'
    split_ifs with hdue
    · -- the copy in the send queue speaks for the entry
      have hmem : retransmitted t d ∈ (enc.rtxEntries seq ewma t).map Prod.snd :=
        List.mem_map.mpr ⟨(k, _), mem_rtxEntries.mpr ⟨d, hd, hdue.1, hdue.2, rfl⟩, rfl⟩
      obtain ⟨-, -, -, -, -, -, -, hle⟩ := numRtx_rtxEntries hmem
      exact ⟨h.seqNum_eq k d hd, hle⟩
    · exact ⟨h.seqNum_eq k d hd, h.unacked_le k d hd⟩
  refine ⟨fun k d' hd' => (hrtx k d' hd').1, fun k d' hd' => (hrtx k d' hd').2, ?_⟩
  intro d' hd'
  rw [hbuf] at hd'
  rcases List.mem_append.mp hd' with hmem | hmem
  · obtain ⟨-, -, -, -, -, -, -, hle⟩ := numRtx_rtxEntries (List.mem_reverse.mp hmem)
    exact hle
  · exact h.queued_le d' hmem

/-- A step keeps the limit. -/
theorem Limited.step (h : Limited enc) (heff : Effect enc enc' es) : Limited enc' := by
  cases heff with
  | compressed inp ds hds hpairwise hid hbuf hunacked =>
    have hold := h.afterGiveUp inp.encodeTs
    refine ⟨hunacked ▸ hold.seqNum_eq, hunacked ▸ hold.unacked_le, fun d hd => ?_⟩
    rw [hbuf] at hd
    rcases List.mem_append.mp hd with hmem | hmem
    · exact hold.queued_le d hmem
    · rw [(hds d hmem).2.2]
      exact zero_le_uint32 _
  | sentFresh d rest t hd h0 hnone hid hbuf hfind => exact h.sentFresh hd h0 hbuf hfind
  | sentRtx d rest t hd h0 hid hbuf hunacked =>
    refine ⟨hunacked ▸ h.seqNum_eq, hunacked ▸ h.unacked_le, fun d' hd' => ?_⟩
    rw [hbuf] at hd'
    exact h.queued_le d' (by rw [hd]; exact List.mem_cons_of_mem d hd')
  | blocked d rest t hd hid hbuf hunacked =>
    refine ⟨hunacked ▸ h.seqNum_eq, hunacked ▸ h.unacked_le, fun d' hd' => ?_⟩
    rw [hbuf] at hd'
    rcases List.mem_cons.mp hd' with rfl | hmem
    · exact h.queued_le d (by rw [hd]; exact List.mem_cons_self)
    · exact h.queued_le d' (by rw [hd]; exact List.mem_cons_of_mem d hmem)
  | stray t hid hbuf hunacked =>
    exact ⟨hunacked ▸ h.seqNum_eq, hunacked ▸ h.unacked_le, hbuf ▸ h.queued_le⟩
  | acked seq ewma t hc hid hbuf hfind => exact h.acked hbuf hfind

/-- Every run keeps the limit. -/
theorem limited_of_steps {maxPayload : ℕ} {displayWidth displayHeight : UInt16}
    {hasOutput : Bool}
    (h : Run.Steps (Step maxPayload) (initial displayWidth displayHeight hasOutput) es enc) :
    Limited enc :=
  h.invariant (fun _ enc => Limited enc) (limited_initial displayWidth displayHeight hasOutput)
    (fun _ _ _ _ hI hstep => hI.step hstep.effect)

end Limit

/-! ## The estimate of the RTT -/

/-- Handling an acknowledgement leaves the estimates as the sample made them. -/
theorem estimates_handleAck {E : Type} [RttArith E] {enc enc' : Encoder E} {ack : AckMsg}
    {t : UInt64} {es : List SenderEvent} (h : enc.handleAck ack t = .ok (es, enc')) :
    enc'.minRttUs = (enc.addRttSample (t - ack.sendTs).toUInt32).minRttUs ∧
      enc'.ewmaRttUs = (enc.addRttSample (t - ack.sendTs).toUInt32).ewmaRttUs := by
  unfold handleAck at h
  dsimp only at h
  split at h
  · rw [Except.ok.injEq, Prod.mk.injEq] at h
    rw [← h.2]
    exact ⟨rfl, rfl⟩
  · split at h
    · simp at h
    · rw [Except.ok.injEq, Prod.mk.injEq] at h
      rw [← h.2]
      exact ⟨rfl, rfl⟩

variable {es : List SenderEvent} {enc : Encoder ℚ}

/-- The estimate after a sample: the sample itself if it is the first one, and otherwise the
weighted mean with `ALPHA = 1 / 5`. -/
def ewmaAfter (ewma : Option ℚ) (rttUs : ℤ) : ℚ :=
  match ewma with
  | none => rttUs
  | some ewma => 1 / 5 * rttUs + (1 - 1 / 5) * ewma

/-- The sample of an acknowledgement. -/
def rttSample (ack : AckMsg) (t : UInt64) : ℤ := ((t.toNat : ℤ) - ack.sendTs.toNat) % 2 ^ 32

/-- The condition for a retransmission: below the limit, and never retransmitted or not for
longer than the estimate. -/
def DueAt (r : ℚ) (t : UInt64) (d : Datagram) : Prop :=
  d.numRtx < maxNumRtx ∧
    (d.numRtx = 0 ∨ r < ((((t.toNat : ℤ) - d.lastSendTs.toNat) % 2 ^ 64 : ℤ) : ℚ))

instance (r : ℚ) (t : UInt64) (d : Datagram) : Decidable (DueAt r t d) := instDecidableAnd

/-- The two conditions for a retransmission agree. -/
theorem isDue_iff_dueAt {r : ℚ} {t : UInt64} {d : Datagram} : isDue r t d ↔ DueAt r t d := by
  have hexceeds : RttArith.exceeds (t - d.lastSendTs) r
      = decide (r < ((((t.toNat : ℤ) - d.lastSendTs.toNat) % 2 ^ 64 : ℤ) : ℚ)) := by
    rw [← toNat_sub_uint64, Int.cast_natCast]
    rfl
  unfold isDue DueAt
  rw [hexceeds, Bool.and_eq_true, Bool.or_eq_true, decide_eq_true_eq, decide_eq_true_eq,
    decide_eq_true_eq]

/-- The estimate after the sample of an acknowledgement. -/
theorem ewmaRttUs_addRttSample (enc : Encoder ℚ) (ack : AckMsg) (t : UInt64) :
    (enc.addRttSample (t - ack.sendTs).toUInt32).ewmaRttUs
      = some (ewmaAfter enc.ewmaRttUs (rttSample ack t)) := by
  have hcast : (((t - ack.sendTs).toUInt32.toNat : ℕ) : ℚ) = (rttSample ack t : ℤ) := by
    rw [rttSample, ← toNat_toUInt32_sub, Int.cast_natCast]
  unfold addRttSample
  cases enc.ewmaRttUs with
  | none => exact congrArg some hcast
  | some ewma =>
    show some (1 / 5 * (((t - ack.sendTs).toUInt32.toNat : ℕ) : ℚ) + (1 - 1 / 5) * ewma) = _
    rw [hcast]
    rfl

/-- The estimate after an acknowledgement. -/
theorem ewmaRttUs_handleAck {enc enc' : Encoder ℚ} {ack : AckMsg} {t : UInt64}
    (h : enc.handleAck ack t = .ok (es, enc')) :
    enc'.ewmaRttUs = some (ewmaAfter enc.ewmaRttUs (rttSample ack t)) := by
  rw [← ewmaRttUs_addRttSample]
  exact (estimates_handleAck h).2

/-! ## The effect -/

/-- The entries of `unacked_` that an acknowledgement of `seq` at the time `t` makes due. -/
def dueEntries (enc : Encoder ℚ) (seq : SeqNum) (r : ℚ) (t : UInt64) :
    List (SeqNum × Datagram) :=
  enc.unacked.entries.filter fun e => decide (e.1 < seq ∧ DueAt r t e.2)

/-- The loop walks through the due entries backwards. -/
theorem rtxEntries_eq (enc : Encoder ℚ) (seq : SeqNum) (r : ℚ) (t : UInt64) :
    enc.rtxEntries seq r t
      = ((enc.dueEntries seq r t).map fun e => (e.1, retransmitted t e.2)).reverse := by
  have hfilter : enc.dueEntries seq r t
      = (enc.unacked.entries.filter fun e => decide (e.1 < seq)).filter
        fun e => isDue r t e.2 := by
    unfold dueEntries
    rw [List.filter_filter]
    congr 1
    funext e
    rw [Bool.eq_iff_iff, decide_eq_true_eq, Bool.and_eq_true, decide_eq_true_eq,
      isDue_iff_dueAt, and_comm]
  unfold rtxEntries
  rw [List.filter_reverse, List.map_reverse, ← hfilter]

/-- The due entries are in increasing order. -/
theorem pairwise_dueEntries (enc : Encoder ℚ) (seq : SeqNum) (r : ℚ) (t : UInt64) :
    (enc.dueEntries seq r t).Pairwise (fun a b => a.1 < b.1) :=
  enc.unacked.sorted.filter _

/-- A due entry is an unacked datagram before the acked one. -/
theorem mem_dueEntries {seq k : SeqNum} {r : ℚ} {t : UInt64} {d : Datagram} :
    (k, d) ∈ enc.dueEntries seq r t ↔
      enc.unacked.find? k = some d ∧ k < seq ∧ DueAt r t d := by
  unfold dueEntries
  rw [List.mem_filter, decide_eq_true_eq, OrderedMap.find?_eq_some_iff]

/-- What a datagram becomes in `unacked_` when `seq` is acknowledged at the time `t`: it is
updated exactly if it is due. -/
def afterAck (seq : SeqNum) (r : ℚ) (t : UInt64) (k : SeqNum) (d : Datagram) : Datagram :=
  if k < seq ∧ DueAt r t d then
    { d with numRtx := d.numRtx + 1, lastSendTs := t }
  else
    d

theorem seqNum_afterAck (seq : SeqNum) (r : ℚ) (t : UInt64) (k : SeqNum) (d : Datagram) :
    (afterAck seq r t k d).seqNum = d.seqNum := by
  unfold afterAck
  split_ifs
  · rfl
  · rfl

theorem payload_afterAck (seq : SeqNum) (r : ℚ) (t : UInt64) (k : SeqNum) (d : Datagram) :
    (afterAck seq r t k d).payload = d.payload := by
  unfold afterAck
  split_ifs
  · rfl
  · rfl

/-- A due entry is retransmitted. -/
theorem afterAck_of_mem {seq : SeqNum} {r : ℚ} {t : UInt64} {e : SeqNum × Datagram}
    (h : e ∈ enc.dueEntries seq r t) :
    afterAck seq r t e.1 e.2 = retransmitted t e.2 := by
  obtain ⟨k, d⟩ := e
  obtain ⟨-, hlt, hdue⟩ := mem_dueEntries.mp h
  exact if_pos ⟨hlt, hdue⟩

/-- What the loop puts in front of the send queue. -/
theorem copies_eq (enc : Encoder ℚ) (seq : SeqNum) (r : ℚ) (t : UInt64) :
    ((enc.rtxEntries seq r t).map Prod.snd).reverse
      = (enc.dueEntries seq r t).map fun e => afterAck seq r t e.1 e.2 := by
  rw [rtxEntries_eq, List.map_reverse, List.reverse_reverse, List.map_map]
  exact List.map_congr_left (fun e he => (afterAck_of_mem he).symm)

/-- The effect of an acknowledgement on the queues of any encoder. -/
theorem handleAck_queues (enc : Encoder ℚ) (ack : AckMsg) (t : UInt64) :
    ∃ es' enc', enc.handleAck ack t = .ok (es', enc') ∧
      enc'.ewmaRttUs = some (ewmaAfter enc.ewmaRttUs (rttSample ack t)) ∧
      ((enc.unacked.find? ack.seqNum = none ∧ enc'.sendBuf = enc.sendBuf ∧
          enc'.unacked = enc.unacked) ∨
        ∃ r, r = ewmaAfter enc.ewmaRttUs (rttSample ack t) ∧ enc.unacked.contains ack.seqNum ∧
          enc'.sendBuf = ((enc.dueEntries ack.seqNum r t).map fun e =>
            afterAck ack.seqNum r t e.1 e.2) ++ enc.sendBuf ∧
          ∀ k, enc'.unacked.find? k = if k = ack.seqNum then none
            else (enc.unacked.find? k).map (afterAck ack.seqNum r t k)) := by
  obtain ⟨es', enc', heq, -, hcases⟩ := handleAck_cases enc ack t
  have hewma := ewmaRttUs_handleAck heq
  refine ⟨es', enc', heq, hewma, ?_⟩
  rcases hcases with ⟨hnone, -, hbuf, hunacked⟩ | ⟨hc, r, hr, -, hbuf, hfind⟩
  · exact Or.inl ⟨hnone, hbuf, hunacked⟩
  · rw [hewma, Option.some_inj] at hr
    refine Or.inr ⟨r, hr.symm, hc, ?_, fun k => ?_⟩
    · rw [hbuf, copies_eq]
    · rw [hfind]
      split_ifs
      · rfl
      · congr 1
        funext d
        unfold afterAck
        simp only [isDue_iff_dueAt]
        rfl

/-- The exact effect of an acknowledgement.  In every reachable state `handle_ack` succeeds
and records the sample.  If the acked datagram is not unacked, both queues stay as they are.
Otherwise it is erased from `unacked_`, the entries that are due are updated there, and
their updated copies stand in front of `send_buf_`, in increasing order.  Entries behind the
acked one and all payloads are untouched, the count of an updated entry goes up by one, and
no count exceeds the limit. -/
theorem handleAck_exact {maxPayload : ℕ} {displayWidth displayHeight : UInt16}
    {hasOutput : Bool}
    (hrun : Run.Steps (Step maxPayload) (initial displayWidth displayHeight hasOutput) es enc)
    (ack : AckMsg) (t : UInt64) :
    let r := ewmaAfter enc.ewmaRttUs (rttSample ack t)
    let due := enc.dueEntries ack.seqNum r t
    let copies := due.map fun e => afterAck ack.seqNum r t e.1 e.2
    ∃ es' enc', enc.handleAck ack t = .ok (es', enc') ∧ enc'.ewmaRttUs = some r ∧
      (enc.unacked.find? ack.seqNum = none →
        enc'.sendBuf = enc.sendBuf ∧ enc'.unacked = enc.unacked) ∧
      (enc.unacked.contains ack.seqNum →
        enc'.sendBuf = copies ++ enc.sendBuf ∧
        ∀ k, enc'.unacked.find? k = if k = ack.seqNum then none
          else (enc.unacked.find? k).map (afterAck ack.seqNum r t k)) ∧
      copies.Pairwise (fun a b => a.seqNum < b.seqNum) ∧
      (∀ e ∈ due, e.2.seqNum = e.1 ∧
        (afterAck ack.seqNum r t e.1 e.2).seqNum = e.1 ∧
        (afterAck ack.seqNum r t e.1 e.2).payload = e.2.payload ∧
        (afterAck ack.seqNum r t e.1 e.2).numRtx.toNat = e.2.numRtx.toNat + 1 ∧
        (afterAck ack.seqNum r t e.1 e.2).lastSendTs = t) ∧
      (∀ k, ack.seqNum < k → enc'.unacked.find? k = enc.unacked.find? k) ∧
      (∀ k d', enc'.unacked.find? k = some d' →
        ∃ d, enc.unacked.find? k = some d ∧ d'.payload = d.payload) ∧
      (∀ k d, enc'.unacked.find? k = some d → d.numRtx ≤ maxNumRtx) ∧
      ∀ d ∈ enc'.sendBuf, d.numRtx ≤ maxNumRtx := by
  intro r due copies
  have hlimited := limited_of_steps hrun
  obtain ⟨es', enc', heq, hewma, hcases⟩ := handleAck_queues enc ack t
  have hlimited' : Limited enc' := hlimited.step (effect_handleAck heq)
  have hdue : ∀ e ∈ due, e.2.seqNum = e.1 ∧ (afterAck ack.seqNum r t e.1 e.2).seqNum = e.1 := by
    rintro ⟨k, d⟩ he
    have hk : d.seqNum = k := hlimited.seqNum_eq k d (mem_dueEntries.mp he).1
    exact ⟨hk, (seqNum_afterAck _ _ _ _ _).trans hk⟩
  refine ⟨es', enc', heq, hewma, ?_, ?_, ?_, ?_, ?_, ?_, hlimited'.unacked_le,
    hlimited'.queued_le⟩
  · intro hnone
    rcases hcases with ⟨-, hbuf, hunacked⟩ | ⟨_, -, hc, -⟩
    · exact ⟨hbuf, hunacked⟩
    · rw [OrderedMap.contains, hnone] at hc
      exact absurd hc (by simp)
  · intro hc
    rcases hcases with ⟨hnone, -⟩ | ⟨_, rfl, -, hbuf, hfind⟩
    · rw [OrderedMap.contains, hnone] at hc
      exact absurd hc (by simp)
    · exact ⟨hbuf, hfind⟩
  · show (due.map fun e => afterAck ack.seqNum r t e.1 e.2).Pairwise _
    rw [List.pairwise_map]
    refine (pairwise_dueEntries enc ack.seqNum r t).imp_of_mem (fun {a b} ha hb hlt => ?_)
    rw [(hdue a ha).2, (hdue b hb).2]
    exact hlt
  · intro e he
    have hupdated : afterAck ack.seqNum r t e.1 e.2 = retransmitted t e.2 := afterAck_of_mem he
    have hcount : (retransmitted t e.2).numRtx.toNat = e.2.numRtx.toNat + 1 :=
      toNat_numRtx_retransmitted (isDue_iff_dueAt.mpr (mem_dueEntries.mp he).2.2)
    refine ⟨(hdue e he).1, (hdue e he).2, payload_afterAck _ _ _ _ _, ?_, ?_⟩
    · rw [hupdated]
      exact hcount
    · rw [hupdated]
      rfl
  · intro k hk
    rcases hcases with ⟨-, -, hunacked⟩ | ⟨_, -, -, -, hfind⟩
    · rw [hunacked]
    · rw [hfind, if_neg (ne_of_gt hk)]
      cases enc.unacked.find? k with
      | none => rfl
      | some d => exact congrArg some (if_neg (fun h => lt_asymm hk h.1))
  · intro k d' hd'
    rcases hcases with ⟨-, -, hunacked⟩ | ⟨_, -, -, -, hfind⟩
    · rw [hunacked] at hd'
      exact ⟨d', hd', rfl⟩
    · rw [hfind] at hd'
      split_ifs at hd'
      obtain ⟨d, hd, rfl⟩ := Option.map_eq_some_iff.mp hd'
      exact ⟨d, hd, payload_afterAck _ _ _ _ _⟩

/-- Two frames of one datagram each are sent, and the second one is acknowledged after 100
microseconds: the estimate becomes 100 and the first datagram is retransmitted. -/
theorem handleAck_exact_twoFrames : ∃ es enc,
    Run.Steps (Step 2000) (initial 2 2 false : Encoder ℚ) es enc ∧ enc.sendBuf = [] ∧
      ∃ es' enc', enc.handleAck ⟨1, 0, 30⟩ 130 = .ok (es', enc') ∧
        enc'.ewmaRttUs = some 100 ∧
        enc'.sendBuf.map (fun d => (d.frameId, d.numRtx, d.lastSendTs)) = [(0, 1, 130)] ∧
        enc'.unacked.find? (toLex (1, 0)) = none := by
  have h₁ : Step 2000 (initial 2 2 false : Encoder ℚ) _ _ :=
    @Step.compress _ _ _ _ _ (smallFrame 5) _ rfl
  have h₂ := (Run.Steps.single h₁).tail (@Step.send _ _ _ _ _ _ _ 10 .accepted _ _ rfl rfl)
  have h₃ := h₂.tail (@Step.compress _ _ _ _ _ (smallFrame 20) _ rfl)
  have h₄ := h₃.tail (@Step.send _ _ _ _ _ _ _ 30 .accepted _ _ rfl rfl)
  obtain ⟨es', enc', heq, hewma, -, hqueues, -⟩ := handleAck_exact h₄ ⟨1, 0, 30⟩ 130
  obtain ⟨hbuf, hfind⟩ := hqueues rfl
  refine ⟨_, _, h₄, rfl, es', enc', heq, ?_, ?_, ?_⟩
  · rw [hewma]
    rfl
  · rw [hbuf]
    rfl
  · rw [hfind]
    rfl

end Encoder

end Ringmaster
