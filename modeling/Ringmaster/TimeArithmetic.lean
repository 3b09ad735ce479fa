/-
# The sender's time arithmetic

The encoder forms three unsigned differences of times: the age of the first unacked datagram
in `encode_frame`, and the RTT sample and the times since the last transmissions in
`handle_ack`.  The sample is stored in 32 bits.

Every timestamp in `unacked_` was read off the clock earlier in the run (`Stamped`), so no
difference of local times wraps around while the clock does not run backwards.  The RTT
sample also depends on what the peer puts into its acknowledgement; it is exact if and only
if that is a time not after the reading, and less than `2 ^ 32` microseconds before it
(`timeExact_of_steps`).  Neither condition is checked (`exists_wrapped`).
-/
import Ringmaster.SendOrder
import Ringmaster.AckEffect
import Ringmaster.Messages

open Unsigned

namespace Ringmaster

namespace Encoder

variable {E : Type}

/-! ## Exact differences -/

/-- The difference `b - a` of unsigned values is the one of integers. -/
def ExactSub (b a : UInt64) : Prop := ((b - a).toNat : ℤ) = (b.toNat : ℤ) - a.toNat

/-- The difference that `encode_frame` forms for the images of the right size is exact. -/
def EncodeExact (enc : Encoder E) (inp : CompressInput) : Prop :=
  inp.imgWidth = enc.displayWidth → inp.imgHeight = enc.displayHeight →
    ∀ k d, enc.unacked.entries.head? = some (k, d) → ExactSub inp.encodeTs d.sendTs

/-- The differences that `handle_ack` forms are exact: the RTT sample, also after it is passed
as an `unsigned int`, and the times since the last transmissions of the datagrams before an
unacked one, where they are looked at. -/
structure AckExact (enc : Encoder E) (ack : AckMsg) (t : UInt64) : Prop where
  sample : ExactSub t ack.sendTs
  narrowed : (t - ack.sendTs).toUInt32.toNat = (t - ack.sendTs).toNat
  spacing : enc.unacked.contains ack.seqNum → ∀ k d, enc.unacked.find? k = some d →
    k < ack.seqNum → d.numRtx < maxNumRtx → d.numRtx ≠ 0 → ExactSub t d.lastSendTs

/-- A difference is exact when it does not go below zero. -/
theorem exactSub_iff {b a : UInt64} : ExactSub b a ↔ a ≤ b := by
  have ha : a.toNat < 18446744073709551616 := a.toNat_lt
  have hb : b.toNat < 18446744073709551616 := b.toNat_lt
  unfold ExactSub
  rw [toNat_sub_uint64, UInt64.le_iff_toNat_le]
  omega

/-- A difference survives in 32 bits when it is below their limit. -/
theorem narrowed_iff {b a : UInt64} :
    (b - a).toUInt32.toNat = (b - a).toNat ↔ (b - a).toNat < 2 ^ 32 := by
  rw [UInt64.toNat_toUInt32]
  omega

/-! ## What exact differences decide -/

/-- When its difference is exact, `encode_frame` gives up if and only if the first unacked
datagram was first sent more than the limit ago. -/
theorem EncodeExact.givesUp_iff {enc : Encoder E} {inp : CompressInput}
    (h : EncodeExact enc inp)
    (hdim : inp.imgWidth = enc.displayWidth ∧ inp.imgHeight = enc.displayHeight) :
    enc.givesUp inp.encodeTs ↔ ∃ k d, enc.unacked.entries.head? = some (k, d) ∧
      (maxUnackedUs.toNat : ℤ) < (inp.encodeTs.toNat : ℤ) - d.sendTs.toNat := by
  rw [Encoder.givesUp_iff]
  constructor
  · rintro ⟨k, d, hhead, hold⟩
    have hsub : ExactSub inp.encodeTs d.sendTs := h hdim.1 hdim.2 k d hhead
    refine ⟨k, d, hhead, ?_⟩
    rw [← hsub]
    exact Int.ofNat_lt.mpr (UInt64.lt_iff_toNat_lt.mp hold)
  · rintro ⟨k, d, hhead, hold⟩
    have hsub : ExactSub inp.encodeTs d.sendTs := h hdim.1 hdim.2 k d hhead
    refine ⟨k, d, hhead, ?_⟩
    rw [← hsub] at hold
    exact UInt64.lt_iff_toNat_lt.mpr (Int.ofNat_lt.mp hold)

section Ack

variable {ack : AckMsg} {t : UInt64}

/-- The sample that the estimates get is the time since the timestamp that the peer echoes. -/
theorem AckExact.rttSample_eq {enc : Encoder E} (h : AckExact enc ack t) :
    rttSample ack t = (t.toNat : ℤ) - ack.sendTs.toNat := by
  have hsample : ((t - ack.sendTs).toNat : ℤ) = (t.toNat : ℤ) - ack.sendTs.toNat := h.sample
  rw [rttSample, ← toNat_toUInt32_sub, h.narrowed, hsample]

/-- The minimum RTT after an acknowledgement is the least of the true samples. -/
theorem AckExact.minRttUs_addRttSample [RttArith E] {enc : Encoder E}
    (h : AckExact enc ack t) :
    ((enc.addRttSample (t - ack.sendTs).toUInt32).minRttUs.map fun rtt => (rtt.toNat : ℤ))
      = some (enc.minRttUs.elim ((t.toNat : ℤ) - ack.sendTs.toNat)
        fun minRtt => min ((t.toNat : ℤ) - ack.sendTs.toNat) minRtt.toNat) := by
  have hsample : (((t - ack.sendTs).toUInt32.toNat : ℕ) : ℤ)
      = (t.toNat : ℤ) - ack.sendTs.toNat := by
    rw [h.narrowed]
    exact h.sample
  unfold addRttSample
  rw [← hsample]
  cases enc.minRttUs with
  | none => rfl
  | some minRtt =>
    show Option.map _ (if _ then _ else _) = some (min _ _)
    split_ifs with hlt
    · have hlt' := UInt32.lt_iff_toNat_lt.mp hlt
      rw [Option.map_some, min_eq_left (by omega)]
    · have hle := UInt32.le_iff_toNat_le.mp (not_lt.mp hlt)
      rw [Option.map_some, min_eq_right (by omega)]

/-- A retransmission happens for the first time, or when the last one is longer ago than the
estimate of the RTT. -/
theorem AckExact.dueAt_iff {enc : Encoder E} (h : AckExact enc ack t)
    (hc : enc.unacked.contains ack.seqNum) {k : SeqNum} {d : Datagram}
    (hd : enc.unacked.find? k = some d) (hlt : k < ack.seqNum) (r : ℚ) :
    DueAt r t d ↔ d.numRtx < maxNumRtx ∧
      (d.numRtx = 0 ∨ r < (((t.toNat : ℤ) - d.lastSendTs.toNat : ℤ) : ℚ)) := by
  refine and_congr_right fun hmax => ?_
  by_cases h0 : d.numRtx = 0
  · simp only [h0, true_or]
  · have hsub : ((t - d.lastSendTs).toNat : ℤ) = (t.toNat : ℤ) - d.lastSendTs.toNat :=
      h.spacing hc k d hd hlt hmax h0
    rw [← toNat_sub_uint64, hsub]

end Ack

/-! ## Where the timestamps come from -/

/-- Every timestamp in `unacked_` was read off the clock. -/
def Stamped (es : List SenderEvent) (enc : Encoder E) : Prop :=
  ∀ k d, enc.unacked.find? k = some d → d.sendTs ∈ clocks es ∧ d.lastSendTs ∈ clocks es

section Stamped

variable {es es' : List SenderEvent} {enc enc' : Encoder E}

theorem stamped_initial (displayWidth displayHeight : UInt16) (hasOutput : Bool) :
    Stamped [] (initial displayWidth displayHeight hasOutput : Encoder E) :=
  fun _ _ hd => by simp [initial] at hd

/-- What was read off the clock stays read. -/
theorem Stamped.append (h : Stamped es enc) (es' : List SenderEvent) :
    Stamped (es ++ es') enc := by
  intro k d hd
  rw [clocks_append]
  exact ⟨List.mem_append_left _ (h k d hd).1, List.mem_append_left _ (h k d hd).2⟩

/-- Only the entries of `unacked_` matter. -/
theorem Stamped.of_unacked (h : Stamped es enc) (heq : enc'.unacked = enc.unacked) :
    Stamped es enc' := by
  intro k d hd
  rw [heq] at hd
  exact h k d hd

/-- What was stamped lies before the next reading of a clock that does not run backwards. -/
theorem Stamped.le_reading (h : Stamped es enc) {t : UInt64}
    (hmono : ClockMonotone (es ++ [SenderEvent.clock t])) {k : SeqNum} {d : Datagram}
    (hd : enc.unacked.find? k = some d) : d.sendTs ≤ t ∧ d.lastSendTs ≤ t := by
  have hread : t ∈ clocks [.clock t] := List.mem_cons_self
  exact ⟨hmono.le (h k d hd).1 hread, hmono.le (h k d hd).2 hread⟩

variable [RttArith E]

/-- A step reads off the clock what it writes into `unacked_`. -/
theorem Stamped.step (h : Stamped es enc) (heff : Effect enc enc' es') :
    Stamped (es ++ es') enc' := by
  cases heff with
  | compressed inp ds hds hpairwise hid hbuf hunacked =>
    rcases afterGiveUp_cases enc inp.encodeTs with ⟨-, -, hempty⟩ | ⟨-, heq⟩
    · intro k d hd
      rw [hunacked, hempty] at hd
      simp at hd
    · rw [heq] at hunacked
      exact (h.append _).of_unacked hunacked
  | sentFresh d rest t hd h0 hnone hid hbuf hfind =>
    intro k d' hd'
    rw [hfind] at hd'
    split_ifs at hd' with hk
    · rw [Option.some_inj] at hd'
      subst hd'
      have hmem : t ∈ clocks (es ++ [SenderEvent.clock t, .sent { d with sendTs := t }]) := by
        rw [clocks_append]
        exact List.mem_append_right _ List.mem_cons_self
      exact ⟨hmem, hmem⟩
    · exact h.append _ k d' hd'
  | sentRtx d rest t hd h0 hid hbuf hunacked => exact (h.append _).of_unacked hunacked
  | blocked d rest t hd hid hbuf hunacked => exact (h.append _).of_unacked hunacked
  | stray t hid hbuf hunacked => exact (h.append _).of_unacked hunacked
  | acked seq ewma t hc hid hbuf hfind =>
    intro k d hd
    rw [hfind] at hd
    split_ifs at hd
    obtain ⟨d₀, hd₀, rfl⟩ := Option.map_eq_some_iff.mp hd
    have hold := h.append (ackEvents t ((enc.rtxEntries seq ewma t).map Prod.snd) seq) k d₀ hd₀
    split_ifs with hdue
    · -- a retransmission is stamped with the reading, and keeps its first timestamp
      refine ⟨hold.1, ?_⟩
      rw [clocks_append]
      apply List.mem_append_right
      show t ∈ clocks ([SenderEvent.clock t] ++ _ ++ _)
      rw [clocks_append, clocks_append, List.append_assoc]
      exact List.mem_cons_self
    · exact hold

/-- In every run the timestamps in `unacked_` were read off the clock. -/
theorem stamped_of_steps {maxPayload : ℕ} {displayWidth displayHeight : UInt16}
    {hasOutput : Bool}
    (h : Run.Steps (Step maxPayload) (initial displayWidth displayHeight hasOutput) es enc) :
    Stamped es enc :=
  h.invariant Stamped (stamped_initial displayWidth displayHeight hasOutput)
    (fun _ _ _ _ hI hstep => hI.step hstep.effect)

/-! ## Exactness over runs -/

/-- Time arithmetic under a clock that never runs backwards.  In every state that a run
reaches, the difference of the next `encode_frame` is exact, and the differences of the next
`handle_ack` are exact if and only if the timestamp in the acknowledgement is one that an
honest peer could echo within `2 ^ 32` microseconds. -/
theorem timeExact_of_steps {maxPayload : ℕ} {displayWidth displayHeight : UInt16}
    {hasOutput : Bool}
    (h : Run.Steps (Step maxPayload) (initial displayWidth displayHeight hasOutput) es enc) :
    (∀ inp : CompressInput, ClockMonotone (es ++ [.clock inp.encodeTs]) → EncodeExact enc inp) ∧
    ∀ (ack : AckMsg) (t : UInt64), ClockMonotone (es ++ [.clock t]) →
      (AckExact enc ack t ↔ ack.sendTs ≤ t ∧ t.toNat - ack.sendTs.toNat < 2 ^ 32) := by
  have hstamped := stamped_of_steps h
  constructor
  · intro inp hmono _ _ k d hhead
    exact exactSub_iff.mpr (hstamped.le_reading hmono (find?_of_head? hhead)).1
  · intro ack t hmono
    constructor
    · intro hexact
      have hle := exactSub_iff.mp hexact.sample
      have hsmall := narrowed_iff.mp hexact.narrowed
      rw [UInt64.toNat_sub_of_le t ack.sendTs hle] at hsmall
      exact ⟨hle, hsmall⟩
    · rintro ⟨hle, hsmall⟩
      refine ⟨exactSub_iff.mpr hle, narrowed_iff.mpr ?_, ?_⟩
      · rw [UInt64.toNat_sub_of_le t ack.sendTs hle]
        exact hsmall
      · intro _ k d hd _ _ _
        exact exactSub_iff.mpr (hstamped.le_reading hmono hd).2

end Stamped

/-- A frame is compressed and its datagram sent. -/
theorem steps_sentSmallFrame : ∃ es enc,
    Run.Steps (Step 2000) (initial 2 2 false : Encoder ℚ) es enc ∧ clocks es = [5, 10] ∧
      enc.unacked.entries.head?.map (fun e => e.2.sendTs) = some 10 ∧
      enc.displayWidth = 2 ∧ enc.displayHeight = 2 := by
  have h₁ : Step 2000 (initial 2 2 false : Encoder ℚ) _ _ :=
    @Step.compress _ _ _ _ _ (smallFrame 5) _ rfl
  have h₂ := (Run.Steps.single h₁).tail (@Step.send _ _ _ _ _ _ _ 10 .accepted _ _ rfl rfl)
  exact ⟨_, _, h₂, rfl, rfl, rfl, rfl⟩

/-- An acknowledgement of the datagram after 20 microseconds. -/
theorem timeExact_of_steps_smallFrame : ∃ es enc,
    Run.Steps (Step 2000) (initial 2 2 false : Encoder ℚ) es enc ∧
      EncodeExact enc (smallFrame 40) ∧ AckExact enc ⟨0, 0, 10⟩ 30 := by
  obtain ⟨es, enc, hrun, hclocks, -⟩ := steps_sentSmallFrame
  have h := timeExact_of_steps hrun
  refine ⟨es, enc, hrun, h.1 (smallFrame 40) ?_, (h.2 ⟨0, 0, 10⟩ 30 ?_).mpr ?_⟩
  · show (clocks (es ++ _)).Pairwise (· ≤ ·)
    rw [clocks_append, hclocks]
    show List.Pairwise (· ≤ ·) ([5, 10, 40] : List UInt64)
    decide
  · show (clocks (es ++ _)).Pairwise (· ≤ ·)
    rw [clocks_append, hclocks]
    show List.Pairwise (· ≤ ·) ([5, 10, 30] : List UInt64)
    decide
  · decide

/-- The differences do wrap around.  When the clock is stepped back by a microsecond after a
datagram was sent, `encode_frame` gives up on it at once; and an acknowledgement that carries
a time after the reading, which the parser accepts, makes the minimum RTT more than an hour. -/
theorem exists_wrapped :
    (∃ es enc, Run.Steps (Step 2000) (initial 2 2 false : Encoder ℚ) es enc ∧
      ¬ EncodeExact enc (smallFrame 9) ∧ enc.givesUp (smallFrame 9).encodeTs) ∧
    ∃ ack : AckMsg, Msg.parseFromString ack.serializeToString = .ok (some (.ack ack)) ∧
      ¬ AckExact (initial 2 2 false : Encoder ℚ) ack 1000000 ∧
      ∃ es enc, (initial 2 2 false : Encoder ℚ).handleAck ack 1000000 = .ok (es, enc) ∧
        enc.minRttUs = some 4293967296 := by
  constructor
  · obtain ⟨es, enc, hrun, -, hhead, hwidth, hheight⟩ := steps_sentSmallFrame
    obtain ⟨⟨k, d⟩, hfirst, hts⟩ := Option.map_eq_some_iff.mp hhead
    have hts' : d.sendTs = 10 := hts
    refine ⟨es, enc, hrun, ?_, ?_⟩
    · intro hexact
      have hle := exactSub_iff.mp (hexact hwidth.symm hheight.symm k d hfirst)
      rw [hts'] at hle
      exact absurd hle (by decide)
    · refine Encoder.givesUp_iff.mpr ⟨k, d, hfirst, ?_⟩
      rw [hts']
      decide
  · refine ⟨⟨0, 0, 2000000⟩, Msg.parseFromString_ack _, ?_, _, _, rfl, rfl⟩
    intro hexact
    exact absurd (exactSub_iff.mp hexact.sample) (by decide)

end Encoder

end Ringmaster
