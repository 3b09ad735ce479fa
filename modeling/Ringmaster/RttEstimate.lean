/-
# The estimates of the RTT over a run

What `add_rtt_sample` leaves behind after a run of the sender, in terms of the samples of all
acknowledgements that were handled: `min_rtt_us_` is their minimum, and `ewma_rtt_us_` is what
the updates of the source make of them one after the other (`smoothed`), whatever the arithmetic
is.

For an arithmetic with the laws of `RttArithmetic.lean`, such as that of `double`, this is the
exponentially weighted moving average of the samples (`Library/Ewma.lean`) up to five rounding
errors.  Hence the estimate never leaves the bounds of the samples by more, it is not below the
minimum, and a burst of outliers is forgotten: after `n` equal samples it is within
`2 ^ 32 * (4 / 5) ^ n` of them, up to these errors (`estimates_of_acks`).
-/
import Ringmaster.Library.Ewma
import Ringmaster.RttArithmetic
import Ringmaster.AckEffect

open Unsigned

namespace Ringmaster

namespace Encoder

/-! ## The acknowledgements of a run -/

/-- The steps of the sender, with the acknowledgement that a step handles and its reading of
the clock. -/
inductive AckStep {E : Type} [RttArith E] (maxPayload : ℕ) :
    Encoder E → List (AckMsg × UInt64) → Encoder E → Prop
  | compress {enc enc' : Encoder E} {inp : CompressInput} {es : List SenderEvent} :
      enc.compressFrame maxPayload inp = (.ok (), es, enc') → AckStep maxPayload enc [] enc'
  | send {enc enc' : Encoder E} {datagram : Datagram} {rest : List Datagram} {t : UInt64}
      {outcome : SendOutcome} {es : List SenderEvent} {more : Bool} :
      enc.sendBuf = datagram :: rest →
      enc.sendFront datagram rest t outcome = .ok (es, more, enc') →
      AckStep maxPayload enc [] enc'
  | ack {enc enc' : Encoder E} {msg : AckMsg} {t : UInt64} {es : List SenderEvent} :
      enc.handleAck msg t = .ok (es, enc') → AckStep maxPayload enc [(msg, t)] enc'

/-- Every step of the sender is one of these. -/
theorem Step.exists_ackStep {E : Type} [RttArith E] {maxPayload : ℕ} {enc enc' : Encoder E}
    {es : List SenderEvent} (h : Step maxPayload enc es enc') :
    ∃ acks, AckStep maxPayload enc acks enc' := by
  cases h with
  | compress h => exact ⟨[], AckStep.compress h⟩
  | send hbuf h => exact ⟨[], AckStep.send hbuf h⟩
  | ack h => exact ⟨_, AckStep.ack h⟩

/-- The samples of the acknowledgements, in order. -/
def samples (acks : List (AckMsg × UInt64)) : List ℤ := acks.map fun a => rttSample a.1 a.2

/-- The samples as they are passed to `add_rtt_sample`. -/
def rttsUs (acks : List (AckMsg × UInt64)) : List UInt32 :=
  acks.map fun a => (a.2 - a.1.sendTs).toUInt32

/-- The samples as rationals. -/
def ratSamples (acks : List (AckMsg × UInt64)) : List ℚ := (samples acks).map Int.cast

@[simp] theorem samples_concat (acks : List (AckMsg × UInt64)) (a : AckMsg × UInt64) :
    samples (acks ++ [a]) = samples acks ++ [rttSample a.1 a.2] := List.map_append

@[simp] theorem rttsUs_concat (acks : List (AckMsg × UInt64)) (a : AckMsg × UInt64) :
    rttsUs (acks ++ [a]) = rttsUs acks ++ [(a.2 - a.1.sendTs).toUInt32] := List.map_append

theorem toNat_rttUs (ack : AckMsg) (t : UInt64) :
    ((t - ack.sendTs).toUInt32.toNat : ℤ) = rttSample ack t := by
  rw [rttSample, ← toNat_toUInt32_sub]

theorem ratSamples_eq_map (acks : List (AckMsg × UInt64)) :
    ratSamples acks = (rttsUs acks).map fun rttUs => (rttUs.toNat : ℚ) := by
  unfold ratSamples samples rttsUs
  rw [List.map_map, List.map_map]
  refine List.map_congr_left fun a _ => ?_
  show ((rttSample a.1 a.2 : ℤ) : ℚ) = _
  rw [← toNat_rttUs, Int.cast_natCast]
  rfl

/-! ## The average of the samples -/

/-- A sample is stored in 32 bits. -/
theorem cast_rttUs_mem {rttsUs : List UInt32} :
    ∀ x ∈ rttsUs.map fun rttUs => (rttUs.toNat : ℚ), x ∈ Set.Icc 0 (2 ^ 32) := by
  intro x hx
  obtain ⟨rttUs, -, rfl⟩ := List.mem_map.mp hx
  exact ⟨Nat.cast_nonneg _, by exact_mod_cast le_of_lt rttUs.toNat_lt⟩

/-- The average of samples is at most `2 ^ 32`. -/
theorem average_le {rttsUs : List UInt32} {avg : ℚ}
    (h : Ewma.average (1 / 5) (rttsUs.map fun rttUs => (rttUs.toNat : ℚ)) = some avg) :
    avg ∈ Set.Icc 0 (2 ^ 32) :=
  Ewma.average_mem_Icc ⟨by norm_num, by norm_num⟩ cast_rttUs_mem h

/-- Equal samples draw the average to them. -/
theorem abs_average_sub_le {acks before : List (AckMsg × UInt64)} {n : ℕ} {r : ℤ}
    (hr : r ∈ Set.Ico 0 (2 ^ 32)) (hacks : samples acks = samples before ++ List.replicate n r)
    {avg : ℚ} (havg : Ewma.average (1 / 5) (ratSamples acks) = some avg) :
    |avg - r| ≤ (4 / 5) ^ n * 2 ^ 32 := by
  have hsamples : ratSamples acks = ratSamples before ++ List.replicate n (r : ℚ) := by
    rw [ratSamples, hacks, List.map_append, List.map_replicate]
    rfl
  have hbefore : ∀ x ∈ ratSamples before, x ∈ Set.Icc 0 (2 ^ 32) := by
    rw [ratSamples_eq_map]
    exact cast_rttUs_mem
  have hrmem : (r : ℚ) ∈ Set.Icc 0 (2 ^ 32) :=
    ⟨by exact_mod_cast hr.1, by exact_mod_cast le_of_lt hr.2⟩
  rw [hsamples] at havg
  calc |avg - r| ≤ (1 - 1 / 5) ^ n * (2 ^ 32 - 0) :=
        Ewma.abs_average_sub_le ⟨by norm_num, by norm_num⟩ hbefore hrmem havg
    _ = (4 / 5) ^ n * 2 ^ 32 := by norm_num

/-! ## What a sequence of samples leaves behind -/

section Smoothed

variable {E : Type} [RttArith E]

/-- The estimate after one more sample. -/
def afterSample (ewma : Option E) (rttUs : UInt32) : E :=
  match ewma with
  | none => RttArith.ofRtt rttUs
  | some ewma => RttArith.smooth rttUs ewma

/-- The estimate after a sequence of samples. -/
def smoothed (rttsUs : List UInt32) : Option E :=
  rttsUs.foldl (fun ewma rttUs => some (afterSample ewma rttUs)) none

@[simp] theorem smoothed_concat (rttsUs : List UInt32) (rttUs : UInt32) :
    (smoothed (rttsUs ++ [rttUs]) : Option E) = some (afterSample (smoothed rttsUs) rttUs) := by
  unfold smoothed
  rw [List.foldl_append]
  rfl

theorem smoothed_eq_none_iff {rttsUs : List UInt32} :
    (smoothed rttsUs : Option E) = none ↔ rttsUs = [] := by
  induction rttsUs using List.reverseRecOn with
  | nil => simp [smoothed]
  | append_singleton rttsUs rttUs _ => simp

variable [LawfulRttArith E] {rttsUs : List UInt32} {ewma : E}

open LawfulRttArith

/-- The estimate is not below a whole number that no sample is below. -/
theorem le_smoothed {n : UInt32} (hn : ∀ rttUs ∈ rttsUs, n ≤ rttUs)
    (h : smoothed rttsUs = some ewma) : (n.toNat : ℚ) ≤ toRat ewma := by
  induction rttsUs using List.reverseRecOn generalizing ewma with
  | nil => simp [smoothed] at h
  | append_singleton rttsUs rttUs ih =>
    rw [smoothed_concat, Option.some_inj] at h
    have hlast : n ≤ rttUs := hn rttUs (List.mem_append_right _ List.mem_cons_self)
    rw [← h]
    cases hold : (smoothed rttsUs : Option E) with
    | none =>
      show (n.toNat : ℚ) ≤ toRat (RttArith.ofRtt rttUs : E)
      rw [toRat_ofRtt]
      exact_mod_cast UInt32.le_iff_toNat_le.mp hlast
    | some old =>
      exact le_smooth n rttUs old hlast
        (ih (fun r hr => hn r (List.mem_append_left _ hr)) hold)

/-- The estimate is the average of the samples up to five rounding errors. -/
theorem exists_average (h : smoothed rttsUs = some ewma) :
    ∃ avg, Ewma.average (1 / 5) (rttsUs.map fun rttUs => (rttUs.toNat : ℚ)) = some avg ∧
      |toRat ewma - avg| ≤ 5 * error E := by
  have herror : 0 ≤ 5 * error E := mul_nonneg (by norm_num) error_nonneg
  induction rttsUs using List.reverseRecOn generalizing ewma with
  | nil => simp [smoothed] at h
  | append_singleton rttsUs rttUs ih =>
    rw [smoothed_concat, Option.some_inj] at h
    rw [List.map_append, List.map_singleton, Ewma.average_concat, ← h]
    refine ⟨_, rfl, ?_⟩
    cases hold : (smoothed rttsUs : Option E) with
    | none =>
      rw [smoothed_eq_none_iff.mp hold]
      show |toRat (RttArith.ofRtt rttUs : E) - rttUs.toNat| ≤ _
      rwa [toRat_ofRtt, sub_self, abs_zero]
    | some old =>
      obtain ⟨avg, havg, hle⟩ := ih hold
      have hbounds := average_le havg
      have hupper := (abs_le.mp hle).2
      have hsmall : 5 * error E ≤ 1 := error_le
      have hlow : ((0 : UInt32).toNat : ℚ) ≤ toRat old :=
        le_smoothed (fun r _ => zero_le_uint32 r) hold
      have hstep := abs_smooth_sub_le rttUs old (by simpa using hlow) (by linarith [hbounds.2])
      have h5 : 5 * error E = error E / (1 / 5) := by ring
      rw [havg, h5]
      rw [h5] at hle
      exact Ewma.abs_sub_update_le (by norm_num) (by norm_num) hstep hle

/-- The estimate stays small. -/
theorem smoothed_mem_Icc (h : smoothed rttsUs = some ewma) : toRat ewma ∈ Set.Icc 0 (2 ^ 33) := by
  obtain ⟨avg, havg, hle⟩ := exists_average h
  have hlow : ((0 : UInt32).toNat : ℚ) ≤ toRat ewma :=
    le_smoothed (fun r _ => zero_le_uint32 r) h
  have hsmall : 5 * error E ≤ 1 := error_le
  refine ⟨by simpa using hlow, ?_⟩
  linarith [(average_le havg).2, (abs_le.mp hle).2]

end Smoothed

/-! ## What a step does to the estimates -/

section Steps

variable {E : Type} {maxPayload : ℕ} {enc enc' : Encoder E} {es : List SenderEvent}

/-- Compressing a frame leaves the estimates alone. -/
theorem estimates_compressFrame {inp : CompressInput}
    (h : enc.compressFrame maxPayload inp = (.ok (), es, enc')) :
    enc'.minRttUs = enc.minRttUs ∧ enc'.ewmaRttUs = enc.ewmaRttUs := by
  obtain ⟨pkts, ds, -, -, rfl, -⟩ := compressFrame_cases h
  unfold afterGiveUp
  split_ifs
  · exact ⟨rfl, rfl⟩
  · exact ⟨rfl, rfl⟩

/-- So does an attempt to send. -/
theorem estimates_sendFront {d : Datagram} {rest : List Datagram} {t : UInt64}
    {outcome : SendOutcome} {more : Bool}
    (h : enc.sendFront d rest t outcome = .ok (es, more, enc')) :
    enc'.minRttUs = enc.minRttUs ∧ enc'.ewmaRttUs = enc.ewmaRttUs := by
  unfold sendFront at h
  cases outcome with
  | raised e => simp at h
  | wouldBlock =>
    simp only [Except.ok.injEq, Prod.mk.injEq] at h
    obtain ⟨-, -, rfl⟩ := h
    exact ⟨rfl, rfl⟩
  | accepted =>
    dsimp only at h
    split_ifs at h with h0
    · cases hadd : enc.addUnacked { d with sendTs := t } with
      | error e => simp [hadd] at h
      | ok enc₁ =>
        simp only [hadd, Except.ok.injEq, Prod.mk.injEq] at h
        obtain ⟨-, -, rfl⟩ := h
        obtain ⟨-, rfl⟩ := addUnacked_eq_ok_iff.mp hadd
        exact ⟨rfl, rfl⟩
    · simp only [Except.ok.injEq, Prod.mk.injEq] at h
      obtain ⟨-, -, rfl⟩ := h
      exact ⟨rfl, rfl⟩

variable [RttArith E]

/-- The minimum after an acknowledgement. -/
theorem minRttUs_handleAck {ack : AckMsg} {t : UInt64}
    (h : enc.handleAck ack t = .ok (es, enc')) :
    ∃ minRtt, enc'.minRttUs = some minRtt ∧ (minRtt.toNat : ℤ)
      = enc.minRttUs.elim (rttSample ack t) fun old => min (rttSample ack t) old.toNat := by
  rw [(estimates_handleAck h).1, ← toNat_rttUs]
  unfold addRttSample
  cases enc.minRttUs with
  | none => exact ⟨_, rfl, rfl⟩
  | some old =>
    dsimp only [Option.elim_some]
    split_ifs with hlt
    · have hlt' := UInt32.lt_iff_toNat_lt.mp hlt
      exact ⟨_, rfl, by rw [min_eq_left (by omega)]⟩
    · have hle := UInt32.le_iff_toNat_le.mp (not_lt.mp hlt)
      exact ⟨_, rfl, by rw [min_eq_right (by omega)]⟩

/-- The estimate after an acknowledgement. -/
theorem ewmaRttUs_handleAck_eq {ack : AckMsg} {t : UInt64}
    (h : enc.handleAck ack t = .ok (es, enc')) :
    enc'.ewmaRttUs = some (afterSample enc.ewmaRttUs (t - ack.sendTs).toUInt32) := by
  rw [(estimates_handleAck h).2]
  unfold addRttSample
  cases enc.ewmaRttUs with
  | none => rfl
  | some ewma => rfl

end Steps

/-! ## Runs -/

section Runs

variable {E : Type} [RttArith E]

/-- The estimates are those of the samples. -/
structure Estimated (acks : List (AckMsg × UInt64)) (enc : Encoder E) : Prop where
  none_iff : enc.minRttUs = none ↔ acks = []
  isLeast : ∀ minRtt, enc.minRttUs = some minRtt →
    IsLeast {x | x ∈ samples acks} (minRtt.toNat : ℤ)
  ewma : enc.ewmaRttUs = smoothed (rttsUs acks)

theorem estimated_initial (displayWidth displayHeight : UInt16) (hasOutput : Bool) :
    Estimated [] (initial displayWidth displayHeight hasOutput : Encoder E) where
  none_iff := ⟨fun _ => rfl, fun _ => rfl⟩
  isLeast := fun _ h => by simp [initial] at h
  ewma := rfl

variable {maxPayload : ℕ} {displayWidth displayHeight : UInt16} {hasOutput : Bool}
  {acks : List (AckMsg × UInt64)} {enc : Encoder E}

/-- Every step keeps this. -/
theorem Estimated.step (h : Estimated acks enc) {acks' : List (AckMsg × UInt64)}
    {enc' : Encoder E} (hstep : AckStep maxPayload enc acks' enc') :
    Estimated (acks ++ acks') enc' := by
  cases hstep with
  | compress hcompress =>
    obtain ⟨hmin, hewma⟩ := estimates_compressFrame hcompress
    rw [List.append_nil]
    exact ⟨hmin ▸ h.none_iff, hmin ▸ h.isLeast, hewma ▸ h.ewma⟩
  | send _ hsend =>
    obtain ⟨hmin, hewma⟩ := estimates_sendFront hsend
    rw [List.append_nil]
    exact ⟨hmin ▸ h.none_iff, hmin ▸ h.isLeast, hewma ▸ h.ewma⟩
  | @ack _ msg t _ hack =>
    obtain ⟨minRtt, hmin, heq⟩ := minRttUs_handleAck hack
    refine ⟨by simp [hmin], ?_, ?_⟩
    · intro minRtt' hmin'
      rw [hmin, Option.some_inj] at hmin'
      rw [← hmin', heq, samples_concat]
      have hset : {x | x ∈ samples acks ++ [rttSample msg t]}
          = insert (rttSample msg t) {x | x ∈ samples acks} := by
        ext x
        simp [or_comm]
      rw [hset]
      cases hold : enc.minRttUs with
      | none =>
        rw [h.none_iff.mp hold]
        simp [samples, isLeast_singleton]
      | some old => exact (h.isLeast old hold).insert _
    · rw [ewmaRttUs_handleAck_eq hack, h.ewma, rttsUs_concat, smoothed_concat]

/-- So does every step of the sender, with the acknowledgement that it handles. -/
theorem Estimated.exists_step (h : Estimated acks enc) {es : List SenderEvent}
    {enc' : Encoder E} (hstep : Step maxPayload enc es enc') :
    ∃ acks', Estimated acks' enc' := by
  obtain ⟨acks', hstep'⟩ := hstep.exists_ackStep
  exact ⟨acks ++ acks', h.step hstep'⟩

/-- In every run the estimates are those of the samples. -/
theorem estimated_of_steps
    (h : Run.Steps (AckStep maxPayload) (initial displayWidth displayHeight hasOutput) acks enc) :
    Estimated acks enc :=
  h.invariant Estimated (estimated_initial displayWidth displayHeight hasOutput)
    (fun _ _ _ _ hI hstep => hI.step hstep)

/-- There is an estimate as soon as there is a sample. -/
theorem Estimated.ewma_none_iff (h : Estimated acks enc) : enc.ewmaRttUs = none ↔ acks = [] := by
  rw [h.ewma, smoothed_eq_none_iff, rttsUs, List.map_eq_nil_iff]

/-! ## Lawful arithmetics -/

variable [LawfulRttArith E] {ewma : E}

open LawfulRttArith

/-- The estimate is the average of the samples up to five rounding errors. -/
theorem Estimated.exists_average (h : Estimated acks enc) (hewma : enc.ewmaRttUs = some ewma) :
    ∃ avg, Ewma.average (1 / 5) (ratSamples acks) = some avg ∧
      |toRat ewma - avg| ≤ 5 * error E := by
  rw [h.ewma] at hewma
  rw [ratSamples_eq_map]
  exact Encoder.exists_average hewma

/-- The estimate stays small. -/
theorem Estimated.ewma_mem_Icc (h : Estimated acks enc) (hewma : enc.ewmaRttUs = some ewma) :
    toRat ewma ∈ Set.Icc 0 (2 ^ 33) := smoothed_mem_Icc (h.ewma ▸ hewma)

/-- The estimate is not below the minimum. -/
theorem Estimated.minRtt_le_ewma (h : Estimated acks enc) {minRtt : UInt32}
    (hmin : enc.minRttUs = some minRtt) (hewma : enc.ewmaRttUs = some ewma) :
    (minRtt.toNat : ℚ) ≤ toRat ewma := by
  refine le_smoothed ?_ (h.ewma ▸ hewma)
  intro rttUs hrtt
  obtain ⟨a, ha, rfl⟩ := List.mem_map.mp hrtt
  have hle := (h.isLeast minRtt hmin).2 (List.mem_map_of_mem ha)
  rw [← toNat_rttUs] at hle
  exact UInt32.le_iff_toNat_le.mpr (by exact_mod_cast hle)

/-- The estimate lies within the bounds of the samples, up to the errors above. -/
theorem Estimated.ewma_bounds (h : Estimated acks enc) {lo hi : ℤ}
    (hbounds : ∀ x ∈ samples acks, x ∈ Set.Icc lo hi) (hewma : enc.ewmaRttUs = some ewma) :
    (lo : ℚ) ≤ toRat ewma ∧ toRat ewma ≤ hi + 5 * error E := by
  have hacks : acks ≠ [] := fun hnil => by
    rw [h.ewma_none_iff.mpr hnil] at hewma
    simp at hewma
  constructor
  · obtain ⟨minRtt, hmin⟩ := Option.ne_none_iff_exists'.mp (mt h.none_iff.mp hacks)
    have hlo : (lo : ℚ) ≤ minRtt.toNat := by
      exact_mod_cast (hbounds _ (h.isLeast minRtt hmin).1).1
    exact le_trans hlo (h.minRtt_le_ewma hmin hewma)
  · obtain ⟨avg, havg, hle⟩ := h.exists_average hewma
    have hmem : avg ∈ Set.Icc (lo : ℚ) hi := by
      refine Ewma.average_mem_Icc ⟨by norm_num, by norm_num⟩ ?_ havg
      intro x hx
      obtain ⟨y, hy, rfl⟩ := List.mem_map.mp hx
      obtain ⟨hlo, hhi⟩ := hbounds y hy
      exact ⟨by exact_mod_cast hlo, by exact_mod_cast hhi⟩
    linarith [hmem.2, (abs_le.mp hle).2]

/-- In every run of the sender, with any acknowledgements and an arithmetic such as that of
`double`: `min_rtt_us_` is the least of all samples; `ewma_rtt_us_` is there as soon as there is a
sample, is the moving average of the samples up to five rounding errors, so that it lies between
any bounds of the samples up to these, and is never below `min_rtt_us_`; and after `n` equal samples
it is within `2 ^ 32 * (4 / 5) ^ n` of them up to these, whatever came before. -/
theorem estimates_of_acks
    (h : Run.Steps (AckStep maxPayload) (initial displayWidth displayHeight hasOutput) acks enc) :
    (∀ minRtt, enc.minRttUs = some minRtt →
      IsLeast {x | x ∈ samples acks} (minRtt.toNat : ℤ)) ∧
    (enc.minRttUs = none ↔ acks = []) ∧ (enc.ewmaRttUs = none ↔ acks = []) ∧
    ∀ ewma, enc.ewmaRttUs = some ewma →
      (∃ avg, Ewma.average (1 / 5) (ratSamples acks) = some avg ∧
        |toRat ewma - avg| ≤ 5 * error E) ∧
      (∀ lo hi : ℤ, (∀ x ∈ samples acks, x ∈ Set.Icc lo hi) →
        (lo : ℚ) ≤ toRat ewma ∧ toRat ewma ≤ hi + 5 * error E) ∧
      (∀ minRtt, enc.minRttUs = some minRtt → (minRtt.toNat : ℚ) ≤ toRat ewma) ∧
      ∀ (before : List (AckMsg × UInt64)) (n : ℕ) (r : ℤ), r ∈ Set.Ico 0 (2 ^ 32) →
        samples acks = samples before ++ List.replicate n r →
        |toRat ewma - r| ≤ (4 / 5) ^ n * 2 ^ 32 + 5 * error E := by
  have hest := estimated_of_steps h
  refine ⟨hest.isLeast, hest.none_iff, hest.ewma_none_iff, fun ewma hewma => ⟨?_, ?_, ?_, ?_⟩⟩
  · exact hest.exists_average hewma
  · exact fun lo hi hbounds => hest.ewma_bounds hbounds hewma
  · exact fun minRtt hmin => hest.minRtt_le_ewma hmin hewma
  · intro before n r hr hacks
    obtain ⟨avg, havg, hle⟩ := hest.exists_average hewma
    calc |toRat ewma - r| ≤ |toRat ewma - avg| + |avg - r| := abs_sub_le _ _ _
      _ ≤ 5 * error E + (4 / 5) ^ n * 2 ^ 32 :=
          add_le_add hle (abs_average_sub_le hr hacks havg)
      _ = (4 / 5) ^ n * 2 ^ 32 + 5 * error E := add_comm _ _

/-- Three acknowledgements with the samples 100, 20 and 20, in the arithmetic of `double`. -/
theorem estimates_of_acks_three : ∃ enc ewma,
    Run.Steps (AckStep 2000) (initial 2 2 false : Encoder Double)
      [(⟨0, 0, 0⟩, 100), (⟨0, 0, 100⟩, 120), (⟨0, 0, 130⟩, 150)] enc ∧
      enc.minRttUs = some 20 ∧ enc.ewmaRttUs = some ewma ∧ 20 ≤ ewma.toRat ∧
      ewma.toRat ≤ 100 + 5 / 2 ^ 18 := by
  have h₁ : AckStep 2000 (initial 2 2 false : Encoder Double) _ _ :=
    @AckStep.ack _ _ _ _ _ ⟨0, 0, 0⟩ 100 _ rfl
  have h₂ := (Run.Steps.single h₁).tail (@AckStep.ack _ _ _ _ _ ⟨0, 0, 100⟩ 120 _ rfl)
  have h₃ := h₂.tail (@AckStep.ack _ _ _ _ _ ⟨0, 0, 130⟩ 150 _ rfl)
  have hsamples : ∀ x ∈ samples [(⟨0, 0, 0⟩, 100), (⟨0, 0, 100⟩, 120), (⟨0, 0, 130⟩, 150)],
      x ∈ Set.Icc (20 : ℤ) 100 := by
    have heq : samples [(⟨0, 0, 0⟩, 100), (⟨0, 0, 100⟩, 120), (⟨0, 0, 130⟩, 150)]
        = [100, 20, 20] := by decide
    rw [heq]
    simp
  obtain ⟨-, -, -, hewma⟩ := estimates_of_acks h₃
  obtain ⟨-, hbounds, -⟩ := hewma _ rfl
  obtain ⟨hlo, hhi⟩ := hbounds 20 100 hsamples
  refine ⟨_, _, h₃, rfl, rfl, by exact_mod_cast hlo, ?_⟩
  refine le_trans hhi (le_of_eq ?_)
  show ((100 : ℤ) : ℚ) + 5 * (1 / 2 ^ 18) = _
  norm_num

end Runs

end Encoder

end Ringmaster
