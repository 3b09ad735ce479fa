/-
# Retransmissions of one datagram are spaced out

A datagram is queued again at once when it is overtaken for the first time, and from then on
only when the last time is longer ago than the estimate of the RTT.  Over a run whose clock
does not run backwards this means: two retransmissions of one datagram are queued more than
the least RTT sample of the whole run apart (`retransmissions_paced`), however many
acknowledgements overtake it in between.  The arithmetic of the estimate is any one that has the
laws of `RttArithmetic.lean`, such as that of `double`: they keep the estimate at or above the least
sample, in spite of the rounding.

The field `last_send_ts` of a queued retransmission is the reading of the clock at which it
was queued.
-/
import Ringmaster.Delivery
import Ringmaster.RttEstimate
import Ringmaster.TimeArithmetic

open Unsigned

namespace Ringmaster

namespace Encoder

variable {E : Type} {es es' : List SenderEvent} {enc enc' : Encoder E}

/-! ## The invariant -/

/-- The datagram `d'` was queued more than the minimum RTT after `d`. -/
def FarApart (enc : Encoder E) (d d' : Datagram) : Prop :=
  ∃ minRtt, enc.minRttUs = some minRtt ∧
    d.lastSendTs.toNat + minRtt.toNat < d'.lastSendTs.toNat

/-- What is known of the retransmissions that were queued: their entries in `unacked_` are at
least as far, and those of one datagram are far apart. -/
structure Paced (es : List SenderEvent) (enc : Encoder E) : Prop where
  frame_lt : ∀ d ∈ enqueuedDatagrams es, d.frameId < enc.frameId
  notFresh : ∀ d ∈ enqueuedDatagrams es, d.numRtx ≠ 0 → d.seqNum ∉ enc.freshKeys
  unacked : ∀ d ∈ enqueuedDatagrams es, d.numRtx ≠ 0 → ∀ u,
    enc.unacked.find? d.seqNum = some u → d.numRtx ≤ u.numRtx ∧ d.lastSendTs ≤ u.lastSendTs
  stamped : ∀ d ∈ enqueuedDatagrams es, d.numRtx ≠ 0 → d.lastSendTs ∈ clocks es
  far : ∀ d ∈ enqueuedDatagrams es, ∀ d' ∈ enqueuedDatagrams es, d.seqNum = d'.seqNum →
    d.numRtx ≠ 0 → d.numRtx < d'.numRtx → FarApart enc d d'

theorem paced_initial (displayWidth displayHeight : UInt16) (hasOutput : Bool) :
    Paced [] (initial displayWidth displayHeight hasOutput : Encoder E) where
  frame_lt := fun _ hd => absurd hd List.not_mem_nil
  notFresh := fun _ hd => absurd hd List.not_mem_nil
  unacked := fun _ hd => absurd hd List.not_mem_nil
  stamped := fun _ hd => absurd hd List.not_mem_nil
  far := fun _ hd => absurd hd List.not_mem_nil

/-- The minimum RTT only goes down. -/
def MinRttLe (enc enc' : Encoder E) : Prop :=
  ∀ minRtt, enc.minRttUs = some minRtt → ∃ minRtt', enc'.minRttUs = some minRtt' ∧
    minRtt' ≤ minRtt

theorem minRttLe_of_eq (h : enc'.minRttUs = enc.minRttUs) : MinRttLe enc enc' :=
  fun minRtt hmin => ⟨minRtt, h.trans hmin, le_rfl⟩

theorem minRttLe_handleAck [RttArith E] {ack : AckMsg} {t : UInt64}
    (h : enc.handleAck ack t = .ok (es, enc')) : MinRttLe enc enc' := by
  intro old hold
  obtain ⟨minRtt, hmin, heq⟩ := minRttUs_handleAck h
  rw [hold, Option.elim_some] at heq
  refine ⟨minRtt, hmin, UInt32.le_iff_toNat_le.mpr ?_⟩
  have := min_le_right (rttSample ack t) (old.toNat : ℤ)
  omega

/-- What was far apart stays so. -/
theorem FarApart.mono {d d' : Datagram} (h : FarApart enc d d') (hle : MinRttLe enc enc') :
    FarApart enc' d d' := by
  obtain ⟨minRtt, hmin, hlt⟩ := h
  obtain ⟨minRtt', hmin', hle'⟩ := hle minRtt hmin
  refine ⟨minRtt', hmin', ?_⟩
  rw [UInt32.le_iff_toNat_le] at hle'
  omega

/-! ## Steps -/

/-- A step that queues nothing again. -/
theorem Paced.quiet (h : Paced es enc) (hid : enc.frameId ≤ enc'.frameId)
    (hnew : ∀ d ∈ enqueuedDatagrams es', d.frameId < enc'.frameId ∧ d.numRtx = 0)
    (hfresh : ∀ k ∈ enc'.freshKeys, k ∈ enc.freshKeys ∨ enc.frameId ≤ (ofLex k).1)
    (hunacked : ∀ k u, enc'.unacked.find? k = some u →
      enc.unacked.find? k = some u ∨ k ∈ enc.freshKeys)
    (hmin : MinRttLe enc enc') : Paced (es ++ es') enc' := by
  -- a retransmission was queued before
  have hold : ∀ d ∈ enqueuedDatagrams (es ++ es'), d.numRtx ≠ 0 → d ∈ enqueuedDatagrams es := by
    intro d hd h0
    rw [enqueuedDatagrams_append] at hd
    rcases List.mem_append.mp hd with hmem | hmem
    · exact hmem
    · exact absurd (hnew d hmem).2 h0
  refine ⟨?_, ?_, ?_, ?_, ?_⟩
  · intro d hd
    rw [enqueuedDatagrams_append] at hd
    rcases List.mem_append.mp hd with hmem | hmem
    · exact lt_of_lt_of_le (h.frame_lt d hmem) hid
    · exact (hnew d hmem).1
  · intro d hd h0 hkey
    have hd' := hold d hd h0
    rcases hfresh _ hkey with hkey' | hle
    · exact h.notFresh d hd' h0 hkey'
    · exact absurd (h.frame_lt d hd') (not_lt.mpr hle)
  · intro d hd h0 u hu
    have hd' := hold d hd h0
    rcases hunacked _ u hu with hu' | hkey
    · exact h.unacked d hd' h0 u hu'
    · exact absurd hkey (h.notFresh d hd' h0)
  · intro d hd h0
    rw [clocks_append]
    exact List.mem_append_left _ (h.stamped d (hold d hd h0) h0)
  · intro d hd d' hd' hseq h0 hlt
    have h0' : d'.numRtx ≠ 0 := fun heq => absurd (heq ▸ hlt) (by simp)
    exact (h.far d (hold d hd h0) d' (hold d' hd' h0') hseq h0 hlt).mono hmin

/-- A step in which nothing is erased queues nothing again. -/
theorem Paced.of_effect [RttArith E] (h : Paced es enc) (heff : Effect enc enc' es')
    (hid : enc.frameId ≤ enc'.frameId)
    (hqueued : ∀ d ∈ enqueuedDatagrams es', d.frameId < enc'.frameId)
    (herased : ∀ k, .erased k ∉ es') (hmin : MinRttLe enc enc') : Paced (es ++ es') enc' := by
  cases heff with
  | compressed inp ds hds hpairwise _ hbuf hunacked =>
    refine h.quiet hid (fun d hd => ⟨hqueued d hd, ?_⟩) ?_ ?_ hmin
    · rw [enqueuedDatagrams_compressEvents] at hd
      exact (hds d hd).2.2
    · intro k hk
      obtain ⟨d, hd, h0, rfl⟩ := mem_freshKeys.mp hk
      rw [hbuf] at hd
      rcases List.mem_append.mp hd with hmem | hmem
      · left
        rcases afterGiveUp_cases enc inp.encodeTs with ⟨-, hempty, -⟩ | ⟨-, heq⟩
        · rw [hempty] at hmem
          exact absurd hmem List.not_mem_nil
        · rw [heq] at hmem
          exact mem_freshKeys.mpr ⟨d, hmem, h0, rfl⟩
      · right
        show enc.frameId ≤ d.frameId
        rw [(hds d hmem).1]
    · intro k u hu
      left
      rw [hunacked] at hu
      rcases afterGiveUp_cases enc inp.encodeTs with ⟨-, -, hempty⟩ | ⟨-, heq⟩
      · rw [hempty] at hu
        simp at hu
      · rwa [heq] at hu
  | sentFresh d rest t hd h0 hnone _ hbuf hfind =>
    have hkeys := freshKeys_cons_of_fresh hd h0 hbuf
    refine h.quiet hid (fun d' hd' => absurd hd' List.not_mem_nil) ?_ ?_ hmin
    · intro k hk
      rw [hkeys]
      exact Or.inl (List.mem_cons_of_mem _ hk)
    · intro k u hu
      rw [hfind] at hu
      split_ifs at hu with hk
      · rw [hk, hkeys]
        exact Or.inr List.mem_cons_self
      · exact Or.inl hu
  | sentRtx d rest t hd h0 _ hbuf hunacked =>
    refine h.quiet hid (fun d' hd' => absurd hd' List.not_mem_nil) ?_ ?_ hmin
    · rw [freshKeys_cons_of_rtx hd h0 hbuf]
      exact fun k hk => Or.inl hk
    · rw [hunacked]
      exact fun k u hu => Or.inl hu
  | blocked d rest t hd _ hbuf hunacked =>
    refine h.quiet hid (fun d' hd' => absurd hd' List.not_mem_nil) ?_ ?_ hmin
    · rw [freshKeys_blocked hd hbuf]
      exact fun k hk => Or.inl hk
    · rw [hunacked]
      exact fun k u hu => Or.inl hu
  | stray t _ hbuf hunacked =>
    refine h.quiet hid (fun d' hd' => absurd hd' List.not_mem_nil) ?_ ?_ hmin
    · unfold freshKeys
      rw [hbuf]
      exact fun k hk => Or.inl hk
    · rw [hunacked]
      exact fun k u hu => Or.inl hu
  | acked seq ewma t _ _ _ _ =>
    exact absurd (by simp [ackEvents]) (herased seq)

variable [RttArith E] [LawfulRttArith E]

open LawfulRttArith

/-- A datagram that is due again was queued longer ago than the estimate. -/
theorem lt_of_isDue {ewma : E} (hewma : toRat ewma ∈ Set.Icc 0 (2 ^ 33)) {t : UInt64}
    {u : Datagram} (hdue : isDue ewma t u) (h0 : u.numRtx ≠ 0) (hle : u.lastSendTs ≤ t) :
    toRat ewma < ((t.toNat - u.lastSendTs.toNat : ℕ) : ℚ) := by
  unfold isDue at hdue
  rw [decide_eq_false h0, Bool.false_or, Bool.and_eq_true] at hdue
  rw [← UInt64.toNat_sub_of_le t u.lastSendTs hle]
  exact (exceeds_iff _ ewma hewma.1 hewma.2).mp hdue.2

/-- An acknowledgement: what it queues again was queued long ago. -/
theorem Paced.acked (h : Paced es enc) (hordered : Ordered es enc) (hstamped : Stamped es enc)
    {seq : SeqNum} {r : E} {t : UInt64} (hid : enc'.frameId = enc.frameId)
    (hbuf : enc'.sendBuf = ((enc.rtxEntries seq r t).map Prod.snd).reverse ++ enc.sendBuf)
    (hfind : ∀ k, enc'.unacked.find? k = if k = seq then none
      else (enc.unacked.find? k).map fun d =>
        if k < seq ∧ isDue r t d then retransmitted t d else d)
    (hmono : ClockMonotone (es ++ ackEvents t ((enc.rtxEntries seq r t).map Prod.snd) seq))
    (hmin : MinRttLe enc enc')
    (hr : toRat r ∈ Set.Icc 0 (2 ^ 33))
    (hest : ∃ minRtt, enc'.minRttUs = some minRtt ∧ (minRtt.toNat : ℚ) ≤ toRat r) :
    Paced (es ++ ackEvents t ((enc.rtxEntries seq r t).map Prod.snd) seq) enc' := by
  have hread : t ∈ clocks (ackEvents t ((enc.rtxEntries seq r t).map Prod.snd) seq) := by
    unfold ackEvents
    rw [clocks_append, clocks_append, List.append_assoc]
    exact List.mem_cons_self
  have hpast : ∀ t' ∈ clocks es, t' ≤ t := fun t' ht' => hmono.le ht' hread
  -- the entry of `unacked_` that a new retransmission was made from
  have hnew : ∀ d ∈ (enc.rtxEntries seq r t).map Prod.snd, ∃ u,
      enc.unacked.find? d.seqNum = some u ∧ d.seqNum < seq ∧ isDue r t u ∧
        d = retransmitted t u ∧ d.numRtx.toNat = u.numRtx.toNat + 1 := by
    intro d hd
    obtain ⟨k, u, hu, hlt, hdue, rfl, hnum, -⟩ := numRtx_rtxEntries hd
    obtain ⟨hk, -⟩ := hordered.unacked_lt k u hu
    subst hk
    exact ⟨u, hu, hlt, hdue, rfl, hnum⟩
  have hmem : ∀ d ∈ enqueuedDatagrams
      (es ++ ackEvents t ((enc.rtxEntries seq r t).map Prod.snd) seq),
      d ∈ enqueuedDatagrams es ∨ d ∈ (enc.rtxEntries seq r t).map Prod.snd := by
    intro d hd
    rw [enqueuedDatagrams_append, enqueuedDatagrams_ackEvents] at hd
    exact List.mem_append.mp hd
  refine ⟨?_, ?_, ?_, ?_, ?_⟩
  · intro d hd
    rw [hid]
    rcases hmem d hd with hd | hd
    · exact h.frame_lt d hd
    · obtain ⟨u, hu, -, -, rfl, -⟩ := hnew d hd
      exact (hordered.unacked_lt _ u hu).2
  · intro d hd h0
    rw [freshKeys_acked hbuf]
    rcases hmem d hd with hd | hd
    · exact h.notFresh d hd h0
    · intro hkey
      obtain ⟨u, hu, -⟩ := hnew d hd
      have hcontains : enc.unacked.contains d.seqNum := by simp [OrderedMap.contains, hu]
      exact lt_irrefl _ (hordered.unacked_lt_fresh _ hcontains _ hkey)
  · intro d hd h0 u' hu'
    rw [hfind] at hu'
    split_ifs at hu'
    obtain ⟨u, hu, hu''⟩ := Option.map_eq_some_iff.mp hu'
    rcases hmem d hd with hd | hd
    · obtain ⟨hle, hts⟩ := h.unacked d hd h0 u hu
      split_ifs at hu'' with hdue
      · -- the entry was retransmitted now
        rw [← hu'']
        refine ⟨?_, hpast _ (h.stamped d hd h0)⟩
        rw [UInt32.le_iff_toNat_le] at hle ⊢
        rw [toNat_numRtx_retransmitted hdue.2]
        omega
      · rw [← hu'']
        exact ⟨hle, hts⟩
    · obtain ⟨u₀, hu₀, hlt, hdue, hd', -⟩ := hnew d hd
      rw [hu, Option.some_inj] at hu₀
      subst hu₀
      rw [if_pos ⟨hlt, hdue⟩] at hu''
      rw [← hu'', hd']
      exact ⟨le_rfl, le_rfl⟩
  · intro d hd h0
    rw [clocks_append]
    rcases hmem d hd with hd | hd
    · exact List.mem_append_left _ (h.stamped d hd h0)
    · obtain ⟨u, -, -, -, rfl, -⟩ := hnew d hd
      exact List.mem_append_right _ hread
  · intro d hd d' hd' hseq h0 hlt
    rw [UInt32.lt_iff_toNat_lt] at hlt
    rcases hmem d' hd' with hd' | hd'
    · rcases hmem d hd with hd | hd
      · exact (h.far d hd d' hd' hseq h0 (UInt32.lt_iff_toNat_lt.mpr hlt)).mono hmin
      · -- a new retransmission is ahead of the old ones
        obtain ⟨u, hu, -, -, -, hnum⟩ := hnew d hd
        have h0' : d'.numRtx ≠ 0 := by
          intro heq
          rw [heq] at hlt
          simp at hlt
        have hle := (h.unacked d' hd' h0' u (hseq ▸ hu)).1
        rw [UInt32.le_iff_toNat_le] at hle
        omega
    · obtain ⟨u, hu, -, hdue, hd'', hnum⟩ := hnew d' hd'
      rcases hmem d hd with hd | hd
      · obtain ⟨hle, hts⟩ := h.unacked d hd h0 u (hseq.symm ▸ hu)
        have hu0 : u.numRtx ≠ 0 := by
          intro heq
          rw [heq] at hle
          exact h0 (le_antisymm hle (zero_le_uint32 _))
        have hut : u.lastSendTs ≤ t := hpast _ (hstamped _ u hu).2
        have hlong := lt_of_isDue hr hdue hu0 hut
        obtain ⟨minRtt, hmin', hler⟩ := hest
        refine ⟨minRtt, hmin', ?_⟩
        have hlt' : minRtt.toNat < t.toNat - u.lastSendTs.toNat := by
          exact_mod_cast lt_of_le_of_lt hler hlong
        rw [UInt64.le_iff_toNat_le] at hts
        rw [hd'']
        show d.lastSendTs.toNat + minRtt.toNat < t.toNat
        omega
      · -- both are new: they are made from one entry
        obtain ⟨u₀, hu₀, -, -, -, hnum₀⟩ := hnew d hd
        rw [hseq, hu, Option.some_inj] at hu₀
        subst hu₀
        omega

/-- Every step keeps the retransmissions apart. -/
theorem Paced.step (h : Paced es enc) (hordered : Ordered es enc) (hstamped : Stamped es enc)
    {maxPayload : ℕ} (hstep : Step maxPayload enc es' enc')
    (hcount : encodedCount (es ++ es') < 2 ^ 32) (hmono : ClockMonotone (es ++ es'))
    {acks : List (AckMsg × UInt64)} (hest : Estimated acks enc') : Paced (es ++ es') enc' := by
  obtain ⟨hid, hqueued, -⟩ := Delivery.frameId_lt_of_effect hordered hstep.effect hcount
  cases hstep with
  | compress hcompress =>
    refine h.of_effect (effect_compressFrame hcompress) hid hqueued ?_
      (minRttLe_of_eq (estimates_compressFrame hcompress).1)
    intro k
    obtain ⟨pkts, ds, -, -, -, rfl⟩ := compressFrame_cases hcompress
    exact erased_notMem_compressEvents _ _ _ k
  | send hbuf hsend =>
    refine h.of_effect (effect_sendFront hbuf hsend) hid hqueued ?_
      (minRttLe_of_eq (estimates_sendFront hsend).1)
    intro k
    rcases events_sendFront hsend with rfl | rfl
    · simp
    · simp
  | @ack _ msg t _ hack =>
    have hmin := minRttLe_handleAck hack
    obtain ⟨minRtt, hminRtt, -⟩ := minRttUs_handleAck hack
    obtain ⟨es₁, enc₁, hack', hid', hcases⟩ := handleAck_cases enc msg t
    rw [hack, Except.ok.injEq, Prod.mk.injEq] at hack'
    obtain ⟨rfl, rfl⟩ := hack'
    rcases hcases with ⟨-, rfl, hbuf, hunacked⟩ | ⟨-, ewma, hewma, rfl, hbuf, hfind⟩
    · exact h.of_effect (Effect.stray t hid' hbuf hunacked) hid hqueued (by simp) hmin
    · exact h.acked hordered hstamped hid' hbuf hfind hmono hmin
        (hest.ewma_mem_Icc hewma) ⟨minRtt, hminRtt, hest.minRtt_le_ewma hminRtt hewma⟩

/-! ## Runs -/

variable {maxPayload : ℕ} {displayWidth displayHeight : UInt16} {hasOutput : Bool}

/-- In every run over fewer than `2 ^ 32` frames under a clock that does not run backwards, the
retransmissions are apart. -/
theorem paced_of_steps
    (h : Run.Steps (Step maxPayload) (initial displayWidth displayHeight hasOutput) es enc)
    (hcount : encodedCount es < 2 ^ 32) (hmono : ClockMonotone es) : Paced es enc := by
  have hinv := h.invariant_of_guard (fun es => encodedCount es < 2 ^ 32 ∧ ClockMonotone es)
    (fun es enc => Ordered es enc ∧ Stamped es enc ∧ (∃ acks, Estimated acks enc) ∧ Paced es enc)
    ?_ ⟨ordered_initial _ _ _, stamped_initial _ _ _, ⟨[], estimated_initial _ _ _⟩,
      paced_initial _ _ _⟩ ?_ ⟨hcount, hmono⟩
  · exact hinv.2.2.2
  · rintro es es' ⟨hcount, hmono⟩
    rw [encodedCount_append] at hcount
    exact ⟨by omega, hmono.of_append⟩
  · rintro es enc es' enc' ⟨hcount, hmono⟩ ⟨hordered, hstamped, ⟨acks, hest⟩, hpaced⟩ hstep
    obtain ⟨acks', hest'⟩ := hest.exists_step hstep
    exact ⟨hordered.step hstep.effect hcount, hstamped.step hstep.effect, ⟨acks', hest'⟩,
      hpaced.step hordered hstamped hstep hcount hmono hest'⟩

/-- Two retransmissions of one datagram are queued more than the least RTT sample of the whole
run apart, at times that were read off the clock.  This holds in every run over fewer than
`2 ^ 32` frames whose clock does not run backwards, with any acknowledgements and an arithmetic such
as that of `double`. -/
theorem retransmissions_paced
    (h : Run.Steps (Step maxPayload) (initial displayWidth displayHeight hasOutput) es enc)
    (hcount : encodedCount es < 2 ^ 32) (hmono : ClockMonotone es) :
    ∀ d ∈ enqueuedDatagrams es, ∀ d' ∈ enqueuedDatagrams es, d.seqNum = d'.seqNum →
      d.numRtx ≠ 0 → d.numRtx < d'.numRtx →
      d.lastSendTs ∈ clocks es ∧ d'.lastSendTs ∈ clocks es ∧
      ∃ minRtt, enc.minRttUs = some minRtt ∧
        d.lastSendTs.toNat + minRtt.toNat < d'.lastSendTs.toNat := by
  intro d hd d' hd' hseq h0 hlt
  have hpaced := paced_of_steps h hcount hmono
  have h0' : d'.numRtx ≠ 0 := fun heq => absurd (heq ▸ hlt) (by simp)
  exact ⟨hpaced.stamped d hd h0, hpaced.stamped d' hd' h0', hpaced.far d hd d' hd' hseq h0 hlt⟩

/-- The datagram of the first frame is overtaken and sent again. -/
theorem steps_overtaken : ∃ es enc u,
    Run.Steps (Step 2000) (initial 2 2 false : Encoder ℚ) es enc ∧
      clocks es = [5, 10, 20, 20, 30, 40, 50, 50, 55, 60] ∧ encodedCount es = 3 ∧
      u ∈ enqueuedDatagrams es ∧ u.seqNum = toLex (0, 0) ∧ u.numRtx = 1 ∧ u.lastSendTs = 40 ∧
      enc.unacked.find? (toLex (0, 0)) = some u ∧ enc.unacked.contains (toLex (2, 0)) ∧
      enc.ewmaRttUs = some 10 := by
  have h₁ : Step 2000 (initial 2 2 false : Encoder ℚ) _ _ :=
    @Step.compress _ _ _ _ _ (smallFrame 5) _ rfl
  have h₂ := (Run.Steps.single h₁).tail (@Step.send _ _ _ _ _ _ _ 10 .accepted _ _ rfl rfl)
  have h₃ := h₂.tail (@Step.compress _ _ _ _ _ (smallFrame 20) _ rfl)
  have h₄ := h₃.tail (@Step.send _ _ _ _ _ _ _ 30 .accepted _ _ rfl rfl)
  have h₅ := h₄.tail (@Step.ack _ _ _ _ _ ⟨1, 0, 30⟩ 40 _ rfl)
  have h₆ := h₅.tail (@Step.compress _ _ _ _ _ (smallFrame 50) _ rfl)
  have h₇ := h₆.tail (@Step.send _ _ _ _ _ _ _ 55 .accepted _ _ rfl rfl)
  have h₈ := h₇.tail (@Step.send _ _ _ _ _ _ _ 60 .accepted _ _ rfl rfl)
  refine ⟨_, _, ⟨0, .key, 0, 1, 10, [1, 2, 3], 1, 40⟩, h₈, rfl, rfl, ?_, rfl, rfl, rfl, rfl, rfl,
    rfl⟩
  decide

/-- When it is overtaken a second time, it is queued again, as 30 microseconds are more than the
estimate. -/
theorem retransmissions_paced_overtaken : ∃ es enc,
    Run.Steps (Step 2000) (initial 2 2 false : Encoder ℚ) es enc ∧
      ∃ minRtt, enc.minRttUs = some minRtt ∧ 40 + minRtt.toNat < 70 := by
  obtain ⟨es, enc, u, hrun, hclocks, hcount, hu, hseq, hnum, hlast, hfind, hcontains, hewma⟩ :=
    steps_overtaken
  obtain ⟨es', enc', hack, -, ⟨hnone, -⟩ | ⟨-, ewma, hewma', rfl, -, -⟩⟩ :=
    handleAck_cases enc ⟨2, 0, 60⟩ 70
  · rw [OrderedMap.contains, show (toLex (2, 0) : SeqNum) = AckMsg.seqNum ⟨2, 0, 60⟩ from rfl,
      hnone] at hcontains
    simp at hcontains
  have hten : ewma = 10 := by
    have hsample : rttSample ⟨2, 0, 60⟩ 70 = 10 := by decide
    rw [ewmaRttUs_handleAck hack, hewma, Option.some_inj, hsample] at hewma'
    rw [← hewma', ewmaAfter]
    norm_num
  have hdue : isDue ewma 70 u := by
    rw [isDue_iff_dueAt, hten]
    have hlong : (((70 : UInt64).toNat : ℤ) - (40 : UInt64).toNat) % 2 ^ 64 = 30 := by decide
    refine ⟨by rw [hnum]; decide, Or.inr ?_⟩
    rw [hlast, hlong]
    norm_num
  have hmem : retransmitted 70 u ∈ enqueuedDatagrams (es ++ ackEvents 70
      ((enc.rtxEntries (toLex (2, 0)) ewma 70).map Prod.snd) (toLex (2, 0))) := by
    rw [enqueuedDatagrams_append, enqueuedDatagrams_ackEvents]
    refine List.mem_append_right _ (List.mem_map.mpr ⟨(toLex (0, 0), _), ?_, rfl⟩)
    exact mem_rtxEntries.mpr ⟨u, hfind, by decide, hdue, rfl⟩
  have hmono : ClockMonotone (es ++ ackEvents 70
      ((enc.rtxEntries (toLex (2, 0)) ewma 70).map Prod.snd) (toLex (2, 0))) := by
    unfold ClockMonotone ackEvents
    rw [clocks_append, clocks_append, clocks_append, clocks_map_enqueued, hclocks]
    show List.Pairwise (· ≤ ·) ([5, 10, 20, 20, 30, 40, 50, 50, 55, 60, 70] : List UInt64)
    decide
  have hpaced := retransmissions_paced (hrun.tail (Step.ack hack)) (by
    rw [encodedCount_append, encodedCount_ackEvents, hcount]
    norm_num) hmono u (by
    rw [enqueuedDatagrams_append]
    exact List.mem_append_left _ hu) _ hmem rfl (by rw [hnum]; decide) (by
    show u.numRtx < u.numRtx + 1
    rw [hnum]
    decide)
  obtain ⟨-, -, minRtt, hmin, hlt⟩ := hpaced
  rw [hlast] at hlt
  exact ⟨_, _, hrun.tail (Step.ack hack), minRtt, hmin, hlt⟩

end Encoder

end Ringmaster
