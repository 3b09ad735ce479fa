/-
# The order of the sender's queues

The datagrams of `send_buf_` that were never transmitted stand in the order of their
sequence numbers, behind everything that is unacked (`Ordered`).  Hence a datagram is new to
`unacked_` when it is transmitted for the first time, and under a clock that does not run
backwards the first entry of `unacked_` is the oldest one (`Aged`).

The same timestamps say how far apart the give-ups of `encode_frame` are: what is unacked
after a give-up was sent after it (`Spaced`).
-/
import Ringmaster.SenderSteps

open Unsigned

namespace Ringmaster

namespace Encoder

variable {E : Type} {es es' : List SenderEvent} {enc enc' : Encoder E}

/-! ## The order of the fresh datagrams -/

/-- The sequence numbers of the datagrams in `send_buf_` that were never transmitted, from
front to back. -/
def freshKeys (enc : Encoder E) : List SeqNum :=
  (enc.sendBuf.filter fun d => decide (d.numRtx = 0)).map Datagram.seqNum

/-- Everything queued or unacked belongs to a finished frame, and the fresh datagrams are in
order, behind the unacked ones. -/
structure Ordered (es : List SenderEvent) (enc : Encoder E) : Prop where
  frameId_eq : enc.frameId.toNat = encodedCount es
  queued_lt : ∀ d ∈ enc.sendBuf, d.frameId < enc.frameId
  unacked_lt : ∀ k d, enc.unacked.find? k = some d → d.seqNum = k ∧ d.frameId < enc.frameId
  sorted : enc.freshKeys.Pairwise (· < ·)
  unacked_lt_fresh : ∀ k, enc.unacked.contains k → ∀ f ∈ enc.freshKeys, k < f

theorem ordered_initial (displayWidth displayHeight : UInt16) (hasOutput : Bool) :
    Ordered [] (initial displayWidth displayHeight hasOutput : Encoder E) where
  frameId_eq := rfl
  queued_lt := fun _ hd => absurd hd List.not_mem_nil
  unacked_lt := fun _ _ hd => by simp [initial] at hd
  sorted := List.Pairwise.nil
  unacked_lt_fresh := fun _ _ _ hf => absurd hf List.not_mem_nil

/-- A fresh key is the key of a datagram in `send_buf_`. -/
theorem mem_freshKeys {f : SeqNum} :
    f ∈ enc.freshKeys ↔ ∃ d ∈ enc.sendBuf, d.numRtx = 0 ∧ d.seqNum = f := by
  unfold freshKeys
  simp only [List.mem_map, List.mem_filter, decide_eq_true_eq, and_assoc]

/-- A give-up clears both queues, and without it they stay as they are. -/
theorem afterGiveUp_cases (enc : Encoder E) (t : UInt64) :
    (enc.givesUp t ∧ (enc.afterGiveUp t).sendBuf = [] ∧
      (enc.afterGiveUp t).unacked = OrderedMap.empty) ∨
    (¬ enc.givesUp t ∧ enc.afterGiveUp t = enc) := by
  unfold afterGiveUp
  by_cases h : enc.givesUp t
  · rw [if_pos h]
    exact Or.inl ⟨h, rfl, rfl⟩
  · rw [if_neg h]
    exact Or.inr ⟨h, rfl⟩

theorem frameId_afterGiveUp (enc : Encoder E) (t : UInt64) :
    (enc.afterGiveUp t).frameId = enc.frameId := by
  unfold afterGiveUp
  split_ifs
  · rfl
  · rfl

/-- A give-up keeps the order. -/
theorem Ordered.afterGiveUp (h : Ordered es enc) (t : UInt64) :
    Ordered es (enc.afterGiveUp t) := by
  rcases afterGiveUp_cases enc t with ⟨-, hbuf, hunacked⟩ | ⟨-, heq⟩
  · have hfresh : (enc.afterGiveUp t).freshKeys = [] := by
      unfold freshKeys
      rw [hbuf]
      rfl
    refine ⟨?_, ?_, ?_, ?_, ?_⟩
    · rw [frameId_afterGiveUp]
      exact h.frameId_eq
    · rw [hbuf]
      exact fun d hd => absurd hd List.not_mem_nil
    · rw [hunacked]
      exact fun k d hd => by simp at hd
    · rw [hfresh]
      exact List.Pairwise.nil
    · rw [hfresh]
      exact fun k _ f hf => absurd hf List.not_mem_nil
  · rw [heq]
    exact h

/-- The frame id counts on when the number of frames stays below `2 ^ 32`. -/
theorem Ordered.toNat_frameId_add_one (h : Ordered es enc) (hcount : encodedCount es + 1 < 2 ^ 32) :
    (enc.frameId + 1).toNat = enc.frameId.toNat + 1 ∧ enc.frameId < enc.frameId + 1 := by
  have hlt : enc.frameId < maxUInt32 := by
    rw [UInt32.lt_iff_toNat_lt, h.frameId_eq]
    show encodedCount es < 4294967295
    omega
  exact ⟨toNat_add_one hlt, (lt_iff_add_one_le hlt).mpr le_rfl⟩

/-- Datagrams of a smaller frame have smaller sequence numbers. -/
theorem seqNum_lt_of_frameId_lt {a b : Datagram} (h : a.frameId < b.frameId) :
    a.seqNum < b.seqNum := by
  unfold Datagram.seqNum
  rw [Prod.Lex.toLex_lt_toLex]
  exact Or.inl h

/-- Queueing the datagrams of a new frame keeps the order. -/
theorem Ordered.compressed (h : Ordered es enc) {ds : List Datagram}
    (hds : ∀ d ∈ ds, d.frameId = enc.frameId ∧ d.sendTs = 0 ∧ d.numRtx = 0)
    (hpairwise : ds.Pairwise (fun a b => a.seqNum < b.seqNum))
    (hid : enc'.frameId = enc.frameId + 1) (hbuf : enc'.sendBuf = enc.sendBuf ++ ds)
    (hunacked : enc'.unacked = enc.unacked) (hes : encodedCount es' = 1)
    (hcount : encodedCount (es ++ es') < 2 ^ 32) : Ordered (es ++ es') enc' := by
  rw [encodedCount_append, hes] at hcount
  obtain ⟨hsucc, hlt⟩ := h.toNat_frameId_add_one hcount
  have hnew : ds.filter (fun d => decide (d.numRtx = 0)) = ds := by
    rw [List.filter_eq_self]
    exact fun d hd => decide_eq_true (hds d hd).2.2
  have hfresh : enc'.freshKeys = enc.freshKeys ++ ds.map Datagram.seqNum := by
    unfold freshKeys
    rw [hbuf, List.filter_append, List.map_append, hnew]
  refine ⟨?_, ?_, ?_, ?_, ?_⟩
  · rw [hid, hsucc, encodedCount_append, hes, h.frameId_eq]
  · intro d hd
    rw [hbuf] at hd
    rw [hid]
    rcases List.mem_append.mp hd with hmem | hmem
    · exact lt_trans (h.queued_lt d hmem) hlt
    · rw [(hds d hmem).1]
      exact hlt
  · intro k d hd
    rw [hunacked] at hd
    rw [hid]
    obtain ⟨hk, hold⟩ := h.unacked_lt k d hd
    exact ⟨hk, lt_trans hold hlt⟩
  · rw [hfresh, List.pairwise_append]
    refine ⟨h.sorted, ?_, ?_⟩
    · rw [List.pairwise_map]
      exact hpairwise
    · intro a ha b hb
      obtain ⟨d, hd, -, rfl⟩ := mem_freshKeys.mp ha
      obtain ⟨d', hd', rfl⟩ := List.mem_map.mp hb
      apply seqNum_lt_of_frameId_lt
      rw [(hds d' hd').1]
      exact h.queued_lt d hd
  · intro k hk f hf
    rw [hunacked] at hk
    rw [hfresh] at hf
    rcases List.mem_append.mp hf with hmem | hmem
    · exact h.unacked_lt_fresh k hk f hmem
    · obtain ⟨d, hd⟩ := Option.isSome_iff_exists.mp hk
      obtain ⟨d', hd', rfl⟩ := List.mem_map.mp hmem
      obtain ⟨rfl, hold⟩ := h.unacked_lt k d hd
      apply seqNum_lt_of_frameId_lt
      rw [(hds d' hd').1]
      exact hold

/-- Between frames, the order depends on the queues only. -/
theorem Ordered.of_queues (h : Ordered es enc) (hes : encodedCount es' = 0)
    (hid : enc'.frameId = enc.frameId) (hqueued : ∀ d ∈ enc'.sendBuf, d.frameId < enc.frameId)
    (hunacked : ∀ k d, enc'.unacked.find? k = some d → d.seqNum = k ∧ d.frameId < enc.frameId)
    (hsorted : enc'.freshKeys.Pairwise (· < ·))
    (hfresh : ∀ k, enc'.unacked.contains k → ∀ f ∈ enc'.freshKeys, k < f) :
    Ordered (es ++ es') enc' := by
  refine ⟨?_, ?_, ?_, hsorted, hfresh⟩
  · rw [hid, encodedCount_append, hes, h.frameId_eq, Nat.add_zero]
  · rw [hid]
    exact hqueued
  · rw [hid]
    exact hunacked

/-- The fresh keys with a fresh datagram at the front. -/
theorem freshKeys_cons_of_fresh {d : Datagram} {rest : List Datagram}
    (hd : enc.sendBuf = d :: rest) (h0 : d.numRtx = 0) (hbuf : enc'.sendBuf = rest) :
    enc.freshKeys = d.seqNum :: enc'.freshKeys := by
  unfold freshKeys
  rw [hd, hbuf, List.filter_cons_of_pos (by simpa using h0), List.map_cons]

/-- The fresh keys with a retransmission at the front. -/
theorem freshKeys_cons_of_rtx {d : Datagram} {rest : List Datagram}
    (hd : enc.sendBuf = d :: rest) (h0 : d.numRtx ≠ 0) (hbuf : enc'.sendBuf = rest) :
    enc'.freshKeys = enc.freshKeys := by
  unfold freshKeys
  rw [hd, hbuf, List.filter_cons_of_neg (by simpa using h0)]

/-- A failed attempt to send does not change the keys. -/
theorem freshKeys_blocked {d : Datagram} {rest : List Datagram}
    (hd : enc.sendBuf = d :: rest) (hbuf : enc'.sendBuf = { d with sendTs := 0 } :: rest) :
    enc'.freshKeys = enc.freshKeys := by
  unfold freshKeys
  rw [hd, hbuf, List.filter_cons, List.filter_cons]
  dsimp only
  split_ifs
  · rfl
  · rfl

/-- The first of the fresh datagrams becomes the last of the unacked ones. -/
theorem Ordered.sentFresh (h : Ordered es enc) {d : Datagram} {rest : List Datagram} {t : UInt64}
    (hd : enc.sendBuf = d :: rest) (h0 : d.numRtx = 0) (hes : encodedCount es' = 0)
    (hid : enc'.frameId = enc.frameId) (hbuf : enc'.sendBuf = rest)
    (hfind : ∀ k, enc'.unacked.find? k = if k = d.seqNum
      then some { d with sendTs := t, lastSendTs := t } else enc.unacked.find? k) :
    Ordered (es ++ es') enc' := by
  have hkeys := freshKeys_cons_of_fresh hd h0 hbuf
  have hsorted := h.sorted
  rw [hkeys, List.pairwise_cons] at hsorted
  have hold := h.queued_lt d (by rw [hd]; exact List.mem_cons_self)
  refine h.of_queues hes hid ?_ ?_ hsorted.2 ?_
  · intro d' hd'
    rw [hbuf] at hd'
    exact h.queued_lt d' (by rw [hd]; exact List.mem_cons_of_mem d hd')
  · intro k d' hd'
    rw [hfind] at hd'
    split_ifs at hd' with hk
    · rw [Option.some_inj] at hd'
      subst hd' hk
      exact ⟨rfl, hold⟩
    · exact h.unacked_lt k d' hd'
  · intro k hk f hf
    rw [OrderedMap.contains, hfind] at hk
    split_ifs at hk with hkd
    · rw [hkd]
      exact hsorted.1 f hf
    · exact h.unacked_lt_fresh k hk f (by rw [hkeys]; exact List.mem_cons_of_mem _ hf)

section Steps

variable [RttArith E]

/-- A datagram is retransmitted below the limit only. -/
theorem numRtx_lt_of_isDue {ewma : E} {t : UInt64} {d : Datagram} (h : isDue ewma t d) :
    d.numRtx < maxNumRtx := by
  unfold isDue at h
  rw [Bool.and_eq_true, decide_eq_true_eq] at h
  exact h.1

/-- A retransmission counts up. -/
theorem toNat_numRtx_retransmitted {ewma : E} {t : UInt64} {d : Datagram} (h : isDue ewma t d) :
    (retransmitted t d).numRtx.toNat = d.numRtx.toNat + 1 := by
  have hmax : d.numRtx.toNat < 3 := UInt32.lt_iff_toNat_lt.mp (numRtx_lt_of_isDue h)
  apply toNat_add_one
  rw [UInt32.lt_iff_toNat_lt]
  show _ < 4294967295
  omega

/-- A retransmission is not a fresh datagram. -/
theorem numRtx_rtxEntries {seq : SeqNum} {ewma : E} {t : UInt64} {d : Datagram}
    (hd : d ∈ (enc.rtxEntries seq ewma t).map Prod.snd) :
    ∃ k d₀, enc.unacked.find? k = some d₀ ∧ k < seq ∧ isDue ewma t d₀ ∧
      d = retransmitted t d₀ ∧ d.numRtx.toNat = d₀.numRtx.toNat + 1 ∧ d.numRtx ≤ maxNumRtx := by
  obtain ⟨⟨k, d'⟩, he, rfl⟩ := List.mem_map.mp hd
  obtain ⟨d₀, hfind, hlt, hdue, rfl⟩ := mem_rtxEntries.mp he
  have hmax : d₀.numRtx.toNat < 3 := UInt32.lt_iff_toNat_lt.mp (numRtx_lt_of_isDue hdue)
  have hsucc := toNat_numRtx_retransmitted hdue
  refine ⟨k, d₀, hfind, hlt, hdue, rfl, hsucc, ?_⟩
  rw [UInt32.le_iff_toNat_le, hsucc]
  show d₀.numRtx.toNat + 1 ≤ 3
  omega

/-- Retransmissions in front do not change the fresh keys. -/
theorem freshKeys_acked {seq : SeqNum} {ewma : E} {t : UInt64}
    (hbuf : enc'.sendBuf = ((enc.rtxEntries seq ewma t).map Prod.snd).reverse ++ enc.sendBuf) :
    enc'.freshKeys = enc.freshKeys := by
  have hnone : ((enc.rtxEntries seq ewma t).map Prod.snd).reverse.filter
      (fun d => decide (d.numRtx = 0)) = [] := by
    rw [List.filter_eq_nil_iff]
    intro d hd
    obtain ⟨k, d₀, -, -, -, -, hnum, -⟩ := numRtx_rtxEntries (List.mem_reverse.mp hd)
    rw [decide_eq_true_eq]
    intro h0
    rw [h0] at hnum
    exact absurd hnum (by rw [UInt32.toNat_zero]; omega)
  unfold freshKeys
  rw [hbuf, List.filter_append, hnone, List.nil_append]

/-- An acknowledgement keeps the order: what it queues again belongs to a finished frame and is
not fresh, and what it leaves unacked was unacked. -/
theorem Ordered.acked (h : Ordered es enc) {seq : SeqNum} {ewma : E} {t : UInt64}
    (hes : encodedCount es' = 0) (hid : enc'.frameId = enc.frameId)
    (hbuf : enc'.sendBuf = ((enc.rtxEntries seq ewma t).map Prod.snd).reverse ++ enc.sendBuf)
    (hfind : ∀ k, enc'.unacked.find? k = if k = seq then none
      else (enc.unacked.find? k).map fun d =>
        if k < seq ∧ isDue ewma t d then retransmitted t d else d) :
    Ordered (es ++ es') enc' := by
  have hkeys := freshKeys_acked hbuf
  refine h.of_queues hes hid ?_ ?_ (hkeys ▸ h.sorted) ?_
  · intro d hd
    rw [hbuf] at hd
    rcases List.mem_append.mp hd with hmem | hmem
    · obtain ⟨k, d₀, hd₀, -, -, rfl, -⟩ := numRtx_rtxEntries (List.mem_reverse.mp hmem)
      exact (h.unacked_lt k d₀ hd₀).2
    · exact h.queued_lt d hmem
  · intro k d hd
    rw [hfind] at hd
    split_ifs at hd
    obtain ⟨d₀, hd₀, rfl⟩ := Option.map_eq_some_iff.mp hd
    obtain ⟨hk, hlt⟩ := h.unacked_lt k d₀ hd₀
    split_ifs
    · exact ⟨hk, hlt⟩
    · exact ⟨hk, hlt⟩
  · intro k hk f hf
    rw [hkeys] at hf
    refine h.unacked_lt_fresh k ?_ f hf
    rw [OrderedMap.contains, hfind] at hk
    split_ifs at hk
    · simp at hk
    · rwa [Option.isSome_map] at hk

/-- A step keeps the order, as long as fewer than `2 ^ 32` frames are compressed. -/
theorem Ordered.step (h : Ordered es enc) (heff : Effect enc enc' es')
    (hcount : encodedCount (es ++ es') < 2 ^ 32) : Ordered (es ++ es') enc' := by
  cases heff with
  | compressed inp ds hds hpairwise hid hbuf hunacked =>
    refine (h.afterGiveUp inp.encodeTs).compressed ?_ hpairwise ?_ hbuf hunacked
      (encodedCount_compressEvents enc inp ds) hcount
    · rw [frameId_afterGiveUp]
      exact hds
    · rw [frameId_afterGiveUp]
      exact hid
  | sentFresh d rest t hd h0 hnone hid hbuf hfind => exact h.sentFresh hd h0 rfl hid hbuf hfind
  | sentRtx d rest t hd h0 hid hbuf hunacked =>
    have hkeys := freshKeys_cons_of_rtx hd h0 hbuf
    refine h.of_queues rfl hid ?_ (hunacked ▸ h.unacked_lt) (hkeys ▸ h.sorted)
      (hunacked ▸ hkeys ▸ h.unacked_lt_fresh)
    intro d' hd'
    rw [hbuf] at hd'
    exact h.queued_lt d' (by rw [hd]; exact List.mem_cons_of_mem d hd')
  | blocked d rest t hd hid hbuf hunacked =>
    have hkeys := freshKeys_blocked hd hbuf
    refine h.of_queues rfl hid ?_ (hunacked ▸ h.unacked_lt) (hkeys ▸ h.sorted)
      (hunacked ▸ hkeys ▸ h.unacked_lt_fresh)
    intro d' hd'
    rw [hbuf] at hd'
    rcases List.mem_cons.mp hd' with rfl | hmem
    · exact h.queued_lt d (by rw [hd]; exact List.mem_cons_self)
    · exact h.queued_lt d' (by rw [hd]; exact List.mem_cons_of_mem d hmem)
  | stray t hid hbuf hunacked =>
    have hkeys : enc'.freshKeys = enc.freshKeys := by
      unfold freshKeys
      rw [hbuf]
    exact h.of_queues rfl hid (hbuf ▸ h.queued_lt) (hunacked ▸ h.unacked_lt)
      (hkeys ▸ h.sorted) (hunacked ▸ hkeys ▸ h.unacked_lt_fresh)
  | acked seq ewma t hc hid hbuf hfind =>
    exact h.acked (encodedCount_ackEvents _ _ _) hid hbuf hfind

/-- Every run over fewer than `2 ^ 32` frames is in order. -/
theorem ordered_of_steps {maxPayload : ℕ} {displayWidth displayHeight : UInt16}
    {hasOutput : Bool}
    (h : Run.Steps (Step maxPayload) (initial displayWidth displayHeight hasOutput) es enc)
    (hcount : encodedCount es < 2 ^ 32) : Ordered es enc :=
  h.invariant_of_lt encodedCount Ordered encodedCount_le_append
    (ordered_initial displayWidth displayHeight hasOutput)
    (fun _ _ _ _ hG hI hstep => hI.step hstep.effect hG) hcount

end Steps

/-! ## Timestamps -/

/-- The clock does not run backwards. -/
def ClockMonotone (es : List SenderEvent) : Prop := (clocks es).Pairwise (· ≤ ·)

/-- What is unacked was sent at a time that was read off the clock, after every give-up, and
the give-ups are far apart. -/
structure Spaced (es : List SenderEvent) (enc : Encoder E) : Prop where
  sendTs_mem : ∀ k d, enc.unacked.find? k = some d → d.sendTs ∈ clocks es
  giveUp_mem : ∀ g ∈ giveUps es, g ∈ clocks es
  giveUp_le : ∀ k d, enc.unacked.find? k = some d → ∀ g ∈ giveUps es, g ≤ d.sendTs
  spaced : (giveUps es).Pairwise (fun a b => maxUnackedUs.toNat < b.toNat - a.toNat)

/-- The unacked datagrams were sent in the order of their keys. -/
def Aged (enc : Encoder E) : Prop :=
  ∀ k k' d d', k < k' → enc.unacked.find? k = some d → enc.unacked.find? k' = some d' →
    d.sendTs ≤ d'.sendTs

/-- The unacked datagrams were unacked before, with the same timestamps. -/
def Inherits (enc enc' : Encoder E) : Prop :=
  ∀ k d, enc'.unacked.find? k = some d →
    ∃ d₀, enc.unacked.find? k = some d₀ ∧ d.sendTs = d₀.sendTs

theorem spaced_initial (displayWidth displayHeight : UInt16) (hasOutput : Bool) :
    Spaced [] (initial displayWidth displayHeight hasOutput : Encoder E) where
  sendTs_mem := fun _ _ hd => by simp [initial] at hd
  giveUp_mem := fun _ hg => absurd hg List.not_mem_nil
  giveUp_le := fun _ _ hd => by simp [initial] at hd
  spaced := List.Pairwise.nil

theorem aged_initial (displayWidth displayHeight : UInt16) (hasOutput : Bool) :
    Aged (initial displayWidth displayHeight hasOutput : Encoder E) :=
  fun _ _ _ _ _ hd => by simp [initial] at hd

theorem inherits_of_eq (h : enc'.unacked = enc.unacked) : Inherits enc enc' := by
  intro k d hd
  exact ⟨d, h ▸ hd, rfl⟩

/-- A clock that does not run backwards reads at least what it read before. -/
theorem ClockMonotone.le (h : ClockMonotone (es ++ es')) {a b : UInt64} (ha : a ∈ clocks es)
    (hb : b ∈ clocks es') : a ≤ b := by
  unfold ClockMonotone at h
  rw [clocks_append, List.pairwise_append] at h
  exact h.2.2 a ha b hb

/-- A clock that does not run backwards did not do so earlier. -/
theorem ClockMonotone.of_append (h : ClockMonotone (es ++ es')) : ClockMonotone es := by
  unfold ClockMonotone at h
  rw [clocks_append, List.pairwise_append] at h
  exact h.1

/-- Inherited timestamps are in the order of the keys. -/
theorem Aged.of_inherits (h : Aged enc) (hin : Inherits enc enc') : Aged enc' := by
  intro k k' d d' hlt hd hd'
  obtain ⟨d₀, hd₀, heq⟩ := hin k d hd
  obtain ⟨d₀', hd₀', heq'⟩ := hin k' d' hd'
  rw [heq, heq']
  exact h k k' d₀ d₀' hlt hd₀ hd₀'

/-- Inherited timestamps lie behind the give-ups, when there is no new one. -/
theorem Spaced.of_inherits (h : Spaced es enc) (hin : Inherits enc enc')
    (hes : giveUps es' = []) : Spaced (es ++ es') enc' := by
  have hgive : giveUps (es ++ es') = giveUps es := by rw [giveUps_append, hes, List.append_nil]
  refine ⟨?_, ?_, ?_, ?_⟩
  · intro k d hd
    obtain ⟨d₀, hd₀, heq⟩ := hin k d hd
    rw [heq, clocks_append]
    exact List.mem_append_left _ (h.sendTs_mem k d₀ hd₀)
  · rw [hgive, clocks_append]
    exact fun g hg => List.mem_append_left _ (h.giveUp_mem g hg)
  · rw [hgive]
    intro k d hd
    obtain ⟨d₀, hd₀, heq⟩ := hin k d hd
    rw [heq]
    exact h.giveUp_le k d₀ hd₀
  · rw [hgive]
    exact h.spaced

/-- What a give-up at the time `t` says of the first unacked datagram. -/
theorem givesUp_iff {t : UInt64} : enc.givesUp t ↔
    ∃ k d, enc.unacked.entries.head? = some (k, d) ∧ maxUnackedUs < t - d.sendTs := by
  unfold givesUp
  cases hhead : enc.unacked.entries.head? with
  | none => simp
  | some e =>
    obtain ⟨k, d⟩ := e
    simp

/-- The first entry of `unacked_`. -/
theorem find?_of_head? {k : SeqNum} {d : Datagram}
    (h : enc.unacked.entries.head? = some (k, d)) : enc.unacked.find? k = some d :=
  OrderedMap.find?_eq_some_iff.mpr (List.mem_of_mem_head? h)

/-- A difference of times is one of natural numbers when the times are in order. -/
theorem toNat_sub_le {a b c : UInt64} (hab : a ≤ b) (hbc : b ≤ c) :
    (c - b).toNat = c.toNat - b.toNat ∧ (c - b).toNat ≤ c.toNat - a.toNat := by
  have hsub : (c - b).toNat = c.toNat - b.toNat := UInt64.toNat_sub_of_le c b hbc
  have hab' : a.toNat ≤ b.toNat := UInt64.le_iff_toNat_le.mp hab
  exact ⟨hsub, by omega⟩

/-- The clock is read for a give-up, and long after every earlier one. -/
theorem Spaced.lt_of_givesUp (h : Spaced es enc) {t : UInt64} (hgive : enc.givesUp t)
    (hmono : ClockMonotone (es ++ es')) (hread : clocks (enc.encodeEvents t) ⊆ clocks es') :
    t ∈ clocks es' ∧ ∀ g ∈ giveUps es, maxUnackedUs.toNat < t.toNat - g.toNat := by
  obtain ⟨k, d, hhead, hold⟩ := givesUp_iff.mp hgive
  have hfind := find?_of_head? hhead
  have hmem : t ∈ clocks es' := by
    apply hread
    rw [clocks_encodeEvents, if_neg]
    · exact List.mem_cons_self
    · intro hnil
      rw [hnil] at hhead
      simp at hhead
  refine ⟨hmem, fun g hg => ?_⟩
  -- the datagram that is given up was sent after the earlier give-up
  have hle := hmono.le (h.sendTs_mem k d hfind) hmem
  obtain ⟨-, hdiff⟩ := toNat_sub_le (h.giveUp_le k d hfind g hg) hle
  have hlt := UInt64.lt_iff_toNat_lt.mp hold
  omega

/-- A give-up comes long after every other one. -/
theorem Spaced.compressed_of_givesUp (h : Spaced es enc) {inp : CompressInput}
    {ds : List Datagram} (hgive : enc.givesUp inp.encodeTs)
    (hunacked : enc'.unacked = OrderedMap.empty)
    (hmono : ClockMonotone (es ++ enc.compressEvents inp ds)) :
    Spaced (es ++ enc.compressEvents inp ds) enc' := by
  obtain ⟨hread, hfar⟩ := h.lt_of_givesUp hgive hmono (by
    rw [clocks_compressEvents]
    exact fun t ht => List.mem_append_left _ (List.mem_append_right _ ht))
  have hnew : giveUps (es ++ enc.compressEvents inp ds) = giveUps es ++ [inp.encodeTs] := by
    rw [giveUps_append, giveUps_compressEvents, if_pos hgive]
  refine ⟨?_, ?_, ?_, ?_⟩
  · rw [hunacked]
    exact fun k d hd => by simp at hd
  · rw [hnew, clocks_append]
    intro g hg
    rcases List.mem_append.mp hg with hmem | hmem
    · exact List.mem_append_left _ (h.giveUp_mem g hmem)
    · rw [List.mem_singleton.mp hmem]
      exact List.mem_append_right _ hread
  · rw [hunacked]
    exact fun k d hd => by simp at hd
  · rw [hnew, List.pairwise_append]
    refine ⟨h.spaced, List.pairwise_singleton _ _, fun g hg b hb => ?_⟩
    rw [List.mem_singleton.mp hb]
    exact hfar g hg

/-- A first transmission puts a new timestamp behind every give-up. -/
theorem Spaced.sentFresh (h : Spaced es enc) {d : Datagram} {t : UInt64}
    (hfind : ∀ k, enc'.unacked.find? k = if k = d.seqNum
      then some { d with sendTs := t, lastSendTs := t } else enc.unacked.find? k)
    (hclocks : clocks es' = [t]) (hgive : giveUps es' = [])
    (hmono : ClockMonotone (es ++ es')) : Spaced (es ++ es') enc' := by
  have hnew : giveUps (es ++ es') = giveUps es := by rw [giveUps_append, hgive, List.append_nil]
  refine ⟨?_, ?_, ?_, ?_⟩
  · intro k d' hd'
    rw [clocks_append, hclocks]
    rw [hfind] at hd'
    split_ifs at hd'
    · rw [Option.some_inj] at hd'
      subst hd'
      exact List.mem_append_right _ List.mem_cons_self
    · exact List.mem_append_left _ (h.sendTs_mem k d' hd')
  · rw [hnew, clocks_append]
    exact fun g hg => List.mem_append_left _ (h.giveUp_mem g hg)
  · rw [hnew]
    intro k d' hd' g hg
    rw [hfind] at hd'
    split_ifs at hd'
    · rw [Option.some_inj] at hd'
      subst hd'
      exact hmono.le (h.giveUp_mem g hg) (by rw [hclocks]; exact List.mem_cons_self)
    · exact h.giveUp_le k d' hd' g hg
  · rw [hnew]
    exact h.spaced

/-- A first transmission is the youngest of the unacked datagrams, and has the last key. -/
theorem Aged.sentFresh (h : Aged enc) {d : Datagram} {t : UInt64}
    (hfind : ∀ k, enc'.unacked.find? k = if k = d.seqNum
      then some { d with sendTs := t, lastSendTs := t } else enc.unacked.find? k)
    (hold : ∀ k d', enc.unacked.find? k = some d' → k < d.seqNum ∧ d'.sendTs ≤ t) :
    Aged enc' := by
  intro k k' a a' hlt ha ha'
  rw [hfind] at ha ha'
  split_ifs at ha ha' with hk hk'
  · exact absurd (hk.trans hk'.symm) (ne_of_lt hlt)
  · -- no unacked key lies behind the new one
    rw [hk] at hlt
    exact absurd (hold k' a' ha').1 (not_lt.mpr (le_of_lt hlt))
  · rw [Option.some_inj] at ha'
    subst ha'
    exact (hold k a ha).2
  · exact h k k' a a' hlt ha ha'

/-- When `encode_frame` returns, the first entry of `unacked_` speaks for all of them. -/
theorem encodeFrame_of_aged {inp : CompressInput} {pkts : List CxPkt} (haged : Aged enc)
    (hspaced : Spaced es enc) (h : enc.encodeFrame inp = (.ok pkts, es', enc'))
    (hmono : ClockMonotone (es ++ es')) {k : SeqNum} {d : Datagram}
    (hd : enc'.unacked.find? k = some d) : ¬ inp.encodeTs - d.sendTs > maxUnackedUs := by
  have hdim : inp.imgWidth = enc.displayWidth ∧ inp.imgHeight = enc.displayHeight := by
    by_contra hdim
    rw [encodeFrame, if_pos (by rw [← not_and_or]; exact hdim)] at h
    simp at h
  rw [encodeFrame_eq hdim, Prod.mk.injEq, Prod.mk.injEq] at h
  obtain ⟨-, rfl, rfl⟩ := h
  rcases afterGiveUp_cases enc inp.encodeTs with ⟨-, -, hunacked⟩ | ⟨hnot, heq⟩
  · rw [hunacked] at hd
    simp at hd
  rw [heq] at hd
  have hmem := OrderedMap.find?_eq_some_iff.mp hd
  cases hhead : enc.unacked.entries.head? with
  | none =>
    rw [List.head?_eq_none_iff] at hhead
    rw [hhead] at hmem
    exact absurd hmem List.not_mem_nil
  | some e =>
    obtain ⟨k₀, d₀⟩ := e
    have hfind₀ := find?_of_head? hhead
    have hread : inp.encodeTs ∈ clocks (enc.encodeEvents inp.encodeTs) := by
      rw [clocks_encodeEvents, if_neg (List.ne_nil_of_mem hmem)]
      exact List.mem_cons_self
    have hfirst : ¬ maxUnackedUs < inp.encodeTs - d₀.sendTs :=
      fun hold => hnot (givesUp_iff.mpr ⟨k₀, d₀, hhead, hold⟩)
    -- the first entry is the oldest one
    have hle : d₀.sendTs ≤ d.sendTs := by
      rcases (OrderedMap.le_of_head? hhead _ hmem).lt_or_eq with hlt | hk
      · exact haged k₀ k d₀ d hlt hfind₀ hd
      · have hk' : k₀ = k := hk
        rw [hk', hd, Option.some_inj] at hfind₀
        rw [hfind₀]
    have hdt := hmono.le (hspaced.sendTs_mem k d hd) hread
    obtain ⟨hsub, -⟩ := toNat_sub_le hle hdt
    obtain ⟨hsub₀, -⟩ := toNat_sub_le le_rfl (le_trans hle hdt)
    rw [UInt64.lt_iff_toNat_lt] at hfirst
    rw [gt_iff_lt, UInt64.lt_iff_toNat_lt]
    have hle' := UInt64.le_iff_toNat_le.mp hle
    omega

section Steps

variable [RttArith E]

/-- A step other than a first transmission or a give-up inherits all timestamps. -/
theorem Effect.inherits_or (heff : Effect enc enc' es') :
    (Inherits enc enc' ∧ giveUps es' = []) ∨
    (∃ inp ds, es' = enc.compressEvents inp ds ∧ enc.givesUp inp.encodeTs ∧
      enc'.unacked = OrderedMap.empty) ∨
    (∃ (d : Datagram) (t : UInt64), d.seqNum ∈ enc.freshKeys ∧ clocks es' = [t] ∧ giveUps es' = [] ∧
      ∀ k, enc'.unacked.find? k = if k = d.seqNum
        then some { d with sendTs := t, lastSendTs := t } else enc.unacked.find? k) := by
  cases heff with
  | compressed inp ds hds hpairwise hid hbuf hunacked =>
    rcases afterGiveUp_cases enc inp.encodeTs with ⟨hgive, -, hempty⟩ | ⟨hnot, heq⟩
    · exact Or.inr (Or.inl ⟨inp, ds, rfl, hgive, hunacked.trans hempty⟩)
    · rw [heq] at hunacked
      refine Or.inl ⟨inherits_of_eq hunacked, ?_⟩
      rw [giveUps_compressEvents, if_neg hnot]
  | sentFresh d rest t hd h0 hnone hid hbuf hfind =>
    refine Or.inr (Or.inr ⟨d, t, ?_, rfl, rfl, hfind⟩)
    rw [freshKeys_cons_of_fresh hd h0 hbuf]
    exact List.mem_cons_self
  | sentRtx d rest t hd h0 hid hbuf hunacked => exact Or.inl ⟨inherits_of_eq hunacked, rfl⟩
  | blocked d rest t hd hid hbuf hunacked => exact Or.inl ⟨inherits_of_eq hunacked, rfl⟩
  | stray t hid hbuf hunacked => exact Or.inl ⟨inherits_of_eq hunacked, rfl⟩
  | acked seq ewma t hc hid hbuf hfind =>
    refine Or.inl ⟨?_, giveUps_ackEvents _ _ _⟩
    intro k d hd
    rw [hfind] at hd
    split_ifs at hd
    obtain ⟨d₀, hd₀, rfl⟩ := Option.map_eq_some_iff.mp hd
    refine ⟨d₀, hd₀, ?_⟩
    split_ifs
    · rfl
    · rfl

/-- A step under a clock that does not run backwards keeps the give-ups apart. -/
theorem Spaced.step (h : Spaced es enc) (heff : Effect enc enc' es')
    (hmono : ClockMonotone (es ++ es')) : Spaced (es ++ es') enc' := by
  rcases heff.inherits_or with ⟨hin, hgive⟩ | ⟨inp, ds, rfl, hgive, hunacked⟩ |
    ⟨d, t, -, hclocks, hgive, hfind⟩
  · exact h.of_inherits hin hgive
  · exact h.compressed_of_givesUp hgive hunacked hmono
  · exact h.sentFresh hfind hclocks hgive hmono

/-- A step under a clock that does not run backwards keeps the unacked datagrams in the order
of their age. -/
theorem Aged.step (h : Aged enc) (hordered : Ordered es enc) (hspaced : Spaced es enc)
    (heff : Effect enc enc' es') (hmono : ClockMonotone (es ++ es')) : Aged enc' := by
  rcases heff.inherits_or with ⟨hin, -⟩ | ⟨inp, ds, -, -, hunacked⟩ |
    ⟨d, t, hfresh, hclocks, -, hfind⟩
  · exact h.of_inherits hin
  · intro k k' a a' _ ha
    rw [hunacked] at ha
    simp at ha
  · refine h.sentFresh hfind (fun k d' hd' => ⟨?_, ?_⟩)
    · exact hordered.unacked_lt_fresh k (by simp [OrderedMap.contains, hd']) _ hfresh
    · exact hmono.le (hspaced.sendTs_mem k d' hd') (by rw [hclocks]; exact List.mem_cons_self)

/-- Every run under a clock that does not run backwards keeps the give-ups apart. -/
theorem spaced_of_steps {maxPayload : ℕ} {displayWidth displayHeight : UInt16}
    {hasOutput : Bool}
    (h : Run.Steps (Step maxPayload) (initial displayWidth displayHeight hasOutput) es enc)
    (hmono : ClockMonotone es) : Spaced es enc :=
  h.invariant_of_guard ClockMonotone Spaced (fun _ _ hG => hG.of_append)
    (spaced_initial displayWidth displayHeight hasOutput)
    (fun _ _ _ _ hG hI hstep => hI.step hstep.effect hG) hmono

/-- Every run over fewer than `2 ^ 32` frames under a clock that does not run backwards keeps
the unacked datagrams in the order of their age. -/
theorem aged_of_steps {maxPayload : ℕ} {displayWidth displayHeight : UInt16}
    {hasOutput : Bool}
    (h : Run.Steps (Step maxPayload) (initial displayWidth displayHeight hasOutput) es enc)
    (hcount : encodedCount es < 2 ^ 32) (hmono : ClockMonotone es) : Aged enc := by
  have key : Ordered es enc ∧ Spaced es enc ∧ Aged enc := by
    refine h.invariant_of_guard (fun es => encodedCount es < 2 ^ 32 ∧ ClockMonotone es)
      (fun es enc => Ordered es enc ∧ Spaced es enc ∧ Aged enc) ?_ ?_ ?_ ⟨hcount, hmono⟩
    · rintro es es' ⟨hG, hG'⟩
      rw [encodedCount_append] at hG
      exact ⟨by omega, hG'.of_append⟩
    · exact ⟨ordered_initial _ _ _, spaced_initial _ _ _, aged_initial _ _ _⟩
    · rintro es enc es' enc' ⟨hG, hG'⟩ ⟨hordered, hspaced, haged⟩ hstep
      exact ⟨hordered.step hstep.effect hG, hspaced.step hstep.effect hG',
        haged.step hordered hspaced hstep.effect hG'⟩
  exact key.2.2

/-! ## Order, ageing, and give-ups -/

/-- Order and ageing.  In every run over fewer than `2 ^ 32` frames, the datagrams that were
never transmitted are queued in strictly increasing order, behind every unacked one, and the
transmission of such a datagram finds its key free in `unacked_`.  If the clock never runs
backwards, the unacked datagrams were sent in the order of their keys, and when
`encode_frame` returns after reading the clock, none of them is older than the limit. -/
theorem fresh_ordered_and_aged {maxPayload : ℕ} {displayWidth displayHeight : UInt16}
    {hasOutput : Bool}
    (h : Run.Steps (Step maxPayload) (initial displayWidth displayHeight hasOutput) es enc)
    (hcount : encodedCount es < 2 ^ 32) :
    enc.freshKeys.Pairwise (· < ·) ∧
    (∀ k, enc.unacked.contains k → ∀ f ∈ enc.freshKeys, k < f) ∧
    (∀ d rest t, enc.sendBuf = d :: rest →
      ∃ es' enc', enc.sendFront d rest t .accepted = .ok (es', true, enc')) ∧
    (ClockMonotone es → Aged enc ∧
      ∀ inp pkts es' enc', enc.encodeFrame inp = (.ok pkts, es', enc') →
        ClockMonotone (es ++ es') → ∀ k d, enc'.unacked.find? k = some d →
          ¬ inp.encodeTs - d.sendTs > maxUnackedUs) := by
  have hordered := ordered_of_steps h hcount
  refine ⟨hordered.sorted, hordered.unacked_lt_fresh, ?_, ?_⟩
  · intro d rest t hbuf
    unfold sendFront
    dsimp only
    by_cases h0 : d.numRtx = 0
    · -- a key in `unacked_` would not lie before the fresh datagram at the front
      have hfree : enc.unacked.find? d.seqNum = none := by
        by_contra hne
        have hc : enc.unacked.contains d.seqNum := Option.isSome_iff_ne_none.mpr hne
        have hf : d.seqNum ∈ enc.freshKeys :=
          mem_freshKeys.mpr ⟨d, by rw [hbuf]; exact List.mem_cons_self, h0, rfl⟩
        exact lt_irrefl _ (hordered.unacked_lt_fresh _ hc _ hf)
      obtain ⟨enc₁, hadd⟩ : ∃ enc₁, enc.addUnacked { d with sendTs := t } = .ok enc₁ :=
        ⟨_, addUnacked_eq_ok_iff.mpr ⟨hfree, rfl⟩⟩
      rw [if_pos h0, hadd]
      exact ⟨_, _, rfl⟩
    · rw [if_neg h0]
      exact ⟨_, _, rfl⟩
  · intro hmono
    have haged := aged_of_steps h hcount hmono
    have hspaced := spaced_of_steps h hmono
    refine ⟨haged, fun inp pkts es' enc' henc hmono' k d hd => ?_⟩
    exact encodeFrame_of_aged haged hspaced henc hmono' hd

/-- Forced key frames are far apart.  In every run under a clock that never runs backwards,
any two give-ups of `encode_frame` read the clock at times more than the limit apart.  This
includes the give-up of a call that raises an exception later, and so ends the run. -/
theorem giveUps_spaced {maxPayload : ℕ} {displayWidth displayHeight : UInt16}
    {hasOutput : Bool}
    (h : Run.Steps (Step maxPayload) (initial displayWidth displayHeight hasOutput) es enc) :
    (ClockMonotone es →
      (giveUps es).Pairwise (fun t t' => maxUnackedUs.toNat < t'.toNat - t.toNat)) ∧
    ∀ inp result es' enc', enc.encodeFrame inp = (result, es', enc') →
      ClockMonotone (es ++ es') →
        (giveUps (es ++ es')).Pairwise (fun t t' => maxUnackedUs.toNat < t'.toNat - t.toNat) := by
  refine ⟨fun hmono => (spaced_of_steps h hmono).spaced, ?_⟩
  intro inp result es' enc' henc hmono
  have hspaced := spaced_of_steps h hmono.of_append
  by_cases hdim : inp.imgWidth = enc.displayWidth ∧ inp.imgHeight = enc.displayHeight
  swap
  · rw [encodeFrame, if_pos (by rw [← not_and_or]; exact hdim), Prod.mk.injEq,
      Prod.mk.injEq] at henc
    rw [← henc.2.1, List.append_nil]
    exact hspaced.spaced
  rw [encodeFrame_eq hdim, Prod.mk.injEq, Prod.mk.injEq] at henc
  obtain ⟨-, rfl, -⟩ := henc
  rw [giveUps_append, giveUps_encodeEvents]
  split_ifs with hgive
  · rw [List.pairwise_append]
    refine ⟨hspaced.spaced, List.pairwise_singleton _ _, fun g hg b hb => ?_⟩
    rw [List.mem_singleton.mp hb]
    exact (hspaced.lt_of_givesUp hgive hmono (List.Subset.refl _)).2 g hg
  · rw [List.append_nil]
    exact hspaced.spaced

/-- Frames are compressed and their only datagrams sent, but nothing is acknowledged for more
than a second: the encoder gives up twice. -/
theorem steps_smallFrame : ∃ es enc,
    Run.Steps (Step 2000) (initial 2 2 false : Encoder ℚ) es enc ∧ encodedCount es = 3 ∧
      ClockMonotone es ∧ giveUps es = [2000000, 4000000] := by
  have h₁ : Step 2000 (initial 2 2 false : Encoder ℚ) _ _ :=
    @Step.compress _ _ _ _ _ (smallFrame 5) _ rfl
  have h₂ := (Run.Steps.single h₁).tail (@Step.send _ _ _ _ _ _ _ 10 .accepted _ _ rfl rfl)
  have h₃ := h₂.tail (@Step.compress _ _ _ _ _ (smallFrame 2000000) _ rfl)
  have h₄ := h₃.tail (@Step.send _ _ _ _ _ _ _ 2000010 .accepted _ _ rfl rfl)
  have h₅ := h₄.tail (@Step.compress _ _ _ _ _ (smallFrame 4000000) _ rfl)
  refine ⟨_, _, h₅, rfl, ?_, rfl⟩
  show List.Pairwise (· ≤ ·)
    ([5, 10, 2000000, 2000000, 2000010, 4000000, 4000000] : List UInt64)
  decide

/-- The order and the ages in this run. -/
theorem fresh_ordered_and_aged_smallFrame : ∃ es enc,
    Run.Steps (Step 2000) (initial 2 2 false : Encoder ℚ) es enc ∧
      enc.freshKeys.Pairwise (· < ·) ∧ Aged enc := by
  obtain ⟨es, enc, hrun, hcount, hmono, -⟩ := steps_smallFrame
  have h := fresh_ordered_and_aged hrun (by rw [hcount]; decide)
  exact ⟨es, enc, hrun, h.1, (h.2.2.2 hmono).1⟩

/-- The give-ups in this run. -/
theorem giveUps_spaced_smallFrame : ∃ es enc,
    Run.Steps (Step 2000) (initial 2 2 false : Encoder ℚ) es enc ∧
      giveUps es = [2000000, 4000000] ∧
      (giveUps es).Pairwise (fun t t' => maxUnackedUs.toNat < t'.toNat - t.toNat) := by
  obtain ⟨es, enc, hrun, -, hmono, hgive⟩ := steps_smallFrame
  exact ⟨es, enc, hrun, hgive, (giveUps_spaced hrun).1 hmono⟩

end Steps

end Encoder

end Ringmaster
