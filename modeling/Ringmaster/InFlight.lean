/-
# What is in flight

The sender, seen together with the keys of the datagrams and acknowledgements that are in
flight.  Over a network that keeps the order these and the fresh datagrams in `send_buf_` form
one queue, in which no datagram that still waits for its first acknowledgement is overtaken
(`Orderly`).  An acknowledgement that arrives at the front therefore queues again only what was
lost.
-/
import Ringmaster.Library.Overtaking
import Ringmaster.Delivery

open Unsigned

namespace Ringmaster

open Packetization

namespace Encoder

variable {E : Type}

/-- The keys in flight belong to finished frames, and everything that is in flight or queued
again comes before the fresh datagrams. -/
structure Behind (flight : List SeqNum) (enc : Encoder E) : Prop where
  frameId_lt : ∀ k ∈ flight, (ofLex k).1 < enc.frameId
  flight_lt : ∀ k ∈ flight, ∀ f ∈ enc.freshKeys, k < f
  rtx_lt : ∀ d ∈ enc.sendBuf, d.numRtx ≠ 0 → ∀ f ∈ enc.freshKeys, d.seqNum < f

/-- The datagram with the key `k` is queued for its first transmission, or unacked and was never
queued again. -/
def Awaits (enc : Encoder E) (k : SeqNum) : Prop :=
  k ∈ enc.freshKeys ∨ ∃ d, enc.unacked.find? k = some d ∧ d.numRtx = 0

/-- The keys of the fragments that are packetized in a step. -/
def newKeys (ses : List SenderEvent) : List SeqNum :=
  (Delivery.packetizedDatagrams ses).map Datagram.seqNum

/-- The keys of the datagrams that are sent in a step. -/
def sentKeys (ses : List SenderEvent) : List SeqNum := (sentDatagrams ses).map Datagram.seqNum

variable {flight : List SeqNum} {es ses : List SenderEvent} {enc enc' : Encoder E}

theorem behind_initial (displayWidth displayHeight : UInt16) (hasOutput : Bool) :
    Behind [] (initial displayWidth displayHeight hasOutput : Encoder E) where
  frameId_lt := fun _ hk => absurd hk List.not_mem_nil
  flight_lt := fun _ hk => absurd hk List.not_mem_nil
  rtx_lt := fun _ hd => absurd hd List.not_mem_nil

/-- Less is in flight. -/
theorem Behind.mono (h : Behind flight enc) {flight' : List SeqNum}
    (hsub : ∀ k ∈ flight', k ∈ flight) : Behind flight' enc where
  frameId_lt := fun k hk => h.frameId_lt k (hsub k hk)
  flight_lt := fun k hk => h.flight_lt k (hsub k hk)
  rtx_lt := h.rtx_lt

/-- A key of a smaller frame comes first. -/
theorem lt_of_frameId_lt {k k' : SeqNum} (h : (ofLex k).1 < (ofLex k').1) : k < k' :=
  Prod.Lex.lt_iff.mpr (Or.inl h)

theorem newKeys_compressEvents {inp : CompressInput} {ds : List Datagram}
    (hds : ∀ d ∈ ds, d.numRtx = 0) :
    newKeys (enc.compressEvents inp ds) = ds.map Datagram.seqNum := by
  unfold newKeys Delivery.packetizedDatagrams
  rw [enqueuedDatagrams_compressEvents, List.filter_eq_self.mpr]
  intro d hd
  exact decide_eq_true (hds d hd)

/-- The fresh keys after the datagrams of a new frame were queued. -/
theorem freshKeys_compressed {inp : CompressInput} {ds : List Datagram}
    (hds : ∀ d ∈ ds, d.numRtx = 0)
    (hbuf : enc'.sendBuf = (enc.afterGiveUp inp.encodeTs).sendBuf ++ ds) :
    enc'.freshKeys = (if enc.givesUp inp.encodeTs then [] else enc.freshKeys) ++
      ds.map Datagram.seqNum := by
  have hnew : ds.filter (fun d => decide (d.numRtx = 0)) = ds :=
    List.filter_eq_self.mpr fun d hd => decide_eq_true (hds d hd)
  unfold freshKeys
  rw [hbuf, List.filter_append, List.map_append, hnew]
  rcases afterGiveUp_cases enc inp.encodeTs with ⟨hgive, hempty, -⟩ | ⟨hnot, heq⟩
  · rw [if_pos hgive, hempty]
    rfl
  · rw [if_neg hnot, heq]

section Effects

variable [RttArith E]

/-- What a step of the sender does to the queue of the keys in flight and the fresh ones: it
inserts retransmissions between the two, appends the new fragments, and clears the fresh ones
when it gives up. -/
theorem leads_of_effect (h : Behind flight enc) (heff : Effect enc enc' ses) {k : SeqNum}
    (hk : Leads k (flight ++ enc.freshKeys))
    (hkept : k ∈ enc.freshKeys → giveUps ses = []) :
    Leads k (flight ++ sentKeys ses ++ enc'.freshKeys) := by
  cases heff with
  | compressed inp ds hds hpairwise hid hbuf hunacked =>
    have hnone : sentKeys (enc.compressEvents inp ds) = [] := by
      unfold sentKeys
      rw [sentDatagrams_compressEvents]
      rfl
    rw [hnone, List.append_nil, freshKeys_compressed (fun d hd => (hds d hd).2.2) hbuf]
    by_cases hgive : enc.givesUp inp.encodeTs
    · -- what is in flight stays there when `send_buf_` is cleared
      rw [if_pos hgive]
      rw [giveUps_compressEvents, if_pos hgive] at hkept
      rcases hk.of_append with hflight | ⟨-, hfresh⟩
      · exact hflight.append_right _
      · exact absurd (hkept hfresh.mem) (List.cons_ne_nil _ _)
    · rw [if_neg hgive, ← List.append_assoc]
      exact hk.append_right _
  | sentFresh d rest t hd h0 hnone hid hbuf hfind =>
    show Leads k (flight ++ [d.seqNum] ++ enc'.freshKeys)
    rw [List.append_assoc, List.singleton_append, ← freshKeys_cons_of_fresh hd h0 hbuf]
    exact hk
  | sentRtx d rest t hd h0 hid hbuf hunacked =>
    show Leads k (flight ++ [d.seqNum] ++ enc'.freshKeys)
    rw [List.append_assoc, List.singleton_append, freshKeys_cons_of_rtx hd h0 hbuf]
    apply hk.insert
    exact h.rtx_lt d (by rw [hd]; exact List.mem_cons_self) h0
  | blocked d rest t hd hid hbuf hunacked =>
    show Leads k (flight ++ [] ++ enc'.freshKeys)
    rw [List.append_nil, freshKeys_blocked hd hbuf]
    exact hk
  | stray t hid hbuf hunacked =>
    show Leads k (flight ++ [] ++ enc'.freshKeys)
    unfold freshKeys at hk ⊢
    rw [List.append_nil, hbuf]
    exact hk
  | acked seq ewma t hc hid hbuf hfind =>
    unfold sentKeys
    rw [sentDatagrams_ackEvents, freshKeys_acked hbuf, List.map_nil, List.append_nil]
    exact hk

/-- Only compressing a frame packetizes anything. -/
theorem newKeys_cases (heff : Effect enc enc' ses) : newKeys ses = [] ∨
    ∃ inp ds, ses = enc.compressEvents inp ds ∧
      (∀ d ∈ ds, d.frameId = enc.frameId ∧ d.numRtx = 0) ∧
      ds.Pairwise (fun a b => a.seqNum < b.seqNum) ∧
      enc'.sendBuf = (enc.afterGiveUp inp.encodeTs).sendBuf ++ ds := by
  cases heff with
  | compressed inp ds hds hpairwise hid hbuf hunacked =>
    exact Or.inr ⟨inp, ds, rfl, fun d hd => ⟨(hds d hd).1, (hds d hd).2.2⟩, hpairwise, hbuf⟩
  | sentFresh => exact Or.inl rfl
  | sentRtx => exact Or.inl rfl
  | blocked => exact Or.inl rfl
  | stray => exact Or.inl rfl
  | acked seq ewma t hc hid hbuf hfind =>
    left
    unfold newKeys Delivery.packetizedDatagrams
    rw [enqueuedDatagrams_ackEvents, List.map_eq_nil_iff, List.filter_eq_nil_iff]
    intro d hd
    obtain ⟨k, d₀, -, -, -, -, hnum, -⟩ := numRtx_rtxEntries hd
    rw [decide_eq_true_eq]
    intro h0
    rw [h0, UInt32.toNat_zero] at hnum
    omega

/-- A new fragment belongs to the frame in work. -/
theorem frameId_of_mem_newKeys (heff : Effect enc enc' ses) {k : SeqNum} (hk : k ∈ newKeys ses) :
    (ofLex k).1 = enc.frameId := by
  rcases newKeys_cases heff with hnil | ⟨inp, ds, rfl, hds, -, -⟩
  · rw [hnil] at hk
    exact absurd hk List.not_mem_nil
  · rw [newKeys_compressEvents fun d hd => (hds d hd).2] at hk
    obtain ⟨d, hd, rfl⟩ := List.mem_map.mp hk
    exact (hds d hd).1

/-- A new fragment stands behind everything that is in flight or fresh. -/
theorem leads_of_mem_newKeys (h : Behind flight enc) (hord : Ordered es enc)
    (heff : Effect enc enc' ses) {k : SeqNum} (hk : k ∈ newKeys ses) :
    Leads k (flight ++ sentKeys ses ++ enc'.freshKeys) := by
  have hid := frameId_of_mem_newKeys heff hk
  rcases newKeys_cases heff with hnil | ⟨inp, ds, rfl, hds, hpairwise, hbuf⟩
  · rw [hnil] at hk
    exact absurd hk List.not_mem_nil
  have h0 : ∀ d ∈ ds, d.numRtx = 0 := fun d hd => (hds d hd).2
  have hnone : sentKeys (enc.compressEvents inp ds) = [] := by
    unfold sentKeys
    rw [sentDatagrams_compressEvents]
    rfl
  rw [newKeys_compressEvents h0] at hk
  rw [hnone, List.append_nil, freshKeys_compressed h0 hbuf, ← List.append_assoc]
  apply Leads.append_left
  · exact Leads.of_pairwise (List.pairwise_map.mpr hpairwise) hk
  · intro j hj
    apply lt_of_frameId_lt
    rw [hid]
    rcases List.mem_append.mp hj with hmem | hmem
    · exact h.frameId_lt j hmem
    · split_ifs at hmem
      · exact absurd hmem List.not_mem_nil
      · obtain ⟨d, hd, -, rfl⟩ := mem_freshKeys.mp hmem
        exact hord.queued_lt d hd

/-- Every step keeps the fresh datagrams behind the others. -/
theorem Behind.effect (h : Behind flight enc) (hord : Ordered es enc)
    (heff : Effect enc enc' ses) (hcount : encodedCount (es ++ ses) < 2 ^ 32) :
    Behind (flight ++ sentKeys ses) enc' := by
  cases heff with
  | compressed inp ds hds hpairwise hid hbuf hunacked =>
    have h0 : ∀ d ∈ ds, d.numRtx = 0 := fun d hd => (hds d hd).2.2
    have hnone : sentKeys (enc.compressEvents inp ds) = [] := by
      unfold sentKeys
      rw [sentDatagrams_compressEvents]
      rfl
    rw [encodedCount_append, encodedCount_compressEvents] at hcount
    have hlt := (hord.toNat_frameId_add_one hcount).2
    have hnew : ∀ {k : SeqNum}, (ofLex k).1 < enc.frameId →
        ∀ f ∈ ds.map Datagram.seqNum, k < f := by
      intro k hk f hf
      obtain ⟨d, hd, rfl⟩ := List.mem_map.mp hf
      apply lt_of_frameId_lt
      show (ofLex k).1 < d.frameId
      rw [(hds d hd).1]
      exact hk
    rw [hnone, List.append_nil]
    refine ⟨fun k hk => ?_, fun k hk f hf => ?_, fun d hd hnum f hf => ?_⟩
    · rw [hid]
      exact lt_trans (h.frameId_lt k hk) hlt
    · rw [freshKeys_compressed h0 hbuf] at hf
      rcases List.mem_append.mp hf with hmem | hmem
      · split_ifs at hmem
        · exact absurd hmem List.not_mem_nil
        · exact h.flight_lt k hk f hmem
      · exact hnew (h.frameId_lt k hk) f hmem
    · rw [hbuf] at hd
      rw [freshKeys_compressed h0 hbuf] at hf
      rcases List.mem_append.mp hd with hmem | hmem
      swap
      · exact absurd (h0 d hmem) hnum
      rcases afterGiveUp_cases enc inp.encodeTs with ⟨-, hempty, -⟩ | ⟨hnot, heq⟩
      · rw [hempty] at hmem
        exact absurd hmem List.not_mem_nil
      rw [heq] at hmem
      rw [if_neg hnot] at hf
      rcases List.mem_append.mp hf with hmem' | hmem'
      · exact h.rtx_lt d hmem hnum f hmem'
      · exact @hnew d.seqNum (hord.queued_lt d hmem) f hmem'
  | sentFresh d rest t hd h0 hnone hid hbuf hfind =>
    have hkeys := freshKeys_cons_of_fresh hd h0 hbuf
    have hsorted := hord.sorted
    rw [hkeys, List.pairwise_cons] at hsorted
    have htail : ∀ f ∈ enc'.freshKeys, f ∈ enc.freshKeys := by
      intro f hf
      rw [hkeys]
      exact List.mem_cons_of_mem _ hf
    refine ⟨fun k hk => ?_, fun k hk f hf => ?_, fun d' hd' hnum f hf => ?_⟩
    · rw [hid]
      rcases List.mem_append.mp hk with hmem | hmem
      · exact h.frameId_lt k hmem
      · rw [List.mem_singleton.mp hmem]
        exact hord.queued_lt d (by rw [hd]; exact List.mem_cons_self)
    · rcases List.mem_append.mp hk with hmem | hmem
      · exact h.flight_lt k hmem f (htail f hf)
      · rw [List.mem_singleton.mp hmem]
        exact hsorted.1 f hf
    · rw [hbuf] at hd'
      exact h.rtx_lt d' (by rw [hd]; exact List.mem_cons_of_mem d hd') hnum f (htail f hf)
  | sentRtx d rest t hd h0 hid hbuf hunacked =>
    have hkeys := freshKeys_cons_of_rtx hd h0 hbuf
    have hfront : d ∈ enc.sendBuf := by rw [hd]; exact List.mem_cons_self
    refine ⟨fun k hk => ?_, fun k hk f hf => ?_, fun d' hd' hnum f hf => ?_⟩
    · rw [hid]
      rcases List.mem_append.mp hk with hmem | hmem
      · exact h.frameId_lt k hmem
      · rw [List.mem_singleton.mp hmem]
        exact hord.queued_lt d hfront
    · rw [hkeys] at hf
      rcases List.mem_append.mp hk with hmem | hmem
      · exact h.flight_lt k hmem f hf
      · rw [List.mem_singleton.mp hmem]
        exact h.rtx_lt d hfront h0 f hf
    · rw [hbuf] at hd'
      rw [hkeys] at hf
      exact h.rtx_lt d' (by rw [hd]; exact List.mem_cons_of_mem d hd') hnum f hf
  | blocked d rest t hd hid hbuf hunacked =>
    have hkeys := freshKeys_blocked hd hbuf
    show Behind (flight ++ []) enc'
    rw [List.append_nil]
    refine ⟨hid ▸ h.frameId_lt, hkeys ▸ h.flight_lt, fun d' hd' hnum f hf => ?_⟩
    rw [hbuf] at hd'
    rw [hkeys] at hf
    rcases List.mem_cons.mp hd' with rfl | hmem
    · exact h.rtx_lt d (by rw [hd]; exact List.mem_cons_self) hnum f hf
    · exact h.rtx_lt d' (by rw [hd]; exact List.mem_cons_of_mem d hmem) hnum f hf
  | stray t hid hbuf hunacked =>
    have hkeys : enc'.freshKeys = enc.freshKeys := by
      unfold freshKeys
      rw [hbuf]
    show Behind (flight ++ []) enc'
    rw [List.append_nil]
    exact ⟨hid ▸ h.frameId_lt, hkeys ▸ h.flight_lt, hbuf ▸ hkeys ▸ h.rtx_lt⟩
  | acked seq ewma t hc hid hbuf hfind =>
    have hkeys := freshKeys_acked hbuf
    unfold sentKeys
    rw [sentDatagrams_ackEvents, List.map_nil, List.append_nil]
    refine ⟨hid ▸ h.frameId_lt, hkeys ▸ h.flight_lt, fun d hd hnum f hf => ?_⟩
    rw [hbuf] at hd
    rw [hkeys] at hf
    rcases List.mem_append.mp hd with hmem | hmem
    · -- what is queued again was unacked
      obtain ⟨k, d₀, hd₀, -, -, rfl, -⟩ := numRtx_rtxEntries (List.mem_reverse.mp hmem)
      have hlt := hord.unacked_lt_fresh k (by simp [OrderedMap.contains, hd₀]) f hf
      rw [← (hord.unacked_lt k d₀ hd₀).1] at hlt
      exact hlt
    · exact h.rtx_lt d hmem hnum f hf

omit [RttArith E]

/-! ## What is queued again was lost -/

/-- The keys `lost` were lost on the network.  A datagram that waits for its acknowledgement is
not overtaken, unless it was lost; and what was queued again was lost. -/
structure Orderly (lost flight : List SeqNum) (es : List SenderEvent) (enc : Encoder E) :
    Prop where
  behind : Behind flight enc
  leads : ∀ k, enc.Awaits k → k ∉ lost → Leads k (flight ++ enc.freshKeys)
  unacked_lost : ∀ k d, enc.unacked.find? k = some d → d.numRtx ≠ 0 → k ∈ lost
  queued_lost : ∀ d ∈ enqueuedDatagrams es, d.numRtx ≠ 0 → d.seqNum ∈ lost

theorem orderly_initial (displayWidth displayHeight : UInt16) (hasOutput : Bool) :
    Orderly [] [] [] (initial displayWidth displayHeight hasOutput : Encoder E) where
  behind := behind_initial displayWidth displayHeight hasOutput
  leads := by
    rintro k (hk | ⟨d, hd, -⟩)
    · exact absurd hk List.not_mem_nil
    · simp [initial] at hd
  unacked_lost := fun _ _ hd => by simp [initial] at hd
  queued_lost := fun _ hd => absurd hd List.not_mem_nil

variable {lost : List SeqNum}

/-- The network loses something that is in flight. -/
theorem Orderly.loses {front back : List SeqNum} {j : SeqNum}
    (h : Orderly lost (front ++ j :: back) es enc) :
    Orderly (lost ++ [j]) (front ++ back) es enc where
  behind := h.behind.mono fun k hk => by
    rcases List.mem_append.mp hk with hmem | hmem
    · exact List.mem_append_left _ hmem
    · exact List.mem_append_right _ (List.mem_cons_of_mem j hmem)
  leads := by
    intro k hk hnot
    rw [List.mem_append, not_or, List.mem_singleton] at hnot
    have hleads := h.leads k hk hnot.1
    rw [List.append_assoc, List.cons_append] at hleads
    rw [List.append_assoc]
    exact hleads.of_lost (Ne.symm hnot.2)
  unacked_lost := fun k d hd h0 => List.mem_append_left _ (h.unacked_lost k d hd h0)
  queued_lost := fun d hd h0 => List.mem_append_left _ (h.queued_lost d hd h0)

/-- The acknowledgement at the front leaves the queue, when its datagram does not wait. -/
theorem Orderly.pop {rest : List SeqNum} {j : SeqNum} (h : Orderly lost (j :: rest) es enc)
    (hj : ¬ enc.Awaits j) : Orderly lost rest es enc where
  behind := h.behind.mono fun k hk => List.mem_cons_of_mem j hk
  leads := by
    intro k hk hnot
    rcases (h.leads k hk hnot).of_cons with rfl | ⟨-, htail⟩
    · exact absurd hk hj
    · exact htail
  unacked_lost := h.unacked_lost
  queued_lost := h.queued_lost

/-- What an acknowledgement queues again was lost: the acknowledgement is at the front, and
would have been preceded by what is in front of its datagram. -/
theorem Orderly.lost_of_due {rest : List SeqNum} {seq k : SeqNum}
    (h : Orderly lost (seq :: rest) es enc) (hlt : k < seq) {d : Datagram}
    (hd : enc.unacked.find? k = some d) : k ∈ lost := by
  by_cases h0 : d.numRtx = 0
  · by_contra hnot
    rcases (h.leads k (Or.inr ⟨d, hd, h0⟩) hnot).of_cons with heq | ⟨hgt, -⟩
    · exact absurd heq (ne_of_gt hlt)
    · exact absurd hgt (not_lt.mpr (le_of_lt hlt))
  · exact h.unacked_lost k d hd h0

variable [RttArith E]

/-- What waits after a step waited before and was not cleared, or is new. -/
theorem awaits_of_effect (heff : Effect enc enc' ses) {k : SeqNum} (hk : enc'.Awaits k) :
    (enc.Awaits k ∧ (k ∈ enc.freshKeys → giveUps ses = [])) ∨ k ∈ newKeys ses := by
  cases heff with
  | compressed inp ds hds hpairwise hid hbuf hunacked =>
    have h0 : ∀ d ∈ ds, d.numRtx = 0 := fun d hd => (hds d hd).2.2
    rw [newKeys_compressEvents h0, giveUps_compressEvents]
    unfold Awaits at hk
    rw [freshKeys_compressed h0 hbuf, hunacked, List.mem_append] at hk
    rcases afterGiveUp_cases enc inp.encodeTs with ⟨hgive, -, hempty⟩ | ⟨hnot, heq⟩
    · rw [if_pos hgive, hempty] at hk
      rcases hk with (hk | hk) | ⟨d, hd, -⟩
      · exact absurd hk List.not_mem_nil
      · exact Or.inr hk
      · simp at hd
    · rw [if_neg hnot, heq] at hk
      rw [if_neg hnot]
      rcases hk with (hk | hk) | hk
      · exact Or.inl ⟨Or.inl hk, fun _ => rfl⟩
      · exact Or.inr hk
      · exact Or.inl ⟨Or.inr hk, fun _ => rfl⟩
  | sentFresh d rest t hd h0 hnone hid hbuf hfind =>
    left
    refine ⟨?_, fun _ => rfl⟩
    have hkeys := freshKeys_cons_of_fresh hd h0 hbuf
    rcases hk with hk | ⟨d', hd', h0'⟩
    · left
      rw [hkeys]
      exact List.mem_cons_of_mem _ hk
    · rw [hfind] at hd'
      split_ifs at hd' with hkd
      · left
        rw [hkeys, hkd]
        exact List.mem_cons_self
      · exact Or.inr ⟨d', hd', h0'⟩
  | sentRtx d rest t hd h0 hid hbuf hunacked =>
    left
    unfold Awaits at hk
    rw [freshKeys_cons_of_rtx hd h0 hbuf, hunacked] at hk
    exact ⟨hk, fun _ => rfl⟩
  | blocked d rest t hd hid hbuf hunacked =>
    left
    unfold Awaits at hk
    rw [freshKeys_blocked hd hbuf, hunacked] at hk
    exact ⟨hk, fun _ => rfl⟩
  | stray t hid hbuf hunacked =>
    left
    unfold Awaits freshKeys at hk
    rw [hbuf, hunacked] at hk
    exact ⟨hk, fun _ => rfl⟩
  | acked seq ewma t hc hid hbuf hfind =>
    left
    refine ⟨?_, fun _ => giveUps_ackEvents _ _ _⟩
    rcases hk with hk | ⟨d', hd', h0'⟩
    · left
      rwa [freshKeys_acked hbuf] at hk
    · right
      rw [hfind] at hd'
      split_ifs at hd'
      obtain ⟨d₀, hd₀, rfl⟩ := Option.map_eq_some_iff.mp hd'
      split_ifs at h0' with hdue
      · -- a datagram that is queued again has been counted up
        have hnum := toNat_numRtx_retransmitted hdue.2
        rw [h0', UInt32.toNat_zero] at hnum
        omega
      · exact ⟨d₀, hd₀, h0'⟩

/-- Every step of the sender keeps the order, if it handles only acknowledgements that arrive
at the front. -/
theorem Orderly.effect (h : Orderly lost flight es enc) (hord : Ordered es enc)
    (heff : Effect enc enc' ses) (hcount : encodedCount (es ++ ses) < 2 ^ 32)
    (hfront : ∀ seq, .erased seq ∈ ses → ∃ rest, flight = seq :: rest) :
    Orderly lost (flight ++ sentKeys ses) (es ++ ses) enc' := by
  refine ⟨h.behind.effect hord heff hcount, fun k hk hnot => ?_, ?_, ?_⟩
  · rcases awaits_of_effect heff hk with ⟨hold, hkept⟩ | hnew
    · exact leads_of_effect h.behind heff (h.leads k hold hnot) hkept
    · exact leads_of_mem_newKeys h.behind hord heff hnew
  · intro k d hd hnum
    cases heff with
    | compressed inp ds hds hpairwise hid hbuf hunacked =>
      rw [hunacked] at hd
      rcases afterGiveUp_cases enc inp.encodeTs with ⟨-, -, hempty⟩ | ⟨-, heq⟩
      · rw [hempty] at hd
        simp at hd
      · rw [heq] at hd
        exact h.unacked_lost k d hd hnum
    | sentFresh d' rest t hd' h0 hnone hid hbuf hfind =>
      rw [hfind] at hd
      split_ifs at hd
      · rw [Option.some_inj] at hd
        subst hd
        exact absurd h0 hnum
      · exact h.unacked_lost k d hd hnum
    | sentRtx d' rest t hd' h0 hid hbuf hunacked => exact h.unacked_lost k d (hunacked ▸ hd) hnum
    | blocked d' rest t hd' hid hbuf hunacked => exact h.unacked_lost k d (hunacked ▸ hd) hnum
    | stray t hid hbuf hunacked => exact h.unacked_lost k d (hunacked ▸ hd) hnum
    | acked seq ewma t hc hid hbuf hfind =>
      obtain ⟨rest, rfl⟩ := hfront seq (by simp [ackEvents])
      rw [hfind] at hd
      split_ifs at hd
      obtain ⟨d₀, hd₀, rfl⟩ := Option.map_eq_some_iff.mp hd
      split_ifs at hnum with hdue
      · exact h.lost_of_due hdue.1 hd₀
      · exact h.unacked_lost k d₀ hd₀ hnum
  · intro d hd hnum
    rw [enqueuedDatagrams_append] at hd
    rcases List.mem_append.mp hd with hmem | hmem
    · exact h.queued_lost d hmem hnum
    cases heff with
    | compressed inp ds hds hpairwise hid hbuf hunacked =>
      rw [enqueuedDatagrams_compressEvents] at hmem
      exact absurd (hds d hmem).2.2 hnum
    | sentFresh => exact absurd hmem List.not_mem_nil
    | sentRtx => exact absurd hmem List.not_mem_nil
    | blocked => exact absurd hmem List.not_mem_nil
    | stray => exact absurd hmem List.not_mem_nil
    | acked seq ewma t hc hid hbuf hfind =>
      obtain ⟨rest, rfl⟩ := hfront seq (by simp [ackEvents])
      rw [enqueuedDatagrams_ackEvents] at hmem
      obtain ⟨k, d₀, hd₀, hlt, -, rfl, -⟩ := numRtx_rtxEntries hmem
      have hseq := (hord.unacked_lt k d₀ hd₀).1
      show d₀.seqNum ∈ lost
      rw [hseq]
      exact h.lost_of_due hlt hd₀

/-- An acknowledgement that arrives at the front. -/
theorem Orderly.handleAck {rest : List SeqNum} {msg : AckMsg} {t : UInt64}
    (h : Orderly lost (msg.seqNum :: rest) es enc) (hord : Ordered es enc)
    (hack : enc.handleAck msg t = .ok (ses, enc')) (hcount : encodedCount (es ++ ses) < 2 ^ 32) :
    Orderly lost rest (es ++ ses) enc' := by
  have heff := effect_handleAck hack
  obtain ⟨ses', enc₁, hack', -, hcases⟩ := handleAck_cases enc msg t
  rw [hack, Except.ok.injEq, Prod.mk.injEq] at hack'
  obtain ⟨rfl, rfl⟩ := hack'
  have herased : ∀ seq, .erased seq ∈ ses → ∃ rest', msg.seqNum :: rest = seq :: rest' := by
    intro seq hmem
    rcases hcases with ⟨-, rfl, -⟩ | ⟨-, ewma, -, rfl, -⟩
    · simp at hmem
    · have heq : seq = msg.seqNum := by simpa [ackEvents] using hmem
      exact ⟨rest, by rw [heq]⟩
  have hstep := h.effect hord heff hcount herased
  have hbehind := hstep.behind
  have hnone : sentKeys ses = [] := by
    unfold sentKeys
    rcases hcases with ⟨-, rfl, -⟩ | ⟨-, ewma, -, rfl, -⟩
    · rfl
    · rw [sentDatagrams_ackEvents]
      rfl
  rw [hnone, List.append_nil] at hstep hbehind
  apply hstep.pop
  rintro (hfresh | ⟨d, hd, -⟩)
  · -- what is in flight is not fresh
    exact lt_irrefl _ (hbehind.flight_lt msg.seqNum List.mem_cons_self _ hfresh)
  · rcases hcases with ⟨hfree, -, -, hunacked⟩ | ⟨-, ewma, -, -, -, hfind⟩
    · rw [hunacked, hfree] at hd
      cases hd
    · rw [hfind, if_pos rfl] at hd
      cases hd

end Effects

end Encoder

end Ringmaster
