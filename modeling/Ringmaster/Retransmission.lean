/-
# Bounded retransmission

A datagram exists in several copies: the first one, and one for each retransmission, told
apart by the number of retransmissions that it carries.  The copies that were sent and those
that are still queued are pairwise different, and no copy of an unacked datagram is ahead of
the entry of `unacked_` (`Copied`).  Since that entry stops at the limit, so does the number
of copies.

What an acknowledgement has erased is neither unacked nor fresh, and stays so (`Forgotten`).
-/
import Ringmaster.SendOrder

open Unsigned

namespace Ringmaster

namespace Encoder

variable {E : Type} {es es' : List SenderEvent} {enc enc' : Encoder E}

/-! ## Copies -/

/-- What tells the copies of a datagram apart. -/
def copyOf (d : Datagram) : SeqNum × UInt32 := (d.seqNum, d.numRtx)

/-- The copies that were sent, followed by those that are queued. -/
def copies (es : List SenderEvent) (enc : Encoder E) : List (SeqNum × UInt32) :=
  (sentDatagrams es ++ enc.sendBuf).map copyOf

/-- The copies are pairwise different, belong to finished frames, and are not ahead of the
entry of `unacked_`; a datagram that was never sent has only one. -/
structure Copied (es : List SenderEvent) (enc : Encoder E) : Prop where
  nodup : (copies es enc).Nodup
  le_max : ∀ c ∈ copies es enc, c.2 ≤ maxNumRtx
  frame_lt : ∀ c ∈ copies es enc, (ofLex c.1).1 < enc.frameId
  le_unacked : ∀ k d, enc.unacked.find? k = some d → ∀ c ∈ copies es enc, c.1 = k → c.2 ≤ d.numRtx
  fresh_alone : ∀ k ∈ enc.freshKeys, ∀ c ∈ copies es enc, c.1 = k → c.2 = 0

/-- What was erased is neither unacked nor fresh, and was not queued since. -/
structure Forgotten (es : List SenderEvent) (enc : Encoder E) : Prop where
  notUnacked : ∀ k, .erased k ∈ es → enc.unacked.find? k = none
  notFresh : ∀ k, .erased k ∈ es → k ∉ enc.freshKeys
  frame_lt : ∀ k, .erased k ∈ es → (ofLex k).1 < enc.frameId
  notEnqueued : es.Pairwise fun a b => ∀ k d, a = .erased k → b = .enqueued d → d.seqNum ≠ k

theorem copied_initial (displayWidth displayHeight : UInt16) (hasOutput : Bool) :
    Copied [] (initial displayWidth displayHeight hasOutput : Encoder E) where
  nodup := List.nodup_nil
  le_max := fun _ hc => absurd hc List.not_mem_nil
  frame_lt := fun _ hc => absurd hc List.not_mem_nil
  le_unacked := fun _ _ _ _ hc => absurd hc List.not_mem_nil
  fresh_alone := fun _ _ _ hc => absurd hc List.not_mem_nil

theorem forgotten_initial (displayWidth displayHeight : UInt16) (hasOutput : Bool) :
    Forgotten [] (initial displayWidth displayHeight hasOutput : Encoder E) where
  notUnacked := fun _ hk => absurd hk List.not_mem_nil
  notFresh := fun _ hk => absurd hk List.not_mem_nil
  frame_lt := fun _ hk => absurd hk List.not_mem_nil
  notEnqueued := List.Pairwise.nil

/-- A give-up removes copies, and adds none. -/
theorem Copied.afterGiveUp (h : Copied es enc) (t : UInt64) : Copied es (enc.afterGiveUp t) := by
  rcases afterGiveUp_cases enc t with ⟨-, hbuf, hunacked⟩ | ⟨-, heq⟩
  · have hsub : (copies es (enc.afterGiveUp t)).Sublist (copies es enc) := by
      unfold copies
      rw [hbuf, List.append_nil]
      exact (List.sublist_append_left _ _).map copyOf
    have hfresh : (enc.afterGiveUp t).freshKeys = [] := by
      unfold freshKeys
      rw [hbuf]
      rfl
    refine ⟨h.nodup.sublist hsub, fun c hc => h.le_max c (hsub.subset hc), ?_, ?_, ?_⟩
    · rw [frameId_afterGiveUp]
      exact fun c hc => h.frame_lt c (hsub.subset hc)
    · rw [hunacked]
      exact fun k d hd => by simp at hd
    · rw [hfresh]
      exact fun k hk => absurd hk List.not_mem_nil
  · rw [heq]
    exact h

/-- The copies of a new frame are new, since their frame id is. -/
theorem Copied.compressed (h : Copied es enc) {ds : List Datagram}
    (hds : ∀ d ∈ ds, d.frameId = enc.frameId ∧ d.sendTs = 0 ∧ d.numRtx = 0)
    (hpairwise : ds.Pairwise (fun a b => a.seqNum < b.seqNum))
    (hlt : enc.frameId < enc'.frameId) (hbuf : enc'.sendBuf = enc.sendBuf ++ ds)
    (hunacked : enc'.unacked = enc.unacked) (hsent : sentDatagrams es' = []) :
    Copied (es ++ es') enc' := by
  have hcopies : copies (es ++ es') enc' = copies es enc ++ ds.map copyOf := by
    unfold copies
    rw [sentDatagrams_append, hsent, hbuf, List.append_nil, ← List.append_assoc, List.map_append]
  have hfresh : enc'.freshKeys = enc.freshKeys ++ (ds.filter fun d => decide (d.numRtx = 0)).map
      Datagram.seqNum := by
    unfold freshKeys
    rw [hbuf, List.filter_append, List.map_append]
  have hframe : ∀ c ∈ ds.map copyOf, (ofLex c.1).1 = enc.frameId := by
    intro c hc
    obtain ⟨d, hd, rfl⟩ := List.mem_map.mp hc
    exact (hds d hd).1
  have hzero : ∀ c ∈ ds.map copyOf, c.2 = 0 := by
    intro c hc
    obtain ⟨d, hd, rfl⟩ := List.mem_map.mp hc
    exact (hds d hd).2.2
  refine ⟨?_, ?_, ?_, ?_, ?_⟩
  · rw [hcopies, List.nodup_append]
    refine ⟨h.nodup, ?_, ?_⟩
    · rw [List.Nodup, List.pairwise_map]
      refine hpairwise.imp fun {a b} hab heq => ?_
      have hseq : a.seqNum = b.seqNum := congrArg Prod.fst heq
      exact absurd hseq (ne_of_lt hab)
    · rintro c hc c' hc' rfl
      have hold := h.frame_lt c hc
      rw [hframe c hc'] at hold
      exact lt_irrefl _ hold
  · rw [hcopies]
    intro c hc
    rcases List.mem_append.mp hc with hmem | hmem
    · exact h.le_max c hmem
    · rw [hzero c hmem]
      decide
  · rw [hcopies]
    intro c hc
    rcases List.mem_append.mp hc with hmem | hmem
    · exact lt_trans (h.frame_lt c hmem) hlt
    · rw [hframe c hmem]
      exact hlt
  · rw [hcopies, hunacked]
    intro k d hd c hc hk
    rcases List.mem_append.mp hc with hmem | hmem
    · exact h.le_unacked k d hd c hmem hk
    · rw [hzero c hmem, UInt32.le_iff_toNat_le, UInt32.toNat_zero]
      exact Nat.zero_le _
  · rw [hcopies, hfresh]
    intro k hk c hc hck
    rcases List.mem_append.mp hc with hmem | hmem
    · rcases List.mem_append.mp hk with hkey | hkey
      · exact h.fresh_alone k hkey c hmem hck
      · -- an old copy does not belong to the new frame
        obtain ⟨d, hd, rfl⟩ := List.mem_map.mp hkey
        have hold := h.frame_lt c hmem
        rw [hck] at hold
        exact absurd (hds d (List.mem_filter.mp hd).1).1 (ne_of_lt hold)
    · exact hzero c hmem

/-- An attempt to send moves a copy from the queue to those that were sent, or leaves it. -/
theorem Copied.of_copies_eq (h : Copied es enc) (hcopies : copies (es ++ es') enc' = copies es enc)
    (hid : enc'.frameId = enc.frameId)
    (hunacked : ∀ k d, enc'.unacked.find? k = some d →
      (∃ d₀, enc.unacked.find? k = some d₀ ∧ d₀.numRtx ≤ d.numRtx) ∨ k ∈ enc.freshKeys)
    (hfresh : enc'.freshKeys ⊆ enc.freshKeys) : Copied (es ++ es') enc' := by
  refine ⟨hcopies ▸ h.nodup, hcopies ▸ h.le_max, ?_, ?_, ?_⟩
  · rw [hcopies, hid]
    exact h.frame_lt
  · rw [hcopies]
    intro k d hd c hc hk
    rcases hunacked k d hd with ⟨d₀, hd₀, hle⟩ | hfresh
    · exact le_trans (h.le_unacked k d₀ hd₀ c hc hk) hle
    · rw [h.fresh_alone k hfresh c hc hk, UInt32.le_iff_toNat_le, UInt32.toNat_zero]
      exact Nat.zero_le _
  · rw [hcopies]
    exact fun k hk => h.fresh_alone k (hfresh hk)

/-- The copies after an attempt to send that succeeds. -/
theorem copies_sent {d : Datagram} {rest : List Datagram} {t : UInt64}
    (hd : enc.sendBuf = d :: rest) (hbuf : enc'.sendBuf = rest) :
    copies (es ++ [SenderEvent.clock t, .sent { d with sendTs := t }]) enc' = copies es enc := by
  have hsent : sentDatagrams [.clock t, .sent { d with sendTs := t }] = [{ d with sendTs := t }] :=
    rfl
  unfold copies
  rw [sentDatagrams_append, hsent, hd, hbuf, List.append_assoc, List.map_append, List.map_append,
    List.map_append]
  rfl

/-- The copies after an attempt to send that fails. -/
theorem copies_blocked {d : Datagram} {rest : List Datagram} {t : UInt64}
    (hd : enc.sendBuf = d :: rest) (hbuf : enc'.sendBuf = { d with sendTs := 0 } :: rest) :
    copies (es ++ [SenderEvent.clock t]) enc' = copies es enc := by
  have hsent : sentDatagrams [.clock t] = [] := rfl
  unfold copies
  rw [sentDatagrams_append, hsent, hd, hbuf, List.append_nil, List.map_append, List.map_append]
  rfl

/-- A list of pairwise different numbers below a bound is no longer than the bound. -/
theorem length_le_of_nodup_of_lt {l : List ℕ} {n : ℕ} (hnodup : l.Nodup) (hlt : ∀ m ∈ l, m < n) :
    l.length ≤ n := by
  have hsub : l ⊆ List.range n := fun m hm => List.mem_range.mpr (hlt m hm)
  have hle := (hnodup.subperm hsub).length_le
  rwa [List.length_range] at hle

/-- The copies of one datagram that were sent are told apart by their counter, which is
bounded. -/
theorem Copied.length_filter_le (h : Copied es enc) (k : SeqNum) :
    ((sentDatagrams es).filter fun d => decide (d.seqNum = k)).length ≤ 1 + maxNumRtx.toNat := by
  have hsub : ((sentDatagrams es).map copyOf).Sublist (copies es enc) :=
    (List.sublist_append_left _ _).map copyOf
  have hnodup := h.nodup.sublist hsub
  rw [List.Nodup, List.pairwise_map] at hnodup
  have hcounters : (((sentDatagrams es).filter fun d => decide (d.seqNum = k)).map
      fun d => d.numRtx.toNat).Nodup := by
    rw [List.Nodup, List.pairwise_map]
    refine (hnodup.filter _).imp_of_mem fun {a b} ha hb hab heq => hab ?_
    have hka := of_decide_eq_true (List.mem_filter.mp ha).2
    have hkb := of_decide_eq_true (List.mem_filter.mp hb).2
    show (a.seqNum, a.numRtx) = (b.seqNum, b.numRtx)
    rw [hka, hkb, UInt32.toNat_inj.mp heq]
  have hle := length_le_of_nodup_of_lt (n := 1 + maxNumRtx.toNat) hcounters ?_
  · rwa [List.length_map] at hle
  · intro m hm
    obtain ⟨d, hd, rfl⟩ := List.mem_map.mp hm
    have hmem : copyOf d ∈ copies es enc :=
      hsub.subset (List.mem_map_of_mem (List.mem_filter.mp hd).1)
    have hmax := UInt32.le_iff_toNat_le.mp (h.le_max _ hmem)
    show d.numRtx.toNat < 1 + maxNumRtx.toNat
    have hnum : (copyOf d).2.toNat = d.numRtx.toNat := rfl
    omega

/-- A step that neither erases nor queues anything forgets nothing. -/
theorem Forgotten.of_quiet (h : Forgotten es enc) (hid : enc.frameId ≤ enc'.frameId)
    (hnone : ∀ k, .erased k ∉ es')
    (hqueued : ∀ k d, .erased k ∈ es → .enqueued d ∈ es' → d.seqNum ≠ k)
    (hunacked : ∀ k, .erased k ∈ es → enc'.unacked.find? k = none)
    (hfresh : ∀ k, .erased k ∈ es → k ∉ enc'.freshKeys) : Forgotten (es ++ es') enc' := by
  have hold : ∀ k, .erased k ∈ es ++ es' → .erased k ∈ es :=
    fun k hk => (List.mem_append.mp hk).resolve_right (hnone k)
  refine ⟨fun k hk => hunacked k (hold k hk), fun k hk => hfresh k (hold k hk),
    fun k hk => lt_of_lt_of_le (h.frame_lt k (hold k hk)) hid, ?_⟩
  rw [List.pairwise_append]
  refine ⟨h.notEnqueued, ?_, ?_⟩
  · refine List.pairwise_of_forall_mem_list fun a ha b _ k d hak _ => ?_
    exact absurd (hak ▸ ha) (hnone k)
  · rintro a ha b hb k d rfl rfl
    exact hqueued k d ha hb

/-- A frame has none of the keys that were erased. -/
theorem Forgotten.compressed (h : Forgotten es enc) (hordered : Ordered es enc)
    {inp : CompressInput} {ds : List Datagram}
    (hds : ∀ d ∈ ds, d.frameId = enc.frameId ∧ d.sendTs = 0 ∧ d.numRtx = 0)
    (hid : enc'.frameId = enc.frameId + 1)
    (hbuf : enc'.sendBuf = (enc.afterGiveUp inp.encodeTs).sendBuf ++ ds)
    (hunacked : enc'.unacked = (enc.afterGiveUp inp.encodeTs).unacked)
    (hcount : encodedCount (es ++ enc.compressEvents inp ds) < 2 ^ 32) :
    Forgotten (es ++ enc.compressEvents inp ds) enc' := by
  rw [encodedCount_append, encodedCount_compressEvents] at hcount
  have hlt := (hordered.toNat_frameId_add_one hcount).2
  have hnew : ∀ k d, .erased k ∈ es → d ∈ ds → d.seqNum ≠ k := by
    rintro k d hk hd rfl
    exact absurd (hds d hd).1 (ne_of_lt (h.frame_lt _ hk))
  refine h.of_quiet (hid ▸ le_of_lt hlt) (erased_notMem_compressEvents enc inp ds) ?_ ?_ ?_
  · intro k d hk hd
    refine hnew k d hk ?_
    rw [← enqueuedDatagrams_compressEvents enc inp ds]
    exact List.mem_filterMap.mpr ⟨_, hd, rfl⟩
  · intro k hk
    rw [hunacked]
    rcases afterGiveUp_cases enc inp.encodeTs with ⟨-, -, hempty⟩ | ⟨-, heq⟩
    · rw [hempty, OrderedMap.find?_empty]
    · rw [heq]
      exact h.notUnacked k hk
  · intro k hk hf
    obtain ⟨d, hd, h0, hseq⟩ := mem_freshKeys.mp hf
    rw [hbuf] at hd
    rcases List.mem_append.mp hd with hmem | hmem
    · rcases afterGiveUp_cases enc inp.encodeTs with ⟨-, hempty, -⟩ | ⟨-, heq⟩
      · rw [hempty] at hmem
        exact absurd hmem List.not_mem_nil
      · rw [heq] at hmem
        exact h.notFresh k hk (mem_freshKeys.mpr ⟨d, hmem, h0, hseq⟩)
    · exact hnew k d hk hmem hseq

section Steps

variable [RttArith E]

/-- A retransmission does not fall behind the copies that exist. -/
theorem le_numRtx_retransmitted {ewma : E} {t : UInt64} {d : Datagram} (h : isDue ewma t d) :
    d.numRtx ≤ (retransmitted t d).numRtx := by
  rw [UInt32.le_iff_toNat_le, toNat_numRtx_retransmitted h]
  exact Nat.le_succ _

/-- An acknowledgement adds the copies of what it queues again. -/
theorem copies_acked {seq : SeqNum} {ewma : E} {t : UInt64}
    (hbuf : enc'.sendBuf = ((enc.rtxEntries seq ewma t).map Prod.snd).reverse ++ enc.sendBuf) :
    (copies (es ++ ackEvents t ((enc.rtxEntries seq ewma t).map Prod.snd) seq) enc').Perm
      (((enc.rtxEntries seq ewma t).map Prod.snd).map copyOf ++ copies es enc) := by
  unfold copies
  rw [sentDatagrams_append, sentDatagrams_ackEvents, List.append_nil, hbuf, ← List.map_append]
  refine List.Perm.map copyOf ?_
  rw [← List.append_assoc, ← List.append_assoc]
  refine List.Perm.append_right _ (List.perm_append_comm.trans ?_)
  exact List.Perm.append_right _ (List.reverse_perm _)

/-- What is known of a new copy: the entry of `unacked_` it was made from. -/
theorem exists_unacked_of_mem_rtxEntries (hordered : Ordered es enc) {seq : SeqNum} {ewma : E}
    {t : UInt64} {c : SeqNum × UInt32}
    (hc : c ∈ ((enc.rtxEntries seq ewma t).map Prod.snd).map copyOf) :
    ∃ d₀, enc.unacked.find? c.1 = some d₀ ∧ d₀.seqNum = c.1 ∧ c.1 < seq ∧ isDue ewma t d₀ ∧
      c.2 = (retransmitted t d₀).numRtx ∧ c.2.toNat = d₀.numRtx.toNat + 1 ∧ c.2 ≤ maxNumRtx := by
  obtain ⟨d, hd, rfl⟩ := List.mem_map.mp hc
  obtain ⟨k, d₀, hd₀, hlt, hdue, rfl, hnum, hmax⟩ := numRtx_rtxEntries hd
  obtain ⟨hk, -⟩ := hordered.unacked_lt k d₀ hd₀
  subst hk
  exact ⟨d₀, hd₀, rfl, hlt, hdue, rfl, hnum, hmax⟩

/-- The new copies are of different datagrams. -/
theorem nodup_copyOf_rtxEntries (hordered : Ordered es enc) (seq : SeqNum) (ewma : E)
    (t : UInt64) : (((enc.rtxEntries seq ewma t).map Prod.snd).map copyOf).Nodup := by
  have hseqNum : ∀ e ∈ enc.rtxEntries seq ewma t, e.2.seqNum = e.1 := by
    intro e he
    obtain ⟨d₀, hd₀, -, -, hrtx⟩ := mem_rtxEntries.mp he
    rw [hrtx]
    exact (hordered.unacked_lt _ _ hd₀).1
  rw [List.map_map, List.Nodup, List.pairwise_map]
  refine (pairwise_rtxEntries enc seq ewma t).imp_of_mem fun {a b} ha hb hab heq => ?_
  have hseq : a.2.seqNum = b.2.seqNum := congrArg Prod.fst heq
  rw [hseqNum a ha, hseqNum b hb] at hseq
  exact absurd hseq.symm (ne_of_lt hab)

/-- A retransmission is a copy that did not exist: it is ahead of all others. -/
theorem Copied.acked (h : Copied es enc) (hordered : Ordered es enc) {seq : SeqNum} {ewma : E}
    {t : UInt64} (hid : enc'.frameId = enc.frameId)
    (hbuf : enc'.sendBuf = ((enc.rtxEntries seq ewma t).map Prod.snd).reverse ++ enc.sendBuf)
    (hfind : ∀ k, enc'.unacked.find? k = if k = seq then none
      else (enc.unacked.find? k).map fun d =>
        if k < seq ∧ isDue ewma t d then retransmitted t d else d) :
    Copied (es ++ ackEvents t ((enc.rtxEntries seq ewma t).map Prod.snd) seq) enc' := by
  have hperm := @copies_acked _ es enc enc' _ seq ewma t hbuf
  have hnew := @exists_unacked_of_mem_rtxEntries _ es enc _ hordered seq ewma t
  refine ⟨?_, ?_, ?_, ?_, ?_⟩
  · rw [hperm.nodup_iff, List.nodup_append]
    refine ⟨nodup_copyOf_rtxEntries hordered seq ewma t, h.nodup, ?_⟩
    rintro c hc c' hc' rfl
    obtain ⟨d₀, hd₀, -, -, -, -, hnum, -⟩ := hnew hc
    have hle := UInt32.le_iff_toNat_le.mp (h.le_unacked c.1 d₀ hd₀ c hc' rfl)
    omega
  · intro c hc
    rcases List.mem_append.mp (hperm.subset hc) with hmem | hmem
    · obtain ⟨d₀, -, -, -, -, -, -, hmax⟩ := hnew hmem
      exact hmax
    · exact h.le_max c hmem
  · intro c hc
    rw [hid]
    rcases List.mem_append.mp (hperm.subset hc) with hmem | hmem
    · obtain ⟨d₀, hd₀, hseq, -⟩ := hnew hmem
      rw [← hseq]
      exact (hordered.unacked_lt _ _ hd₀).2
    · exact h.frame_lt c hmem
  · intro k d hd c hc hk
    rw [hfind] at hd
    split_ifs at hd
    obtain ⟨d₀, hd₀, hd'⟩ := Option.map_eq_some_iff.mp hd
    rcases List.mem_append.mp (hperm.subset hc) with hmem | hmem
    · obtain ⟨d₁, hd₁, -, hlt, hdue, hnum, -⟩ := hnew hmem
      rw [hk] at hd₁ hlt
      rw [hd₀, Option.some_inj] at hd₁
      rw [hd₁, if_pos ⟨hlt, hdue⟩] at hd'
      rw [← hd', hnum]
    · have hle := h.le_unacked k d₀ hd₀ c hmem hk
      split_ifs at hd' with hdue
      · -- the counter of a retransmitted datagram goes up
        rw [← hd']
        exact le_trans hle (le_numRtx_retransmitted hdue.2)
      · rw [← hd']
        exact hle
  · rw [freshKeys_acked hbuf]
    intro k hk c hc hck
    rcases List.mem_append.mp (hperm.subset hc) with hmem | hmem
    · -- an unacked datagram lies before the fresh ones
      obtain ⟨d₀, hd₀, -⟩ := hnew hmem
      have hc₀ : enc.unacked.contains c.1 := by simp [OrderedMap.contains, hd₀]
      exact absurd hck (ne_of_lt (hordered.unacked_lt_fresh c.1 hc₀ k hk))
    · exact h.fresh_alone k hk c hmem hck

/-- A step keeps the copies apart. -/
theorem Copied.step (h : Copied es enc) (hordered : Ordered es enc) (heff : Effect enc enc' es')
    (hcount : encodedCount (es ++ es') < 2 ^ 32) : Copied (es ++ es') enc' := by
  cases heff with
  | compressed inp ds hds hpairwise hid hbuf hunacked =>
    rw [encodedCount_append, encodedCount_compressEvents] at hcount
    have hlt := (hordered.toNat_frameId_add_one hcount).2
    refine (h.afterGiveUp inp.encodeTs).compressed ?_
      hpairwise ?_ hbuf hunacked (sentDatagrams_compressEvents enc inp ds)
    · rw [frameId_afterGiveUp]
      exact hds
    · rw [frameId_afterGiveUp, hid]
      exact hlt
  | sentFresh d rest t hd h0 hnone hid hbuf hfind =>
    have hkeys := freshKeys_cons_of_fresh hd h0 hbuf
    refine h.of_copies_eq (copies_sent hd hbuf) hid ?_ ?_
    · intro k d' hd'
      rw [hfind] at hd'
      split_ifs at hd' with hk
      · rw [hk, hkeys]
        exact Or.inr List.mem_cons_self
      · exact Or.inl ⟨d', hd', le_rfl⟩
    · rw [hkeys]
      exact List.subset_cons_self _ _
  | sentRtx d rest t hd h0 hid hbuf hunacked =>
    refine h.of_copies_eq (copies_sent hd hbuf) hid ?_ ?_
    · rw [hunacked]
      exact fun k d' hd' => Or.inl ⟨d', hd', le_rfl⟩
    · rw [freshKeys_cons_of_rtx hd h0 hbuf]
      exact List.Subset.refl _
  | blocked d rest t hd hid hbuf hunacked =>
    refine h.of_copies_eq (copies_blocked hd hbuf) hid ?_ ?_
    · rw [hunacked]
      exact fun k d' hd' => Or.inl ⟨d', hd', le_rfl⟩
    · rw [freshKeys_blocked hd hbuf]
      exact List.Subset.refl _
  | stray t hid hbuf hunacked =>
    have hcopies : copies (es ++ [SenderEvent.clock t]) enc' = copies es enc := by
      unfold copies
      rw [sentDatagrams_append, hbuf]
      show List.map copyOf (sentDatagrams es ++ [] ++ enc.sendBuf) = _
      rw [List.append_nil]
    have hkeys : enc'.freshKeys = enc.freshKeys := by
      unfold freshKeys
      rw [hbuf]
    refine h.of_copies_eq hcopies hid ?_ (hkeys ▸ List.Subset.refl _)
    rw [hunacked]
    exact fun k d' hd' => Or.inl ⟨d', hd', le_rfl⟩
  | acked seq ewma t hc hid hbuf hfind => exact h.acked hordered hid hbuf hfind

/-- An acknowledgement erases one more key, and queues none that was erased. -/
theorem Forgotten.acked (h : Forgotten es enc) (hordered : Ordered es enc) {seq : SeqNum}
    {ewma : E} {t : UInt64} (hc : enc.unacked.contains seq) (hid : enc'.frameId = enc.frameId)
    (hbuf : enc'.sendBuf = ((enc.rtxEntries seq ewma t).map Prod.snd).reverse ++ enc.sendBuf)
    (hfind : ∀ k, enc'.unacked.find? k = if k = seq then none
      else (enc.unacked.find? k).map fun d =>
        if k < seq ∧ isDue ewma t d then retransmitted t d else d) :
    Forgotten (es ++ ackEvents t ((enc.rtxEntries seq ewma t).map Prod.snd) seq) enc' := by
  have hkeys := freshKeys_acked hbuf
  have hmem : ∀ k, .erased k ∈ ackEvents t ((enc.rtxEntries seq ewma t).map Prod.snd) seq →
      k = seq := by
    intro k hk
    simpa [ackEvents] using hk
  obtain ⟨d₁, hd₁⟩ := Option.isSome_iff_exists.mp hc
  refine ⟨?_, ?_, ?_, ?_⟩
  · intro k hk
    rw [hfind]
    split_ifs with hseq
    · rfl
    · rcases List.mem_append.mp hk with hmem' | hmem'
      · rw [h.notUnacked k hmem', Option.map_none]
      · exact absurd (hmem k hmem') hseq
  · intro k hk hf
    rw [hkeys] at hf
    rcases List.mem_append.mp hk with hmem' | hmem'
    · exact h.notFresh k hmem' hf
    · rw [hmem k hmem'] at hf
      exact lt_irrefl _ (hordered.unacked_lt_fresh seq hc seq hf)
  · intro k hk
    rw [hid]
    rcases List.mem_append.mp hk with hmem' | hmem'
    · exact h.frame_lt k hmem'
    · obtain ⟨hseq, hlt⟩ := hordered.unacked_lt seq d₁ hd₁
      rw [hmem k hmem', ← hseq]
      exact hlt
  · rw [List.pairwise_append]
    refine ⟨h.notEnqueued, ?_, ?_⟩
    · -- the retransmissions are queued before the erasure
      unfold ackEvents
      rw [List.pairwise_append]
      refine ⟨?_, List.pairwise_singleton _ _, ?_⟩
      · refine List.pairwise_of_forall_mem_list fun a ha b _ k d hak _ => ?_
        rw [hak] at ha
        simp at ha
      · rintro a - b hb k d - rfl
        simp at hb
    · rintro a ha b hb k d rfl rfl hseq
      have hd : d ∈ (enc.rtxEntries seq ewma t).map Prod.snd := by
        simpa [ackEvents] using hb
      obtain ⟨k', d₀, hd₀, -, -, rfl, -⟩ := numRtx_rtxEntries hd
      obtain ⟨hk', -⟩ := hordered.unacked_lt k' d₀ hd₀
      have hkey : k = k' := hseq.symm.trans hk'
      rw [← hkey, h.notUnacked k ha] at hd₀
      simp at hd₀

/-- A step forgets nothing that was erased. -/
theorem Forgotten.step (h : Forgotten es enc) (hordered : Ordered es enc)
    (heff : Effect enc enc' es') (hcount : encodedCount (es ++ es') < 2 ^ 32) :
    Forgotten (es ++ es') enc' := by
  cases heff with
  | compressed inp ds hds hpairwise hid hbuf hunacked =>
    exact h.compressed hordered hds hid hbuf hunacked hcount
  | sentFresh d rest t hd h0 hnone hid hbuf hfind =>
    have hkeys := freshKeys_cons_of_fresh hd h0 hbuf
    refine h.of_quiet (le_of_eq hid.symm) (by simp) (by simp) ?_ ?_
    · intro k hk
      rw [hfind, if_neg]
      · exact h.notUnacked k hk
      · rintro rfl
        exact h.notFresh _ hk (by rw [hkeys]; exact List.mem_cons_self)
    · intro k hk hf
      exact h.notFresh k hk (by rw [hkeys]; exact List.mem_cons_of_mem _ hf)
  | sentRtx d rest t hd h0 hid hbuf hunacked =>
    refine h.of_quiet (le_of_eq hid.symm) (by simp) (by simp) (hunacked ▸ h.notUnacked) ?_
    rw [freshKeys_cons_of_rtx hd h0 hbuf]
    exact h.notFresh
  | blocked d rest t hd hid hbuf hunacked =>
    refine h.of_quiet (le_of_eq hid.symm) (by simp) (by simp) (hunacked ▸ h.notUnacked) ?_
    rw [freshKeys_blocked hd hbuf]
    exact h.notFresh
  | stray t hid hbuf hunacked =>
    have hkeys : enc'.freshKeys = enc.freshKeys := by
      unfold freshKeys
      rw [hbuf]
    exact h.of_quiet (le_of_eq hid.symm) (by simp) (by simp) (hunacked ▸ h.notUnacked)
      (hkeys ▸ h.notFresh)
  | acked seq ewma t hc hid hbuf hfind => exact h.acked hordered hc hid hbuf hfind

/-- Every run over fewer than `2 ^ 32` frames keeps the copies apart, and forgets nothing that
was erased. -/
theorem copied_and_forgotten_of_steps {maxPayload : ℕ} {displayWidth displayHeight : UInt16}
    {hasOutput : Bool}
    (h : Run.Steps (Step maxPayload) (initial displayWidth displayHeight hasOutput) es enc)
    (hcount : encodedCount es < 2 ^ 32) : Copied es enc ∧ Forgotten es enc := by
  have key : Ordered es enc ∧ Copied es enc ∧ Forgotten es enc := by
    refine h.invariant_of_lt encodedCount
      (fun es enc => Ordered es enc ∧ Copied es enc ∧ Forgotten es enc) encodedCount_le_append
      ?_ ?_ hcount
    · exact ⟨ordered_initial _ _ _, copied_initial _ _ _, forgotten_initial _ _ _⟩
    · rintro es enc es' enc' hG ⟨hordered, hcopied, hforgotten⟩ hstep
      exact ⟨hordered.step hstep.effect hG, hcopied.step hordered hstep.effect hG,
        hforgotten.step hordered hstep.effect hG⟩
  exact key.2

/-! ## The bound -/

/-- Bounded retransmission.  In every run over fewer than `2 ^ 32` frames, no datagram is sent
twice with the same number of retransmissions, this number stays within the limit, so that
each sequence number is sent at most `1 + MAX_NUM_RTX` times, and after an acknowledgement has
erased it, it is not queued any more. -/
theorem retransmission_bounded {maxPayload : ℕ} {displayWidth displayHeight : UInt16}
    {hasOutput : Bool}
    (h : Run.Steps (Step maxPayload) (initial displayWidth displayHeight hasOutput) es enc)
    (hcount : encodedCount es < 2 ^ 32) :
    ((sentDatagrams es).Pairwise fun a b => a.seqNum = b.seqNum → a.numRtx ≠ b.numRtx) ∧
    (∀ d ∈ sentDatagrams es, d.numRtx ≤ maxNumRtx) ∧
    (∀ k, ((sentDatagrams es).filter fun d => decide (d.seqNum = k)).length
      ≤ 1 + maxNumRtx.toNat) ∧
    ∀ es₁ k es₂, es = es₁ ++ .erased k :: es₂ → ∀ d ∈ enqueuedDatagrams es₂, d.seqNum ≠ k := by
  obtain ⟨hcopied, hforgotten⟩ := copied_and_forgotten_of_steps h hcount
  have hsub : ((sentDatagrams es).map copyOf).Sublist (copies es enc) :=
    (List.sublist_append_left _ _).map copyOf
  refine ⟨?_, ?_, hcopied.length_filter_le, ?_⟩
  · have hnodup := hcopied.nodup.sublist hsub
    rw [List.Nodup, List.pairwise_map] at hnodup
    exact hnodup.imp fun {a b} hab hseq hnum => hab (Prod.ext hseq hnum)
  · intro d hd
    exact hcopied.le_max (copyOf d) (hsub.subset (List.mem_map_of_mem hd))
  · rintro es₁ k es₂ rfl d hd
    obtain ⟨e, he, hed⟩ := List.mem_filterMap.mp hd
    have hpairwise := (List.pairwise_append.mp hforgotten.notEnqueued).2.1
    refine (List.pairwise_cons.mp hpairwise).1 e he k d rfl ?_
    cases e with
    | enqueued d' => exact congrArg _ (Option.some.inj hed)
    | clock t => simp [SenderEvent.enqueued?] at hed
    | gaveUp t => simp [SenderEvent.enqueued?] at hed
    | encoded f => simp [SenderEvent.enqueued?] at hed
    | sent d' => simp [SenderEvent.enqueued?] at hed
    | erased k' => simp [SenderEvent.enqueued?] at hed

/-- Two small frames, of which the second one is acknowledged first: the datagram of the first
one is retransmitted. -/
theorem retransmission_bounded_smallFrame : ∃ es enc,
    Run.Steps (Step 2000) (initial 2 2 false : Encoder ℚ) es enc ∧
      (sentDatagrams es).map copyOf = [(toLex (0, 0), 0), (toLex (1, 0), 0), (toLex (0, 0), 1)] ∧
      ∀ k, ((sentDatagrams es).filter fun d => decide (d.seqNum = k)).length ≤ 4 := by
  have h₁ : Step 2000 (initial 2 2 false : Encoder ℚ) _ _ :=
    @Step.compress _ _ _ _ _ (smallFrame 5) _ rfl
  have h₂ := (Run.Steps.single h₁).tail (@Step.send _ _ _ _ _ _ _ 10 .accepted _ _ rfl rfl)
  have h₃ := h₂.tail (@Step.compress _ _ _ _ _ (smallFrame 2000) _ rfl)
  have h₄ := h₃.tail (@Step.send _ _ _ _ _ _ _ 2010 .accepted _ _ rfl rfl)
  have h₅ := h₄.tail (@Step.ack _ _ _ _ _ ⟨1, 0, 2010⟩ 2020 _ rfl)
  have h₆ := h₅.tail (@Step.send _ _ _ _ _ _ _ 2030 .accepted _ _ rfl rfl)
  exact ⟨_, _, h₆, rfl, (retransmission_bounded h₆ (by decide)).2.2.1⟩

end Steps

end Encoder

end Ringmaster
