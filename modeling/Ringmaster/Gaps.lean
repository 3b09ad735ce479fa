/-
# The frames that are skipped

Which frames does the receiver not consume, over a network that keeps the order?  The inner loop
of its `main` skips frames when the next one is not complete and a later key frame is.  Over such
a network this happens for one reason only: every gap in the consumed frames begins with a frame
of which a datagram was lost by the network, or cleared from `send_buf_` when the sender gave up
(`gaps_explained`).  When nothing is lost and the sender never gives up, the receiver consumes
every frame.
-/
import Ringmaster.Coherence
import Ringmaster.InOrder

open Unsigned

namespace Ringmaster

open Packetization Encoder

/-! ## Gaps of one run of the inner loop -/

namespace Receiver

/-- The frames from `j` to `k` are not among the consumed ones. -/
def Skipped (consumed : List UInt32) (j k : UInt32) : Prop :=
  ∀ i, j ≤ i → i ≤ k → i ∉ consumed

/-- A round of the inner loop that takes a later frame than the next one found the next one
incomplete. -/
theorem not_isComplete_of_again {s s' : Decoder} (hs : s.Inv) {frame : Frame}
    (hbody : drainBody s = .ok (.again frame s')) (hne : frame.id ≠ s.nextFrame) :
    ¬ s.IsComplete s.nextFrame := by
  intro hcomplete
  rcases Decoder.nextFrameComplete_cases hs with ⟨-, heq⟩ | ⟨hnot, -⟩ | ⟨hnot, -⟩
  · obtain ⟨frame', s'', hcons⟩ := Decoder.exists_consumeNextFrame hcomplete
    simp only [drainBody, heq, hcons, Except.ok.injEq, Loop.Round.again.injEq] at hbody
    obtain ⟨rfl, rfl⟩ := hbody
    exact hne (hs.id_eq _ _ (takes_of_consumeNextFrame hs hcons).find?_pos)
  · exact hnot hcomplete
  · exact hnot hcomplete

/-- Every id that the inner loop passes is consumed, or lies in a gap.  The gap begins with an
incomplete frame, and a complete one follows it. -/
theorem DrainEnds.gaps {s t : Decoder} {frames : List Frame} (h : DrainEnds s frames t)
    (hs : s.Inv) (hmax : ¬ s.IsComplete maxUInt32) (k : UInt32) (hlow : s.nextFrame ≤ k)
    (hhigh : k < t.nextFrame) : k ∈ frames.map Frame.id ∨
      ∃ j, s.nextFrame ≤ j ∧ j ≤ k ∧ ¬ s.IsComplete j ∧ (∃ m, k < m ∧ s.IsComplete m) ∧
        Skipped (frames.map Frame.id) j k := by
  revert hs hmax hlow hhigh
  refine Loop.Ends.rec_on h (P := fun s frames t => s.Inv → ¬ s.IsComplete maxUInt32 →
    s.nextFrame ≤ k → k < t.nextFrame → k ∈ frames.map Frame.id ∨
      ∃ j, s.nextFrame ≤ j ∧ j ≤ k ∧ ¬ s.IsComplete j ∧ (∃ m, k < m ∧ s.IsComplete m) ∧
        Skipped (frames.map Frame.id) j k) ?_ ?_
  · intro s t hbody hs _ hlow hhigh
    rcases drainBody_cases hs with ⟨-, -, hbody'⟩ | ⟨b, frame, s', -, -, hbody'⟩
    · rw [hbody, Except.ok.injEq, Loop.Round.leave.injEq] at hbody'
      rw [hbody'] at hhigh
      exact absurd hhigh (not_lt.mpr hlow)
    · rw [hbody] at hbody'
      simp at hbody'
  · intro s frame s' frames t hbody hends ih hs hmax hlow hhigh
    rcases drainBody_cases hs with ⟨-, -, hbody'⟩ | ⟨b, fr, s'', htakes, hs', hbody'⟩
    · rw [hbody] at hbody'
      simp at hbody'
    rw [hbody, Except.ok.injEq, Loop.Round.again.injEq] at hbody'
    obtain ⟨rfl, rfl⟩ := hbody'
    have hid : frame.id = b := hs.id_eq b frame htakes.find?_pos
    have hcomplete : s.IsComplete b := ⟨frame, htakes.find?_pos, htakes.complete⟩
    have hb : b < maxUInt32 := by
      rw [lt_maxUInt32_iff]
      rintro rfl
      exact hmax hcomplete
    have hsucc : ∀ i, b < i ↔ s'.nextFrame ≤ i := by
      intro i
      rw [htakes.nextFrame_eq]
      exact lt_iff_add_one_le hb
    rw [List.map_cons, hid]
    rcases lt_trichotomy k b with hlt | rfl | hgt
    · -- the gap in front of the frame that is taken
      right
      have hne : frame.id ≠ s.nextFrame := by
        rw [hid]
        exact ne_of_gt (lt_of_le_of_lt hlow hlt)
      refine ⟨s.nextFrame, le_rfl, hlow, not_isComplete_of_again hs hbody hne,
        ⟨b, hlt, hcomplete⟩, fun i _ hik hmem => ?_⟩
      have hib : i < b := lt_of_le_of_lt hik hlt
      rcases List.mem_cons.mp hmem with rfl | hmem
      · exact lt_irrefl i hib
      · obtain ⟨fr, hfr, rfl⟩ := List.mem_map.mp hmem
        have := (DrainEnds.frames hends hs').1 fr hfr
        exact absurd hib (not_lt.mpr (le_of_lt ((hsucc _).mpr this.1)))
    · exact Or.inl List.mem_cons_self
    · -- a gap in front of a frame that is taken later
      have hmax' : ¬ s'.IsComplete maxUInt32 := by
        rw [htakes.isComplete_iff hb]
        exact fun h => hmax h.2
      rcases ih hs' hmax' ((hsucc k).mp hgt) hhigh with
        hmem | ⟨j, hj, hjk, hnot, ⟨m, hkm, hm⟩, hskip⟩
      · exact Or.inl (List.mem_cons_of_mem b hmem)
      · right
        have hbj : b < j := (hsucc j).mpr hj
        rw [htakes.isComplete_iff hb] at hnot hm
        refine ⟨j, le_trans htakes.nextFrame_le (le_of_lt hbj), hjk,
          fun hc => hnot ⟨hbj, hc⟩, ⟨m, hkm, hm.2⟩, fun i hji hik hmem => ?_⟩
        rcases List.mem_cons.mp hmem with rfl | hmem
        · exact absurd hbj (not_lt.mpr hji)
        · exact hskip i hji hik hmem

/-- What the inner loop consumes lies below the frame that it stops at. -/
theorem DrainEnds.consumed_lt {s t : Decoder} {frames : List Frame} (h : DrainEnds s frames t)
    (hs : s.Inv) (hmax : ¬ s.IsComplete maxUInt32) : ∀ frame ∈ frames, frame.id < t.nextFrame := by
  revert hs hmax
  refine Loop.Ends.rec_on h (P := fun s frames t => s.Inv → ¬ s.IsComplete maxUInt32 →
    ∀ frame ∈ frames, frame.id < t.nextFrame) ?_ ?_
  · intro s t _ _ _ frame hframe
    exact absurd hframe List.not_mem_nil
  · intro s frame s' frames t hbody hends ih hs hmax fr hfr
    rcases drainBody_cases hs with ⟨-, -, hbody'⟩ | ⟨b, frame', s'', htakes, hs', hbody'⟩
    · rw [hbody] at hbody'
      simp at hbody'
    rw [hbody, Except.ok.injEq, Loop.Round.again.injEq] at hbody'
    obtain ⟨rfl, rfl⟩ := hbody'
    have hb : b < maxUInt32 := by
      rw [lt_maxUInt32_iff]
      rintro rfl
      exact hmax ⟨frame, htakes.find?_pos, htakes.complete⟩
    have hmax' : ¬ s'.IsComplete maxUInt32 := by
      rw [htakes.isComplete_iff hb]
      exact fun hc => hmax hc.2
    rcases List.mem_cons.mp hfr with rfl | hmem
    · have hle := (DrainEnds.drained hends hs' hmax').isFrontier.le
      rw [htakes.nextFrame_eq] at hle
      rw [hs.id_eq b fr htakes.find?_pos]
      exact (lt_iff_add_one_le hb).mpr hle
    · exact ih hs' hmax' fr hmem

end Receiver

namespace Delivery

namespace InOrder

variable {E : Type} {es : List Event} {s : System E}

/-! ## Forgetting the order -/

/-- The events without what the network does. -/
def deliveryEvents (es : List Event) : List Delivery.Event :=
  es.filterMap fun e => match e with
    | .sender e => some (.sender e)
    | .received d => some (.received d)
    | _ => none

/-- The datagrams that the receiver processed, in order. -/
def receivedDatagrams (es : List Event) : List Datagram :=
  es.filterMap fun e => match e with
    | .received d => some d
    | _ => none

/-- The ids of the frames that the receiver consumed, in order. -/
def consumedIds (es : List Event) : List UInt32 :=
  es.filterMap fun e => match e with
    | .consumed frameId => some frameId
    | _ => none

/-- The keys of the datagrams that were lost by the network or cleared from `send_buf_`. -/
def droppedKeys (es : List Event) : List SeqNum :=
  es.filterMap fun e => match e with
    | .lostDatagram seq => some seq
    | .cleared seq => some seq
    | _ => none

section Traces

variable (es es' : List Event) (ses : List SenderEvent)

@[simp] theorem deliveryEvents_append :
    deliveryEvents (es ++ es') = deliveryEvents es ++ deliveryEvents es' :=
  List.filterMap_append

@[simp] theorem receivedDatagrams_append :
    receivedDatagrams (es ++ es') = receivedDatagrams es ++ receivedDatagrams es' :=
  List.filterMap_append

@[simp] theorem consumedIds_append :
    consumedIds (es ++ es') = consumedIds es ++ consumedIds es' :=
  List.filterMap_append

@[simp] theorem droppedKeys_append :
    droppedKeys (es ++ es') = droppedKeys es ++ droppedKeys es' :=
  List.filterMap_append

@[simp] theorem deliveryEvents_map_sender : deliveryEvents (ses.map .sender) = ses.map .sender := by
  unfold deliveryEvents
  rw [List.filterMap_map]
  exact congrFun (@List.filterMap_eq_map' _ _ Delivery.Event.sender) ses

@[simp] theorem deliveryEvents_map_cleared (ks : List SeqNum) :
    deliveryEvents (ks.map .cleared) = [] := by
  simp [deliveryEvents]

@[simp] theorem receivedDatagrams_map_sender : receivedDatagrams (ses.map .sender) = [] := by
  simp [receivedDatagrams]

@[simp] theorem receivedDatagrams_map_cleared (ks : List SeqNum) :
    receivedDatagrams (ks.map .cleared) = [] := by
  simp [receivedDatagrams]

@[simp] theorem consumedIds_map_sender : consumedIds (ses.map .sender) = [] := by
  simp [consumedIds]

@[simp] theorem consumedIds_map_cleared (ks : List SeqNum) :
    consumedIds (ks.map .cleared) = [] := by
  simp [consumedIds]

@[simp] theorem droppedKeys_map_sender : droppedKeys (ses.map .sender) = [] := by
  simp [droppedKeys]

@[simp] theorem droppedKeys_map_cleared (ks : List SeqNum) :
    droppedKeys (ks.map .cleared) = ks := by
  unfold droppedKeys
  rw [List.filterMap_map]
  exact List.filterMap_some

variable (d : Datagram) (frames : List Frame)

@[simp] theorem deliveryEvents_received :
    deliveryEvents (.received d :: frames.map fun frame => .consumed frame.id)
      = [.received d] := by
  simp [deliveryEvents]

@[simp] theorem receivedDatagrams_received :
    receivedDatagrams (.received d :: frames.map fun frame => .consumed frame.id) = [d] := by
  simp [receivedDatagrams]

@[simp] theorem consumedIds_received :
    consumedIds (.received d :: frames.map fun frame => .consumed frame.id)
      = frames.map Frame.id := by
  simp [consumedIds, List.filterMap_map]

@[simp] theorem droppedKeys_received :
    droppedKeys (.received d :: frames.map fun frame => .consumed frame.id) = [] := by
  simp [droppedKeys]

theorem senderEvents_deliveryEvents :
    Delivery.senderEvents (deliveryEvents es) = senderEvents es := by
  unfold Delivery.senderEvents deliveryEvents senderEvents
  rw [List.filterMap_filterMap]
  apply congrArg (fun f => es.filterMap f)
  funext e
  cases e with
  | sender e => rfl
  | cleared seq => rfl
  | received d => rfl
  | consumed frameId => rfl
  | lostDatagram seq => rfl
  | lostAck seq => rfl

theorem receivedDatagrams_deliveryEvents :
    Delivery.receivedDatagrams (deliveryEvents es) = receivedDatagrams es := by
  unfold Delivery.receivedDatagrams deliveryEvents receivedDatagrams
  rw [List.filterMap_filterMap]
  apply congrArg (fun f => es.filterMap f)
  funext e
  cases e with
  | sender e => rfl
  | cleared seq => rfl
  | received d => rfl
  | consumed frameId => rfl
  | lostDatagram seq => rfl
  | lostAck seq => rfl

end Traces

/-- The ends are the same, and what is in flight was once given to the network. -/
structure Within (s b : System E) : Prop where
  encoder : b.encoder = s.encoder
  decoder : b.decoder = s.decoder
  toReceiver : ∀ binary ∈ s.toReceiver, binary ∈ b.toReceiver
  toSender : ∀ binary ∈ s.toSender, binary ∈ b.toSender

variable [RttArith E] {maxPayload : ℕ}

/-- A step of the ordered network is a step of the network without order, or a loss. -/
theorem exists_steps {s' b : System E} {es' : List Event} (hstep : Step maxPayload s es' s')
    (hin : Within s b) :
    ∃ b', Run.Steps (Delivery.Step maxPayload) b (deliveryEvents es') b' ∧ Within s' b' := by
  obtain ⟨encoder, decoder, toReceiver, toSender⟩ := b
  obtain ⟨rfl, rfl, hdata, hacks⟩ := hin
  have happend : ∀ {l l' new : List Bytes}, (∀ binary ∈ l, binary ∈ l') →
      ∀ binary ∈ l ++ new, binary ∈ l' ++ new := by
    intro l l' new hsub binary hb
    rcases List.mem_append.mp hb with hmem | hmem
    · exact List.mem_append_left _ (hsub binary hmem)
    · exact List.mem_append_right _ hmem
  have hlose : ∀ {front back l : List Bytes} {binary : Bytes},
      (∀ b ∈ front ++ binary :: back, b ∈ l) → ∀ b ∈ front ++ back, b ∈ l := by
    intro front back l binary hsub b hb
    apply hsub
    rcases List.mem_append.mp hb with hmem | hmem
    · exact List.mem_append_left _ hmem
    · exact List.mem_append_right _ (List.mem_cons_of_mem binary hmem)
  cases hstep with
  | compress hvpx hcompress =>
    rw [deliveryEvents_append, deliveryEvents_map_cleared, List.nil_append,
      deliveryEvents_map_sender]
    exact ⟨_, Run.Steps.single (Delivery.Step.compress hvpx hcompress), rfl, rfl, happend hdata,
      hacks⟩
  | send hbuf hsend =>
    rw [deliveryEvents_map_sender]
    exact ⟨_, Run.Steps.single (Delivery.Step.send hbuf hsend), rfl, rfl, happend hdata, hacks⟩
  | @ack encoder binary rest msg t ses hb hparse hack =>
    rw [deliveryEvents_map_sender]
    rw [hb] at hacks
    refine ⟨_, Run.Steps.single (Delivery.Step.ack (hacks binary List.mem_cons_self) hparse hack),
      rfl, rfl, happend hdata, fun b hmem => ?_⟩
    exact hacks b (List.mem_cons_of_mem binary hmem)
  | @receive binary rest d decoder decoder' frames hb hparse hadd hends =>
    rw [deliveryEvents_received]
    rw [hb] at hdata
    refine ⟨_, Run.Steps.single (Delivery.Step.receive (hdata binary List.mem_cons_self) hparse
      hadd hends), rfl, rfl, fun b hmem => ?_, happend hacks⟩
    exact hdata b (List.mem_cons_of_mem binary hmem)
  | loseDatagram hb hparse =>
    rw [hb] at hdata
    exact ⟨_, Run.Steps.refl _, rfl, rfl, hlose hdata, hacks⟩
  | loseAck hb hparse =>
    rw [hb] at hacks
    exact ⟨_, Run.Steps.refl _, rfl, rfl, hdata, hlose hacks⟩

variable {displayWidth displayHeight : UInt16} {hasOutput : Bool} {lazyLevel : LazyLevel}

/-- A run over the ordered network is a run over the network without order. -/
theorem exists_run (h : Run.Steps (Step maxPayload)
    (initial displayWidth displayHeight hasOutput lazyLevel) es s) :
    ∃ b, Run.Steps (Delivery.Step maxPayload)
      (initial displayWidth displayHeight hasOutput lazyLevel) (deliveryEvents es) b ∧
        Within s b :=
  h.simulate deliveryEvents rfl deliveryEvents_append Within
    (fun _ _ _ _ hstep hin => exists_steps hstep hin)
    ⟨rfl, rfl, fun _ hb => hb, fun _ hb => hb⟩

/-- In a run over the ordered network the ends agree about some frames. -/
theorem exists_coherent
    (h : Run.Steps (Step maxPayload) (initial displayWidth displayHeight hasOutput lazyLevel) es s)
    (hcount : encodedCount (senderEvents es) < 2 ^ 32 - 1) :
    ∃ frames b, Coherent maxPayload lazyLevel frames (deliveryEvents es) b ∧ Within s b ∧
      frames.length < 2 ^ 32 - 1 := by
  obtain ⟨b, hrun, hin⟩ := exists_run h
  rw [← senderEvents_deliveryEvents] at hcount
  obtain ⟨frames, hcoherent⟩ := coherent_of_steps hrun (by omega)
  exact ⟨frames, b, hcoherent, hin, hcoherent.count ▸ hcount⟩

/-! ## What arrives -/

/-- A fragment that was not dropped has arrived, or is on its way and nothing that belongs
behind it has arrived. -/
def Arrives (es : List Event) (s : System E) : Prop :=
  ∀ k ∈ newKeys (senderEvents es), k ∉ droppedKeys es →
    k ∈ (receivedDatagrams es).map Datagram.seqNum ∨
    Leads k (dataFlight s ++ s.encoder.freshKeys) ∧ ∀ e ∈ receivedDatagrams es, e.seqNum < k

/-- A step of the sender, which clears fresh datagrams only when it gives up. -/
theorem Arrives.sends (h : Arrives es s) (hkept : Kept es s)
    (hlt : ∀ e ∈ receivedDatagrams es, e.frameId < s.encoder.frameId) {s' : System E}
    {es' : List Event} {ses : List SenderEvent} (heff : Effect s.encoder s'.encoder ses)
    (hses : senderEvents es' = ses) (hreceived : receivedDatagrams es' = [])
    (hcleared : giveUps ses ≠ [] → ∀ k ∈ s.encoder.freshKeys, k ∈ droppedKeys es')
    (hflight : dataFlight s' = dataFlight s ++ sentKeys ses) : Arrives (es ++ es') s' := by
  have hbehind : Behind (dataFlight s) s.encoder :=
    hkept.orderly.behind.mono fun k hk => List.mem_append_right _ hk
  intro k hk hnot
  rw [droppedKeys_append, List.mem_append, not_or] at hnot
  rw [receivedDatagrams_append, hreceived, List.append_nil, hflight]
  have hnew : k ∈ newKeys (senderEvents es) ∨ k ∈ newKeys ses := by
    unfold newKeys at hk ⊢
    rw [senderEvents_append, hses, packetizedDatagrams_append, List.map_append] at hk
    exact List.mem_append.mp hk
  rcases hnew with hold | hnew
  · refine (h k hold hnot.1).imp_right fun ⟨hleads, hall⟩ => ⟨?_, hall⟩
    apply leads_of_effect hbehind heff hleads
    intro hfresh
    by_contra hgive
    exact hnot.2 (hcleared hgive k hfresh)
  · refine Or.inr ⟨leads_of_mem_newKeys hbehind hkept.ordered heff hnew, fun e he => ?_⟩
    apply lt_of_frameId_lt
    rw [frameId_of_mem_newKeys heff hnew]
    exact hlt e he

omit [RttArith E] in
/-- A datagram arrives: it is the fragment, or one that belongs in front of it. -/
theorem Arrives.receive (h : Arrives es s) {s' : System E} {d : Datagram} {frames : List Frame}
    {rest : List SeqNum} (henc : s'.encoder = s.encoder) (hbefore : dataFlight s = d.seqNum :: rest)
    (hafter : dataFlight s' = rest) :
    Arrives (es ++ .received d :: frames.map fun frame => .consumed frame.id) s' := by
  intro k hk hnot
  rw [senderEvents_append, senderEvents_received, List.append_nil] at hk
  rw [droppedKeys_append, droppedKeys_received, List.append_nil] at hnot
  rw [receivedDatagrams_append, receivedDatagrams_received, List.map_append, henc, hafter]
  rcases h k hk hnot with hmem | ⟨hleads, hall⟩
  · exact Or.inl (List.mem_append_left _ hmem)
  rw [hbefore, List.cons_append] at hleads
  rcases hleads.of_cons with rfl | ⟨hlt, htail⟩
  · exact Or.inl (List.mem_append_right _ List.mem_cons_self)
  · refine Or.inr ⟨htail, fun e he => ?_⟩
    rcases List.mem_append.mp he with hmem | hmem
    · exact hall e hmem
    · rw [List.mem_singleton.mp hmem]
      exact hlt

omit [RttArith E] in
/-- A datagram is lost. -/
theorem Arrives.lose (h : Arrives es s) {s' : System E} {front back : List SeqNum} {j : SeqNum}
    (henc : s'.encoder = s.encoder) (hbefore : dataFlight s = front ++ j :: back)
    (hafter : dataFlight s' = front ++ back) : Arrives (es ++ [.lostDatagram j]) s' := by
  have hses : senderEvents (es ++ [.lostDatagram j]) = senderEvents es := by simp [senderEvents]
  have hreceived : receivedDatagrams (es ++ [.lostDatagram j]) = receivedDatagrams es := by
    simp [receivedDatagrams]
  intro k hk hnot
  rw [hses] at hk
  rw [droppedKeys_append, List.mem_append, not_or] at hnot
  have hne : j ≠ k := by
    rintro rfl
    exact hnot.2 List.mem_cons_self
  rw [hreceived, henc, hafter]
  rcases h k hk hnot.1 with hdone | ⟨hleads, hall⟩
  · exact Or.inl hdone
  · rw [hbefore, List.append_assoc, List.cons_append] at hleads
    rw [List.append_assoc]
    exact Or.inr ⟨hleads.of_lost hne, hall⟩

/-- Every step keeps what was not dropped on its way. -/
theorem Arrives.step (h : Arrives es s) (hkept : Kept es s)
    (hlt : ∀ e ∈ receivedDatagrams es, e.frameId < s.encoder.frameId) {es' : List Event}
    {s' : System E} (hstep : Step maxPayload s es' s') : Arrives (es ++ es') s' := by
  cases hstep with
  | @compress encoder inp ses _ hcompress =>
    refine h.sends hkept hlt (effect_compressFrame hcompress) (by simp) (by simp) ?_
      (dataFlight_sends encoder ses)
    intro hgive k hk
    obtain ⟨pkts, ds, -, -, -, rfl⟩ := compressFrame_cases hcompress
    have hgaveUp : s.encoder.givesUp inp.encodeTs := by
      by_contra hnot
      rw [giveUps_compressEvents, if_neg hnot] at hgive
      exact hgive rfl
    rw [droppedKeys_append, droppedKeys_map_cleared, clearedKeys, if_pos hgaveUp]
    exact List.mem_append_left _ hk
  | @send encoder d rest t outcome ses more hbuf hsend =>
    refine h.sends hkept hlt (effect_sendFront hbuf hsend) (by simp) (by simp) ?_
      (dataFlight_sends encoder ses)
    intro hgive
    rcases events_sendFront hsend with rfl | rfl
    · exact absurd rfl hgive
    · exact absurd rfl hgive
  | @ack encoder binary rest msg t ses hb hparse hack =>
    refine h.sends hkept hlt (effect_handleAck hack) (by simp) (by simp) ?_
      (dataFlight_sends encoder ses)
    intro hgive
    obtain ⟨ses', enc', hack', -, hcases⟩ := handleAck_cases s.encoder msg t
    rw [hack, Except.ok.injEq, Prod.mk.injEq] at hack'
    obtain ⟨rfl, rfl⟩ := hack'
    rcases hcases with ⟨-, rfl, -⟩ | ⟨-, ewma, -, rfl, -⟩
    · exact absurd rfl hgive
    · exact absurd (giveUps_ackEvents _ _ _) hgive
  | receive hb hparse hadd hends =>
    refine h.receive rfl ?_ rfl
    unfold dataFlight
    rw [hb, List.filterMap_cons_some (datagramKey_of_parse hparse)]
  | loseDatagram hb hparse =>
    refine h.lose rfl ?_ (List.filterMap_append ..)
    unfold dataFlight
    rw [hb, List.filterMap_append, List.filterMap_cons_some (datagramKey_of_parse hparse)]
  | @loseAck front back binary msg hb hparse =>
    intro k hk hnot
    have hses : senderEvents (es ++ [.lostAck msg.seqNum]) = senderEvents es := by
      simp [senderEvents]
    have hreceived : receivedDatagrams (es ++ [.lostAck msg.seqNum]) = receivedDatagrams es := by
      simp [receivedDatagrams]
    have hdropped : droppedKeys (es ++ [.lostAck msg.seqNum]) = droppedKeys es := by
      simp [droppedKeys]
    rw [hses] at hk
    rw [hdropped] at hnot
    rw [hreceived]
    exact h k hk hnot

/-! ## The reason for a gap -/

omit [RttArith E] in
/-- When a frame has arrived as a whole and an earlier one has not, a datagram of the earlier one
was dropped. -/
theorem Arrives.exists_dropped (h : Arrives es s) {frames : List (Bytes × Bool)} {b : System E}
    (hcoherent : Coherent maxPayload lazyLevel frames (deliveryEvents es) b)
    (hlen : frames.length < 2 ^ 32 - 1) {j m : UInt32} (hlt : j < m)
    (hm : Receiver.Whole (receivedDatagrams es) m)
    (hj : ¬ Receiver.Whole (receivedDatagrams es) j) :
    ∃ seq ∈ droppedKeys es, (ofLex seq).1 = j := by
  by_contra hnone
  rw [← receivedDatagrams_deliveryEvents] at hm hj
  obtain ⟨e, he, rfl, -⟩ := hm
  -- the frame `j` was encoded, as a later one was
  have hid : b.encoder.frameId.toNat = frames.length := by
    rw [hcoherent.sourced.frameId, UInt32.toNat_ofNat']
    exact Nat.mod_eq_of_lt (by omega)
  have hbound := UInt32.lt_iff_toNat_lt.mp (hcoherent.kept.received_lt e he)
  have hjm := UInt32.lt_iff_toNat_lt.mp hlt
  obtain ⟨⟨buf, isKey⟩, hframe⟩ : ∃ frame, frames[j.toNat]? = some frame :=
    ⟨_, List.getElem?_eq_getElem (by omega)⟩
  obtain ⟨d, hd, -⟩ := hcoherent.wholeBy_of_received hlen hframe (by
    rintro d hd rfl
    have hnew : d.seqNum ∈ newKeys (senderEvents es) := by
      rw [senderEvents_deliveryEvents] at hd
      exact List.mem_map_of_mem hd
    have hnot : d.seqNum ∉ droppedKeys es := fun hmem => hnone ⟨d.seqNum, hmem, rfl⟩
    rw [receivedDatagrams_deliveryEvents] at he ⊢
    rcases h d.seqNum hnew hnot with hmem | ⟨-, hall⟩
    · exact List.mem_map.mp hmem
    · -- nothing that belongs behind the datagram has arrived
      have hkey : d.seqNum < e.seqNum := lt_of_frameId_lt hlt
      exact absurd (hall e he) (not_lt.mpr (le_of_lt hkey)))
  exact hj ⟨d, hd⟩

/-- The frames that were consumed stand in order, and every gap between them begins with a frame
of which a datagram was dropped. -/
structure Explained (es : List Event) (s : System E) : Prop where
  consumed_lt : ∀ k ∈ consumedIds es, k < s.decoder.nextFrame
  sorted : (consumedIds es).Pairwise (· < ·)
  gaps : ∀ k < s.decoder.nextFrame, k ∈ consumedIds es ∨
    ∃ j ≤ k, Receiver.Skipped (consumedIds es) j k ∧ ∃ seq ∈ droppedKeys es, (ofLex seq).1 = j

omit [RttArith E] in
theorem explained_initial (displayWidth displayHeight : UInt16) (hasOutput : Bool)
    (lazyLevel : LazyLevel) :
    Explained [] (initial displayWidth displayHeight hasOutput lazyLevel : System E) where
  consumed_lt := fun _ hk => absurd hk List.not_mem_nil
  sorted := List.Pairwise.nil
  gaps := fun k hk => absurd hk (not_lt.mpr (UInt32.le_iff_toNat_le.mpr (Nat.zero_le k.toNat)))

omit [RttArith E] in
/-- A step that consumes nothing. -/
theorem Explained.quiet (h : Explained es s) {es' : List Event} {s' : System E}
    (hnext : s'.decoder.nextFrame = s.decoder.nextFrame) (hnone : consumedIds es' = []) :
    Explained (es ++ es') s' := by
  have hsame : consumedIds (es ++ es') = consumedIds es := by
    rw [consumedIds_append, hnone, List.append_nil]
  refine ⟨?_, ?_, ?_⟩
  · rw [hsame, hnext]
    exact h.consumed_lt
  · rw [hsame]
    exact h.sorted
  · rw [hsame, hnext]
    intro k hk
    refine (h.gaps k hk).imp_right ?_
    rintro ⟨j, hjk, hskip, seq, hseq, hid⟩
    refine ⟨j, hjk, hskip, seq, ?_, hid⟩
    rw [droppedKeys_append]
    exact List.mem_append_left _ hseq

omit [RttArith E] in
/-- A round of the receiver, when every incomplete frame in front of a complete one has lost a
datagram. -/
theorem Explained.receive (h : Explained es s) {d : Datagram} {decoder decoder' : Decoder}
    {frames : List Frame} {s' : System E} (hadd : s.decoder.addDatagram d = (.ok (), decoder))
    (hends : Receiver.DrainEnds decoder frames decoder') (hs : decoder.Inv)
    (hmax : ¬ decoder.IsComplete maxUInt32) (hdec : s'.decoder = decoder')
    (hdropped : ∀ j m, s.decoder.nextFrame ≤ j → j < m → decoder.IsComplete m →
      ¬ decoder.IsComplete j → ∃ seq ∈ droppedKeys es, (ofLex seq).1 = j) :
    Explained (es ++ .received d :: frames.map fun frame => .consumed frame.id) s' := by
  obtain ⟨hmem, hsorted⟩ := Receiver.DrainEnds.frames hends hs
  have hnext := Decoder.nextFrame_addDatagram hadd
  have hle := (Receiver.DrainEnds.drained hends hs hmax).isFrontier.le
  rw [hnext] at hle
  -- the old ids lie below `next_frame_`, and the new ones from there on
  have hnew : ∀ k ∈ frames.map Frame.id, s.decoder.nextFrame ≤ k := by
    intro k hk
    obtain ⟨frame, hframe, rfl⟩ := List.mem_map.mp hk
    rw [← hnext]
    exact (hmem frame hframe).1
  refine ⟨?_, ?_, ?_⟩
  · rw [consumedIds_append, consumedIds_received, hdec]
    intro k hk
    rcases List.mem_append.mp hk with hold | hk
    · exact lt_of_lt_of_le (h.consumed_lt k hold) hle
    · obtain ⟨frame, hframe, rfl⟩ := List.mem_map.mp hk
      exact Receiver.DrainEnds.consumed_lt hends hs hmax frame hframe
  · rw [consumedIds_append, consumedIds_received, List.pairwise_append]
    refine ⟨h.sorted, List.pairwise_map.mpr hsorted, fun a ha b hb => ?_⟩
    exact lt_of_lt_of_le (h.consumed_lt a ha) (hnew b hb)
  · rw [consumedIds_append, consumedIds_received, droppedKeys_append, droppedKeys_received,
      List.append_nil, hdec]
    intro k hk
    rcases lt_or_ge k s.decoder.nextFrame with hlt | hge
    · rcases h.gaps k hlt with hold | ⟨j, hjk, hskip, hseq⟩
      · exact Or.inl (List.mem_append_left _ hold)
      · refine Or.inr ⟨j, hjk, fun i hji hik hi => ?_, hseq⟩
        rcases List.mem_append.mp hi with hold | hi
        · exact hskip i hji hik hold
        · exact absurd (lt_of_le_of_lt hik hlt) (not_lt.mpr (hnew i hi))
    · rw [← hnext] at hge
      rcases Receiver.DrainEnds.gaps hends hs hmax k hge hk with
        hconsumed | ⟨j, hj, hjk, hnot, ⟨m, hkm, hm⟩, hskip⟩
      · exact Or.inl (List.mem_append_right _ hconsumed)
      · rw [hnext] at hj
        refine Or.inr ⟨j, hjk, fun i hji hik hi => ?_,
          hdropped j m hj (lt_of_le_of_lt hjk hkm) hm hnot⟩
        rcases List.mem_append.mp hi with hold | hi
        · exact absurd (h.consumed_lt i hold) (not_lt.mpr (le_trans hj hji))
        · exact hskip i hji hik hi

/-- Every run over fewer than `2 ^ 32 - 1` frames is explained. -/
theorem explained_of_steps
    (h : Run.Steps (Step maxPayload) (initial displayWidth displayHeight hasOutput lazyLevel) es s)
    (hcount : encodedCount (senderEvents es) < 2 ^ 32 - 1) : Explained es s := by
  have key : Run.Steps (Step maxPayload)
      (initial displayWidth displayHeight hasOutput lazyLevel) es s ∧
      Arrives es s ∧ Explained es s := by
    refine h.invariant_of_lt (fun es => encodedCount (senderEvents es))
      (fun es s => Run.Steps (Step maxPayload)
        (initial displayWidth displayHeight hasOutput lazyLevel) es s ∧
        Arrives es s ∧ Explained es s) encodedCount_senderEvents_le_append ?_ ?_ hcount
    · exact ⟨Run.Steps.refl _, fun _ hk => absurd hk List.not_mem_nil,
        explained_initial _ _ _ _⟩
    rintro es s es' s' hG ⟨hrun, harrives, hexplained⟩ hstep
    have hG' : encodedCount (senderEvents es) < 2 ^ 32 - 1 :=
      lt_of_le_of_lt (encodedCount_senderEvents_le_append es es') hG
    obtain ⟨frames, b, hcoherent, hin, hlen⟩ := exists_coherent hrun hG'
    obtain ⟨frames', b', hcoherent', hin', hlen'⟩ := exists_coherent (hrun.tail hstep) hG
    have hlt : ∀ e ∈ receivedDatagrams es, e.frameId < s.encoder.frameId := by
      rw [← receivedDatagrams_deliveryEvents, ← hin.encoder]
      exact hcoherent.kept.received_lt
    have harrives' := harrives.step (kept_of_steps hrun (by omega)) hlt hstep
    refine ⟨hrun.tail hstep, harrives', ?_⟩
    cases hstep with
    | compress => exact hexplained.quiet rfl (by simp)
    | send => exact hexplained.quiet rfl (by simp)
    | ack => exact hexplained.quiet rfl (by simp)
    | loseDatagram => exact hexplained.quiet rfl (by simp [consumedIds])
    | loseAck => exact hexplained.quiet rfl (by simp [consumedIds])
    | @receive binary rest d decoder decoder' gs hb hparse hadd hends =>
      have hagrees : Receiver.Agrees (receivedDatagrams es ++ [d]) decoder := by
        have hold := hcoherent.kept.agrees
        rw [hin.decoder, receivedDatagrams_deliveryEvents] at hold
        exact hold.addDatagram hadd
      have hreceived : receivedDatagrams (es ++ .received d :: gs.map fun frame =>
          .consumed frame.id) = receivedDatagrams es ++ [d] := by simp
      have hmax : ¬ decoder.IsComplete maxUInt32 := by
        apply hagrees.not_isComplete_max
        intro e he
        rw [← hreceived, ← receivedDatagrams_deliveryEvents] at he
        exact lt_of_lt_of_le (hcoherent'.kept.received_lt e he) (le_maxUInt32 _)
      refine hexplained.receive hadd hends hagrees.inv hmax rfl ?_
      intro j m hj hjm hm hnot
      rw [← Decoder.nextFrame_addDatagram hadd] at hj
      rw [(hagrees.tracksAt m (le_trans hj (le_of_lt hjm))).isComplete_iff, ← hreceived] at hm
      rw [(hagrees.tracksAt j hj).isComplete_iff, ← hreceived] at hnot
      obtain ⟨seq, hseq, hid⟩ := harrives'.exists_dropped hcoherent' hlen' hjm hm hnot
      rw [droppedKeys_append, droppedKeys_received, List.append_nil] at hseq
      exact ⟨seq, hseq, hid⟩
  exact key.2.2

/-- Why frames are skipped.  In every run over fewer than `2 ^ 32 - 1` frames and a network that
keeps the order, the receiver consumes frames in order of their ids, and below `next_frame_` every
frame is consumed or lies in a gap that begins with a frame of which a datagram was lost by the
network or cleared from `send_buf_` by a give-up.  In particular no frame is skipped when nothing
is. -/
theorem gaps_explained
    (h : Run.Steps (Step maxPayload) (initial displayWidth displayHeight hasOutput lazyLevel) es s)
    (hcount : encodedCount (senderEvents es) < 2 ^ 32 - 1) :
    (consumedIds es).Pairwise (· < ·) ∧ (∀ k ∈ consumedIds es, k < s.decoder.nextFrame) ∧
    (∀ k < s.decoder.nextFrame, k ∈ consumedIds es ∨
      ∃ j ≤ k, (∀ i, j ≤ i → i ≤ k → i ∉ consumedIds es) ∧
        ∃ seq ∈ droppedKeys es, (ofLex seq).1 = j) ∧
    (droppedKeys es = [] → ∀ k, k ∈ consumedIds es ↔ k < s.decoder.nextFrame) := by
  have hexplained := explained_of_steps h hcount
  refine ⟨hexplained.sorted, hexplained.consumed_lt, hexplained.gaps, fun hnone k => ?_⟩
  constructor
  · exact hexplained.consumed_lt k
  · intro hk
    rcases hexplained.gaps k hk with hmem | ⟨j, -, -, seq, hseq, -⟩
    · exact hmem
    · rw [hnone] at hseq
      exact absurd hseq List.not_mem_nil

/-- The first of two frames is lost, and the second one, a key frame, is consumed. -/
theorem steps_lost : ∃ es s,
    Run.Steps (Step 2000) (initial 2 2 false .decodeOnly : System ℚ) es s ∧
      encodedCount (senderEvents es) = 2 ∧ consumedIds es = [1] ∧ s.decoder.nextFrame = 2 := by
  have h₁ : Step 2000 (initial 2 2 false .decodeOnly : System ℚ) _ _ :=
    Step.compress (returnsOneFrame_smallFrame 5) rfl
  have h₂ := (Run.Steps.single h₁).tail (@Step.send _ _ _ _ _ _ _ 10 .accepted _ _ rfl rfl)
  have h₃ := h₂.tail (Step.compress (returnsOneFrame_smallFrame 15) rfl)
  have h₄ := h₃.tail (@Step.send _ _ _ _ _ _ _ 20 .accepted _ _ rfl rfl)
  have h₅ := h₄.tail (@Step.loseDatagram _ _ _ _ [] _ _ _ rfl rfl)
  have h₆ := h₅.tail (Step.receive rfl rfl rfl
    (Loop.ends_of_again rfl (Loop.ends_of_leave rfl)))
  exact ⟨_, _, h₆, rfl, rfl, rfl⟩

/-- The gap in this run begins with the frame that was lost. -/
theorem gaps_explained_lost : ∃ es s,
    Run.Steps (Step 2000) (initial 2 2 false .decodeOnly : System ℚ) es s ∧
      consumedIds es = [1] ∧ ∃ seq ∈ droppedKeys es, (ofLex seq).1 = 0 := by
  obtain ⟨es, s, hrun, hcount, hconsumed, hnext⟩ := steps_lost
  obtain ⟨-, -, hgaps, -⟩ := gaps_explained hrun (by rw [hcount]; decide)
  refine ⟨es, s, hrun, hconsumed, ?_⟩
  rcases hgaps 0 (by rw [hnext]; decide) with hmem | ⟨j, hj, -, hdropped⟩
  · rw [hconsumed] at hmem
    exact absurd hmem (by decide)
  · rw [UInt32.le_zero_iff.mp hj] at hdropped
    exact hdropped

end InOrder

end Delivery

end Ringmaster
