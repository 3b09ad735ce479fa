/-
# Compressing a frame is all or nothing, or not

`Encoder::compress_frame` encodes a raw image, packetizes what libvpx returns and moves on to
the next frame id.  It should queue the fragments of one frame and move on, or throw and leave
the queue and the frame id alone (`AllOrNothing`).

It does so when libvpx returns one frame and the information about it can be written, which is
what the code expects.  It does not when there is no frame at all, since nothing checks for that,
when a second frame follows one that was enqueued already, or when writing fails afterwards
(`compressFrame_allOrNothing_iff`).
-/
import Ringmaster.Encoder

namespace Ringmaster

namespace Encoder

open Packetization

variable {E : Type}

/-! ## All or nothing -/

/-- What a call of `compress_frame` should do once libvpx has returned packets: `enc₁` is the
state when the packetization starts, `enc'` the one at the end. -/
structure AllOrNothing (pkts : List CxPkt) (enc₁ enc' : Encoder E) (result : Except Exn Unit) :
    Prop where
  outcome :
    (result = .ok () ∧ enc'.frameId = enc₁.frameId + 1 ∧
      ∃ buf isKey fragCnt ds, (buf, isKey) ∈ framesOf pkts ∧ 0 < fragCnt.toNat ∧
        IsFragmentation enc₁.frameId (if isKey then .key else .nonkey) fragCnt 0 buf ds ∧
        enc'.sendBuf = enc₁.sendBuf ++ ds) ∨
    ((∃ e, result = .error e) ∧ enc'.sendBuf = enc₁.sendBuf ∧ enc'.frameId = enc₁.frameId)
  queued : enc'.frameId ≠ enc₁.frameId → ∃ d ∈ enc'.sendBuf, d.frameId = enc₁.frameId

/-- The information about the frame, if there is an output file, can be written. -/
def OutputSucceeds (enc : Encoder E) (inp : CompressInput) : Prop :=
  enc.hasOutput → inp.write = .ok ()

/-- What follows the packetization: an exception is passed on, and otherwise the information
about the frame is written before the frame id is incremented. -/
theorem compressFrame_of_packetizeEncodedFrame {maxPayload : ℕ} {enc enc₁ enc₂ : Encoder E}
    {inp : CompressInput} {pkts : List CxPkt} {es : List SenderEvent} {size : Except Exn ℕ}
    (h : enc.encodeFrame inp = (.ok pkts, es, enc₁))
    (hpack : enc₁.packetizeEncodedFrame maxPayload pkts = (size, enc₂)) :
    ∃ es', (∃ e, size = .error e ∧ enc.compressFrame maxPayload inp = (.error e, es', enc₂)) ∨
      (∃ n e, size = .ok n ∧ ¬ enc₂.OutputSucceeds inp ∧
        enc.compressFrame maxPayload inp = (.error e, es', enc₂)) ∨
      (∃ n, size = .ok n ∧ enc₂.OutputSucceeds inp ∧ enc.compressFrame maxPayload inp
        = (.ok (), es', { enc₂ with frameId := enc₂.frameId + 1 })) := by
  unfold compressFrame OutputSucceeds
  simp only [h, hpack]
  cases size with
  | error e => exact ⟨_, Or.inl ⟨e, rfl, rfl⟩⟩
  | ok n =>
    by_cases hout : enc₂.hasOutput
    · cases hwrite : inp.write with
      | error e =>
        refine ⟨_, Or.inr (Or.inl ⟨n, e, rfl, ?_, by rw [if_pos hout]⟩)⟩
        intro hok
        have hnone := hok hout
        simp at hnone
      | ok u =>
        exact ⟨_, Or.inr (Or.inr ⟨n, rfl, fun _ => rfl, by rw [if_pos hout]⟩)⟩
    · exact ⟨_, Or.inr (Or.inr ⟨n, rfl, fun hout' => absurd hout' hout, by rw [if_neg hout]⟩)⟩

/-- The datagrams of a frame that is enqueued. -/
theorem exists_mem_packetize (frameId : UInt32) {maxPayload : ℕ} {buf : Bytes} (isKey : Bool)
    (h : Enqueues maxPayload buf) :
    ∃ d ∈ packetize frameId maxPayload buf isKey, d.frameId = frameId := by
  have hfrag := isFragmentation_packetize frameId maxPayload buf isKey
  obtain ⟨hcnt, hpos⟩ := toNat_fragCntOf h.2
  have hne : packetize frameId maxPayload buf isKey ≠ [] := by
    intro hnil
    have hlen := hfrag.length_eq
    rw [hnil, hcnt, List.length_nil] at hlen
    omega
  obtain ⟨d, hd⟩ := List.exists_mem_of_ne_nil _ hne
  exact ⟨d, hd, by rw [hfrag.header d hd]⟩

section Outcomes

variable {maxPayload : ℕ} {enc enc₁ enc' : Encoder E} {inp : CompressInput} {pkts : List CxPkt}
  {es es' : List SenderEvent} {result : Except Exn Unit}

/-- Without a frame, nothing is queued, and the frame id moves on unless writing fails. -/
theorem allOrNothing_iff_of_nil (h : enc.encodeFrame inp = (.ok pkts, es, enc₁))
    (hcompress : enc.compressFrame maxPayload inp = (result, es', enc'))
    (hframes : framesOf pkts = []) :
    AllOrNothing pkts enc₁ enc' result ↔ ¬ enc₁.OutputSucceeds inp := by
  have hpack : enc₁.packetizeEncodedFrame maxPayload pkts = (.ok 0, enc₁) := by
    unfold packetizeEncodedFrame
    rw [packetsLoop_eq_of_nil enc₁.frameId maxPayload 0 enc₁.sendBuf hframes]
  obtain ⟨es₂, ⟨e, hsize, -⟩ | ⟨n, e, -, hout, heq⟩ | ⟨n, -, hout, heq⟩⟩ :=
    compressFrame_of_packetizeEncodedFrame h hpack
  · simp at hsize
  · rw [hcompress, Prod.mk.injEq, Prod.mk.injEq] at heq
    obtain ⟨rfl, -, rfl⟩ := heq
    exact iff_of_true ⟨Or.inr ⟨⟨e, rfl⟩, rfl, rfl⟩, fun hne => absurd rfl hne⟩ hout
  · rw [hcompress, Prod.mk.injEq, Prod.mk.injEq] at heq
    obtain ⟨rfl, -, rfl⟩ := heq
    refine iff_of_false ?_ (not_not_intro hout)
    rintro ⟨⟨-, -, buf, isKey, -, -, hmem, -⟩ | ⟨⟨e, he⟩, -⟩, -⟩
    · rw [hframes] at hmem
      exact absurd hmem List.not_mem_nil
    · simp at he

/-- A first frame that is enqueued stays queued, whatever happens afterwards. -/
theorem allOrNothing_iff_of_enqueues (h : enc.encodeFrame inp = (.ok pkts, es, enc₁))
    (hcompress : enc.compressFrame maxPayload inp = (result, es', enc')) {buf : Bytes}
    {isKey : Bool} {rest : List (Bytes × Bool)} (hframes : framesOf pkts = (buf, isKey) :: rest)
    (henq : Enqueues maxPayload buf) :
    AllOrNothing pkts enc₁ enc' result ↔ rest = [] ∧ enc₁.OutputSucceeds inp := by
  obtain ⟨d, hd, hdid⟩ := exists_mem_packetize enc₁.frameId isKey henq
  have hgrown : enc₁.sendBuf ++ packetize enc₁.frameId maxPayload buf isKey ≠ enc₁.sendBuf := by
    intro hsame
    have hnil : packetize enc₁.frameId maxPayload buf isKey = [] := by simpa using hsame
    rw [hnil] at hd
    exact absurd hd List.not_mem_nil
  have hpack : enc₁.packetizeEncodedFrame maxPayload pkts
      = (if rest = [] then .ok buf.length
          else .error (.runtimeError "Multiple frames were encoded at once"),
        { enc₁ with
          sendBuf := enc₁.sendBuf ++ packetize enc₁.frameId maxPayload buf isKey }) := by
    unfold packetizeEncodedFrame
    rw [packetsLoop_eq_of_enqueues enc₁.frameId 0 enc₁.sendBuf hframes henq]
  obtain ⟨es₂, ⟨e, hsize, heq⟩ | ⟨n, e, -, hout, heq⟩ | ⟨n, hsize, hout, heq⟩⟩ :=
    compressFrame_of_packetizeEncodedFrame h hpack
  · -- a second frame makes the call throw
    rw [hcompress, Prod.mk.injEq, Prod.mk.injEq] at heq
    obtain ⟨rfl, -, rfl⟩ := heq
    refine iff_of_false ?_ ?_
    · rintro ⟨⟨hok, -⟩ | ⟨-, hsame, -⟩, -⟩
      · simp at hok
      · exact hgrown hsame
    · rintro ⟨hone, -⟩
      rw [if_pos hone] at hsize
      simp at hsize
  · -- writing fails
    rw [hcompress, Prod.mk.injEq, Prod.mk.injEq] at heq
    obtain ⟨rfl, -, rfl⟩ := heq
    refine iff_of_false ?_ (fun hcond => hout hcond.2)
    rintro ⟨⟨hok, -⟩ | ⟨-, hsame, -⟩, -⟩
    · simp at hok
    · exact hgrown hsame
  · -- the frame is finished
    rw [hcompress, Prod.mk.injEq, Prod.mk.injEq] at heq
    obtain ⟨rfl, -, rfl⟩ := heq
    obtain ⟨hcnt, hpos⟩ := toNat_fragCntOf henq.2
    have hrest : rest = [] := by
      by_contra hne
      rw [if_neg hne] at hsize
      simp at hsize
    refine iff_of_true ⟨Or.inl ⟨rfl, rfl, buf, isKey, _, _, ?_, ?_,
      isFragmentation_packetize enc₁.frameId maxPayload buf isKey, rfl⟩, ?_⟩ ⟨hrest, hout⟩
    · rw [hframes]
      exact List.mem_cons_self
    · rw [hcnt]
      exact hpos
    · exact fun _ => ⟨d, List.mem_append_right _ hd, hdid⟩

/-- A first frame that cannot be enqueued is refused without harm. -/
theorem allOrNothing_of_not_enqueues (h : enc.encodeFrame inp = (.ok pkts, es, enc₁))
    (hcompress : enc.compressFrame maxPayload inp = (result, es', enc')) {buf : Bytes}
    {isKey : Bool} {rest : List (Bytes × Bool)} (hframes : framesOf pkts = (buf, isKey) :: rest)
    (henq : ¬ Enqueues maxPayload buf) : AllOrNothing pkts enc₁ enc' result := by
  obtain ⟨e, he⟩ := exists_packetsLoop_eq_error enc₁.frameId 0 enc₁.sendBuf hframes henq
  have hpack : enc₁.packetizeEncodedFrame maxPayload pkts = (.error e, enc₁) := by
    unfold packetizeEncodedFrame
    rw [he]
  obtain ⟨es₂, ⟨e', -, heq⟩ | ⟨n, e', hsize, -, -⟩ | ⟨n, hsize, -, -⟩⟩ :=
    compressFrame_of_packetizeEncodedFrame h hpack
  · rw [hcompress, Prod.mk.injEq, Prod.mk.injEq] at heq
    obtain ⟨rfl, -, rfl⟩ := heq
    exact ⟨Or.inr ⟨⟨e', rfl⟩, rfl, rfl⟩, fun hne => absurd rfl hne⟩
  · simp at hsize
  · simp at hsize

end Outcomes

/-- When a call of `compress_frame` is all or nothing.  If libvpx returned no frame, an exception
from writing must stop the call.  If the first frame is one that is enqueued, it must be the only
one, and writing must succeed.  A first frame that is too long is refused without harm. -/
theorem compressFrame_allOrNothing_iff {maxPayload : ℕ} {enc enc₁ enc' : Encoder E}
    {inp : CompressInput} {pkts : List CxPkt} {es es' : List SenderEvent}
    {result : Except Exn Unit} (h : enc.encodeFrame inp = (.ok pkts, es, enc₁))
    (hcompress : enc.compressFrame maxPayload inp = (result, es', enc')) :
    AllOrNothing pkts enc₁ enc' result ↔
      (framesOf pkts = [] → ¬ enc₁.OutputSucceeds inp) ∧
      ∀ buf isKey rest, framesOf pkts = (buf, isKey) :: rest → Enqueues maxPayload buf →
        rest = [] ∧ enc₁.OutputSucceeds inp := by
  cases hframes : framesOf pkts with
  | nil =>
    rw [allOrNothing_iff_of_nil h hcompress hframes]
    constructor
    · exact fun hout => ⟨fun _ => hout, fun _ _ _ hcons => absurd hcons.symm (List.cons_ne_nil _ _)⟩
    · exact fun hcond => hcond.1 rfl
  | cons frame rest =>
    obtain ⟨buf, isKey⟩ := frame
    have hne : (buf, isKey) :: rest ≠ [] := List.cons_ne_nil _ _
    by_cases henq : Enqueues maxPayload buf
    · rw [allOrNothing_iff_of_enqueues h hcompress hframes henq]
      constructor
      · intro hone
        refine ⟨fun hnil => absurd hnil hne, fun buf' isKey' rest' hcons _ => ?_⟩
        rw [← (List.cons.inj hcons).2]
        exact hone
      · exact fun hcond => hcond.2 buf isKey rest rfl henq
    · refine iff_of_true (allOrNothing_of_not_enqueues h hcompress hframes henq)
        ⟨fun hnil => absurd hnil hne, fun buf' isKey' rest' hcons henq' => ?_⟩
      rw [List.cons.injEq, Prod.mk.injEq] at hcons
      exact absurd (hcons.1.1 ▸ henq') henq

/-- A raw image for a small screen of which libvpx makes the given packets. -/
def smallImage (pkts : List CxPkt) : CompressInput where
  imgWidth := 2
  imgHeight := 2
  generationTs := 5
  encodeTs := 5
  encodedTs := 5
  vpx := fun _ => .ok pkts
  write := .ok ()

/-- A frame between two packets of another kind is compressed as a whole. -/
theorem compressFrame_allOrNothing_iff_oneFrame : ∃ (es : List SenderEvent) (enc' : Encoder ℚ),
    (initial 2 2 false).compressFrame 2000 (smallImage [.other, .frame [1, 2, 3] true, .other])
      = (.ok (), es, enc') ∧
    AllOrNothing [.other, .frame [1, 2, 3] true, .other] (initial 2 2 false) enc' (.ok ()) := by
  have hencode : (initial 2 2 false : Encoder ℚ).encodeFrame
      (smallImage [.other, .frame [1, 2, 3] true, .other])
      = (.ok [.other, .frame [1, 2, 3] true, .other], [], initial 2 2 false) := rfl
  have hcompress : (initial 2 2 false : Encoder ℚ).compressFrame 2000
      (smallImage [.other, .frame [1, 2, 3] true, .other]) = (.ok (), _, _) := rfl
  refine ⟨_, _, hcompress, (compressFrame_allOrNothing_iff hencode hcompress).mpr ⟨?_, ?_⟩⟩
  · intro hnil
    simp [framesOf] at hnil
  · rintro buf isKey rest hcons -
    have hframes : [(([1, 2, 3] : Bytes), true)] = (buf, isKey) :: rest := hcons
    exact ⟨(List.cons.inj hframes).2.symm, fun hout => by simp [initial] at hout⟩

/-- When libvpx drops the image, the frame id moves on although no datagram was queued.  When it
returns two frames, the call throws with the datagram of the first one queued. -/
theorem exists_not_allOrNothing :
    (∃ (es : List SenderEvent) (enc' : Encoder ℚ),
      (initial 2 2 false).compressFrame 2000 (smallImage []) = (.ok (), es, enc') ∧
      enc'.frameId = 1 ∧ enc'.sendBuf = [] ∧
      ¬ AllOrNothing [] (initial 2 2 false) enc' (.ok ())) ∧
    ∃ (es : List SenderEvent) (enc' : Encoder ℚ) (e : Exn),
      (initial 2 2 false).compressFrame 2000 (smallImage [.frame [1] true, .frame [2] false])
        = (.error e, es, enc') ∧ enc'.sendBuf ≠ [] ∧
      ¬ AllOrNothing [.frame [1] true, .frame [2] false] (initial 2 2 false) enc' (.error e) := by
  refine ⟨⟨_, _, rfl, rfl, rfl, ?_⟩, ⟨_, _, _, rfl, List.cons_ne_nil _ _, ?_⟩⟩
  · intro hall
    obtain ⟨d, hd, -⟩ := hall.queued (by decide)
    exact absurd hd List.not_mem_nil
  · rintro ⟨⟨hok, -⟩ | ⟨-, hsame, -⟩, -⟩
    · simp at hok
    · exact absurd hsame (List.cons_ne_nil _ _)

end Encoder

end Ringmaster
