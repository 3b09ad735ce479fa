/-
# How large the datagrams of a frame are

`Encoder::packetize_encoded_frame` cuts a frame of `frame_size` bytes into
`frame_size / (max_payload + 1) + 1` fragments.  All but the last one carry `max_payload`
bytes, and the last one carries the rest (`map_length_payload_packetize`).

The rest is `q + r`, where `q` and `r` are the quotient and the remainder of the division by
`max_payload + 1`.  So the datagrams keep to the MTU exactly when `q + r` is at most
`max_payload` (`Encoder.payloads_bounded_iff`); the smallest frame of which the last datagram
is too large has `2 * max_payload + 1` bytes.
-/
import Ringmaster.Encoder

namespace Ringmaster

namespace Packetization

/-! ## The sizes of the payloads -/

/-- The loop over the fragments, from any of them on: full payloads, and then the rest. -/
theorem map_length_payload_fragmentsFrom (frameId : UInt32) (frameType : FrameType)
    (fragCnt : UInt16) (maxPayload n : ℕ) (fragId : UInt16) (buf : Bytes)
    (h : fragId.toNat + (n + 1) = fragCnt.toNat) (hle : n * maxPayload ≤ buf.length) :
    (fragmentsFrom frameId frameType fragCnt maxPayload (n + 1) fragId buf).map
        (fun d => d.payload.length)
      = List.replicate n maxPayload ++ [buf.length - n * maxPayload] := by
  induction n generalizing fragId buf with
  | zero =>
    have hlt : fragId < fragCnt := by
      rw [UInt16.lt_iff_toNat_lt]
      omega
    have hlast : ¬ fragId.toNat + 1 < fragCnt.toNat := by omega
    have hnil : fragmentsFrom frameId frameType fragCnt maxPayload 0 (fragId + 1)
        (buf.drop buf.length) = [] := rfl
    rw [fragmentsFrom, if_pos hlt, if_neg hlast]
    dsimp only
    rw [hnil]
    simp
  | succ n ih =>
    have hlt : fragId < fragCnt := by
      rw [UInt16.lt_iff_toNat_lt]
      omega
    have hmore : fragId.toNat + 1 < fragCnt.toNat := by omega
    have hcnt : fragCnt.toNat < 65536 := fragCnt.toNat_lt
    have hsucc : (fragId + 1).toNat = fragId.toNat + 1 := by
      rw [UInt16.toNat_add]
      simp only [UInt16.reduceToNat]
      omega
    rw [Nat.succ_mul] at hle
    have hrest := ih (fragId + 1) (buf.drop maxPayload) (by omega)
      (by rw [List.length_drop]; omega)
    rw [fragmentsFrom, if_pos hlt, if_pos hmore, List.map_cons, hrest, List.replicate_succ,
      List.cons_append, List.length_drop, Nat.succ_mul]
    have hfull : (buf.take maxPayload).length = maxPayload := by
      rw [List.length_take]
      omega
    rw [hfull, Nat.sub_sub, Nat.add_comm maxPayload]

/-- What is left of a frame for its last fragment. -/
def lastPayload (maxPayload frameSize : ℕ) : ℕ :=
  frameSize / (maxPayload + 1) + frameSize % (maxPayload + 1)

/-- The full payloads before the last one do not use up the frame. -/
theorem mul_add_lastPayload (maxPayload frameSize : ℕ) :
    frameSize / (maxPayload + 1) * maxPayload + lastPayload maxPayload frameSize = frameSize := by
  have hdiv := Nat.div_add_mod' frameSize (maxPayload + 1)
  rw [Nat.mul_succ] at hdiv
  unfold lastPayload
  omega

/-- The sizes of the payloads of a frame that is not too long. -/
theorem map_length_payload_packetize (frameId : UInt32) (maxPayload : ℕ) (buf : Bytes)
    (isKey : Bool) (h : fragCntOf maxPayload buf.length < 2 ^ 16) :
    (packetize frameId maxPayload buf isKey).map (fun d => d.payload.length)
      = List.replicate (buf.length / (maxPayload + 1)) maxPayload
        ++ [lastPayload maxPayload buf.length] := by
  obtain ⟨hcnt, -⟩ := toNat_fragCntOf h
  have hsum := mul_add_lastPayload maxPayload buf.length
  have hrest : buf.length - buf.length / (maxPayload + 1) * maxPayload
      = lastPayload maxPayload buf.length := by omega
  unfold packetize fragments
  rw [hcnt, ← hrest]
  refine map_length_payload_fragmentsFrom _ _ _ _ _ 0 _ ?_ ?_
  · rw [hcnt, UInt16.toNat_zero, Nat.zero_add]
    rfl
  · omega

/-- The payloads of a frame are never empty, and within the limit exactly when the last one
is. -/
theorem payloads_packetize_iff (frameId : UInt32) {maxPayload : ℕ} {buf : Bytes} (isKey : Bool)
    (h : fragCntOf maxPayload buf.length < 2 ^ 16) (hne : buf ≠ []) (hpos : 0 < maxPayload) :
    (∀ d ∈ packetize frameId maxPayload buf isKey,
        1 ≤ d.payload.length ∧ d.payload.length ≤ maxPayload) ↔
      lastPayload maxPayload buf.length ≤ maxPayload := by
  have hmap := map_length_payload_packetize frameId maxPayload buf isKey h
  have hsize : 0 < buf.length := List.length_pos_iff.mpr hne
  have hlast : 1 ≤ lastPayload maxPayload buf.length := by
    by_contra hzero
    have hsum := mul_add_lastPayload maxPayload buf.length
    have hrest : lastPayload maxPayload buf.length = 0 := by omega
    have hquot : buf.length / (maxPayload + 1) = 0 := (Nat.add_eq_zero_iff.mp hrest).1
    rw [hquot, hrest, Nat.zero_mul] at hsum
    omega
  have hall : (∀ d ∈ packetize frameId maxPayload buf isKey,
      1 ≤ d.payload.length ∧ d.payload.length ≤ maxPayload) ↔
      ∀ n ∈ (packetize frameId maxPayload buf isKey).map (fun d => d.payload.length),
        1 ≤ n ∧ n ≤ maxPayload := by rw [List.forall_mem_map]
  rw [hall, hmap]
  constructor
  · intro hbound
    exact (hbound _ (List.mem_append_right _ (List.mem_singleton.mpr rfl))).2
  · intro hle n hn
    rcases List.mem_append.mp hn with hmem | hmem
    · rw [List.eq_of_mem_replicate hmem]
      exact ⟨hpos, le_rfl⟩
    · rw [List.mem_singleton.mp hmem]
      exact ⟨hlast, hle⟩

end Packetization

namespace Datagram

/-- The MTU that a value of `max_payload` belongs to: 1500 by default, or the argument of
`set_mtu`. -/
def IsMtuOf (mtu maxPayload : ℕ) : Prop :=
  (mtu = 1500 ∧ maxPayload = defaultMaxPayload) ∨ setMtu mtu = .ok maxPayload

/-- A value that `max_payload` can have belongs to some MTU. -/
theorem AdmitsMaxPayload.exists_isMtuOf {maxPayload : ℕ} (h : AdmitsMaxPayload maxPayload) :
    ∃ mtu, IsMtuOf mtu maxPayload := by
  rcases h with rfl | ⟨mtu, hmtu⟩
  · exact ⟨1500, Or.inl ⟨rfl, rfl⟩⟩
  · exact ⟨mtu, Or.inr hmtu⟩

/-- A payload, a header and the headers of the layers below fill the MTU. -/
theorem IsMtuOf.eq_add {mtu maxPayload : ℕ} (h : IsMtuOf mtu maxPayload) :
    mtu - 28 = headerSize + maxPayload ∧ 0 < maxPayload := by
  have hsize : headerSize = 17 := rfl
  rcases h with ⟨rfl, rfl⟩ | h
  · exact ⟨rfl, by decide⟩
  · unfold setMtu at h
    split_ifs at h with hrange
    rw [Except.ok.injEq] at h
    omega

end Datagram

namespace Encoder

open Packetization

variable {E : Type}

/-! ## The bound -/

/-- A packetization that succeeds on a frame appends its datagrams to `send_buf_`. -/
theorem packetizeEncodedFrame_cases {enc enc' : Encoder E} {maxPayload size : ℕ}
    {pkts : List CxPkt} {buf : Bytes} {isKey : Bool} (hframe : framesOf pkts = [(buf, isKey)])
    (h : enc.packetizeEncodedFrame maxPayload pkts = (.ok size, enc')) :
    buf ≠ [] ∧ fragCntOf maxPayload buf.length < 2 ^ 16 ∧
      enc'.sendBuf = enc.sendBuf ++ packetize enc.frameId maxPayload buf isKey := by
  unfold packetizeEncodedFrame at h
  cases hloop : packetsLoop enc.frameId maxPayload pkts 0 0 enc.sendBuf with
  | mk result sendBuf =>
    simp only [hloop, Prod.mk.injEq] at h
    obtain ⟨rfl, rfl⟩ := h
    obtain ⟨ds, hds, rfl⟩ := packetsLoop_cases hloop
    rcases hds with ⟨hnil, -⟩ | ⟨buf', isKey', hframe', hne, hlt, rfl⟩
    · rw [hframe] at hnil
      simp at hnil
    · rw [hframe, List.cons.injEq, Prod.mk.injEq] at hframe'
      obtain ⟨⟨rfl, rfl⟩, -⟩ := hframe'
      exact ⟨hne, hlt, rfl⟩

/-- The datagrams of an encoded frame have payloads between one byte and `max_payload`, and
fit into the MTU with their headers, exactly when the quotient and the remainder of the frame
size by `max_payload + 1` add up to at most `max_payload`. -/
theorem payloads_bounded_iff {maxPayload size : ℕ} {enc enc' : Encoder E} {pkts : List CxPkt}
    {buf : Bytes} {isKey : Bool} (hbound : Datagram.AdmitsMaxPayload maxPayload)
    (hframe : framesOf pkts = [(buf, isKey)])
    (h : enc.packetizeEncodedFrame maxPayload pkts = (.ok size, enc')) :
    ∃ ds, enc'.sendBuf = enc.sendBuf ++ ds ∧
      ((∀ d ∈ ds, 1 ≤ d.payload.length ∧ d.payload.length ≤ maxPayload ∧
          ∀ mtu, Datagram.IsMtuOf mtu maxPayload → d.serializeToString.length ≤ mtu - 28) ↔
        buf.length / (maxPayload + 1) + buf.length % (maxPayload + 1) ≤ maxPayload) := by
  obtain ⟨hne, hlt, hbuf⟩ := packetizeEncodedFrame_cases hframe h
  obtain ⟨mtu, hmtu⟩ := hbound.exists_isMtuOf
  refine ⟨_, hbuf, Iff.trans ?_ (payloads_packetize_iff enc.frameId isKey hlt hne hmtu.eq_add.2)⟩
  refine forall₂_congr fun d _ => ?_
  rw [Datagram.length_serializeToString]
  constructor
  · exact fun hd => ⟨hd.1, hd.2.1⟩
  · refine fun hd => ⟨hd.1, hd.2, fun mtu' hmtu' => ?_⟩
    have hfill := hmtu'.eq_add.1
    omega

/-- A frame of one byte keeps to the limit. -/
theorem payloads_bounded_iff_oneByte : ∃ (enc' : Encoder ℚ) (ds : List Datagram),
    (initial 2 2 false).packetizeEncodedFrame Datagram.defaultMaxPayload [.frame [7] true]
      = (.ok 1, enc') ∧ enc'.sendBuf = [] ++ ds ∧
      ∀ d ∈ ds, 1 ≤ d.payload.length ∧ d.payload.length ≤ Datagram.defaultMaxPayload := by
  have hpack : (initial 2 2 false : Encoder ℚ).packetizeEncodedFrame Datagram.defaultMaxPayload
      [.frame [7] true] = (.ok 1, _) := rfl
  obtain ⟨ds, hbuf, hiff⟩ := payloads_bounded_iff (Or.inl rfl) rfl hpack
  refine ⟨_, ds, hpack, hbuf, fun d hd => ?_⟩
  have hbound := hiff.mpr (by decide) d hd
  exact ⟨hbound.1, hbound.2.1⟩

/-- With the default MTU, a frame of 2911 bytes is split into 1455 and 1456 bytes, and the second
datagram takes 1473 of the 1472 bytes that the MTU leaves. -/
theorem exists_payload_too_large : ∃ (enc' : Encoder ℚ) (d : Datagram),
    (initial 2 2 false).packetizeEncodedFrame Datagram.defaultMaxPayload
        [.frame (List.replicate 2911 0) false] = (.ok 2911, enc') ∧ d ∈ enc'.sendBuf ∧
      Datagram.defaultMaxPayload < d.payload.length ∧
      1500 - 28 < d.serializeToString.length := by
  have hlen : (List.replicate 2911 0 : Bytes).length = 2911 := List.length_replicate
  -- only the size of the frame matters
  generalize (List.replicate 2911 0 : Bytes) = frame at hlen ⊢
  have henq : Enqueues Datagram.defaultMaxPayload frame := by
    refine ⟨fun hnil => ?_, by rw [hlen]; decide⟩
    rw [hnil] at hlen
    simp at hlen
  have hframes : framesOf [.frame frame false] = (frame, false) :: [] := rfl
  have hloop := packetsLoop_eq_of_enqueues 0 0 [] hframes henq
  rw [if_pos rfl, hlen, List.nil_append] at hloop
  have hmap := map_length_payload_packetize 0 Datagram.defaultMaxPayload frame false henq.2
  have hlast : lastPayload Datagram.defaultMaxPayload frame.length = 1456 := by
    rw [hlen]
    decide
  rw [hlast] at hmap
  have hmem : 1456 ∈ (packetize 0 Datagram.defaultMaxPayload frame false).map
      (fun d => d.payload.length) := by
    rw [hmap]
    exact List.mem_append_right _ (List.mem_singleton.mpr rfl)
  obtain ⟨d, hd, hdlen⟩ := List.mem_map.mp hmem
  refine ⟨{ initial 2 2 false with
    sendBuf := packetize 0 Datagram.defaultMaxPayload frame false }, d, ?_, hd, ?_, ?_⟩
  · unfold packetizeEncodedFrame
    simp only [initial, hloop]
  · rw [hdlen]
    decide
  · rw [Datagram.length_serializeToString, hdlen]
    decide

end Encoder

end Ringmaster
