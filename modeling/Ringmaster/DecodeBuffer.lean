/-
# The buffer of `decode_frame`

`Decoder::decode_frame` copies the payloads of a complete frame one behind the other into a
buffer of `MAX_DECODING_BUF` bytes, and hands what it copied to the VP9 decoder.  The buffer
is allocated once, so it still holds bytes of earlier frames; the decoder of libvpx is
known by whether it accepts what it is given.

The test in front of each copy refuses a frame that ends exactly where the buffer ends
(`decodesExactly_iff`).  No copy leaves the buffer, whatever the frame.
-/
import Ringmaster.Library.Memory
import Ringmaster.Frame

open Memory

namespace Ringmaster

namespace Decoder

/-- The constant `MAX_DECODING_BUF`. -/
def maxDecodingBuf : ℕ := 1000000

/-- The buffer `decode_buf`. -/
abbrev DecodeBuf := Region UInt8 maxDecodingBuf

/-- The loop of `decode_frame` over the fragments, with the distance of `buf_ptr` from the
beginning of the buffer.  It returns the distance at the end and the buffer; `none` stands
for a write outside of the buffer. -/
def copyPayloads : List (Option Datagram) → DecodeBuf → ℕ → Option (Except Exn ℕ × DecodeBuf)
  | [], buf, pos => some (.ok pos, buf)
  | none :: _, buf, _ => some (.error .badOptionalAccess, buf)
  | some datagram :: rest, buf, pos =>
    if pos + datagram.payload.length ≥ maxDecodingBuf then
      some (.error (.runtimeError "frame size exceeds max decoding buffer size"), buf)
    else
      match buf.memcpy pos datagram.payload with
      | none => none
      | some buf' => copyPayloads rest buf' (pos + datagram.payload.length)

/-- What `decode_frame` does: its result, what it hands to the VP9 decoder, and the buffer
that it leaves. -/
structure Decoding where
  result : Except Exn Unit
  handed : Option Bytes
  buf : DecodeBuf

/-- The method `decode_frame`; `none` stands for a write outside of the buffer. -/
def decodeFrame (vpxDecode : Bytes → Bool) (buf : DecodeBuf) (frame : Frame) :
    Option Decoding :=
  if frame.complete then
    match copyPayloads frame.frags buf 0 with
    | none => none
    | some (.error e, buf) => some ⟨.error e, none, buf⟩
    | some (.ok frameSize, buf) =>
      -- decode the compressed frame in the buffer
      let data := buf.cells.take frameSize
      if vpxDecode data then
        some ⟨.ok (), some data, buf⟩
      else
        some ⟨.error (.runtimeError "failed to decode a frame"), some data, buf⟩
  else
    some ⟨.error (.runtimeError "frame must be complete before decoding"), none, buf⟩

/-! ## The loop over the fragments -/

/-- The payloads of slots, one behind the other. -/
def payloads (frags : List (Option Datagram)) : Bytes :=
  frags.flatMap fun slot => slot.elim [] Datagram.payload

/-- The loop never writes outside of the buffer. -/
theorem exists_copyPayloads (frags : List (Option Datagram)) (buf : DecodeBuf) (pos : ℕ) :
    ∃ r, copyPayloads frags buf pos = some r := by
  induction frags generalizing buf pos with
  | nil => exact ⟨_, rfl⟩
  | cons slot frags ih =>
    cases slot with
    | none => exact ⟨_, rfl⟩
    | some d =>
      unfold copyPayloads
      split_ifs with hge
      · exact ⟨_, rfl⟩
      · obtain ⟨buf', hcopy⟩ := Region.exists_memcpy_iff.mpr (le_of_lt (not_le.mp hge))
        rw [hcopy]
        exact ih buf' _

/-- `decode_frame` never writes outside of the buffer. -/
theorem exists_decodeFrame (vpxDecode : Bytes → Bool) (buf : DecodeBuf) (frame : Frame) :
    ∃ r, decodeFrame vpxDecode buf frame = some r := by
  obtain ⟨⟨result, buf'⟩, hloop⟩ := exists_copyPayloads frame.frags buf 0
  unfold decodeFrame
  split_ifs
  · rw [hloop]
    cases result with
    | error e => exact ⟨_, rfl⟩
    | ok frameSize =>
      dsimp only
      split_ifs
      · exact ⟨_, rfl⟩
      · exact ⟨_, rfl⟩
  · exact ⟨_, rfl⟩

/-- Payloads that end before the end of the buffer are copied. -/
theorem copyPayloads_of_lt {frags : List (Option Datagram)} (hfull : none ∉ frags)
    (buf : DecodeBuf) (pos : ℕ) (hlt : pos + (payloads frags).length < maxDecodingBuf) :
    ∃ buf', buf.memcpy pos (payloads frags) = some buf' ∧
      copyPayloads frags buf pos = some (.ok (pos + (payloads frags).length), buf') := by
  induction frags generalizing buf pos with
  | nil => exact ⟨buf, Region.memcpy_nil (le_of_lt hlt), rfl⟩
  | cons slot frags ih =>
    cases slot with
    | none => exact absurd List.mem_cons_self hfull
    | some d =>
      have hcons : payloads (some d :: frags) = d.payload ++ payloads frags := rfl
      rw [hcons, List.length_append, ← Nat.add_assoc] at hlt
      have hroom : pos + d.payload.length ≤ maxDecodingBuf := by omega
      obtain ⟨buf₁, hcopy⟩ := Region.exists_memcpy_iff.mpr hroom
      obtain ⟨buf₂, hrest, hloop⟩ :=
        ih (fun hmem => hfull (List.mem_cons_of_mem _ hmem)) buf₁ _ hlt
      refine ⟨buf₂, ?_, ?_⟩
      · rw [hcons, ← Region.memcpy_append hcopy]
        exact hrest
      · unfold copyPayloads
        rw [if_neg (by omega), hcopy, hcons, List.length_append, ← Nat.add_assoc]
        exact hloop

/-- Payloads that reach the end of the buffer are refused. -/
theorem copyPayloads_of_le {frags : List (Option Datagram)} (hfull : none ∉ frags)
    (hne : frags ≠ []) (buf : DecodeBuf) (pos : ℕ)
    (hle : maxDecodingBuf ≤ pos + (payloads frags).length) :
    ∃ buf', copyPayloads frags buf pos
      = some (.error (.runtimeError "frame size exceeds max decoding buffer size"), buf') := by
  induction frags generalizing buf pos with
  | nil => exact absurd rfl hne
  | cons slot frags ih =>
    cases slot with
    | none => exact absurd List.mem_cons_self hfull
    | some d =>
      have hcons : payloads (some d :: frags) = d.payload ++ payloads frags := rfl
      rw [hcons, List.length_append, ← Nat.add_assoc] at hle
      unfold copyPayloads
      split_ifs with hge
      · exact ⟨buf, rfl⟩
      · obtain ⟨buf₁, hcopy⟩ := Region.exists_memcpy_iff.mpr (le_of_lt (not_le.mp hge))
        rw [hcopy]
        -- what is left does not fit, so there are fragments left
        have hrest : frags ≠ [] := by
          rintro rfl
          have hnil : (payloads []).length = 0 := rfl
          omega
        exact ih (fun hmem => hfull (List.mem_cons_of_mem _ hmem)) hrest buf₁ _ hle

/-! ## The limit -/

/-- What `decode_frame` should do with a complete frame: hand its content to the decoder if
the buffer can hold it, and throw otherwise; in neither case write outside of the buffer. -/
structure DecodesExactly (frame : Frame) : Prop where
  handed : ∀ vpxDecode buf, frame.content.length ≤ maxDecodingBuf →
    ∃ r, decodeFrame vpxDecode buf frame = some r ∧ r.handed = some frame.content ∧
      r.result = if vpxDecode frame.content then .ok ()
        else .error (.runtimeError "failed to decode a frame")
  refused : ∀ vpxDecode buf, maxDecodingBuf < frame.content.length →
    ∃ r, decodeFrame vpxDecode buf frame = some r ∧ r.handed = none ∧
      r.result = .error (.runtimeError "frame size exceeds max decoding buffer size")

section Complete

variable {frame : Frame}

/-- A complete frame has no empty slot. -/
theorem none_notMem_frags (hvalid : frame.Valid) (hcomplete : frame.complete) :
    none ∉ frame.frags := by
  intro hmem
  obtain ⟨k, hk, hnone⟩ := List.getElem_of_mem hmem
  obtain ⟨d, hd⟩ := hvalid.complete_iff.mp hcomplete k hk
  rw [List.getElem?_eq_getElem hk, hnone, Option.some_inj] at hd
  simp at hd

/-- A frame that ends before the end of the buffer is handed to the decoder. -/
theorem decodeFrame_of_lt (hvalid : frame.Valid) (hcomplete : frame.complete)
    (vpxDecode : Bytes → Bool) (buf : DecodeBuf) (hlt : frame.content.length < maxDecodingBuf) :
    ∃ r, decodeFrame vpxDecode buf frame = some r ∧ r.handed = some frame.content ∧
      r.result = if vpxDecode frame.content then .ok ()
        else .error (.runtimeError "failed to decode a frame") := by
  have hlt' : 0 + (payloads frame.frags).length < maxDecodingBuf := by
    rw [Nat.zero_add]
    exact hlt
  obtain ⟨buf', hcopy, hloop⟩ :=
    copyPayloads_of_lt (none_notMem_frags hvalid hcomplete) buf 0 hlt'
  have hdata : buf'.cells.take (payloads frame.frags).length = frame.content :=
    Region.take_memcpy_zero hcopy
  unfold decodeFrame
  simp only [hcomplete, if_true, hloop, Nat.zero_add, hdata]
  by_cases hvpx : vpxDecode frame.content
  · rw [if_pos hvpx, if_pos hvpx]
    exact ⟨_, rfl, rfl, rfl⟩
  · rw [if_neg hvpx, if_neg hvpx]
    exact ⟨_, rfl, rfl, rfl⟩

/-- A frame that reaches the end of the buffer is refused. -/
theorem decodeFrame_of_le (hvalid : frame.Valid) (hcomplete : frame.complete)
    (vpxDecode : Bytes → Bool) (buf : DecodeBuf) (hle : maxDecodingBuf ≤ frame.content.length) :
    ∃ r, decodeFrame vpxDecode buf frame = some r ∧ r.handed = none ∧
      r.result = .error (.runtimeError "frame size exceeds max decoding buffer size") := by
  have hle' : maxDecodingBuf ≤ 0 + (payloads frame.frags).length := by
    rw [Nat.zero_add]
    exact hle
  have hne : frame.frags ≠ [] := by
    intro hnil
    rw [hnil] at hle'
    exact absurd hle' (by decide)
  obtain ⟨buf', hloop⟩ :=
    copyPayloads_of_le (none_notMem_frags hvalid hcomplete) hne buf 0 hle'
  unfold decodeFrame
  simp only [hcomplete, if_true, hloop]
  exact ⟨_, rfl, rfl, rfl⟩

/-- A frame that fills the buffer is refused although the buffer can hold it. -/
theorem not_decodesExactly_of_length_eq (hvalid : frame.Valid) (hcomplete : frame.complete)
    (hlen : frame.content.length = maxDecodingBuf) : ¬ DecodesExactly frame := by
  intro h
  obtain ⟨r, hr, hhanded, -⟩ :=
    h.handed (fun _ => true) (Region.replicate _ 0) (le_of_eq hlen)
  obtain ⟨r', hr', hnone, -⟩ := decodeFrame_of_le hvalid hcomplete (fun _ => true)
    (Region.replicate _ 0) (le_of_eq hlen.symm)
  rw [hr, Option.some_inj] at hr'
  rw [← hr', hhanded] at hnone
  simp at hnone

/-- The limit of `decode_frame` is exact for every complete frame, except for those that fill
the buffer to the last byte: they fit, and are refused. -/
theorem decodesExactly_iff (hvalid : frame.Valid) (hcomplete : frame.complete) :
    DecodesExactly frame ↔ frame.content.length ≠ maxDecodingBuf := by
  constructor
  · exact fun h hfull => not_decodesExactly_of_length_eq hvalid hcomplete hfull h
  · intro hne
    refine ⟨fun vpxDecode buf hle => ?_, fun vpxDecode buf hlt => ?_⟩
    · exact decodeFrame_of_lt hvalid hcomplete vpxDecode buf (lt_of_le_of_ne hle hne)
    · exact decodeFrame_of_le hvalid hcomplete vpxDecode buf (le_of_lt hlt)

end Complete

/-! ## Frames of equal fragments -/

/-- A complete frame of `n` fragments with `m` bytes each. -/
def uniformFrame (n m : ℕ) : Frame where
  id := 0
  type := .key
  frags := (List.range n).map fun k => some
    { frameId := 0
      frameType := .key
      fragId := UInt16.ofNat k
      fragCnt := UInt16.ofNat n
      payload := List.replicate m 0 }
  nullFrags := 0
  frameSize := n * m

theorem valid_uniformFrame {n : ℕ} (m : ℕ) (hn : n < 2 ^ 16) : (uniformFrame n m).Valid where
  length_lt := by simpa [uniformFrame] using hn
  nullFrags_eq := by
    show 0 = List.countP Option.isNone _
    simp [uniformFrame, List.countP_map, Function.comp_def]
  frameSize_eq := by
    simp [uniformFrame, Function.comp_def, Frame.slotSize]
  slot := by
    intro k d hk
    simp only [uniformFrame, List.getElem?_map, List.getElem?_eq_some_iff, Option.map_eq_some_iff,
      List.length_range, List.getElem_range, exists_prop, Option.some_inj] at hk
    obtain ⟨_, ⟨hlt, rfl⟩, rfl⟩ := hk
    refine ⟨rfl, rfl, ?_, ?_⟩
    · show (UInt16.ofNat k).toNat = k
      rw [UInt16.toNat_ofNat']
      omega
    · show (UInt16.ofNat n).toNat = ((List.range n).map _).length
      rw [UInt16.toNat_ofNat', List.length_map, List.length_range]
      omega

theorem length_content_uniformFrame (n m : ℕ) : (uniformFrame n m).content.length = n * m := by
  simp [uniformFrame, Frame.content, List.flatMap_map]

/-- A frame of three fragments that the buffer can hold is handed to the decoder. -/
theorem decodesExactly_iff_threeFragments : DecodesExactly (uniformFrame 3 1000) := by
  refine (decodesExactly_iff (valid_uniformFrame 1000 (by decide)) rfl).mpr ?_
  rw [length_content_uniformFrame]
  decide

/-- A frame of a thousand fragments with a thousand bytes each fits into the buffer, and is
refused. -/
theorem exists_not_decodesExactly :
    (uniformFrame 1000 1000).Valid ∧ (uniformFrame 1000 1000).complete ∧
      (uniformFrame 1000 1000).content.length ≤ maxDecodingBuf ∧
      ¬ DecodesExactly (uniformFrame 1000 1000) := by
  have hvalid := valid_uniformFrame 1000 (by decide : 1000 < 2 ^ 16)
  have hlen : (uniformFrame 1000 1000).content.length = maxDecodingBuf :=
    length_content_uniformFrame 1000 1000
  exact ⟨hvalid, rfl, le_of_eq hlen, not_decodesExactly_of_length_eq hvalid rfl hlen⟩

end Decoder

end Ringmaster
