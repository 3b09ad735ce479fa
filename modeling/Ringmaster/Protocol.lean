/-
# Datagrams and control messages

`src/app/protocol.hh` and `protocol.cc`: the datagrams that carry the fragments of a
video frame, the messages `AckMsg` and `ConfigMsg` that flow back, and the wire format
of each.

The main result is that the datagram format is a bijection (`Datagram.wire_bijection`):
the byte strings of at least `headerSize` bytes are exactly the serialized datagrams.
-/
import Ringmaster.Library.Unsigned
import Ringmaster.Serialization

open ByteOrder

namespace Ringmaster

/-! ## Frame types and sequence numbers -/

/-- The scoped enumeration `FrameType`.  Its underlying type is `uint8_t`, and a value
read off the wire can be any byte, not only one of the three named ones. -/
structure FrameType where
  byte : UInt8
  deriving DecidableEq, Repr, Inhabited

namespace FrameType

/-- The enumerator `UNKNOWN`. -/
def unknown : FrameType := ⟨0⟩

/-- The enumerator `KEY`: a key frame. -/
def key : FrameType := ⟨1⟩

/-- The enumerator `NONKEY`: a non-key frame. -/
def nonkey : FrameType := ⟨2⟩

end FrameType

/-- The type `SeqNum`: a frame id and a fragment id, in lexicographic order. -/
abbrev SeqNum := UInt32 ×ₗ UInt16

/-! ## Datagrams -/

/-- The class `Datagram`: one fragment of a frame, with what the sender remembers of its
retransmissions. -/
structure Datagram where
  frameId : UInt32 := 0
  frameType : FrameType := .unknown
  fragId : UInt16 := 0
  fragCnt : UInt16 := 0
  sendTs : UInt64 := 0
  payload : Bytes := []
  numRtx : UInt32 := 0
  lastSendTs : UInt64 := 0
  deriving DecidableEq, Repr, Inhabited

namespace Datagram

/-- The sequence number of a datagram. -/
def seqNum (d : Datagram) : SeqNum := toLex (d.frameId, d.fragId)

/-- The constant `HEADER_SIZE`: the sizes of the header fields, added up. -/
def headerSize : ℕ :=
  FixedWidth.size UInt32 + FixedWidth.size UInt8 + 2 * FixedWidth.size UInt16
    + FixedWidth.size UInt64

/-- The initial value of `max_payload`. -/
def defaultMaxPayload : ℕ := 1500 - 28 - headerSize

/-- The function `set_mtu`: the value that it gives to `max_payload`. -/
def setMtu (mtu : ℕ) : Except Exn ℕ :=
  if mtu > 1500 ∨ mtu < 512 then
    .error (.runtimeError "reasonable MTU is between 512 and 1500 bytes")
  else
    .ok (mtu - 28 - headerSize)

/-- A value that `max_payload` can have: the default or one set through `set_mtu`. -/
def AdmitsMaxPayload (maxPayload : ℕ) : Prop :=
  maxPayload = defaultMaxPayload ∨ ∃ mtu, setMtu mtu = .ok maxPayload

/-- The method `parse_from_string`: whether the input was long enough, and the datagram
that the call leaves behind. -/
def parseFromString (this : Datagram) (binary : Bytes) : Except Exn (Bool × Datagram) :=
  if binary.length < headerSize then
    .ok (false, this)
  else do
    let parser : WireParser := ⟨binary⟩
    let (frameId, parser) ← parser.readUint32
    let (frameType, parser) ← parser.readUint8
    let (fragId, parser) ← parser.readUint16
    let (fragCnt, parser) ← parser.readUint16
    let (sendTs, parser) ← parser.readUint64
    let (payload, _) ← parser.readString
    return (true, { this with
      frameId := frameId, frameType := ⟨frameType⟩, fragId := fragId, fragCnt := fragCnt,
      sendTs := sendTs, payload := payload })

/-- The method `serialize_to_string`. -/
def serializeToString (d : Datagram) : Bytes :=
  putNumber d.frameId ++ (putNumber d.frameType.byte ++ (putNumber d.fragId ++
    (putNumber d.fragCnt ++ (putNumber d.sendTs ++ d.payload))))

/-- A serialized datagram is a header and the payload. -/
theorem length_serializeToString (d : Datagram) :
    d.serializeToString.length = headerSize + d.payload.length := by
  simp only [serializeToString, putNumber, List.length_append, length_bigEndian, headerSize]
  omega

/-- Parsing a serialized datagram restores the six wire fields and leaves the two fields
that are not on the wire alone. -/
theorem parseFromString_serializeToString (this d : Datagram) :
    this.parseFromString d.serializeToString
      = .ok (true, { d with numRtx := this.numRtx, lastSendTs := this.lastSendTs }) := by
  have hlen : ¬ d.serializeToString.length < headerSize := by
    rw [length_serializeToString]
    omega
  rw [parseFromString, if_neg hlen, serializeToString]
  simp only [WireParser.readUint32, WireParser.readUint8, WireParser.readUint16,
    WireParser.readUint64, WireParser.read_putNumber_append, WireParser.readString_eq,
    bind, Except.bind, pure, Except.pure]

/-- A byte string that can hold a header is a serialized datagram. -/
theorem exists_serializeToString (b : Bytes) (h : headerSize ≤ b.length) :
    ∃ d : Datagram, d.numRtx = 0 ∧ d.lastSendTs = 0 ∧ d.serializeToString = b := by
  have h4 : FixedWidth.size UInt32 = 4 := rfl
  have h1 : FixedWidth.size UInt8 = 1 := rfl
  have h2 : FixedWidth.size UInt16 = 2 := rfl
  have h8 : FixedWidth.size UInt64 = 8 := rfl
  have hsize : headerSize = 17 := rfl
  -- peel the five header fields off the front, one after the other
  obtain ⟨frameId, b₁, rfl, hb₁⟩ := exists_putNumber_append UInt32 b (by omega)
  obtain ⟨frameType, b₂, rfl, hb₂⟩ := exists_putNumber_append UInt8 b₁ (by omega)
  obtain ⟨fragId, b₃, rfl, hb₃⟩ := exists_putNumber_append UInt16 b₂ (by omega)
  obtain ⟨fragCnt, b₄, rfl, hb₄⟩ := exists_putNumber_append UInt16 b₃ (by omega)
  obtain ⟨sendTs, payload, rfl, -⟩ := exists_putNumber_append UInt64 b₄ (by omega)
  exact ⟨⟨frameId, ⟨frameType⟩, fragId, fragCnt, sendTs, payload, 0, 0⟩, rfl, rfl, rfl⟩

/-- The datagram wire format is a bijection between the wire fields and the byte strings
that can hold a header: parsing inverts serialization in both directions, and an input
that is too short is refused without a change to the datagram. -/
theorem wire_bijection :
    (∀ this d : Datagram, this.parseFromString d.serializeToString
      = .ok (true, { d with numRtx := this.numRtx, lastSendTs := this.lastSendTs })) ∧
    (∀ (this : Datagram) (b : Bytes), headerSize ≤ b.length →
      ∃ d, this.parseFromString b = .ok (true, d) ∧ d.serializeToString = b) ∧
    (∀ (this : Datagram) (b : Bytes), b.length < headerSize →
      this.parseFromString b = .ok (false, this)) := by
  refine ⟨parseFromString_serializeToString, ?_, ?_⟩
  · intro this b h
    obtain ⟨d, -, -, rfl⟩ := exists_serializeToString b h
    exact ⟨_, parseFromString_serializeToString this d, rfl⟩
  · intro this b h
    rw [parseFromString, if_pos h]

end Datagram

/-! ## Control messages -/

/-- The class `AckMsg`. -/
structure AckMsg where
  frameId : UInt32 := 0
  fragId : UInt16 := 0
  sendTs : UInt64 := 0
  deriving DecidableEq, Repr

/-- The class `ConfigMsg`. -/
structure ConfigMsg where
  width : UInt16 := 0
  height : UInt16 := 0
  frameRate : UInt16 := 0
  targetBitrate : UInt32 := 0
  deriving DecidableEq, Repr

/-- The classes derived from `Msg`. -/
inductive Msg where
  | ack (msg : AckMsg)
  | config (msg : ConfigMsg)
  deriving DecidableEq, Repr

namespace Msg

/-- The enumerator `ACK` of `Msg::Type`. -/
def typeAck : UInt8 := 1

/-- The enumerator `CONFIG` of `Msg::Type`. -/
def typeConfig : UInt8 := 2

/-- The factory method `Msg::parse_from_string`; `none` stands for the null pointer. -/
def parseFromString (binary : Bytes) : Except Exn (Option Msg) :=
  if binary.length < FixedWidth.size UInt8 then
    .ok none
  else do
    let parser : WireParser := ⟨binary⟩
    let (type, parser) ← parser.readUint8
    if type = typeAck then
      let (frameId, parser) ← parser.readUint32
      let (fragId, parser) ← parser.readUint16
      let (sendTs, _) ← parser.readUint64
      return some (.ack ⟨frameId, fragId, sendTs⟩)
    else if type = typeConfig then
      let (width, parser) ← parser.readUint16
      let (height, parser) ← parser.readUint16
      let (frameRate, parser) ← parser.readUint16
      let (targetBitrate, _) ← parser.readUint32
      return some (.config ⟨width, height, frameRate, targetBitrate⟩)
    else
      return none

end Msg

namespace AckMsg

/-- The constructor that acknowledges a datagram. -/
def ofDatagram (d : Datagram) : AckMsg := ⟨d.frameId, d.fragId, d.sendTs⟩

/-- The sequence number that is acknowledged. -/
def seqNum (ack : AckMsg) : SeqNum := toLex (ack.frameId, ack.fragId)

/-- The method `AckMsg::serialize_to_string`. -/
def serializeToString (ack : AckMsg) : Bytes :=
  putNumber Msg.typeAck ++ (putNumber ack.frameId ++ (putNumber ack.fragId ++
    putNumber ack.sendTs))

end AckMsg

/-- The method `ConfigMsg::serialize_to_string`. -/
def ConfigMsg.serializeToString (msg : ConfigMsg) : Bytes :=
  putNumber Msg.typeConfig ++ (putNumber msg.width ++ (putNumber msg.height ++
    (putNumber msg.frameRate ++ putNumber msg.targetBitrate)))

end Ringmaster
