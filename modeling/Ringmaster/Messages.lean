/-
# Control messages on the wire

The sizes and the serialized forms of `AckMsg` and `ConfigMsg`, and what
`Msg::parse_from_string` makes of any byte string (`Msg.parseFromString_cases`): it finds no
message, it runs past the end of a message that is cut off, or it reads a message that the
byte string begins with.

It follows that messages survive the way over the network (`Msg.roundTrip`), and that the only
byte strings on which the parser throws are the messages that are cut off.
-/
import Ringmaster.Protocol

open ByteOrder

namespace Ringmaster

/-! ## Sizes and serialized forms -/

namespace Msg

/-- The method `Msg::serialized_size` of the base class: the size of the member `type`. -/
def baseSerializedSize : ℕ := FixedWidth.size UInt8

end Msg

/-- The method `AckMsg::serialized_size`. -/
def AckMsg.serializedSize (_ : AckMsg) : ℕ :=
  Msg.baseSerializedSize + FixedWidth.size UInt16 + FixedWidth.size UInt32
    + FixedWidth.size UInt64

/-- The method `ConfigMsg::serialized_size`. -/
def ConfigMsg.serializedSize (_ : ConfigMsg) : ℕ :=
  Msg.baseSerializedSize + 3 * FixedWidth.size UInt16 + FixedWidth.size UInt32

namespace Msg

/-- The virtual method `serialized_size`. -/
def serializedSize : Msg → ℕ
  | .ack msg => msg.serializedSize
  | .config msg => msg.serializedSize

/-- The virtual method `serialize_to_string`. -/
def serializeToString : Msg → Bytes
  | .ack msg => msg.serializeToString
  | .config msg => msg.serializeToString

/-- A serialized message has the size that the message announces. -/
theorem length_serializeToString (m : Msg) : m.serializeToString.length = m.serializedSize := by
  cases m with
  | ack msg =>
    simp only [serializeToString, serializedSize, AckMsg.serializeToString,
      AckMsg.serializedSize, baseSerializedSize, putNumber, List.length_append, length_bigEndian]
    omega
  | config msg =>
    simp only [serializeToString, serializedSize, ConfigMsg.serializeToString,
      ConfigMsg.serializedSize, baseSerializedSize, putNumber, List.length_append,
      length_bigEndian]
    omega

/-! ## What the parser makes of a byte string -/

/-- The size of a message of the type that the first byte declares. -/
def declaredSize : Bytes → Option ℕ
  | [] => none
  | type :: _ =>
    if type = typeAck then some ({} : AckMsg).serializedSize
    else if type = typeConfig then some ({} : ConfigMsg).serializedSize
    else none

/-- The message that the first byte declares is there in full. -/
def Complete (b : Bytes) : Prop := ∃ n, declaredSize b = some n ∧ n ≤ b.length

/-- The message that the first byte declares is cut off. -/
def Truncated (b : Bytes) : Prop := ∃ n, declaredSize b = some n ∧ b.length < n

/-- A byte on the wire is the byte. -/
theorem putNumber_uint8 (x : UInt8) : putNumber x = [x] := by
  show [UInt8.ofNat x.toNat] = [x]
  rw [UInt8.ofNat_toNat]

/-- A serialized message declares its own size, whatever follows it. -/
theorem declaredSize_serializeToString_append (m : Msg) (trailing : Bytes) :
    declaredSize (m.serializeToString ++ trailing) = some m.serializedSize := by
  cases m with
  | ack msg =>
    rw [serializeToString, AckMsg.serializeToString, putNumber_uint8]
    rfl
  | config msg =>
    rw [serializeToString, ConfigMsg.serializeToString, putNumber_uint8]
    rfl

/-- What `parse_from_string` does: it finds no message, or throws because the message is cut
off, or reads the message at the front. -/
theorem parseFromString_cases (b : Bytes) :
    (declaredSize b = none ∧ parseFromString b = .ok none) ∨
    (Truncated b ∧
      parseFromString b = .error (.outOfRange "WireParser::read(): read past end")) ∨
    ∃ (m : Msg) (trailing : Bytes), b = m.serializeToString ++ trailing ∧
      parseFromString b = .ok (some m) := by
  have h1 : FixedWidth.size UInt8 = 1 := rfl
  have h2 : FixedWidth.size UInt16 = 2 := rfl
  have h4 : FixedWidth.size UInt32 = 4 := rfl
  have h8 : FixedWidth.size UInt64 = 8 := rfl
  unfold parseFromString
  by_cases hshort : b.length < FixedWidth.size UInt8
  · have hnil : b = [] := List.eq_nil_of_length_eq_zero (by omega)
    rw [if_pos hshort]
    exact Or.inl ⟨by rw [hnil]; rfl, rfl⟩
  rw [if_neg hshort]
  obtain ⟨hlt, -⟩ | ⟨type, b₁, hb, hlen, hread⟩ := WireParser.read_cases UInt8 b
  · exact absurd hlt hshort
  rw [putNumber_uint8, List.singleton_append] at hb
  simp only [WireParser.readUint8, WireParser.readUint16, WireParser.readUint32,
    WireParser.readUint64, hread, bind, Except.bind, pure, Except.pure]
  by_cases hack : type = typeAck
  · -- the fields of an acknowledgement
    have hsize : declaredSize b = some 15 := by rw [hb, declaredSize, if_pos hack]; rfl
    rw [if_pos hack]
    obtain ⟨hlt, hread⟩ | ⟨frameId, b₂, rfl, hlen₁, hread⟩ := WireParser.read_cases UInt32 b₁
    · exact Or.inr (Or.inl ⟨⟨15, hsize, by omega⟩, by rw [hread]⟩)
    simp only [hread]
    obtain ⟨hlt, hread⟩ | ⟨fragId, b₃, rfl, hlen₂, hread⟩ := WireParser.read_cases UInt16 b₂
    · exact Or.inr (Or.inl ⟨⟨15, hsize, by omega⟩, by rw [hread]⟩)
    simp only [hread]
    obtain ⟨hlt, hread⟩ | ⟨sendTs, b₄, rfl, hlen₃, hread⟩ := WireParser.read_cases UInt64 b₃
    · exact Or.inr (Or.inl ⟨⟨15, hsize, by omega⟩, by rw [hread]⟩)
    simp only [hread]
    refine Or.inr (Or.inr ⟨.ack ⟨frameId, fragId, sendTs⟩, b₄, ?_, rfl⟩)
    rw [hb, hack, serializeToString, AckMsg.serializeToString, putNumber_uint8]
    simp only [List.append_assoc, List.cons_append, List.nil_append]
  rw [if_neg hack]
  by_cases hconfig : type = typeConfig
  · -- the fields of a configuration
    have hsize : declaredSize b = some 11 := by
      rw [hb, declaredSize, if_neg hack, if_pos hconfig]
      rfl
    rw [if_pos hconfig]
    obtain ⟨hlt, hread⟩ | ⟨width, b₂, rfl, hlen₁, hread⟩ := WireParser.read_cases UInt16 b₁
    · exact Or.inr (Or.inl ⟨⟨11, hsize, by omega⟩, by rw [hread]⟩)
    simp only [hread]
    obtain ⟨hlt, hread⟩ | ⟨height, b₃, rfl, hlen₂, hread⟩ := WireParser.read_cases UInt16 b₂
    · exact Or.inr (Or.inl ⟨⟨11, hsize, by omega⟩, by rw [hread]⟩)
    simp only [hread]
    obtain ⟨hlt, hread⟩ | ⟨frameRate, b₄, rfl, hlen₃, hread⟩ := WireParser.read_cases UInt16 b₃
    · exact Or.inr (Or.inl ⟨⟨11, hsize, by omega⟩, by rw [hread]⟩)
    simp only [hread]
    obtain ⟨hlt, hread⟩ | ⟨targetBitrate, b₅, rfl, hlen₄, hread⟩ :=
      WireParser.read_cases UInt32 b₄
    · exact Or.inr (Or.inl ⟨⟨11, hsize, by omega⟩, by rw [hread]⟩)
    simp only [hread]
    refine Or.inr (Or.inr ⟨.config ⟨width, height, frameRate, targetBitrate⟩, b₅, ?_, rfl⟩)
    rw [hb, hconfig, serializeToString, ConfigMsg.serializeToString, putNumber_uint8]
    simp only [List.append_assoc, List.cons_append, List.nil_append]
  · rw [if_neg hconfig]
    refine Or.inl ⟨?_, rfl⟩
    rw [hb, declaredSize, if_neg hack, if_neg hconfig]

/-- Parsing a serialized message gives it back, whatever follows it. -/
theorem parseFromString_serializeToString_append (m : Msg) (trailing : Bytes) :
    parseFromString (m.serializeToString ++ trailing) = .ok (some m) := by
  have hlen : ¬ (m.serializeToString ++ trailing).length < FixedWidth.size UInt8 := by
    have hpos : FixedWidth.size UInt8 ≤ m.serializeToString.length := by
      rw [length_serializeToString]
      cases m with
      | ack msg =>
        show 1 ≤ 15
        decide
      | config msg =>
        show 1 ≤ 11
        decide
    rw [List.length_append]
    omega
  unfold parseFromString
  rw [if_neg hlen]
  cases m with
  | ack msg =>
    simp only [serializeToString, AckMsg.serializeToString, List.append_assoc,
      WireParser.readUint32, WireParser.readUint8, WireParser.readUint16, WireParser.readUint64,
      WireParser.read_putNumber_append, bind, Except.bind, pure, Except.pure, if_true]
  | config msg =>
    have hne : ¬ typeConfig = typeAck := by decide
    simp only [serializeToString, ConfigMsg.serializeToString, List.append_assoc,
      WireParser.readUint32, WireParser.readUint8, WireParser.readUint16,
      WireParser.read_putNumber_append, bind, Except.bind, pure, Except.pure, if_true, hne,
      if_false]

/-- Parsing a serialized acknowledgement gives it back. -/
theorem parseFromString_ack (ack : AckMsg) :
    parseFromString ack.serializeToString = .ok (some (.ack ack)) := by
  have h := parseFromString_serializeToString_append (.ack ack) []
  rwa [List.append_nil] at h

/-! ## Round trip -/

/-- Control messages survive the way over the network.  A serialized message has the announced
size, and is read back with all its fields, whatever follows it.  Conversely every message that
is read begins the input with its serialized form.  Hence the two kinds are never mistaken for
each other, and the acknowledgement of a datagram arrives with the fields of the datagram. -/
theorem roundTrip :
    (∀ m : Msg, m.serializeToString.length = m.serializedSize) ∧
    (∀ (m : Msg) (trailing : Bytes),
      parseFromString (m.serializeToString ++ trailing) = .ok (some m)) ∧
    (∀ (b : Bytes) (m : Msg), parseFromString b = .ok (some m) → m.serializeToString <+: b) ∧
    (∀ (ack : AckMsg) (config : ConfigMsg) (trailing : Bytes),
      parseFromString (ack.serializeToString ++ trailing) ≠ .ok (some (.config config)) ∧
      parseFromString (config.serializeToString ++ trailing) ≠ .ok (some (.ack ack))) ∧
    ∀ d : Datagram, parseFromString (AckMsg.ofDatagram d).serializeToString
      = .ok (some (.ack { frameId := d.frameId, fragId := d.fragId, sendTs := d.sendTs })) := by
  refine ⟨length_serializeToString, parseFromString_serializeToString_append, ?_, ?_,
    fun d => parseFromString_ack (AckMsg.ofDatagram d)⟩
  · intro b m h
    rcases parseFromString_cases b with ⟨-, hnone⟩ | ⟨-, hthrow⟩ | ⟨m', trailing, hb, hsome⟩
    · rw [hnone] at h
      simp at h
    · rw [hthrow] at h
      simp at h
    · rw [hsome, Except.ok.injEq, Option.some_inj] at h
      exact ⟨trailing, by rw [hb, h]⟩
  · intro ack config trailing
    have hack : parseFromString (ack.serializeToString ++ trailing) = .ok (some (.ack ack)) :=
      parseFromString_serializeToString_append (.ack ack) trailing
    have hconfig :
        parseFromString (config.serializeToString ++ trailing) = .ok (some (.config config)) :=
      parseFromString_serializeToString_append (.config config) trailing
    rw [hack, hconfig]
    exact ⟨by simp, by simp⟩

end Msg

end Ringmaster
