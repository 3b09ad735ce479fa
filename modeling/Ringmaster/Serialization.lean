/-
# Numbers on the wire

`src/util/serialization.hh` and `serialization.cc`: `put_number` writes a number in
network byte order, and `WireParser` reads numbers and strings off the front of a byte
string, throwing when the bytes run out.

A `std::string` of bytes is a `List UInt8`.  `hton` followed by copying the bytes of the
object, and copying followed by `ntoh`, put the most significant byte first on every
host; this is `ByteOrder.bigEndian`.
-/
import Ringmaster.Library.ByteOrder
import Ringmaster.Util

open ByteOrder

namespace Ringmaster

/-- A string of bytes. -/
abbrev Bytes := List UInt8

/-- The template `put_number`: a number in host byte order to binary data on wire. -/
def putNumber {T : Type} [FixedWidth T] (host : T) : Bytes := bigEndian host

/-- Splitting a written number off the front of any long enough input. -/
theorem exists_putNumber_append (T : Type) [FixedWidth T] (b : Bytes)
    (h : FixedWidth.size T ≤ b.length) :
    ∃ (x : T) (rest : Bytes), b = putNumber x ++ rest ∧
      rest.length = b.length - FixedWidth.size T := by
  obtain ⟨x, hx⟩ := bigEndian_surjective (T := T) (b.take (FixedWidth.size T)) (by simp [h])
  refine ⟨x, b.drop (FixedWidth.size T), ?_, List.length_drop⟩
  rw [putNumber, hx, List.take_append_drop]

/-! ## The parser -/

/-- The class `WireParser`: the part of the input that has not been read yet. -/
structure WireParser where
  str : Bytes
  deriving DecidableEq, Repr

namespace WireParser

/-- The template `WireParser::read`. -/
def read (T : Type) [FixedWidth T] (parser : WireParser) : Except Exn (T × WireParser) :=
  if FixedWidth.size T > parser.str.length then
    .error (.outOfRange "WireParser::read(): read past end")
  else
    .ok (ofBigEndian T (parser.str.take (FixedWidth.size T)),
      ⟨parser.str.drop (FixedWidth.size T)⟩)

/-- The method `WireParser::read_uint8`. -/
def readUint8 (parser : WireParser) : Except Exn (UInt8 × WireParser) := parser.read UInt8

/-- The method `WireParser::read_uint16`. -/
def readUint16 (parser : WireParser) : Except Exn (UInt16 × WireParser) := parser.read UInt16

/-- The method `WireParser::read_uint32`. -/
def readUint32 (parser : WireParser) : Except Exn (UInt32 × WireParser) := parser.read UInt32

/-- The method `WireParser::read_uint64`. -/
def readUint64 (parser : WireParser) : Except Exn (UInt64 × WireParser) := parser.read UInt64

/-- The method `WireParser::read_string` with an explicit length. -/
def readStringLen (parser : WireParser) (len : ℕ) : Except Exn (Bytes × WireParser) :=
  if len > parser.str.length then
    .error (.outOfRange "WireParser::read_string(): attempted to read past end")
  else
    .ok (parser.str.take len, ⟨parser.str.drop len⟩)

/-- The method `WireParser::read_string` without a length: all that is left. -/
def readString (parser : WireParser) : Except Exn (Bytes × WireParser) :=
  parser.readStringLen parser.str.length

/-! ## Reading back what was written -/

/-- Reading a number that was just written gives it back and leaves what follows it. -/
@[simp] theorem read_putNumber_append {T : Type} [FixedWidth T] (x : T) (rest : Bytes) :
    read T ⟨putNumber x ++ rest⟩ = .ok (x, ⟨rest⟩) := by
  have hlen : (putNumber x).length = FixedWidth.size T := length_bigEndian x
  rw [read, if_neg (by simp [hlen]), List.take_left' hlen, List.drop_left' hlen]
  rw [putNumber, ofBigEndian_bigEndian]

/-- Reading a number throws on an input that is too short, and otherwise splits the number off
the front of the input. -/
theorem read_cases (T : Type) [FixedWidth T] (b : Bytes) :
    (b.length < FixedWidth.size T ∧
      read T ⟨b⟩ = .error (.outOfRange "WireParser::read(): read past end")) ∨
    ∃ (x : T) (rest : Bytes), b = putNumber x ++ rest ∧
      b.length = FixedWidth.size T + rest.length ∧ read T ⟨b⟩ = .ok (x, ⟨rest⟩) := by
  by_cases hlt : FixedWidth.size T > b.length
  · exact Or.inl ⟨hlt, by rw [read, if_pos hlt]⟩
  · obtain ⟨x, rest, hb, hrest⟩ := exists_putNumber_append T b (not_lt.mp hlt)
    refine Or.inr ⟨x, rest, hb, by omega, ?_⟩
    rw [hb, read_putNumber_append]

/-- Reading the rest of the input never runs past its end. -/
@[simp] theorem readString_eq (str : Bytes) : readString ⟨str⟩ = .ok (str, ⟨[]⟩) := by
  simp [readString, readStringLen]

end WireParser

end Ringmaster
