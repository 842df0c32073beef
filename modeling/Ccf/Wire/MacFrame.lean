import Ccf.Wire.Error
import Ccf.Wire.Word

/-!
# MAC packets as bytes

A MAC packet is a header of two big-endian words, its sequence number and the length of its
content, followed by the content.  `MacFrame.next?` takes one whole packet from the front of a byte
string, `MacFrame.split` takes all of them and leaves the bytes that hold no whole packet.
-/

namespace Ccf

structure MacHeader where
  sequence : UInt16
  /-- The number of content bytes that follow. -/
  length : UInt16
deriving DecidableEq, Repr, Inhabited

namespace MacHeader

def wireSize : Nat := 4

/-- The longest content that a header can announce. -/
def contentMax : Nat := 65535

/-- The size of the packet that a header announces, itself included. -/
def packetSize (header : MacHeader) : Nat := wireSize + header.length.toNat

def bytes (header : MacHeader) : List UInt8 :=
  Word.toBytes header.sequence ++ Word.toBytes header.length

/-- Write a header over the front of `destination`.  An empty destination only asks for the size. -/
def encodeInto (header : MacHeader) (destination : List UInt8) :
    Except WireError (Nat × List UInt8) :=
  if destination.isEmpty then
    .ok (wireSize, destination)
  else if destination.length < wireSize then
    .error (.truncated wireSize destination.length)
  else
    .ok (wireSize, header.bytes ++ destination.drop wireSize)

def decode : List UInt8 → Except WireError MacHeader
  | a :: b :: c :: d :: _ => .ok { sequence := Word.ofBytes a b, length := Word.ofBytes c d }
  | source => .error (.truncated wireSize source.length)

/-- The header of a packet with `size` content bytes, if a header can announce that many. -/
def ofContentSize (sequence : UInt16) (size : Nat) : Except WireError MacHeader :=
  if contentMax < size then
    .error (.fieldOverflow .length size contentMax)
  else
    .ok { sequence := sequence, length := UInt16.ofNat size }

@[simp]
theorem length_bytes (header : MacHeader) : header.bytes.length = wireSize := rfl

theorem wireSize_le_packetSize (header : MacHeader) : wireSize ≤ header.packetSize :=
  Nat.le_add_right _ _

end MacHeader

/-- A MAC packet as it was read from the wire. -/
structure MacFrame where
  header : MacHeader
  content : List UInt8
deriving DecidableEq, Repr

namespace MacFrame

def wireSize (frame : MacFrame) : Nat := MacHeader.wireSize + frame.content.length

/-- Write a packet with the given content after the bytes of `destination`. -/
def appendTo (sequence : UInt16) (content destination : List UInt8) :
    Except WireError (List UInt8) :=
  match MacHeader.ofContentSize sequence content.length with
  | .error fault => .error fault
  | .ok header => .ok (destination ++ header.bytes ++ content)

/-- The whole packet in front of `source` and the bytes after it; `none` if the packet is cut. -/
def next? : List UInt8 → Option (MacFrame × List UInt8)
  | a :: b :: c :: d :: rest =>
    let header : MacHeader := { sequence := Word.ofBytes a b, length := Word.ofBytes c d }
    let content := rest.take header.length.toNat
    if content.length = header.length.toNat then
      some ({ header := header, content := content }, rest.drop header.length.toNat)
    else
      none
  | _ => none

theorem length_lt_of_next? {source rest : List UInt8} {frame : MacFrame}
    (hnext : next? source = some (frame, rest)) : rest.length < source.length := by
  match source, hnext with
  | a :: b :: c :: d :: tail, hnext =>
    simp only [next?] at hnext
    split at hnext
    · cases hnext
      simp only [List.length_drop, List.length_cons]
      omega
    · cases hnext

/-- All whole packets in front of `source`, and the bytes that are left. -/
def split (source : List UInt8) : List MacFrame × List UInt8 :=
  match _h : next? source with
  | none => ([], source)
  | some (frame, rest) =>
    let later := split rest
    (frame :: later.1, later.2)
termination_by source.length
decreasing_by exact length_lt_of_next? _h

end MacFrame

end Ccf
