import Ccf.Buffer.Error
import Ccf.Wire.MacFrame
import Ccf.Wire.SegmentHeader

/-!
# Packets

A packet owns a fixed string of bytes.  Two packets may hold the same bytes and still be different
owners, so each carries the number under which it was registered; packets are compared as whole
values, hence packets with different numbers are different.

Ranges of packets are what buffers refer to; nothing in this project copies or changes the bytes of
a packet.
-/

namespace Ccf

/-- What the bytes of a packet are. -/
inductive PacketKind where
  /-- A MAC packet to send: the encoded header and the content. -/
  | mac (header : MacHeader)
  | segment (header : SegmentHeader)
  | raw
deriving DecidableEq, Repr

/-- A numbered string of bytes. -/
structure Packet where
  /-- The number under which the packet was registered. -/
  id : Nat
  kind : PacketKind
  bytes : Array UInt8
deriving Repr

namespace Packet

/-- Packets are compared as whole values, but a packet is known to equal itself without a look at
its bytes. -/
instance : DecidableEq Packet := fun left right =>
  withPtrEqDecEq left right fun _ =>
    if hparts : left.id = right.id ∧ left.kind = right.kind ∧ left.bytes = right.bytes then
      isTrue (by cases left; cases right; simp_all)
    else
      isFalse (by rintro rfl; simp at hparts)

instance : Inhabited Packet := ⟨{ id := 0, kind := .raw, bytes := #[] }⟩

def raw (id : Nat) (bytes : List UInt8) : Packet :=
  { id := id, kind := .raw, bytes := bytes.toArray }

def ofSegmentContent (id : Nat) (header : SegmentHeader) (content : List UInt8) : Packet :=
  { id := id, kind := .segment header, bytes := content.toArray }

/-- A MAC packet to send.  Content that a MAC header cannot announce is refused. -/
def mac (id : Nat) (sequence : UInt16) (content : List UInt8) : Except WireError Packet :=
  match MacHeader.ofContentSize sequence content.length with
  | .error fault => .error fault
  | .ok header =>
    .ok { id := id, kind := .mac header, bytes := (header.bytes ++ content).toArray }

def size (packet : Packet) : Nat := packet.bytes.size

def isEmpty (packet : Packet) : Bool := packet.size == 0

def macHeader? (packet : Packet) : Option MacHeader :=
  match packet.kind with
  | .mac header => some header
  | _ => none

def byteList (packet : Packet) : List UInt8 := packet.bytes.toList

def slice (packet : Packet) (first last : Nat) : List UInt8 :=
  (packet.bytes.extract first last).toList

/-- The size of the MAC packet whose header starts at `position`; `none` if fewer bytes than a
header are left there. -/
def blockSizeAt (packet : Packet) (position : Nat) : Option Nat :=
  match MacHeader.decode (packet.slice position (position + MacHeader.wireSize)) with
  | .ok header => some header.packetSize
  | .error _ => none

/-- Write the bytes from `first` up to `last` after `destination`, with their number. -/
def copyTo (packet : Packet) (first last : Nat) (destination : List UInt8) :
    Except BufferError (Nat × List UInt8) :=
  match checkRange packet.size first last with
  | .error fault => .error fault
  | .ok () => .ok (last - first, destination ++ packet.slice first last)

/-- A packet has the size that it has; any other request is refused. -/
def resize (packet : Packet) (size : Nat) : Except BufferError Unit :=
  if size = packet.size then .ok () else .error .immutable

theorem slice_eq (packet : Packet) (first last : Nat) :
    packet.slice first last = (packet.bytes.toList.take last).drop first := by
  simp [slice, List.drop_take]

theorem length_slice (packet : Packet) (first last : Nat) :
    (packet.slice first last).length = min last packet.size - first := by
  simp only [slice, size, Array.length_toList, Array.size_extract]

end Packet

end Ccf
