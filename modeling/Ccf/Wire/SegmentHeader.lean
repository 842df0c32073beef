import Ccf.Wire.Error
import Ccf.Wire.Word

/-!
# The segment header

Eight bytes travel in front of the content of every segment: four big-endian words that hold

* the packet-start indicator (1 bit), a reserved bit and the offset of the first packet start
  (14 bits),
* the sequence number (13 bits) and the cluster (3 bits),
* the piggyback request, and
* the header check sequence.

The check sequence is carried along: it is neither computed nor verified here.  A record can hold
wider values than the wire; `validate` names the first field that does not fit.
-/

namespace Ccf

/-- The header of a segment, one field per wire field. -/
structure SegmentHeader where
  /-- Whether a packet starts in the content. -/
  pfi : Bool
  reserved : Bool
  /-- Where in the content the first packet start is. -/
  offmac : UInt16
  sequence : UInt16
  /-- The cluster that the segment is sent for. -/
  sc : UInt8
  /-- Units of bandwidth asked for along with the segment. -/
  request : UInt16
  hcs : UInt16
deriving DecidableEq, Repr

namespace SegmentHeader

def blank : SegmentHeader :=
  { pfi := false, reserved := false, offmac := 0, sequence := 0, sc := 0, request := 0, hcs := 0 }

instance : Inhabited SegmentHeader := ⟨blank⟩

def wireSize : Nat := 8

def offmacMax : Nat := 16383

def sequenceMax : Nat := 8191

def clusterMax : Nat := 7

/-- Whether every field fits its width on the wire; the first that does not is named. -/
def validate (header : SegmentHeader) : Except WireError Unit :=
  if offmacMax < header.offmac.toNat then
    .error (.fieldOverflow .offmac header.offmac.toNat offmacMax)
  else if sequenceMax < header.sequence.toNat then
    .error (.fieldOverflow .sequence header.sequence.toNat sequenceMax)
  else if clusterMax < header.sc.toNat then
    .error (.fieldOverflow .cluster header.sc.toNat clusterMax)
  else
    .ok ()

/-- The word of the indicator, the reserved bit and the low 14 bits of the offset. -/
def startWord (header : SegmentHeader) : UInt16 :=
  UInt16.ofNat (header.pfi.toNat * 32768 + header.reserved.toNat * 16384 +
    header.offmac.toNat % 16384)

/-- The word of the low 13 bits of the sequence number and the low 3 bits of the cluster. -/
def numberWord (header : SegmentHeader) : UInt16 :=
  UInt16.ofNat (header.sequence.toNat % 8192 * 8 + header.sc.toNat % 8)

def bytes (header : SegmentHeader) : List UInt8 :=
  Word.toBytes header.startWord ++ Word.toBytes header.numberWord ++
    Word.toBytes header.request ++ Word.toBytes header.hcs

/-- Write a header over the front of `destination`.  An empty destination only asks for the size. -/
def encodeInto (header : SegmentHeader) (destination : List UInt8) :
    Except WireError (Nat × List UInt8) :=
  if destination.isEmpty then
    .ok (wireSize, destination)
  else if destination.length < wireSize then
    .error (.truncated wireSize destination.length)
  else
    match header.validate with
    | .error fault => .error fault
    | .ok () => .ok (wireSize, header.bytes ++ destination.drop wireSize)

/-- Write a header after the bytes of `destination`. -/
def appendTo (header : SegmentHeader) (destination : List UInt8) :
    Except WireError (List UInt8) :=
  match header.validate with
  | .error fault => .error fault
  | .ok () => .ok (destination ++ header.bytes)

/-- The header that four words spell. -/
def ofWords (start number request check : UInt16) : SegmentHeader where
  pfi := decide (32768 ≤ start.toNat)
  reserved := decide (16384 ≤ start.toNat % 32768)
  offmac := UInt16.ofNat (start.toNat % 16384)
  sequence := UInt16.ofNat (number.toNat / 8)
  sc := UInt8.ofNat (number.toNat % 8)
  request := request
  hcs := check

def decode : List UInt8 → Except WireError SegmentHeader
  | a :: b :: c :: d :: e :: f :: g :: h :: _ =>
    .ok (ofWords (Word.ofBytes a b) (Word.ofBytes c d) (Word.ofBytes e f) (Word.ofBytes g h))
  | source => .error (.truncated wireSize source.length)

@[simp]
theorem length_bytes (header : SegmentHeader) : header.bytes.length = wireSize := rfl

end SegmentHeader

end Ccf
