import Ccf.Buffer.Reading
import Ccf.Wire.SequenceNumber

/-!
# Segments

A segment is a header and the piece table of its content.  `toWire` writes the header and the bytes
of the content; `ofWire` reads them back, with the content referring to a packet that is registered
for it.
-/

namespace Ccf

/-- Why a segment cannot be written or read, or an exchange of segments cannot go on. -/
inductive TransferError where
  | buffer (fault : BufferError)
  | wire (fault : WireError)
deriving DecidableEq, Repr

/-- The text of a transfer fault, which names the layer it comes from. -/
def TransferError.message : TransferError → String
  | .buffer fault => "buffer error: " ++ fault.message
  | .wire fault => "wire error: " ++ fault.message

structure Segment where
  header : SegmentHeader
  payload : PieceTable
deriving DecidableEq, Repr, Inhabited

namespace Segment

def sequence (segment : Segment) : SequenceNumber := .ofWord segment.header.sequence

def size (segment : Segment) : Nat := segment.payload.size

def isEmpty (segment : Segment) : Bool := segment.payload.isEmpty

def wireSize (segment : Segment) : Nat := SegmentHeader.wireSize + segment.size

def content (segment : Segment) : List UInt8 := segment.payload.bytes

def toWire (segment : Segment) : Except TransferError (List UInt8) :=
  match segment.header.appendTo [] with
  | .error fault => .error (.wire fault)
  | .ok header =>
    match segment.payload.copyTo 0 segment.payload.size header with
    | .error fault => .error (.buffer fault)
    | .ok (_, bytes) => .ok bytes

/-- A segment whose content is a packet of its own, registered under `id`. -/
def ofContent (id : Nat) (header : SegmentHeader) (content : List UInt8) : Segment where
  header := header
  payload := .ofPacket (.ofSegmentContent id header content)

/-- Read a segment; its content is registered under `id`. -/
def ofWire (id : Nat) (bytes : List UInt8) : Except TransferError Segment :=
  match SegmentHeader.decode bytes with
  | .error fault => .error (.wire fault)
  | .ok header => .ok (.ofContent id header (bytes.drop SegmentHeader.wireSize))

end Segment

end Ccf
