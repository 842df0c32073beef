import Ccf.Buffer.Gathering
import Ccf.Segment

/-!
# Filling a segment from the queue

The queue holds packets and, for each, how many of its bytes have been placed.  `Filling.place`
takes bytes from the front of the queue until a capacity is reached or the queue is empty, and
notes where the first packet start is.  A packet start that is too far into the content for the
header to express ends the filling.

A packet leaves the queue when its last byte is placed.  If the payload refuses a range, the filling
ends with that fault and the queue as it is at that point; what was placed before is lost.
-/

namespace Ccf

/-- A queued packet and the number of its bytes that have been placed. -/
structure QueuedPacket where
  packet : Packet
  placed : Nat
deriving DecidableEq, Repr, Inhabited

namespace QueuedPacket

def remaining (entry : QueuedPacket) : Nat := entry.packet.size - entry.placed

def rest (entry : QueuedPacket) : List UInt8 := entry.packet.slice entry.placed entry.packet.size

end QueuedPacket

structure Filling where
  queue : List QueuedPacket
  /-- The packets that left the queue, in order. -/
  finished : List Packet
  /-- The header with the packet start noted, and the content. -/
  result : Except BufferError (SegmentHeader × Gathering)
deriving Repr

namespace Filling

/-- The header with a packet start noted, if it is the first one. -/
def noteStart (header : SegmentHeader) (startsPacket : Bool) (offset : Nat) : SegmentHeader :=
  if startsPacket && !header.pfi then
    { header with pfi := true, offmac := UInt16.ofNat offset }
  else
    header

/-- Place bytes from the queue until `payload` holds `capacity` bytes. -/
def place (capacity : Nat) : List QueuedPacket → SegmentHeader → Gathering → Filling
  | [], header, payload => { queue := [], finished := [], result := .ok (header, payload) }
  | front :: others, header, payload =>
    let offset := payload.size
    let startsPacket := front.placed == 0
    if capacity ≤ offset then
      { queue := front :: others, finished := [], result := .ok (header, payload) }
    else if startsPacket && !header.pfi && decide (SegmentHeader.offmacMax < offset) then
      { queue := front :: others, finished := [], result := .ok (header, payload) }
    else
      let amount := min (capacity - offset) front.remaining
      match payload.gather
          { owner := front.packet, offset := front.placed, length := amount } with
      | .error fault => { queue := front :: others, finished := [], result := .error fault }
      | .ok filled =>
        if amount = front.remaining then
          let later := place capacity others (noteStart header startsPacket offset) filled
          { later with finished := front.packet :: later.finished }
        else
          { queue := { front with placed := front.placed + amount } :: others
            finished := []
            result := .ok (noteStart header startsPacket offset, filled) }

end Filling

end Ccf
