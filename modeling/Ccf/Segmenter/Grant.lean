import Ccf.Time.Instant
import Ccf.Wire.SegmentHeader

/-!
# Grants

A grant allots a number of bytes on a channel at a time.  The schedule is a list of grants ordered
by time, in the total order of times; grants for equal times stay in the order of their arrival.
-/

namespace Ccf

/-- The right to send one segment of at most `size` bytes, header included. -/
structure Grant where
  channel : Int
  time : Instant
  size : Nat
deriving DecidableEq, Repr, Inhabited

namespace Grant

/-- The content bytes that a segment can carry under the grant. -/
def capacity (grant : Grant) : Nat := grant.size - SegmentHeader.wireSize

def isExpired (grant : Grant) (now : Instant) : Bool := grant.time.before now

/-- Whether the grant may stand ahead of another one in a schedule. -/
def notAfter (grant other : Grant) : Bool := grant.time.notAfter other.time

def schedule (grants incoming : List Grant) : List Grant :=
  (grants ++ incoming).mergeSort notAfter

end Grant

end Ccf
