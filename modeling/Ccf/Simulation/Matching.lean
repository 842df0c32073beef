/-!
# Matching what was sent with what arrived

Packets are compared byte for byte, and a packet that arrived accounts for one that was sent at
most. Both lists are put into lexicographic order; going through them side by side then finds the
pairs.
-/

namespace Ccf.Matching

/-- Whether bytes may stand ahead of others in lexicographic order. -/
def notAfter (left right : List UInt8) : Bool := decide (left ≤ right)

/-- The number of pairs of equal entries in two ordered lists. -/
def countSorted : List (List UInt8) → List (List UInt8) → Nat
  | [], _ => 0
  | _, [] => 0
  | sent :: otherSent, arrived :: otherArrived =>
    if sent = arrived then
      countSorted otherSent otherArrived + 1
    else if notAfter sent arrived then
      countSorted otherSent (arrived :: otherArrived)
    else
      countSorted (sent :: otherSent) otherArrived
termination_by sent arrived => sent.length + arrived.length

/-- The number of pairs of equal entries in two lists. -/
def count (sent arrived : List (List UInt8)) : Nat :=
  countSorted (sent.mergeSort notAfter) (arrived.mergeSort notAfter)

end Ccf.Matching
