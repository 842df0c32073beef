/-!
# Faults of buffer operations

Every fault here is a misuse by the caller: a position or a range that the buffer does not have, an
insertion beside bytes of the same packet that it would repeat, or a change of size that the buffer
does not allow.  A buffer is never changed by an operation that faults.
-/

namespace Ccf

/-- Why a buffer operation is refused. -/
inductive BufferError where
  | outOfRange (position size : Nat)
  | invalidRange (first last : Nat)
  /-- A range that shares bytes with the neighbouring piece of the same packet. -/
  | overlap (first last : Nat)
  | growUnsupported (size requested : Nat)
  | immutable
deriving DecidableEq, Repr

def BufferError.message : BufferError → String
  | .outOfRange position size => s!"position {position} out of range (size {size})"
  | .invalidRange first last => s!"invalid range [{first}, {last})"
  | .overlap first last =>
    s!"range [{first}, {last}) overlaps an adjacent fragment of the same packet"
  | .growUnsupported size requested => s!"cannot grow buffer from {size} to {requested} bytes"
  | .immutable => "packet handles cannot be resized"

def faultOf {Value : Type} : Except BufferError Value → Option BufferError
  | .error fault => some fault
  | .ok _ => none

/-- Whether `first` to `last` is a range within a buffer of the given size. -/
def checkRange (size first last : Nat) : Except BufferError Unit :=
  if last < first then
    .error (.invalidRange first last)
  else if size < last then
    .error (.outOfRange last size)
  else
    .ok ()

theorem checkRange_eq_ok_iff {size first last : Nat} :
    checkRange size first last = .ok () ↔ first ≤ last ∧ last ≤ size := by
  unfold checkRange
  split
  · simp
    omega
  · split
    · simp
      omega
    · simp
      omega

end Ccf
