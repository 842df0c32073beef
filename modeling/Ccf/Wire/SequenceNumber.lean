/-!
# Segment sequence numbers

Segments are numbered modulo 8192.  A number counts as adjacent to another one when it is the same
or the next: a segment received twice stays in the run it belongs to.

A `SequenceNumber` is not confined to 13 bits by its type.  Taking one from a 16-bit word and
counting on reduce it; a number that a settings document supplies is kept as it stands until it is
counted on.
-/

namespace Ccf

/-- The number of distinct sequence numbers on the wire. -/
def sequenceSpace : Nat := 8192

/-- A position in the circular numbering of segments. -/
structure SequenceNumber where
  value : Nat
deriving DecidableEq, Repr, Inhabited

namespace SequenceNumber

def first : SequenceNumber := ⟨0⟩

/-- The sequence number carried by the low 13 bits of a word. -/
def ofWord (word : UInt16) : SequenceNumber := ⟨word.toNat % sequenceSpace⟩

/-- The successor, which wraps from the last number to the first. -/
def next (number : SequenceNumber) : SequenceNumber :=
  ⟨(number.value + 1) % sequenceSpace⟩

def toWord (number : SequenceNumber) : UInt16 := UInt16.ofNat number.value

/-- Whether a segment with this number may come right after one numbered `previous`. -/
def follows (number previous : SequenceNumber) : Bool :=
  number.value == previous.value || number.value == previous.next.value

def decimal (number : SequenceNumber) : String := toString number.value

/-- The form in which diagnostics name a sequence number. -/
def diagnostic (number : SequenceNumber) : String :=
  "SegmentSeq(" ++ number.decimal ++ ")"

theorem next_lt (number : SequenceNumber) : number.next.value < sequenceSpace :=
  Nat.mod_lt _ (by decide)

theorem ofWord_lt (word : UInt16) : (ofWord word).value < sequenceSpace :=
  Nat.mod_lt _ (by decide)

theorem follows_iff (number previous : SequenceNumber) :
    number.follows previous = true ↔ number = previous ∨ number = previous.next := by
  cases number
  cases previous
  simp [follows, next]

end SequenceNumber

end Ccf
