import Ccf.Buffer.Piece

/-!
# Piece tables

A piece table is a byte string put together from ranges of packets.  Inserting and erasing
rearrange ranges and never touch bytes.  The edits keep the list of pieces in a normal form, in
which no piece is empty and no piece continues the one before it.

The number of bytes is held beside the pieces.  Every edit brings it up to date from what it was and
from the range it was given, and the table carries the proof that the two agree.

An insertion at a seam is refused when the inserted range shares bytes with a neighbouring piece of
the same packet; an insertion inside a piece is not.
-/

namespace Ccf

/-- How a table answers the question for the size of the MAC packet at a position. -/
inductive BlockFormat where
  /-- The packet that owns the byte there is asked. -/
  | delegate
  /-- The header is read from the table itself, across seams. -/
  | macHeader
deriving DecidableEq, Repr

/-- A byte string put together from ranges of packets. -/
structure PieceTable where
  pieces : List Piece
  format : BlockFormat
  size : Nat := Pieces.size pieces
  size_eq : Pieces.size pieces = size := by rfl
deriving DecidableEq, Repr

namespace PieceTable

def empty (format : BlockFormat) : PieceTable where
  pieces := []
  format := format
  size := 0

instance : Inhabited PieceTable := ⟨empty .delegate⟩

/-- The table of all bytes of a packet. -/
def ofPacket (packet : Packet) : PieceTable where
  pieces := if packet.size = 0 then []
    else [{ owner := packet, offset := 0, length := packet.size }]
  format := .delegate
  size := packet.size
  size_eq := by
    split
    · exact Eq.symm ‹_›
    · rfl

def isEmpty (table : PieceTable) : Bool := table.size == 0

def cells (table : PieceTable) : List Cell := Pieces.cells table.pieces

def clear (table : PieceTable) : PieceTable := empty table.format

/-- Whether inserting the range at a seam would repeat bytes of a neighbouring piece. -/
def overlapsAt (table : PieceTable) (position : Nat) (owner : Packet) (first last : Nat) : Bool :=
  ((Pieces.take position table.pieces).getLast?.any fun piece => piece.meets owner first last) ||
    ((Pieces.drop position table.pieces).head?.any fun piece => piece.meets owner first last)

def splicedAt (table : PieceTable) (position : Nat) (piece : Piece) : PieceTable where
  pieces := Pieces.splice (Pieces.splice (Pieces.take position table.pieces) [piece])
    (Pieces.drop position table.pieces)
  format := table.format
  size := table.size + piece.length
  size_eq := by
    rw [Pieces.size_splice, Pieces.size_splice, Pieces.size_take, Pieces.size_drop,
      Pieces.size_cons, Pieces.size_nil, table.size_eq]
    omega

/-- Refer to the bytes from `first` up to `last` of `owner` at a position.  The result says whether
there was anything to refer to. -/
def insert (table : PieceTable) (position : Nat) (owner : Packet) (first last : Nat) :
    Except BufferError (PieceTable × Bool) :=
  match checkRange owner.size first last with
  | .error fault => .error fault
  | .ok () =>
    if first = last then
      .ok (table, false)
    else if table.size < position then
      .error (.outOfRange position table.size)
    else if Pieces.isSeam position table.pieces && table.overlapsAt position owner first last then
      .error (.overlap first last)
    else
      .ok (table.splicedAt position { owner := owner, offset := first, length := last - first },
        true)

def without (table : PieceTable) (first last : Nat) (hrange : first ≤ last)
    (hlast : last ≤ table.size) : PieceTable where
  pieces := Pieces.splice (Pieces.take first table.pieces) (Pieces.drop last table.pieces)
  format := table.format
  size := table.size - (last - first)
  size_eq := by
    rw [Pieces.size_splice, Pieces.size_take, Pieces.size_drop, table.size_eq]
    omega

/-- Remove the bytes from `first` up to `last`, or up to the end of the table if that is earlier. -/
def erase (table : PieceTable) (first last : Nat) : Except BufferError PieceTable :=
  let stop := min last table.size
  if first = stop then
    .ok table
  else if table.size ≤ first then
    .error (.outOfRange first table.size)
  else if hrange : stop < first then
    .error (.invalidRange first stop)
  else
    .ok (table.without first stop (Nat.not_lt.1 hrange) (Nat.min_le_right last table.size))

def truncate (table : PieceTable) (size : Nat) : PieceTable where
  pieces := Pieces.take size table.pieces
  format := table.format
  size := min size table.size
  size_eq := by rw [Pieces.size_take, table.size_eq]

/-- Keep the first `size` bytes; a table does not grow. -/
def resize (table : PieceTable) (size : Nat) : Except BufferError PieceTable :=
  if table.size < size then
    .error (.growUnsupported table.size size)
  else
    .ok (table.truncate size)

/-- A table is determined by its pieces and its format. -/
theorem eq_of_pieces_eq {table other : PieceTable} (hpieces : table.pieces = other.pieces)
    (hformat : table.format = other.format) : table = other := by
  have hsize : table.size = other.size := by
    rw [← table.size_eq, ← other.size_eq, hpieces]
  cases table
  cases other
  simp_all

end PieceTable

end Ccf
