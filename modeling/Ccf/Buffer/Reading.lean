import Ccf.Buffer.PieceTable

/-!
# Reading piece tables

The readers of a table: its bytes, the byte at a position, the range that a position belongs to,
the packet that starts at a position, and the size of the MAC packet at a position.  Ranges of a
table or of a packet can also be put into another table, by reference.
-/

namespace Ccf

namespace PieceTable

def bytes (table : PieceTable) : List UInt8 := Pieces.bytes table.pieces

/-- The packet whose piece starts at `position` with the packet's first byte. -/
def packetAt? (table : PieceTable) (position : Nat) : Option Packet :=
  if Pieces.isSeam position table.pieces then
    match (Pieces.drop position table.pieces).head? with
    | some piece => if piece.offset = 0 then some piece.owner else none
    | none => none
  else
    none

/-- The owner of the byte at `position`, where in the owner it is, and where in the owner its piece
ends. -/
def locate? (table : PieceTable) (position : Nat) : Option (Packet × Nat × Nat) :=
  (Pieces.drop position table.pieces).head?.map fun piece =>
    (piece.owner, piece.offset, piece.stop)

def byteAt? (table : PieceTable) (position : Nat) : Option UInt8 :=
  match table.locate? position with
  | some (owner, offset, _) => owner.bytes[offset]?
  | none => none

/-- The size of the MAC packet at `position`.  A table that delegates asks the owner of the byte
there; otherwise the header is gathered from the bytes of the table, and `none` means that fewer
bytes than a header are left. -/
def blockSizeAt (table : PieceTable) (position : Nat) : Option Nat :=
  match table.format with
  | .delegate =>
    match table.locate? position with
    | some (owner, offset, _) => owner.blockSizeAt offset
    | none => none
  | .macHeader =>
    if table.size - position < MacHeader.wireSize then
      none
    else
      match table.byteAt? position, table.byteAt? (position + 1), table.byteAt? (position + 2),
        table.byteAt? (position + 3) with
      | some a, some b, some c, some d =>
        match MacHeader.decode [a, b, c, d] with
        | .ok header => some header.packetSize
        | .error _ => none
      | _, _, _, _ => none

/-- Write the bytes from `first` up to `last` after `destination`, with their number. -/
def copyTo (table : PieceTable) (first last : Nat) (destination : List UInt8) :
    Except BufferError (Nat × List UInt8) :=
  match checkRange table.size first last with
  | .error fault => .error fault
  | .ok () => .ok (last - first, destination ++ Pieces.bytes (Pieces.slice first last table.pieces))

/-- Insert pieces one after another, the first at `position`.  `written` bytes went before; the
pieces inserted ahead of a refused one stay. -/
def insertPieces (table : PieceTable) (position written : Nat) :
    List Piece → PieceTable × Except BufferError Nat
  | [] => (table, .ok written)
  | piece :: rest =>
    match table.insert (position + written) piece.owner piece.offset piece.stop with
    | .error fault => (table, .error fault)
    | .ok (result, present) =>
      result.insertPieces position (if present then written + piece.length else written) rest

/-- Refer to the bytes from `first` up to `last` of `source` at a position of `table`.  The number
of bytes is returned; on a fault, the table is as far as the pieces before it brought it. -/
def insertRange (table : PieceTable) (position : Nat) (source : PieceTable) (first last : Nat) :
    PieceTable × Except BufferError Nat :=
  match checkRange source.size first last with
  | .error fault => (table, .error fault)
  | .ok () => table.insertPieces position 0 (Pieces.slice first last source.pieces)

/-- Refer to the bytes from `first` up to `last` of a packet at a position of `table`, and return
their number. -/
def insertPacket (table : PieceTable) (position : Nat) (packet : Packet) (first last : Nat) :
    Except BufferError (PieceTable × Nat) :=
  match table.insert position packet first last with
  | .error fault => .error fault
  | .ok (result, present) => .ok (result, if present then last - first else 0)

end PieceTable

end Ccf
