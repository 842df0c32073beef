import Ccf.Segment
import Mathlib.Data.List.Basic
import Mathlib.Data.List.Nodup

/-!
# The cells of piece tables

Cutting and joining lists of pieces acts on their cells as `List.take`, `List.drop` and `++` do, and
a list whose pieces lie within their packets has the bytes that its cells name.  Nothing here needs
the normal form of a table: the statements hold for every list of pieces.
-/

namespace Ccf

def Cell.byte (cell : Cell) : UInt8 := cell.owner.bytes[cell.position]?.getD 0

namespace Packet

def cells (packet : Packet) : List Cell := (List.range packet.size).map (Cell.mk packet)

@[simp]
theorem length_cells (packet : Packet) : packet.cells.length = packet.size := by
  simp [cells]

theorem cells_of_isEmpty {packet : Packet} (hempty : packet.isEmpty = true) :
    packet.cells = [] := by
  rw [← List.length_eq_zero_iff, length_cells]
  simpa [isEmpty] using hempty

theorem size_pos {packet : Packet} (hbytes : packet.isEmpty = false) : 0 < packet.size :=
  Nat.pos_of_ne_zero (by simpa [isEmpty] using hbytes)

theorem mem_cells {packet : Packet} {cell : Cell} :
    cell ∈ packet.cells ↔ cell.owner = packet ∧ cell.position < packet.size := by
  cases cell
  simp only [cells, List.mem_map, List.mem_range, Cell.mk.injEq]
  constructor
  · rintro ⟨position, hlt, rfl, rfl⟩
    exact ⟨rfl, hlt⟩
  · rintro ⟨rfl, hlt⟩
    exact ⟨_, hlt, rfl, rfl⟩

theorem nodup_cells (packet : Packet) : packet.cells.Nodup :=
  List.nodup_range.map fun _ _ heq => (Cell.mk.inj heq).2

/-- Bytes of a range are read off its places. -/
theorem slice_eq_map (packet : Packet) (first : Nat) {last : Nat} (hle : last ≤ packet.size) :
    packet.slice first last =
      ((List.range' first (last - first)).map (Cell.mk packet)).map Cell.byte := by
  apply List.ext_getElem
  · simp only [length_slice, List.length_map, List.length_range']
    omega
  · intro index hleft hright
    simp only [List.length_map, List.length_range'] at hright
    have hbound : first + index < packet.bytes.size := by
      simp only [size] at hle
      omega
    simp [slice, Cell.byte, hbound]

theorem byteList_eq_map_cells (packet : Packet) :
    packet.byteList = packet.cells.map Cell.byte := by
  have hslice := packet.slice_eq_map 0 (Nat.le_refl packet.size)
  rw [slice_eq, List.take_of_length_le (by simp [size]), List.drop_zero] at hslice
  rw [byteList, hslice, cells, List.range_eq_range', Nat.sub_zero]

end Packet

namespace Piece

@[simp]
theorem length_cells (piece : Piece) : piece.cells.length = piece.length := by
  simp [cells]

theorem mem_cells {piece : Piece} {cell : Cell} :
    cell ∈ piece.cells ↔
      cell.owner = piece.owner ∧ piece.offset ≤ cell.position ∧ cell.position < piece.stop := by
  cases cell
  simp only [cells, List.mem_map, List.mem_range'_1, Cell.mk.injEq, stop]
  constructor
  · rintro ⟨position, hrange, rfl, rfl⟩
    exact ⟨rfl, hrange⟩
  · rintro ⟨rfl, hrange⟩
    exact ⟨_, hrange, rfl, rfl⟩

theorem cells_merge {piece next : Piece} (hjoins : piece.joins next = true) :
    (piece.merge next).cells = piece.cells ++ next.cells := by
  simp only [joins, Bool.and_eq_true, beq_iff_eq, stop] at hjoins
  obtain ⟨howner, hstop⟩ := hjoins
  simp only [cells, merge, ← howner, ← hstop, ← List.map_append]
  rw [List.range'_append_1]

theorem cells_front {piece : Piece} {count : Nat} (hcount : count ≤ piece.length) :
    (piece.front count).cells = piece.cells.take count := by
  simp only [cells, front, ← List.map_take]
  rw [List.take_range'_of_length_ge hcount]

theorem cells_back (piece : Piece) (count : Nat) :
    (piece.back count).cells = piece.cells.drop count := by
  simp only [cells, back, ← List.map_drop]
  rw [List.drop_range', Nat.mul_one]

structure Proper (piece : Piece) : Prop where
  length_pos : 0 < piece.length
  stop_le : piece.stop ≤ piece.owner.size

theorem Proper.bytes_eq {piece : Piece} (hpiece : piece.Proper) :
    piece.bytes = piece.cells.map Cell.byte := by
  rw [bytes, Packet.slice_eq_map _ _ hpiece.stop_le, cells, stop, Nat.add_sub_cancel_left]

theorem Proper.merge {piece next : Piece} (hpiece : piece.Proper) (hnext : next.Proper)
    (hjoins : piece.joins next = true) : (piece.merge next).Proper := by
  simp only [joins, Bool.and_eq_true, beq_iff_eq, stop] at hjoins
  obtain ⟨howner, hstop⟩ := hjoins
  have hle := hnext.stop_le
  rw [← howner] at hle
  simp only [stop] at hle
  constructor
  · exact Nat.add_pos_left hpiece.length_pos _
  · simp only [Piece.merge, stop]
    omega

theorem Proper.front {piece : Piece} (hpiece : piece.Proper) {count : Nat} (hpos : 0 < count)
    (hcount : count ≤ piece.length) : (piece.front count).Proper := by
  have hle := hpiece.stop_le
  simp only [stop] at hle
  constructor
  · exact hpos
  · simp only [Piece.front, stop]
    omega

theorem Proper.back {piece : Piece} (hpiece : piece.Proper) {count : Nat}
    (hcount : count < piece.length) : (piece.back count).Proper := by
  have hle := hpiece.stop_le
  simp only [stop] at hle
  constructor
  · exact Nat.sub_pos_of_lt hcount
  · simp only [Piece.back, stop]
    omega

end Piece

namespace Pieces

@[simp]
theorem cells_nil : cells [] = [] := rfl

@[simp]
theorem cells_cons (piece : Piece) (rest : List Piece) :
    cells (piece :: rest) = piece.cells ++ cells rest := rfl

@[simp]
theorem cells_append (left right : List Piece) :
    cells (left ++ right) = cells left ++ cells right := by
  simp [cells]

@[simp]
theorem length_cells (pieces : List Piece) : (cells pieces).length = size pieces := by
  induction pieces with
  | nil => rfl
  | cons piece rest ih => simp [ih]

/-! ## Cutting and joining -/

theorem cells_take (count : Nat) (pieces : List Piece) :
    cells (take count pieces) = (cells pieces).take count := by
  induction pieces generalizing count with
  | nil => simp [take]
  | cons piece rest ih =>
    simp only [take]
    split
    · simp_all
    · split
      · rename_i hlt
        rw [cells_cons, cells_nil, List.append_nil, Piece.cells_front (Nat.le_of_lt hlt),
          cells_cons, List.take_append_of_le_length (by simp; omega)]
      · have hle : piece.cells.length ≤ count := by
          rw [Piece.length_cells]
          omega
        rw [cells_cons, ih, cells_cons, List.take_append, List.take_of_length_le hle,
          Piece.length_cells]

theorem cells_drop (count : Nat) (pieces : List Piece) :
    cells (drop count pieces) = (cells pieces).drop count := by
  induction pieces generalizing count with
  | nil => simp [drop]
  | cons piece rest ih =>
    simp only [drop]
    split
    · rename_i hlt
      rw [cells_cons, Piece.cells_back, cells_cons,
        List.drop_append_of_le_length (by simp; omega)]
    · have hle : piece.cells.length ≤ count := by
        rw [Piece.length_cells]
        omega
      rw [ih, cells_cons, List.drop_append, List.drop_of_length_le hle, List.nil_append,
        Piece.length_cells]

theorem cells_slice (first last : Nat) (pieces : List Piece) :
    cells (slice first last pieces) = ((cells pieces).take last).drop first := by
  rw [slice, cells_drop, cells_take]

theorem cells_splice (left right : List Piece) :
    cells (splice left right) = cells left ++ cells right := by
  induction left with
  | nil => rfl
  | cons piece rest ih =>
    cases rest with
    | nil =>
      cases right with
      | nil => simp [splice]
      | cons next later =>
        simp only [splice]
        split
        · rename_i hjoins
          simp [Piece.cells_merge hjoins]
        · simp
    | cons next later =>
      simp only [splice, cells_cons] at ih ⊢
      rw [ih]
      simp

/-- Every piece has bytes, all of them bytes of its owner. -/
def Proper (pieces : List Piece) : Prop := ∀ piece ∈ pieces, piece.Proper

theorem proper_nil : Proper [] := fun _ hmem => nomatch hmem

theorem proper_cons {piece : Piece} {rest : List Piece} :
    Proper (piece :: rest) ↔ piece.Proper ∧ Proper rest := by
  simp [Proper]

theorem proper_append {left right : List Piece} :
    Proper (left ++ right) ↔ Proper left ∧ Proper right := by
  simp only [Proper, List.mem_append, or_imp, forall_and]

theorem Proper.take {pieces : List Piece} (hpieces : Proper pieces) (count : Nat) :
    Proper (take count pieces) := by
  induction pieces generalizing count with
  | nil => exact proper_nil
  | cons piece rest ih =>
    rw [proper_cons] at hpieces
    simp only [Pieces.take]
    split
    · exact proper_nil
    · split
      · rename_i hpos hlt
        exact proper_cons.2
          ⟨hpieces.1.front (Nat.pos_of_ne_zero hpos) (Nat.le_of_lt hlt), proper_nil⟩
      · exact proper_cons.2 ⟨hpieces.1, ih hpieces.2 _⟩

theorem Proper.drop {pieces : List Piece} (hpieces : Proper pieces) (count : Nat) :
    Proper (drop count pieces) := by
  induction pieces generalizing count with
  | nil => exact proper_nil
  | cons piece rest ih =>
    rw [proper_cons] at hpieces
    simp only [Pieces.drop]
    split
    · rename_i hlt
      exact proper_cons.2 ⟨hpieces.1.back hlt, hpieces.2⟩
    · exact ih hpieces.2 _

theorem Proper.slice {pieces : List Piece} (hpieces : Proper pieces) (first last : Nat) :
    Proper (slice first last pieces) :=
  (hpieces.take last).drop first

theorem Proper.splice {left right : List Piece} (hleft : Proper left) (hright : Proper right) :
    Proper (splice left right) := by
  induction left with
  | nil => exact hright
  | cons piece rest ih =>
    rw [proper_cons] at hleft
    cases rest with
    | nil =>
      cases right with
      | nil => exact proper_cons.2 hleft
      | cons next later =>
        rw [proper_cons] at hright
        simp only [Pieces.splice]
        split
        · rename_i hjoins
          exact proper_cons.2 ⟨hleft.1.merge hright.1 hjoins, hright.2⟩
        · exact proper_cons.2 ⟨hleft.1, proper_cons.2 hright⟩
    | cons next later => exact proper_cons.2 ⟨hleft.1, ih hleft.2⟩

/-- The bytes of proper pieces are read off their cells. -/
theorem Proper.bytes_eq {pieces : List Piece} (hpieces : Proper pieces) :
    bytes pieces = (cells pieces).map Cell.byte := by
  induction pieces with
  | nil => rfl
  | cons piece rest ih =>
    rw [proper_cons] at hpieces
    rw [cells_cons, List.map_append, ← ih hpieces.2, ← hpieces.1.bytes_eq]
    rfl

end Pieces

namespace PieceTable

theorem length_cells (table : PieceTable) : table.cells.length = table.size :=
  (Pieces.length_cells _).trans table.size_eq

theorem cells_ofPacket (packet : Packet) : (ofPacket packet).cells = packet.cells := by
  unfold ofPacket cells Packet.cells
  split
  · rename_i hsize
    simp [hsize]
  · simp [Piece.cells, List.range_eq_range']

theorem cells_truncate (table : PieceTable) (size : Nat) :
    (table.truncate size).cells = table.cells.take size :=
  Pieces.cells_take _ _

theorem cells_without (table : PieceTable) {first last : Nat} (hrange : first ≤ last)
    (hlast : last ≤ table.size) : (table.without first last hrange hlast).cells =
      table.cells.take first ++ table.cells.drop last := by
  simp only [cells, without, Pieces.cells_splice, Pieces.cells_take, Pieces.cells_drop]

theorem cells_splicedAt (table : PieceTable) (position : Nat) (piece : Piece) :
    (table.splicedAt position piece).cells =
      table.cells.take position ++ piece.cells ++ table.cells.drop position := by
  simp only [cells, splicedAt, Pieces.cells_splice, Pieces.cells_take, Pieces.cells_drop,
    Pieces.cells_cons, Pieces.cells_nil, List.append_nil]

/-- Up to the end of an inserted piece, a table has the bytes that were before it, then its own. -/
theorem take_cells_splicedAt {table : PieceTable} {position : Nat}
    (hposition : position ≤ table.size) (piece : Piece) :
    (table.splicedAt position piece).cells.take (position + piece.length) =
      table.cells.take position ++ piece.cells := by
  rw [cells_splicedAt, List.take_left']
  rw [List.length_append, List.length_take, length_cells, Piece.length_cells,
    Nat.min_eq_left hposition]

theorem drop_cells_splicedAt {table : PieceTable} {position : Nat}
    (hposition : position ≤ table.size) (piece : Piece) :
    (table.splicedAt position piece).cells.drop (position + piece.length) =
      table.cells.drop position := by
  rw [cells_splicedAt, List.drop_left']
  rw [List.length_append, List.length_take, length_cells, Piece.length_cells,
    Nat.min_eq_left hposition]

def Proper (table : PieceTable) : Prop := Pieces.Proper table.pieces

theorem proper_empty (format : BlockFormat) : (empty format).Proper := Pieces.proper_nil

theorem proper_ofPacket (packet : Packet) : (ofPacket packet).Proper := by
  unfold ofPacket Proper
  split
  · exact Pieces.proper_nil
  · rename_i hsize
    refine Pieces.proper_cons.2 ⟨⟨Nat.pos_of_ne_zero hsize, ?_⟩, Pieces.proper_nil⟩
    simp [Piece.stop]

/-- The bytes of a table of proper pieces are read off its cells. -/
theorem Proper.bytes_eq {table : PieceTable} (htable : table.Proper) :
    table.bytes = table.cells.map Cell.byte :=
  Pieces.Proper.bytes_eq htable

end PieceTable

namespace Segment

def cells (segment : Segment) : List Cell := segment.payload.cells

@[simp]
theorem length_cells (segment : Segment) : segment.cells.length = segment.size :=
  segment.payload.length_cells

end Segment

end Ccf
