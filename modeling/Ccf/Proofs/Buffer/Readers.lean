import Ccf.Proofs.Buffer.CanonicalForm
import Ccf.Proofs.Buffer.Copies

/-!
# What the readers of a piece table see

A reader finds its place by the piece that covers a position; what it answers is said here in terms
of the cells alone.  The piece at a position is the longest run of its packet's bytes from there on
(`RunsAhead`), since no piece continues the one before it.  For the same reason a piece starts
wherever a byte does not continue the byte before it (`Continues`).

Copying into a destination is done in place, piece by piece; a refusal comes before the first piece.
-/

namespace Ccf

/-- The cells begin with the bytes from `first` up to `last` of `owner`, and do not go on with the
byte after these. -/
structure RunsAhead (cells : List Cell) (owner : Packet) (first last : Nat) : Prop where
  nonempty : first < last
  begins : PieceTable.rangeCells owner first last <+: cells
  stops : ¬ PieceTable.rangeCells owner first (last + 1) <+: cells

/-- The byte at a position comes right after the byte before it in the same packet. -/
def Continues (cells : List Cell) (position : Nat) : Prop :=
  ∃ before cell, position = before + 1 ∧ cells[before]? = some cell ∧
    cells[position]? = some { cell with position := cell.position + 1 }

namespace PieceTable

theorem rangeCells_piece (piece : Piece) :
    rangeCells piece.owner piece.offset piece.stop = piece.cells := by
  rw [rangeCells, Piece.stop, Nat.add_sub_cancel_left]

theorem rangeCells_cons (owner : Packet) {first last : Nat} (hrange : first < last) :
    rangeCells owner first last =
      { owner := owner, position := first } :: rangeCells owner (first + 1) last := by
  have hlength : last - first = last - (first + 1) + 1 := by omega
  simp only [rangeCells, Piece.cells, hlength, List.range'_succ, List.map_cons]

theorem rangeCells_concat (owner : Packet) {first last : Nat} (hrange : first ≤ last) :
    rangeCells owner first (last + 1) =
      rangeCells owner first last ++ [{ owner := owner, position := last }] := by
  have hlength : last + 1 - first = last - first + 1 := by omega
  simp only [rangeCells, Piece.cells, hlength, List.range'_1_concat, List.map_append,
    List.map_singleton, Nat.add_sub_cancel' hrange]

theorem rangeCells_prefix (owner : Packet) (first : Nat) {last further : Nat}
    (hle : last ≤ further) : rangeCells owner first last <+: rangeCells owner first further := by
  induction hle with
  | refl => exact List.prefix_rfl
  | @step further hle ih =>
    by_cases hrange : first ≤ further
    · rw [Nat.succ_eq_add_one, rangeCells_concat owner hrange]
      exact ih.trans (List.prefix_append _ _)
    · have hnone : rangeCells owner first last = [] := by
        rw [rangeCells, ← List.length_eq_zero_iff, Piece.length_cells]
        exact Nat.sub_eq_zero_of_le (Nat.le_trans hle (Nat.le_of_not_le hrange))
      rw [hnone]
      exact List.nil_prefix

end PieceTable

/-- Cells begin with one longest run at most. -/
theorem RunsAhead.unique {cells : List Cell} {owner owner' : Packet} {first first' last last' : Nat}
    (hruns : RunsAhead cells owner first last) (hruns' : RunsAhead cells owner' first' last') :
    owner = owner' ∧ first = first' ∧ last = last' := by
  obtain ⟨rest, hrest⟩ := hruns.begins
  obtain ⟨rest', hrest'⟩ := hruns'.begins
  have hsame := hrest.trans hrest'.symm
  rw [PieceTable.rangeCells_cons owner hruns.nonempty,
    PieceTable.rangeCells_cons owner' hruns'.nonempty, List.cons_append, List.cons_append,
    List.cons.injEq, Cell.mk.injEq] at hsame
  obtain ⟨⟨rfl, rfl⟩, -⟩ := hsame
  refine ⟨rfl, rfl, ?_⟩
  obtain hless | heq | hmore := Nat.lt_trichotomy last last'
  · exact absurd ((PieceTable.rangeCells_prefix owner first hless).trans hruns'.begins) hruns.stops
  · exact heq
  · exact absurd ((PieceTable.rangeCells_prefix owner first hmore).trans hruns.begins) hruns'.stops

namespace Pieces

theorem drop_eq_nil_iff {pieces : List Piece} (hpieces : Proper pieces) {position : Nat} :
    drop position pieces = [] ↔ size pieces ≤ position := by
  have hsize := size_drop position pieces
  constructor
  · intro hnil
    rw [hnil, size_nil] at hsize
    omega
  · intro hle
    cases hdrop : drop position pieces with
    | nil => rfl
    | cons piece rest =>
      have hpos := (proper_cons.1 (hdrop ▸ hpieces.drop position)).1.length_pos
      rw [hdrop, size_cons] at hsize
      omega

/-- The piece at a position begins with the cell there. -/
theorem getElem?_cells_of_drop {pieces rest : List Piece} (hpieces : Proper pieces) {position : Nat}
    {piece : Piece} (hdrop : drop position pieces = piece :: rest) :
    (cells pieces)[position]? = some { owner := piece.owner, position := piece.offset } := by
  have hpos := (proper_cons.1 (hdrop ▸ hpieces.drop position)).1.length_pos
  have hfirst := getElem?_cells rest hpos
  rw [← hdrop, cells_drop, List.getElem?_drop, Nat.add_zero] at hfirst
  exact hfirst

/-- The first of pieces that do not continue each other is the longest run of its packet. -/
theorem runsAhead_cons {piece : Piece} {rest : List Piece} (hproper : Proper (piece :: rest))
    (happart : Apart (piece :: rest)) :
    RunsAhead (cells (piece :: rest)) piece.owner piece.offset piece.stop := by
  obtain ⟨hpiece, hrest⟩ := proper_cons.1 hproper
  have hrange : piece.offset < piece.stop := Nat.lt_add_of_pos_right hpiece.length_pos
  refine ⟨hrange, ?_, ?_⟩
  · rw [PieceTable.rangeCells_piece, cells_cons]
    exact List.prefix_append _ _
  · rw [PieceTable.rangeCells_concat _ (Nat.le_of_lt hrange), PieceTable.rangeCells_piece,
      cells_cons, List.prefix_append_right_inj]
    rintro ⟨others, hothers⟩
    cases rest with
    | nil => cases hothers
    | cons next later =>
      have hcell := getElem?_cells later (proper_cons.1 hrest).1.length_pos
      rw [← hothers, List.singleton_append, List.getElem?_cons_zero, Option.some.injEq,
        Cell.mk.injEq] at hcell
      have hjoins : piece.joins next = true := by
        simp only [Piece.joins, Bool.and_eq_true, beq_iff_eq]
        exact hcell
      rw [(apart_cons_cons.1 happart).1] at hjoins
      cases hjoins

/-! ## Where pieces start -/

/-- The piece that covers a position, and what is in front of it. -/
theorem exists_covering (pieces : List Piece) {position : Nat} (hposition : position < size pieces) :
    ∃ left piece right, pieces = left ++ piece :: right ∧ size left ≤ position ∧
      position < size left + piece.length := by
  induction pieces generalizing position with
  | nil => exact absurd hposition (Nat.not_lt_zero _)
  | cons piece rest ih =>
    by_cases hfirst : position < piece.length
    · exact ⟨[], piece, rest, rfl, Nat.zero_le _, by rwa [size_nil, Nat.zero_add]⟩
    · rw [size_cons] at hposition
      have hlater : position - piece.length < size rest := by omega
      obtain ⟨left, other, right, hrest, hstart, hstop⟩ := ih hlater
      refine ⟨piece :: left, other, right, by rw [hrest, List.cons_append], ?_, ?_⟩ <;>
        rw [size_cons] <;> omega

theorem getElem?_cells_append {left right : List Piece} {piece : Piece} {index : Nat}
    (hindex : index < piece.length) :
    (cells (left ++ piece :: right))[size left + index]? =
      some { owner := piece.owner, position := piece.offset + index } := by
  rw [cells_append, ← length_cells left, List.getElem?_append_right (Nat.le_add_right _ _),
    Nat.add_sub_cancel_left, getElem?_cells right hindex]

/-- A byte inside a piece continues the byte before it. -/
theorem continues_of_inside {left right : List Piece} {piece : Piece} {position : Nat}
    (hstart : size left < position) (hstop : position < size left + piece.length) :
    Continues (cells (left ++ piece :: right)) position := by
  obtain ⟨index, rfl⟩ := Nat.exists_eq_add_of_lt hstart
  have hindex : index + 1 < piece.length := by omega
  exact ⟨size left + index, _, rfl, getElem?_cells_append (Nat.lt_of_succ_lt hindex),
    getElem?_cells_append hindex⟩

/-- The first byte of a piece does not, as the piece would continue the one before it. -/
theorem not_continues_of_start {left right : List Piece} {piece : Piece}
    (hproper : Proper (left ++ piece :: right)) (happart : Apart (left ++ piece :: right)) :
    ¬ Continues (cells (left ++ piece :: right)) (size left) := by
  rintro ⟨before, cell, hbefore, hlast, hfirst⟩
  obtain ⟨hleft, hright⟩ := proper_append.1 hproper
  have hpiece : (cells (left ++ piece :: right))[size left + 0]? =
      some { owner := piece.owner, position := piece.offset + 0 } :=
    getElem?_cells_append (proper_cons.1 hright).1.length_pos
  rw [Nat.add_zero, hfirst, Option.some.injEq, Cell.mk.injEq] at hpiece
  obtain rfl | ⟨front, last, rfl⟩ := List.eq_nil_or_concat' left
  · cases hbefore
  have hpos := (proper_cons.1 (proper_append.1 hleft).2).1.length_pos
  rw [size_append, size_cons, size_nil, Nat.add_zero] at hbefore
  have hplace : before = size front + (last.length - 1) := by omega
  rw [List.append_assoc, List.singleton_append] at hlast happart
  rw [hplace, getElem?_cells_append (by omega), Option.some.injEq] at hlast
  have hjoins : last.joins piece = true := by
    subst hlast
    simp only at hpiece
    simp only [Piece.joins, Bool.and_eq_true, beq_iff_eq, Piece.stop]
    exact ⟨hpiece.1, by omega⟩
  rw [(List.isChain_append_cons_cons.1 happart).2.1] at hjoins
  cases hjoins

end Pieces

namespace PieceTable

variable {table : PieceTable} {position : Nat}

/-! ## The readers -/

/-- What is found at a position is the cell there. -/
theorem Proper.cell_of_locate? (htable : table.Proper) (position : Nat) :
    (table.locate? position).map (fun found => { owner := found.1, position := found.2.1 }) =
      table.cells[position]? := by
  rw [locate?]
  cases hdrop : Pieces.drop position table.pieces with
  | nil =>
    rw [eq_comm, List.head?_nil, Option.map_none, Option.map_none, List.getElem?_eq_none_iff,
      length_cells]
    exact table.size_eq.symm.trans_le ((Pieces.drop_eq_nil_iff htable).1 hdrop)
  | cons piece rest => exact (Pieces.getElem?_cells_of_drop htable hdrop).symm

/-- The range that is found at a position is the longest one from there on. -/
theorem locate?_eq_some_iff (hproper : table.Proper) (happart : table.Apart) {owner : Packet}
    {first last : Nat} :
    table.locate? position = some (owner, first, last) ↔
      RunsAhead (table.cells.drop position) owner first last := by
  rw [cells, ← Pieces.cells_drop, locate?]
  cases hdrop : Pieces.drop position table.pieces with
  | nil =>
    constructor
    · intro hnone
      cases hnone
    · intro hruns
      have hbegins := hruns.begins
      rw [rangeCells_cons owner hruns.nonempty] at hbegins
      exact absurd hbegins.length_le (by simp)
  | cons piece rest =>
    have hruns := Pieces.runsAhead_cons (hdrop ▸ Pieces.Proper.drop hproper position)
      (hdrop ▸ Pieces.Apart.drop happart position)
    rw [List.head?_cons, Option.map_some, Option.some.injEq, Prod.mk.injEq, Prod.mk.injEq]
    constructor
    · rintro ⟨rfl, rfl, rfl⟩
      exact hruns
    · exact hruns.unique

theorem Proper.position_lt {cell : Cell} (htable : table.Proper) (hcell : cell ∈ table.cells) :
    cell.position < cell.owner.size := by
  obtain ⟨piece, hpiece, hmem⟩ := List.mem_flatMap.1 hcell
  obtain ⟨howner, -, hlt⟩ := Piece.mem_cells.1 hmem
  rw [howner]
  exact Nat.lt_of_lt_of_le hlt (htable piece hpiece).stop_le

/-- Every cell names a byte. -/
theorem Proper.map_bytes (htable : table.Proper) :
    table.bytes.map some = table.cells.map fun cell => cell.owner.bytes[cell.position]? := by
  rw [htable.bytes_eq, List.map_map]
  apply List.map_congr_left
  intro cell hcell
  have hbound := htable.position_lt hcell
  rw [Packet.size] at hbound
  simp [Cell.byte, hbound]

theorem Proper.byteAt?_eq (htable : table.Proper) (position : Nat) :
    table.byteAt? position = table.bytes[position]? := by
  have hbytes := congrArg (fun bytes : List (Option UInt8) => bytes[position]?) htable.map_bytes
  have hcell := htable.cell_of_locate? position
  simp only [List.getElem?_map, ← hcell] at hbytes
  rw [byteAt?]
  cases hfound : table.locate? position with
  | none =>
    rw [hfound, Option.map_none, Option.map_none, Option.map_eq_none_iff] at hbytes
    exact hbytes.symm
  | some found =>
    obtain ⟨owner, offset, stop⟩ := found
    rw [hfound] at hbytes
    simp only [Option.map_some] at hbytes ⊢
    obtain ⟨byte, hbyte, heq⟩ := Option.map_eq_some_iff.1 hbytes
    rw [hbyte, ← heq]

theorem locate?_eq_none_iff (htable : table.Proper) :
    table.locate? position = none ↔ table.size ≤ position := by
  rw [← Option.map_eq_none_iff (f := fun found => Cell.mk found.1 found.2.1),
    htable.cell_of_locate?, List.getElem?_eq_none_iff, length_cells]

def StartsAt (table : PieceTable) (position : Nat) (piece : Piece) : Prop :=
  ∃ left right, table.pieces = left ++ piece :: right ∧ Pieces.size left = position

theorem startsAt_iff (htable : table.Proper) {piece : Piece} :
    table.StartsAt position piece ↔
      Pieces.isSeam position table.pieces = true ∧
        (Pieces.drop position table.pieces).head? = some piece := by
  rw [isSeam_iff]
  constructor
  · rintro ⟨left, right, hsplit, rfl⟩
    have hproper := Pieces.proper_append.1 (hsplit ▸ htable : Pieces.Proper (left ++ piece :: right))
    refine ⟨⟨left, piece :: right, hsplit, rfl⟩, ?_⟩
    rw [hsplit, drop_append_of_size hproper.2, List.head?_cons]
  · rintro ⟨⟨left, right, hsplit, rfl⟩, hhead⟩
    have hproper := Pieces.proper_append.1 (hsplit ▸ htable : Pieces.Proper (left ++ right))
    rw [hsplit, drop_append_of_size hproper.2] at hhead
    cases right with
    | nil => cases hhead
    | cons first right =>
      cases hhead
      exact ⟨left, right, hsplit, rfl⟩

/-- A packet is found where a piece starts with its first byte. -/
theorem packetAt?_eq_some_iff (htable : table.Proper) {owner : Packet} :
    table.packetAt? position = some owner ↔
      ∃ piece, table.StartsAt position piece ∧ piece.owner = owner ∧ piece.offset = 0 := by
  simp only [startsAt_iff htable, packetAt?]
  by_cases hseam : Pieces.isSeam position table.pieces = true
  · cases (Pieces.drop position table.pieces).head? with
    | none => simp [hseam]
    | some piece =>
      by_cases hoffset : piece.offset = 0 <;> simp [hseam, hoffset]
  · simp [hseam]

theorem StartsAt.cell {piece : Piece} (hproper : table.Proper)
    (hstarts : table.StartsAt position piece) :
    table.cells[position]? = some { owner := piece.owner, position := piece.offset } := by
  obtain ⟨left, right, hsplit, rfl⟩ := hstarts
  have hpiece := hproper piece (by rw [hsplit]; exact List.mem_append_right _ List.mem_cons_self)
  rw [cells, hsplit]
  exact Pieces.getElem?_cells_append hpiece.length_pos

/-- Pieces start at the bytes that do not continue the byte before them. -/
theorem exists_startsAt_iff (hproper : table.Proper) (happart : table.Apart) :
    (∃ piece, table.StartsAt position piece) ↔
      position < table.size ∧ ¬ Continues table.cells position := by
  constructor
  · rintro ⟨piece, hstarts⟩
    obtain ⟨hbound, -⟩ := List.getElem?_eq_some_iff.1 (hstarts.cell hproper)
    rw [length_cells] at hbound
    obtain ⟨left, right, hsplit, rfl⟩ := hstarts
    refine ⟨hbound, ?_⟩
    rw [cells, hsplit]
    exact Pieces.not_continues_of_start (hsplit ▸ hproper) (hsplit ▸ happart)
  · rintro ⟨hbound, hstart⟩
    rw [← table.size_eq] at hbound
    obtain ⟨left, piece, right, hsplit, hle, hlt⟩ := Pieces.exists_covering table.pieces hbound
    obtain heq | hinside := Nat.eq_or_lt_of_le hle
    · exact ⟨piece, left, right, hsplit, heq⟩
    · rw [cells, hsplit] at hstart
      exact absurd (Pieces.continues_of_inside hinside hlt) hstart

/-- A packet is found at its first byte, if a piece starts there. -/
theorem packetAt?_eq_some_iff_cell (hproper : table.Proper) (happart : table.Apart)
    {owner : Packet} :
    table.packetAt? position = some owner ↔
      table.cells[position]? = some { owner := owner, position := 0 } ∧
        ¬ Continues table.cells position := by
  rw [packetAt?_eq_some_iff hproper]
  constructor
  · rintro ⟨piece, hstarts, rfl, hoffset⟩
    have hcell := hstarts.cell hproper
    rw [hoffset] at hcell
    exact ⟨hcell, ((exists_startsAt_iff hproper happart).1 ⟨piece, hstarts⟩).2⟩
  · rintro ⟨hcell, hstart⟩
    have hbound := (List.getElem?_eq_some_iff.1 hcell).1
    rw [length_cells] at hbound
    obtain ⟨piece, hstarts⟩ := (exists_startsAt_iff hproper happart).2 ⟨hbound, hstart⟩
    have hsame := hstarts.cell hproper
    rw [hcell, Option.some.injEq, Cell.mk.injEq] at hsame
    exact ⟨piece, hstarts, hsame.1.symm, hsame.2.symm⟩

theorem copyTo_of_range (htable : table.Proper) {first last : Nat} (hrange : first ≤ last)
    (hlast : last ≤ table.size) (destination : List UInt8) :
    table.copyTo first last destination =
      .ok (last - first, destination ++ (table.bytes.take last).drop first) := by
  have hcheck : checkRange table.size first last = .ok () :=
    checkRange_eq_ok_iff.2 ⟨hrange, hlast⟩
  have hbytes : Pieces.bytes (Pieces.slice first last table.pieces) =
      (table.bytes.take last).drop first := by
    rw [(Pieces.Proper.slice htable first last).bytes_eq, Pieces.cells_slice, htable.bytes_eq,
      List.map_drop, List.map_take, cells]
  simp only [copyTo, hcheck, hbytes]

def appendPieces : List Piece → EStateM BufferError (List UInt8) Unit
  | [] => pure ()
  | piece :: later => do
    modify fun destination => destination ++ piece.bytes
    appendPieces later

/-- Put the bytes from `first` up to `last` after those of a destination, piece by piece. -/
def copyInPlace (table : PieceTable) (first last : Nat) : EStateM BufferError (List UInt8) Nat :=
  match checkRange table.size first last with
  | .error fault => throw fault
  | .ok () => do
    appendPieces (Pieces.clips first last table.pieces)
    pure (last - first)

theorem run_appendPieces (pieces : List Piece) (destination : List UInt8) :
    (appendPieces pieces).run destination = .ok () (destination ++ Pieces.bytes pieces) := by
  induction pieces generalizing destination with
  | nil => simp [appendPieces, Pieces.bytes]
  | cons piece later ih =>
    rw [appendPieces, EStateM.run_bind, EStateM.run_modify]
    simp only
    rw [ih, List.append_assoc]
    rfl

/-- In place, the same bytes are copied, and a refusal leaves the destination alone. -/
theorem run_copyInPlace (htable : table.Proper) (first last : Nat) (destination : List UInt8) :
    (table.copyInPlace first last).run destination =
      match table.copyTo first last destination with
      | .ok (count, copied) => .ok count copied
      | .error fault => .error fault destination := by
  rw [copyInPlace, copyTo]
  cases checkRange table.size first last with
  | error fault => rfl
  | ok =>
    simp only
    rw [EStateM.run_bind, run_appendPieces, Pieces.slice_eq_clips htable]
    rfl

/-! ## All readers -/

/-- What each reader answers, in terms of the cells of the table. -/
structure ReadsCells (table : PieceTable) : Prop where
  bytes : table.bytes.map some = table.cells.map fun cell => cell.owner.bytes[cell.position]?
  /-- The bytes of a single piece are a range of its packet as it stands. -/
  single (piece : Piece) (hsingle : table.pieces = [piece]) :
    table.bytes = piece.owner.slice piece.offset piece.stop
  copied (first last : Nat) (destination : List UInt8) (hrange : first ≤ last)
    (hlast : last ≤ table.size) :
    (table.copyInPlace first last).run destination =
      .ok (last - first) (destination ++ (table.bytes.take last).drop first)
  refused (first last : Nat) (destination : List UInt8)
    (houtside : ¬ (first ≤ last ∧ last ≤ table.size)) :
    ∃ fault, (table.copyInPlace first last).run destination = .error fault destination
  copies (first last : Nat) (destination : List UInt8) :
    (table.copyInPlace first last).run destination =
      match table.copyTo first last destination with
      | .ok (count, copied) => .ok count copied
      | .error fault => .error fault destination
  byte (position : Nat) : table.byteAt? position = table.bytes[position]?
  range (position : Nat) (owner : Packet) (first last : Nat) :
    table.locate? position = some (owner, first, last) ↔
      RunsAhead (table.cells.drop position) owner first last
  outside (position : Nat) : table.locate? position = none ↔ table.size ≤ position
  packet (position : Nat) (owner : Packet) :
    table.packetAt? position = some owner ↔
      table.cells[position]? = some { owner := owner, position := 0 } ∧
        ¬ Continues table.cells position
  start (position : Nat) :
    (∃ piece, table.StartsAt position piece) ↔
      position < table.size ∧ ¬ Continues table.cells position

/-- **All readers see the same bytes.** On every table that edits lead to, the readers answer what
the cells say, wherever the seams are. -/
theorem readsCells {table : PieceTable} (htable : table.Reachable) : table.ReadsCells where
  bytes := htable.proper.map_bytes
  single piece hsingle := by
    rw [PieceTable.bytes, hsingle, Pieces.bytes, List.flatMap_singleton, Piece.bytes]
  copied first last destination hrange hlast := by
    rw [run_copyInPlace htable.proper, copyTo_of_range htable.proper hrange hlast]
  refused first last destination houtside := by
    rw [run_copyInPlace htable.proper, copyTo]
    cases hcheck : checkRange table.size first last with
    | error fault => exact ⟨fault, rfl⟩
    | ok => exact absurd (checkRange_eq_ok_iff.1 hcheck) houtside
  copies := run_copyInPlace htable.proper
  byte := htable.proper.byteAt?_eq
  range _ _ _ _ := locate?_eq_some_iff htable.proper htable.apart
  outside _ := locate?_eq_none_iff htable.proper
  packet _ _ := packetAt?_eq_some_iff_cell htable.proper htable.apart
  start _ := exists_startsAt_iff htable.proper htable.apart

/-- A packet cut in the middle, with the end of another one between its parts. -/
theorem readsCells_parted :
    let packet := Packet.raw 0 [1, 2, 3, 4, 5]
    let other := Packet.raw 1 [6, 7]
    let table := (((ofPacket packet).perform (.insert 2 other 0 2)).1.perform (.erase 1 3)).1
    table.Reachable ∧ table.bytes = [1, 7, 3, 4, 5] ∧
      (table.copyInPlace 1 4).run [9] = .ok 3 [9, 7, 3, 4] ∧
      (∃ fault, (table.copyInPlace 4 6).run [9] = .error fault [9]) ∧
      table.byteAt? 4 = some 5 ∧ RunsAhead (table.cells.drop 3) packet 3 5 ∧
      table.packetAt? 0 = some packet ∧ ¬ Continues table.cells 0 ∧ table.packetAt? 2 = none ∧
      ¬ Continues table.cells 2 := by
  intro packet other table
  have hinserted : ((ofPacket packet).perform (.insert 2 other 0 2)).1.Reachable :=
    .edit _ (.ofPacket packet) nofun
  have htable : table.Reachable := .edit _ hinserted nofun
  have hreads := readsCells htable
  have hbytes : table.bytes = [1, 7, 3, 4, 5] := by decide
  have hpacket : table.packetAt? 0 = some packet := by decide
  have hstarts : table.StartsAt 2 { owner := packet, offset := 2, length := 3 } :=
    ⟨table.pieces.take 2, [], by decide, by decide⟩
  refine ⟨htable, hbytes, ?_, hreads.refused 4 6 [9] (by decide), ?_,
    (hreads.range 3 packet 3 5).1 (by decide), hpacket, ((hreads.packet 0 packet).1 hpacket).2,
    by decide, ((hreads.start 2).1 ⟨_, hstarts⟩).2⟩
  · rw [hreads.copied 1 4 [9] (by decide) (by decide), hbytes]
    rfl
  · rw [hreads.byte, hbytes]
    rfl

end PieceTable

end Ccf
