import Ccf.Buffer.Reading
import Ccf.Proofs.Buffer.Edits

/-!
# Copying ranges by reference

A range of one table is put into another piece by piece.  The pieces go in one behind the other,
wherever the position and the ends of the range cut the two tables, so the cells of the range come
to stand at the position.  When a piece is refused, the ones before it stay.

`Pieces.clips` says of each piece of a source which part of it lies in the range.  The source is
only read: it is no part of what a copy leaves behind.
-/

namespace Ccf

namespace Piece

/-- The part of a piece between two positions, counted from where the piece starts. -/
def clip (first last : Nat) (piece : Piece) : Piece :=
  (piece.front (min last piece.length)).back first

end Piece

namespace Pieces

/-- The parts of pieces that lie between two positions, as far as they have bytes. -/
def clips (first last : Nat) : List Piece → List Piece
  | [] => []
  | piece :: rest =>
    let part := piece.clip first last
    let later := clips (first - piece.length) (last - piece.length) rest
    if 0 < part.length then part :: later else later

theorem drop_zero {pieces : List Piece} (hpieces : Proper pieces) : drop 0 pieces = pieces := by
  cases pieces with
  | nil => rfl
  | cons piece rest => exact if_pos (proper_cons.1 hpieces).1.length_pos

theorem clips_of_le {first last : Nat} (hrange : last ≤ first) (pieces : List Piece) :
    clips first last pieces = [] := by
  induction pieces generalizing first last with
  | nil => rfl
  | cons piece rest ih =>
    have hnone : ¬ 0 < (piece.clip first last).length := by
      simp only [Piece.clip, Piece.back, Piece.front]
      omega
    rw [clips, if_neg hnone]
    exact ih (Nat.sub_le_sub_right hrange _)

/-- Cutting a list at both ends leaves of each piece the part that lies in between. -/
theorem slice_eq_clips {pieces : List Piece} (hpieces : Proper pieces) (first last : Nat) :
    slice first last pieces = clips first last pieces := by
  induction pieces generalizing first last with
  | nil => rfl
  | cons piece rest ih =>
    obtain ⟨hpiece, hrest⟩ := proper_cons.1 hpieces
    have hpos := hpiece.length_pos
    have hlength : (piece.clip first last).length = min last piece.length - first := rfl
    rw [slice, take, clips, hlength]
    by_cases hnone : last = 0
    · rw [if_pos hnone, if_neg (by omega), clips_of_le (by omega)]
      rfl
    rw [if_neg hnone]
    by_cases hshort : last < piece.length
    · -- The range ends inside the first piece.
      have hmin : min last piece.length = last := Nat.min_eq_left (Nat.le_of_lt hshort)
      have hfront : (piece.front last).length = last := rfl
      rw [if_pos hshort, clips_of_le (by omega), drop, hfront, Piece.clip, hmin]
      by_cases hfirst : first < last
      · rw [if_pos hfirst, if_pos (by omega)]
      · rw [if_neg hfirst, if_neg (by omega)]
        rfl
    · rw [if_neg hshort, drop]
      have hmin : min last piece.length = piece.length := Nat.min_eq_right (Nat.le_of_not_lt hshort)
      rw [Piece.clip, hmin]
      by_cases hfirst : first < piece.length
      · have hstart : first - piece.length = 0 := Nat.sub_eq_zero_of_le (Nat.le_of_lt hfirst)
        rw [if_pos hfirst, if_pos (by omega), hstart, ← ih hrest, slice, drop_zero (hrest.take _)]
        rfl
      · rw [if_neg hfirst, if_neg (by omega), ← ih hrest, slice]

end Pieces

namespace PieceTable

/-- A proper piece is put in, or the position is beyond the end, or the piece shares bytes with
one at the position. -/
theorem insert_piece {table : PieceTable} (htable : table.Proper) (position : Nat) {piece : Piece}
    (hpiece : piece.Proper)
    [Decidable (table.SharesAt position piece.owner piece.offset piece.stop)] :
    table.insert position piece.owner piece.offset piece.stop =
      if table.size < position then .error (.outOfRange position table.size)
      else if table.SharesAt position piece.owner piece.offset piece.stop then
        .error (.overlap piece.offset piece.stop)
      else .ok (table.splicedAt position piece, true) := by
  have hpos := hpiece.length_pos
  have hrange : piece.offset < piece.stop := Nat.lt_add_of_pos_right hpos
  have hcheck : checkRange piece.owner.size piece.offset piece.stop = .ok () :=
    checkRange_eq_ok_iff.2 ⟨Nat.le_of_lt hrange, hpiece.stop_le⟩
  have hlength : piece.stop - piece.offset = piece.length := Nat.add_sub_cancel_left _ _
  simp only [insert, hcheck, sharesAt_iff htable hrange, hlength, if_neg (Nat.ne_of_lt hrange)]

/-- Pieces have been put in from a position on.  If one was refused, those before it are in place,
and the refused one shares bytes with a piece where it was to go. -/
structure PutsIn (table : PieceTable) (position : Nat) (pieces : List Piece) (written : Nat)
    (outcome : PieceTable × Except BufferError Nat) : Prop where
  all (count : Nat) (hall : outcome.2 = .ok count) :
    count = written + Pieces.size pieces ∧
      outcome.1.cells =
        table.cells.take position ++ Pieces.cells pieces ++ table.cells.drop position
  some (fault : BufferError) (hfault : outcome.2 = .error fault) :
    ∃ done piece later, pieces = done ++ piece :: later ∧
      outcome.1.cells =
        table.cells.take position ++ Pieces.cells done ++ table.cells.drop position ∧
      fault = .overlap piece.offset piece.stop ∧
      outcome.1.SharesAt (position + Pieces.size done) piece.owner piece.offset piece.stop

theorem PutsIn.nil (table : PieceTable) (position written : Nat) :
    PutsIn table position [] written (table, .ok written) where
  all count hall := by
    cases hall
    exact ⟨rfl, by rw [Pieces.cells_nil, List.append_nil, List.take_append_drop]⟩
  some fault hfault := by cases hfault

theorem PutsIn.refused {table : PieceTable} {position : Nat} {piece : Piece} (rest : List Piece)
    (written : Nat) (hshares : table.SharesAt position piece.owner piece.offset piece.stop) :
    PutsIn table position (piece :: rest) written
      (table, .error (.overlap piece.offset piece.stop)) where
  all count hall := by cases hall
  some fault hfault := by
    cases hfault
    exact ⟨[], piece, rest, rfl, by rw [Pieces.cells_nil, List.append_nil, List.take_append_drop],
      rfl, hshares⟩

/-- What is put in behind a piece that is in place. -/
theorem PutsIn.cons {table : PieceTable} {position : Nat} (hposition : position ≤ table.size)
    {piece : Piece} {rest : List Piece} {written : Nat}
    {outcome : PieceTable × Except BufferError Nat}
    (hrest : PutsIn (table.splicedAt position piece) (position + piece.length) rest
      (written + piece.length) outcome) :
    PutsIn table position (piece :: rest) written outcome where
  all count hall := by
    obtain ⟨hcount, hcells⟩ := hrest.all count hall
    rw [take_cells_splicedAt hposition, drop_cells_splicedAt hposition] at hcells
    refine ⟨by rw [hcount, Pieces.size_cons, Nat.add_assoc], ?_⟩
    rw [hcells, Pieces.cells_cons, List.append_assoc (table.cells.take position)]
  some fault hfault := by
    obtain ⟨done, refused, later, hsplit, hcells, hoverlap, hshares⟩ := hrest.some fault hfault
    rw [take_cells_splicedAt hposition, drop_cells_splicedAt hposition] at hcells
    refine ⟨piece :: done, refused, later, by rw [hsplit, List.cons_append], ?_, hoverlap, ?_⟩
    · rw [hcells, Pieces.cells_cons, List.append_assoc (table.cells.take position)]
    · rwa [Pieces.size_cons, ← Nat.add_assoc]

/-- Wherever the pieces that are in place have landed, the next one goes right behind them. -/
theorem insertPieces_putsIn {pieces : List Piece} (hpieces : Pieces.Proper pieces)
    {table : PieceTable} (htable : table.Proper) {position written : Nat}
    (hposition : position + written ≤ table.size) :
    PutsIn table (position + written) pieces written
      (table.insertPieces position written pieces) := by
  classical
  induction pieces generalizing table written with
  | nil => exact .nil table (position + written) written
  | cons piece rest ih =>
    obtain ⟨hpiece, hrest⟩ := Pieces.proper_cons.1 hpieces
    rw [insertPieces, insert_piece htable _ hpiece, if_neg (Nat.not_lt.2 hposition)]
    by_cases hshares : table.SharesAt (position + written) piece.owner piece.offset piece.stop
    · rw [if_pos hshares]
      exact .refused rest written hshares
    · rw [if_neg hshares]
      have hgrown := preservedByChanges_proper.splicedAt (position + written) htable hpiece
      have hsize : (table.splicedAt (position + written) piece).size =
          table.size + piece.length := rfl
      have hplace : position + (written + piece.length) ≤
          (table.splicedAt (position + written) piece).size := by omega
      have hbehind := ih hrest hgrown hplace
      rw [← Nat.add_assoc] at hbehind
      exact .cons hposition hbehind

/-! ## Ranges -/

/-- What putting a range of another table in does to the cells, and where it stops. -/
structure CopiesCells (table : PieceTable) (position : Nat) (source : PieceTable)
    (first last : Nat) (outcome : PieceTable × Except BufferError Nat) : Prop where
  invalidRange (hrange : last < first) : outcome = (table, .error (.invalidRange first last))
  beyondSource (hrange : first ≤ last) (hlast : source.size < last) :
    outcome = (table, .error (.outOfRange last source.size))
  nothing (hrange : first = last) (hlast : last ≤ source.size) : outcome = (table, .ok 0)
  beyondTable (hrange : first < last) (hlast : last ≤ source.size)
    (hposition : table.size < position) :
    outcome = (table, .error (.outOfRange position table.size))
  copied (count : Nat) (hcopied : outcome.2 = .ok count) :
    count = last - first ∧
      outcome.1.cells =
        table.cells.take position ++ (source.cells.take last).drop first ++
          table.cells.drop position
  stopped (hrange : first ≤ last) (hlast : last ≤ source.size) (hposition : position ≤ table.size)
    (fault : BufferError) (hfault : outcome.2 = .error fault) :
    ∃ done piece later, Pieces.clips first last source.pieces = done ++ piece :: later ∧
      Pieces.cells done <+: (source.cells.take last).drop first ∧
      outcome.1.cells =
        table.cells.take position ++ Pieces.cells done ++ table.cells.drop position ∧
      fault = .overlap piece.offset piece.stop ∧
      outcome.1.SharesAt (position + Pieces.size done) piece.owner piece.offset piece.stop

theorem insertRange_of_range {table source : PieceTable} (hsource : source.Proper)
    (position : Nat) {first last : Nat} (hrange : first ≤ last) (hlast : last ≤ source.size) :
    table.insertRange position source first last =
      table.insertPieces position 0 (Pieces.clips first last source.pieces) := by
  have hcheck : checkRange source.size first last = .ok () :=
    checkRange_eq_ok_iff.2 ⟨hrange, hlast⟩
  simp only [insertRange, hcheck, Pieces.slice_eq_clips hsource]

theorem proper_clips {source : PieceTable} (hsource : source.Proper) (first last : Nat) :
    Pieces.Proper (Pieces.clips first last source.pieces) := by
  rw [← Pieces.slice_eq_clips hsource]
  exact Pieces.Proper.slice hsource first last

/-- The clipped parts of a range are as long as the range. -/
theorem size_clips {source : PieceTable} (hsource : source.Proper) (first : Nat) {last : Nat}
    (hlast : last ≤ source.size) :
    Pieces.size (Pieces.clips first last source.pieces) = last - first := by
  rw [← Pieces.slice_eq_clips hsource, Pieces.size_slice, source.size_eq, Nat.min_eq_left hlast]

theorem cells_clips {source : PieceTable} (hsource : source.Proper) (first last : Nat) :
    Pieces.cells (Pieces.clips first last source.pieces) =
      (source.cells.take last).drop first := by
  rw [← Pieces.slice_eq_clips hsource, Pieces.cells_slice]
  rfl

theorem insertRange_of_empty {source : PieceTable} (table : PieceTable) (hsource : source.Proper)
    (position : Nat) {bound : Nat} (hbound : bound ≤ source.size) :
    table.insertRange position source bound bound = (table, .ok 0) := by
  rw [insertRange_of_range hsource position (Nat.le_refl bound) hbound,
    Pieces.clips_of_le (Nat.le_refl bound), insertPieces]

theorem insertRange_of_beyond {table source : PieceTable} (htable : table.Proper)
    (hsource : source.Proper) {position first last : Nat} (hrange : first < last)
    (hlast : last ≤ source.size) (hposition : table.size < position) :
    table.insertRange position source first last =
      (table, .error (.outOfRange position table.size)) := by
  classical
  have hproper := proper_clips hsource first last
  have hsize := size_clips hsource first hlast
  rw [insertRange_of_range hsource position (Nat.le_of_lt hrange) hlast]
  cases hclips : Pieces.clips first last source.pieces with
  | nil =>
    rw [hclips, Pieces.size_nil] at hsize
    omega
  | cons piece rest =>
    rw [hclips] at hproper
    rw [insertPieces, insert_piece htable _ (Pieces.proper_cons.1 hproper).1,
      if_pos (by omega)]
    rfl

/-- Within the tables, the clipped pieces go in one behind the other. -/
theorem insertRange_putsIn {table source : PieceTable} (htable : table.Proper)
    (hsource : source.Proper) {position first last : Nat} (hrange : first ≤ last)
    (hlast : last ≤ source.size) (hposition : position ≤ table.size) :
    PutsIn table position (Pieces.clips first last source.pieces) 0
      (table.insertRange position source first last) := by
  have hplace : position + 0 ≤ table.size := hposition
  rw [insertRange_of_range hsource position hrange hlast]
  exact insertPieces_putsIn (proper_clips hsource first last) htable hplace

/-- What is copied is a range of the source. -/
theorem range_of_insertRange {table source : PieceTable} {position first last count : Nat}
    (hcopied : (table.insertRange position source first last).2 = .ok count) :
    first ≤ last ∧ last ≤ source.size := by
  rw [insertRange] at hcopied
  cases hcheck : checkRange source.size first last with
  | error fault =>
    rw [hcheck] at hcopied
    cases hcopied
  | ok => exact checkRange_eq_ok_iff.1 hcheck

theorem cells_insertRange {table source : PieceTable} (htable : table.Proper)
    (hsource : source.Proper) {position first last count : Nat}
    (hcopied : (table.insertRange position source first last).2 = .ok count) :
    count = last - first ∧
      (table.insertRange position source first last).1.cells =
        table.cells.take position ++ (source.cells.take last).drop first ++
          table.cells.drop position := by
  obtain ⟨hrange, hlast⟩ := range_of_insertRange hcopied
  by_cases hposition : position ≤ table.size
  · obtain ⟨hcount, hcells⟩ :=
      (insertRange_putsIn htable hsource hrange hlast hposition).all count hcopied
    rw [size_clips hsource first hlast, Nat.zero_add] at hcount
    rw [cells_clips hsource] at hcells
    exact ⟨hcount, hcells⟩
  · -- Beyond the end only an empty range can be put, and it changes nothing.
    obtain rfl | hmore := Nat.eq_or_lt_of_le hrange
    · rw [insertRange_of_empty table hsource position hlast] at hcopied ⊢
      cases hcopied
      have hnone : (source.cells.take first).drop first = [] :=
        List.drop_eq_nil_iff.2 (List.length_take_le _ _)
      exact ⟨(Nat.sub_self first).symm, by rw [hnone, List.append_nil, List.take_append_drop]⟩
    · rw [insertRange_of_beyond htable hsource hmore hlast (Nat.lt_of_not_le hposition)] at hcopied
      cases hcopied

/-- **A range is copied by reference.** Whatever seams the position and the ends of the range fall
on, and also if a table is copied into itself, the cells of the range come to stand at the position;
a copy that is refused leaves some of the clipped pieces there, all of them whole, or nothing. -/
theorem insertRange_copiesCells {table source : PieceTable} (htable : table.Reachable)
    (hsource : source.Reachable) (position first last : Nat) :
    CopiesCells table position source first last
      (table.insertRange position source first last) where
  invalidRange hrange := by simp only [insertRange, checkRange, if_pos hrange]
  beyondSource hrange hlast := by
    simp only [insertRange, checkRange, if_neg (Nat.not_lt.2 hrange), if_pos hlast]
  nothing hrange hlast := by
    rw [hrange, insertRange_of_empty table hsource.proper position hlast]
  beyondTable := insertRange_of_beyond htable.proper hsource.proper
  copied _ := cells_insertRange htable.proper hsource.proper
  stopped hrange hlast hposition fault hfault := by
    obtain ⟨done, piece, later, hclips, hstopped⟩ :=
      (insertRange_putsIn htable.proper hsource.proper hrange hlast hposition).some fault hfault
    refine ⟨done, piece, later, hclips, ?_, hstopped⟩
    rw [← cells_clips hsource.proper, hclips, Pieces.cells_append]
    exact List.prefix_append _ _

/-- A table copied into itself: once with success, and once up to a piece that would lie beside
bytes it shares. -/
theorem insertRange_copiesCells_self :
    let packet := Packet.raw 0 [1, 2, 3, 4, 5]
    let other := Packet.raw 1 [6, 7]
    let table := ((ofPacket packet).perform (.insert 2 other 0 2)).1
    table.Reachable ∧
      (table.insertRange 1 table 0 3).2 = .ok 3 ∧
      (table.insertRange 1 table 0 3).1.cells =
        table.cells.take 1 ++ (table.cells.take 3).drop 0 ++ table.cells.drop 1 ∧
      (table.insertRange 3 table 1 6).2 = .error (.overlap 0 2) ∧
      (table.insertRange 3 table 1 6).1.size = table.size + 1 ∧
      ∃ done piece later, Pieces.clips 1 6 table.pieces = done ++ piece :: later ∧
        (table.insertRange 3 table 1 6).1.cells =
          table.cells.take 3 ++ Pieces.cells done ++ table.cells.drop 3 := by
  intro packet other table
  have htable : table.Reachable := .edit _ (.ofPacket packet) nofun
  have hwhole : (table.insertRange 1 table 0 3).2 = .ok 3 := by decide
  have hhalf : (table.insertRange 3 table 1 6).2 = .error (.overlap 0 2) := by decide
  have hcopied := (insertRange_copiesCells htable htable 1 0 3).copied 3 hwhole
  obtain ⟨done, piece, later, hclips, -, hcells, -, -⟩ :=
    (insertRange_copiesCells htable htable 3 1 6).stopped (by decide) (by decide) (by decide) _
      hhalf
  exact ⟨htable, hwhole, hcopied.2, hhalf, by decide, done, piece, later, hclips, hcells⟩

end PieceTable

end Ccf
