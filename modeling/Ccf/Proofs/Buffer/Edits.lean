import Ccf.Proofs.Buffer.Cells

/-!
# Edits of a piece table as edits of its cells

Sequences of edits lead from an empty table, or from the table of one packet, to the tables that a
program can have.  On all of these an insertion, a removal and a truncation do to the cells what the
same edit does to a list, and each fault has its exact condition.  An insertion can be refused
although its arguments are in range: `PieceTable.SharesAt` says when.

An insertion of a range of another table is made piece by piece and may be left half done; it is an
edit like the others here, but only the three above are described.
-/

namespace Ccf

inductive Edit where
  | insert (position : Nat) (owner : Packet) (first last : Nat)
  | erase (first last : Nat)
  | resize (size : Nat)
  | clear
  | insertRange (position : Nat) (source : PieceTable) (first last : Nat)

def Edit.source? : Edit → Option PieceTable
  | .insertRange _ source _ _ => some source
  | _ => none

inductive EditAnswer where
  | present (present : Bool)
  | count (bytes : Nat)
  | done
deriving DecidableEq, Repr

namespace PieceTable

/-- Replace a table by the result of an edit, unless the edit is refused. -/
def replaceBy {Value : Type} (table : PieceTable) (result : Except BufferError Value)
    (next : Value → PieceTable) (answer : Value → EditAnswer) :
    PieceTable × Except BufferError EditAnswer :=
  match result with
  | .error fault => (table, .error fault)
  | .ok value => (next value, .ok (answer value))

def perform (table : PieceTable) : Edit → PieceTable × Except BufferError EditAnswer
  | .insert position owner first last =>
    table.replaceBy (table.insert position owner first last) Prod.fst (.present ∘ Prod.snd)
  | .erase first last => table.replaceBy (table.erase first last) id fun _ => .done
  | .resize size => table.replaceBy (table.resize size) id fun _ => .done
  | .clear => (table.clear, .ok .done)
  | .insertRange position source first last =>
    let (result, answer) := table.insertRange position source first last
    (result, answer.map .count)

/-- The tables that sequences of edits lead to. -/
inductive Reachable : PieceTable → Prop where
  | empty (format : BlockFormat) : Reachable (empty format)
  | ofPacket (packet : Packet) : Reachable (ofPacket packet)
  | edit {table : PieceTable} (edit : Edit) (htable : Reachable table)
      (hsource : ∀ source, edit.source? = some source → Reachable source) :
      Reachable (table.perform edit).1

/-! ## What edits preserve -/

/-- A property of tables that stays true when a proper piece is put in, when bytes are taken out,
when the end is cut off and when nothing is left. -/
structure PreservedByChanges (holds : PieceTable → Prop) : Prop where
  splicedAt : ∀ {table : PieceTable} (position : Nat) {piece : Piece}, holds table →
    piece.Proper → holds (table.splicedAt position piece)
  without : ∀ {table : PieceTable} {first last : Nat} (hrange : first ≤ last)
    (hlast : last ≤ table.size), holds table → holds (table.without first last hrange hlast)
  truncate : ∀ {table : PieceTable} (size : Nat), holds table → holds (table.truncate size)
  clear : ∀ {table : PieceTable}, holds table → holds table.clear

section PreservedByChanges

variable {holds : PieceTable → Prop} (hholds : PreservedByChanges holds) {table : PieceTable}
  (htable : holds table)
include hholds htable

theorem PreservedByChanges.insert {result : PieceTable} {position first last : Nat}
    {owner : Packet} {present : Bool}
    (hinsert : table.insert position owner first last = .ok (result, present)) :
    holds result := by
  simp only [PieceTable.insert] at hinsert
  split at hinsert
  · cases hinsert
  · rename_i hrange
    rw [checkRange_eq_ok_iff] at hrange
    split at hinsert
    · cases hinsert
      exact htable
    · split at hinsert
      · cases hinsert
      · split at hinsert
        · cases hinsert
        · cases hinsert
          refine hholds.splicedAt position htable ⟨?_, ?_⟩
          · exact Nat.sub_pos_of_lt (by omega)
          · simp only [Piece.stop]
            omega

theorem PreservedByChanges.erase {result : PieceTable} {first last : Nat}
    (herase : table.erase first last = .ok result) : holds result := by
  simp only [PieceTable.erase] at herase
  split at herase
  · cases herase
    exact htable
  · split at herase
    · cases herase
    · split at herase
      · cases herase
      · cases herase
        exact hholds.without _ _ htable

theorem PreservedByChanges.resize {result : PieceTable} {size : Nat}
    (hresize : table.resize size = .ok result) : holds result := by
  simp only [PieceTable.resize] at hresize
  split at hresize
  · cases hresize
  · cases hresize
    exact hholds.truncate size htable

omit htable in
/-- The pieces that are in place when one is refused stay. -/
theorem PreservedByChanges.insertPieces (pieces : List Piece) {table : PieceTable}
    (htable : holds table) (position written : Nat) :
    holds (table.insertPieces position written pieces).1 := by
  induction pieces generalizing table written with
  | nil => exact htable
  | cons piece rest ih =>
    simp only [PieceTable.insertPieces]
    split
    · exact htable
    · rename_i hinsert
      exact ih (hholds.insert htable hinsert) _

omit hholds in
theorem replaceBy_of_next {Value : Type} {result : Except BufferError Value}
    {next : Value → PieceTable} {answer : Value → EditAnswer}
    (hnext : ∀ value, result = .ok value → holds (next value)) :
    holds (table.replaceBy result next answer).1 := by
  cases result with
  | error fault => exact htable
  | ok value => exact hnext value rfl

/-- Edits consist of such changes, accepted or not. -/
theorem PreservedByChanges.perform (edit : Edit) : holds (table.perform edit).1 := by
  cases edit with
  | insert position owner first last =>
    exact replaceBy_of_next htable fun _ hinsert => hholds.insert htable hinsert
  | erase first last => exact replaceBy_of_next htable fun _ herase => hholds.erase htable herase
  | resize size => exact replaceBy_of_next htable fun _ hresize => hholds.resize htable hresize
  | clear => exact hholds.clear htable
  | insertRange position source first last =>
    simp only [PieceTable.perform, PieceTable.insertRange]
    split
    · exact htable
    · exact hholds.insertPieces _ htable _ _

end PreservedByChanges

theorem Proper.truncate {table : PieceTable} (htable : table.Proper) (size : Nat) :
    (table.truncate size).Proper :=
  Pieces.Proper.take htable size

theorem Proper.splicedAt {table : PieceTable} (htable : table.Proper) (position : Nat)
    {piece : Piece} (hpiece : piece.Proper) : (table.splicedAt position piece).Proper := by
  have hone : Pieces.Proper [piece] := Pieces.proper_cons.2 ⟨hpiece, Pieces.proper_nil⟩
  exact ((Pieces.Proper.take htable position).splice hone).splice
    (Pieces.Proper.drop htable position)

theorem preservedByChanges_proper : PreservedByChanges Proper where
  splicedAt position _ htable hpiece := htable.splicedAt position hpiece
  without _ _ htable := (Pieces.Proper.take htable _).splice (Pieces.Proper.drop htable _)
  truncate size htable := htable.truncate size
  clear _ := Pieces.proper_nil

theorem Reachable.proper {table : PieceTable} (htable : table.Reachable) : table.Proper := by
  induction htable with
  | empty format => exact proper_empty format
  | ofPacket packet => exact proper_ofPacket packet
  | edit edit _ _ ih _ => exact preservedByChanges_proper.perform ih edit

/-- A seam is a place where the list of pieces can be divided. -/
theorem isSeam_iff {position : Nat} {pieces : List Piece} :
    Pieces.isSeam position pieces = true ↔
      ∃ left right, pieces = left ++ right ∧ Pieces.size left = position := by
  induction pieces generalizing position with
  | nil =>
    cases position with
    | zero => exact ⟨fun _ => ⟨[], [], rfl, rfl⟩, fun _ => rfl⟩
    | succ position =>
      simp only [Pieces.isSeam, Bool.false_eq_true, false_iff]
      rintro ⟨left, right, happend, hsize⟩
      rw [List.nil_eq, List.append_eq_nil_iff] at happend
      rw [happend.1, Pieces.size_nil] at hsize
      omega
  | cons piece rest ih =>
    cases position with
    | zero => exact ⟨fun _ => ⟨[], piece :: rest, rfl, rfl⟩, fun _ => rfl⟩
    | succ position =>
      simp only [Pieces.isSeam, Bool.and_eq_true, decide_eq_true_eq, ih]
      constructor
      · rintro ⟨hle, left, right, happend, hsize⟩
        refine ⟨piece :: left, right, by rw [happend, List.cons_append], ?_⟩
        rw [Pieces.size_cons, hsize]
        omega
      · rintro ⟨left, right, happend, hsize⟩
        cases left with
        | nil =>
          rw [Pieces.size_nil] at hsize
          omega
        | cons front left =>
          rw [List.cons_append, List.cons.injEq] at happend
          obtain ⟨rfl, happend⟩ := happend
          rw [Pieces.size_cons] at hsize
          exact ⟨by omega, left, right, happend, by omega⟩

theorem take_append_of_size {left right : List Piece} (hleft : Pieces.Proper left) :
    Pieces.take (Pieces.size left) (left ++ right) = left := by
  induction left with
  | nil => cases right <;> simp [Pieces.take]
  | cons piece rest ih =>
    rw [Pieces.proper_cons] at hleft
    have hpos := hleft.1.length_pos
    rw [List.cons_append, Pieces.take, if_neg (by rw [Pieces.size_cons]; omega),
      if_neg (by rw [Pieces.size_cons]; omega), Pieces.size_cons, Nat.add_sub_cancel_left,
      ih hleft.2]

theorem drop_append_of_size {left right : List Piece} (hright : Pieces.Proper right) :
    Pieces.drop (Pieces.size left) (left ++ right) = right := by
  induction left with
  | nil =>
    cases right with
    | nil => rfl
    | cons piece rest =>
      rw [Pieces.proper_cons] at hright
      rw [List.nil_append, Pieces.size_nil, Pieces.drop, if_pos hright.1.length_pos]
      rfl
  | cons piece rest ih =>
    rw [List.cons_append, Pieces.drop, if_neg (by rw [Pieces.size_cons]; omega),
      Pieces.size_cons, Nat.add_sub_cancel_left, ih]

def rangeCells (owner : Packet) (first last : Nat) : List Cell :=
  Piece.cells { owner := owner, offset := first, length := last - first }

/-- A piece meets a range when they have a place in common. -/
theorem meets_iff {piece : Piece} (hpiece : 0 < piece.length) {owner : Packet}
    {first last : Nat} (hrange : first < last) :
    piece.meets owner first last = true ↔
      ∃ cell, cell ∈ piece.cells ∧ cell ∈ rangeCells owner first last := by
  simp only [Piece.meets, Bool.and_eq_true, beq_iff_eq, decide_eq_true_eq]
  simp only [rangeCells, Piece.mem_cells, Piece.stop]
  constructor
  · rintro ⟨⟨howner, hfirst⟩, hlast⟩
    refine ⟨{ owner := owner, position := max piece.offset first }, ⟨howner.symm, ?_, ?_⟩, rfl,
      ?_, ?_⟩ <;> simp only <;> omega
  · rintro ⟨cell, ⟨howner, hlow, hhigh⟩, howner', hlow', hhigh'⟩
    exact ⟨⟨howner.symm.trans howner', by omega⟩, by omega⟩

/-- The position is a seam, and a piece that ends or starts there has bytes of the range. -/
def SharesAt (table : PieceTable) (position : Nat) (owner : Packet) (first last : Nat) : Prop :=
  ∃ left right, table.pieces = left ++ right ∧ Pieces.size left = position ∧
    ∃ piece, (left.getLast? = some piece ∨ right.head? = some piece) ∧
      ∃ cell, cell ∈ piece.cells ∧ cell ∈ rangeCells owner first last

theorem sharesAt_iff {table : PieceTable} (htable : table.Proper) {position : Nat}
    {owner : Packet} {first last : Nat} (hrange : first < last) :
    (Pieces.isSeam position table.pieces && table.overlapsAt position owner first last) = true ↔
      table.SharesAt position owner first last := by
  have hmeets (piece : Piece) (hmem : piece ∈ table.pieces) :
      piece.meets owner first last = true ↔
        ∃ cell, cell ∈ piece.cells ∧ cell ∈ rangeCells owner first last :=
    meets_iff (htable piece hmem).length_pos hrange
  rw [Bool.and_eq_true, isSeam_iff]
  constructor
  · rintro ⟨⟨left, right, happend, hsize⟩, hoverlap⟩
    have hproper := Pieces.proper_append.1 (happend ▸ htable : Pieces.Proper (left ++ right))
    refine ⟨left, right, happend, hsize, ?_⟩
    simp only [overlapsAt, happend, ← hsize, take_append_of_size hproper.1,
      drop_append_of_size hproper.2, Bool.or_eq_true, Option.any_eq_true] at hoverlap
    obtain ⟨piece, hlast, hpiece⟩ | ⟨piece, hhead, hpiece⟩ := hoverlap
    · have hmem : piece ∈ table.pieces := by
        rw [happend]
        exact List.mem_append_left _ (List.mem_of_getLast? hlast)
      exact ⟨piece, .inl hlast, (hmeets piece hmem).1 hpiece⟩
    · have hmem : piece ∈ table.pieces := by
        rw [happend]
        exact List.mem_append_right _ (List.mem_of_head? hhead)
      exact ⟨piece, .inr hhead, (hmeets piece hmem).1 hpiece⟩
  · rintro ⟨left, right, happend, hsize, piece, hplace, hshared⟩
    have hproper := Pieces.proper_append.1 (happend ▸ htable : Pieces.Proper (left ++ right))
    refine ⟨⟨left, right, happend, hsize⟩, ?_⟩
    simp only [overlapsAt, happend, ← hsize, take_append_of_size hproper.1,
      drop_append_of_size hproper.2, Bool.or_eq_true, Option.any_eq_true]
    obtain hlast | hhead := hplace
    · have hmem : piece ∈ table.pieces := by
        rw [happend]
        exact List.mem_append_left _ (List.mem_of_getLast? hlast)
      exact .inl ⟨piece, hlast, (hmeets piece hmem).2 hshared⟩
    · have hmem : piece ∈ table.pieces := by
        rw [happend]
        exact List.mem_append_right _ (List.mem_of_head? hhead)
      exact .inr ⟨piece, hhead, (hmeets piece hmem).2 hshared⟩

/-! ## What edits do -/

/-- What an insertion does to the cells, and when it is refused: the conditions are asked in the
order of the fields. -/
structure InsertsCells (table : PieceTable) (position : Nat) (owner : Packet) (first last : Nat)
    (outcome : PieceTable × Except BufferError EditAnswer) : Prop where
  invalidRange : outcome.2 = .error (.invalidRange first last) ↔ last < first
  beyondOwner (hrange : first ≤ last) :
    outcome.2 = .error (.outOfRange last owner.size) ↔ owner.size < last
  nothing (hrange : first ≤ last) (howner : last ≤ owner.size) :
    outcome = (table, .ok (.present false)) ↔ first = last
  beyondTable (hrange : first < last) (howner : last ≤ owner.size) :
    outcome.2 = .error (.outOfRange position table.size) ↔ table.size < position
  overlap (hrange : first < last) (howner : last ≤ owner.size) (hposition : position ≤ table.size) :
    outcome.2 = .error (.overlap first last) ↔ table.SharesAt position owner first last
  inserted (hrange : first < last) (howner : last ≤ owner.size) (hposition : position ≤ table.size)
    (hshares : ¬ table.SharesAt position owner first last) :
    outcome.2 = .ok (.present true) ∧
      outcome.1.cells =
        table.cells.take position ++ rangeCells owner first last ++ table.cells.drop position
  refused (fault : BufferError) (hfault : outcome.2 = .error fault) : outcome.1 = table

/-- What a removal does to the cells, and when it is refused; `last` counts as the end of the table
if it is beyond it. -/
structure ErasesCells (table : PieceTable) (first last : Nat)
    (outcome : PieceTable × Except BufferError EditAnswer) : Prop where
  nothing (hempty : first = min last table.size) : outcome = (table, .ok .done)
  beyondTable (hrange : first ≠ min last table.size) :
    outcome.2 = .error (.outOfRange first table.size) ↔ table.size ≤ first
  invalidRange (hrange : first ≠ min last table.size) (hfirst : first < table.size) :
    outcome.2 = .error (.invalidRange first (min last table.size)) ↔ last < first
  erased (hrange : first < min last table.size) :
    outcome.2 = .ok .done ∧
      outcome.1.cells = table.cells.take first ++ table.cells.drop (min last table.size)
  refused (fault : BufferError) (hfault : outcome.2 = .error fault) : outcome.1 = table

/-- What a truncation does to the cells, and when it is refused. -/
structure ResizesCells (table : PieceTable) (size : Nat)
    (outcome : PieceTable × Except BufferError EditAnswer) : Prop where
  growth : outcome.2 = .error (.growUnsupported table.size size) ↔ table.size < size
  kept (hsize : size ≤ table.size) : outcome.2 = .ok .done ∧ outcome.1.cells = table.cells.take size
  refused (fault : BufferError) (hfault : outcome.2 = .error fault) : outcome.1 = table

/-- A refused change leaves the table as it was. -/
theorem replaceBy_error {Value : Type} {table : PieceTable} {result : Except BufferError Value}
    {next : Value → PieceTable} {answer : Value → EditAnswer} {fault : BufferError}
    (hfault : (table.replaceBy result next answer).2 = .error fault) :
    (table.replaceBy result next answer).1 = table := by
  cases result with
  | error other => rfl
  | ok value => cases hfault

/-- An insertion with the questions it asks, in order. -/
theorem perform_insert {table : PieceTable} (htable : table.Proper) (position : Nat)
    (owner : Packet) (first last : Nat) [Decidable (table.SharesAt position owner first last)] :
    table.perform (.insert position owner first last) =
      if last < first then (table, .error (.invalidRange first last))
      else if owner.size < last then (table, .error (.outOfRange last owner.size))
      else if first = last then (table, .ok (.present false))
      else if table.size < position then (table, .error (.outOfRange position table.size))
      else if table.SharesAt position owner first last then (table, .error (.overlap first last))
      else (table.splicedAt position { owner := owner, offset := first, length := last - first },
        .ok (.present true)) := by
  unfold perform insert checkRange
  by_cases hrange : last < first
  · simp only [if_pos hrange, replaceBy]
  · by_cases howner : owner.size < last
    · simp only [if_neg hrange, if_pos howner, replaceBy]
    · simp only [if_neg hrange, if_neg howner]
      by_cases hempty : first = last
      · simp only [if_pos hempty, replaceBy, Function.comp]
      · by_cases hposition : table.size < position
        · simp only [if_neg hempty, if_pos hposition, replaceBy]
        · have hless : first < last := by omega
          simp only [if_neg hempty, if_neg hposition, sharesAt_iff htable hless]
          split <;> rfl

theorem insertsCells {table : PieceTable} (htable : table.Proper) (position : Nat)
    (owner : Packet) (first last : Nat) :
    InsertsCells table position owner first last
      (table.perform (.insert position owner first last)) := by
  classical
  have hperform := perform_insert htable position owner first last
  constructor
  case invalidRange => grind
  case beyondOwner => grind
  case nothing => grind
  case beyondTable => grind
  case overlap => grind
  case inserted =>
    intro hrange howner hposition hshares
    rw [hperform, if_neg (by omega), if_neg (by omega), if_neg (by omega), if_neg (by omega),
      if_neg hshares]
    exact ⟨rfl, cells_splicedAt _ _ _⟩
  case refused => exact fun fault hfault => replaceBy_error hfault

theorem erasesCells (table : PieceTable) (first last : Nat) :
    ErasesCells table first last (table.perform (.erase first last)) := by
  have hperform : table.perform (.erase first last) =
      if first = min last table.size then (table, .ok .done)
      else if table.size ≤ first then (table, .error (.outOfRange first table.size))
      else if hrange : min last table.size < first then
        (table, .error (.invalidRange first (min last table.size)))
      else (table.without first (min last table.size) (Nat.not_lt.1 hrange)
        (Nat.min_le_right last table.size), .ok .done) := by
    simp only [perform, erase]
    split
    · rfl
    · split
      · rfl
      · split <;> rfl
  constructor
  case nothing => grind
  case beyondTable => grind
  case invalidRange => grind
  case erased =>
    intro hrange
    rw [hperform, if_neg (by omega), if_neg (by omega), dif_neg (by omega)]
    exact ⟨rfl, cells_without table (Nat.le_of_lt hrange) (Nat.min_le_right _ _)⟩
  case refused => exact fun fault hfault => replaceBy_error hfault

theorem resizesCells (table : PieceTable) (size : Nat) :
    ResizesCells table size (table.perform (.resize size)) := by
  have hperform : table.perform (.resize size) =
      if table.size < size then (table, .error (.growUnsupported table.size size))
      else (table.truncate size, .ok .done) := by
    simp only [perform, resize]
    split <;> rfl
  constructor
  case growth => grind
  case kept =>
    intro hsize
    rw [hperform, if_neg (by omega)]
    exact ⟨rfl, cells_truncate _ _⟩
  case refused => exact fun fault hfault => replaceBy_error hfault

/-- **Edits refine list edits.** On every table that edits lead to, an insertion, a removal and a
truncation change the cells as the list edit does, or are refused for the stated reason and change
nothing. -/
theorem edits_refine_cells {table : PieceTable} (htable : table.Reachable) :
    (∀ position owner first last, InsertsCells table position owner first last
      (table.perform (.insert position owner first last))) ∧
    (∀ first last, ErasesCells table first last (table.perform (.erase first last))) ∧
    ∀ size, ResizesCells table size (table.perform (.resize size)) :=
  ⟨insertsCells htable.proper, erasesCells table, resizesCells table⟩

/-- A table cut in the middle of a packet: putting bytes of the packet back beside a seam is refused
if they are already there, and joins the pieces if they are the missing ones. -/
theorem edits_refine_cells_cut :
    let packet := Packet.raw 0 [1, 2, 3, 4, 5]
    let table := ((ofPacket packet).perform (.erase 1 3)).1
    table.Reachable ∧
      (table.perform (.insert 1 packet 2 4)).2 = .error (.overlap 2 4) ∧
      table.SharesAt 1 packet 2 4 ∧
      (table.perform (.insert 1 packet 1 3)).1.cells = packet.cells := by
  intro packet table
  have htable : table.Reachable := .edit _ (.ofPacket packet) fun _ hsource => nomatch hsource
  have hrefines := edits_refine_cells htable
  have hoverlap : (table.perform (.insert 1 packet 2 4)).2 = .error (.overlap 2 4) := by decide
  have hshares := ((hrefines.1 1 packet 2 4).overlap (by decide) (by decide) (by decide)).1 hoverlap
  have hjoined : ¬ table.SharesAt 1 packet 1 3 := fun hshared =>
    absurd (((hrefines.1 1 packet 1 3).overlap (by decide) (by decide) (by decide)).2 hshared)
      (by decide)
  have hinserted := ((hrefines.1 1 packet 1 3).inserted (by decide) (by decide) (by decide)
    hjoined).2
  exact ⟨htable, hoverlap, hshares, hinserted.trans (by decide)⟩

end PieceTable

end Ccf
