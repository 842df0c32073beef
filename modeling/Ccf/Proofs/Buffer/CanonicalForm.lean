import Ccf.Proofs.Buffer.Edits
import Mathlib.Data.List.Chain

/-!
# The canonical form of piece tables

A piece table is canonical when its pieces have bytes, lie within their packets, and none of them
continues the one before it.  Cutting and joining keep lists of pieces canonical, so every table
that edits lead to is canonical, also after an edit that was refused or left half done.

Canonical pieces are the longest runs of their cells, hence the cells alone determine them: whatever
edits lead to the same cells lead to the same pieces.
-/

namespace Ccf

namespace Pieces

def Apart (pieces : List Piece) : Prop := pieces.IsChain fun piece next => piece.joins next = false

theorem apart_nil : Apart [] := List.isChain_nil

theorem apart_singleton (piece : Piece) : Apart [piece] := List.isChain_singleton _

theorem apart_cons_cons {piece next : Piece} {rest : List Piece} :
    Apart (piece :: next :: rest) ↔ piece.joins next = false ∧ Apart (next :: rest) :=
  List.isChain_cons_cons

theorem Apart.tail {piece : Piece} {rest : List Piece} (happart : Apart (piece :: rest)) :
    Apart rest :=
  List.IsChain.tail happart

/-- Whether a piece continues the one before it depends on where it starts, and on where that one
ends. -/
theorem joins_congr {piece piece' next next' : Piece} (howner : piece'.owner = piece.owner)
    (hstop : piece'.stop = piece.stop) (hnext : next'.owner = next.owner)
    (hoffset : next'.offset = next.offset) : piece'.joins next' = piece.joins next := by
  simp only [Piece.joins, howner, hstop, hnext, hoffset]

/-- Cutting off the end keeps the start of every piece that stays. -/
theorem Apart.cons_take {pieces : List Piece} {first : Piece} (happart : Apart (first :: pieces))
    (count : Nat) : Apart (first :: take count pieces) := by
  induction pieces generalizing first count with
  | nil => exact apart_singleton first
  | cons piece rest ih =>
    obtain ⟨hfirst, hrest⟩ := apart_cons_cons.1 happart
    rw [take]
    split
    · exact apart_singleton first
    · split
      · exact apart_cons_cons.2 ⟨hfirst, apart_singleton _⟩
      · exact apart_cons_cons.2 ⟨hfirst, ih hrest _⟩

theorem Apart.take {pieces : List Piece} (happart : Apart pieces) (count : Nat) :
    Apart (take count pieces) := by
  cases pieces with
  | nil => exact apart_nil
  | cons piece rest =>
    rw [Pieces.take]
    split
    · exact apart_nil
    · split
      · exact apart_singleton _
      · exact happart.cons_take _

/-- Cutting off the front keeps the end of every piece that stays. -/
theorem Apart.drop {pieces : List Piece} (happart : Apart pieces) (count : Nat) :
    Apart (drop count pieces) := by
  induction pieces generalizing count with
  | nil => exact apart_nil
  | cons piece rest ih =>
    rw [Pieces.drop]
    split
    · rename_i hcount
      cases rest with
      | nil => exact apart_singleton _
      | cons next later =>
        obtain ⟨hjoins, hlater⟩ := apart_cons_cons.1 happart
        have hstop : (piece.back count).stop = piece.stop := by
          simp only [Piece.back, Piece.stop]
          omega
        have howner : (piece.back count).owner = piece.owner := rfl
        exact apart_cons_cons.2 ⟨(joins_congr howner hstop rfl rfl).trans hjoins, hlater⟩
    · exact ih happart.tail _

/-- A joined list starts where its left part starts. -/
theorem splice_cons (piece : Piece) (left right : List Piece) :
    ∃ first rest, splice (piece :: left) right = first :: rest ∧ first.owner = piece.owner ∧
      first.offset = piece.offset := by
  cases left with
  | cons next later => exact ⟨piece, splice (next :: later) right, rfl, rfl, rfl⟩
  | nil =>
    cases right with
    | nil => exact ⟨piece, [], rfl, rfl, rfl⟩
    | cons next later =>
      rw [splice]
      split
      · exact ⟨piece.merge next, later, rfl, rfl, rfl⟩
      · exact ⟨piece, next :: later, rfl, rfl, rfl⟩

/-- Two pieces put together end where the second one ends. -/
theorem Apart.merge {piece next : Piece} {rest : List Piece} (happart : Apart (next :: rest))
    (hjoins : piece.joins next = true) : Apart (piece.merge next :: rest) := by
  cases rest with
  | nil => exact apart_singleton _
  | cons following later =>
    obtain ⟨hnext, hlater⟩ := apart_cons_cons.1 happart
    simp only [Piece.joins, Bool.and_eq_true, beq_iff_eq, Piece.stop] at hjoins
    have hstop : (piece.merge next).stop = next.stop := by
      simp only [Piece.merge, Piece.stop]
      omega
    have howner : (piece.merge next).owner = next.owner := hjoins.1
    exact apart_cons_cons.2 ⟨(joins_congr howner hstop rfl rfl).trans hnext, hlater⟩

theorem Apart.splice {left right : List Piece} (hleft : Apart left) (hright : Apart right) :
    Apart (splice left right) := by
  induction left with
  | nil => exact hright
  | cons piece rest ih =>
    cases rest with
    | nil =>
      cases right with
      | nil => exact hleft
      | cons next later =>
        rw [Pieces.splice]
        split
        · rename_i hjoins
          exact hright.merge hjoins
        · rename_i hjoins
          exact apart_cons_cons.2 ⟨by simpa using hjoins, hright⟩
    | cons next later =>
      obtain ⟨hnext, hlater⟩ := apart_cons_cons.1 hleft
      obtain ⟨first, others, hsplice, howner, hoffset⟩ := splice_cons next later right
      have hrest := ih hlater
      rw [Pieces.splice]
      rw [hsplice] at hrest ⊢
      exact apart_cons_cons.2 ⟨(joins_congr rfl rfl howner hoffset).trans hnext, hrest⟩

/-! ## Cells determine the pieces -/

/-- The cells of the first piece come first. -/
theorem getElem?_cells (rest : List Piece) {piece : Piece} {index : Nat}
    (hindex : index < piece.length) :
    (cells (piece :: rest))[index]? =
      some { owner := piece.owner, position := piece.offset + index } := by
  rw [cells_cons, List.getElem?_append_left (by rwa [Piece.length_cells])]
  simp [Piece.cells, hindex]

/-- A list that does not go on where its first piece ends has no longer first piece. -/
theorem length_le_of_cells_eq {piece next : Piece} {rest others : List Piece}
    (happart : Apart (piece :: rest)) (hproper : Proper rest) (howner : piece.owner = next.owner)
    (hoffset : piece.offset = next.offset)
    (hcells : cells (piece :: rest) = cells (next :: others)) : next.length ≤ piece.length := by
  by_contra hlonger
  rw [Nat.not_le] at hlonger
  -- The cell after the first piece continues it, so it cannot start another piece.
  have hcell := getElem?_cells others hlonger
  rw [← hcells, cells_cons, List.getElem?_append_right (by rw [Piece.length_cells]),
    Piece.length_cells, Nat.sub_self] at hcell
  cases rest with
  | nil => cases hcell
  | cons following later =>
    have hpos := (proper_cons.1 hproper).1.length_pos
    rw [getElem?_cells later hpos, Option.some.injEq, Cell.mk.injEq] at hcell
    have hjoins : piece.joins following = true := by
      simp only [Piece.joins, Bool.and_eq_true, beq_iff_eq, Piece.stop]
      exact ⟨howner.trans hcell.1.symm, by omega⟩
    rw [(apart_cons_cons.1 happart).1] at hjoins
    cases hjoins

/-- Pieces with bytes, none of which continues the one before it, are determined by their cells. -/
theorem eq_of_cells_eq {left right : List Piece} (hleft : Proper left) (hright : Proper right)
    (hleftApart : Apart left) (hrightApart : Apart right) (hcells : cells left = cells right) :
    left = right := by
  induction left generalizing right with
  | nil =>
    cases right with
    | nil => rfl
    | cons next others =>
      have hfirst := getElem?_cells others (proper_cons.1 hright).1.length_pos
      rw [← hcells] at hfirst
      cases hfirst
  | cons piece rest ih =>
    obtain ⟨hpiece, hrest⟩ := proper_cons.1 hleft
    have hfirst := getElem?_cells rest hpiece.length_pos
    cases right with
    | nil =>
      rw [hcells] at hfirst
      cases hfirst
    | cons next others =>
      obtain ⟨hnext, hothers⟩ := proper_cons.1 hright
      rw [hcells, getElem?_cells others hnext.length_pos, Option.some.injEq,
        Cell.mk.injEq] at hfirst
      obtain ⟨howner, hoffset⟩ := hfirst
      have hlength : piece.length = next.length := Nat.le_antisymm
        (length_le_of_cells_eq hrightApart hothers howner hoffset hcells.symm)
        (length_le_of_cells_eq hleftApart hrest howner.symm hoffset.symm hcells)
      have hsame : piece = next := by
        cases piece
        cases next
        simp_all
      subst hsame
      rw [cells_cons, cells_cons, List.append_cancel_left_eq] at hcells
      rw [ih hrest hothers hleftApart.tail hrightApart.tail hcells]

theorem foldr_length (pieces : List Piece) :
    (pieces.map Piece.length).foldr (· + ·) 0 = size pieces := by
  induction pieces with
  | nil => rfl
  | cons piece rest ih => rw [List.map_cons, List.foldr_cons, ih, size_cons]

end Pieces

namespace PieceTable

/-- The pieces make up the bytes of the table, all have bytes of their packets, and no two
neighbours are one range of one packet. -/
structure Canonical (table : PieceTable) : Prop where
  size_eq : (table.pieces.map Piece.length).foldr (· + ·) 0 = table.size
  length_pos : ∀ piece ∈ table.pieces, 0 < piece.length
  stop_le : ∀ piece ∈ table.pieces, piece.stop ≤ piece.owner.size
  apart : table.pieces.IsChain fun piece next =>
    ¬ (piece.owner = next.owner ∧ piece.stop = next.offset)

def Apart (table : PieceTable) : Prop := Pieces.Apart table.pieces

/-! ## Every reachable table is canonical -/

theorem preservedByChanges_apart : PreservedByChanges Apart where
  splicedAt position piece htable _ :=
    ((Pieces.Apart.take htable position).splice (Pieces.apart_singleton piece)).splice
      (Pieces.Apart.drop htable position)
  without _ _ htable := (Pieces.Apart.take htable _).splice (Pieces.Apart.drop htable _)
  truncate size htable := Pieces.Apart.take htable size
  clear _ := Pieces.apart_nil

theorem Reachable.apart {table : PieceTable} (htable : table.Reachable) : table.Apart := by
  induction htable with
  | empty format => exact Pieces.apart_nil
  | ofPacket packet =>
    rw [Apart, PieceTable.ofPacket]
    split
    · exact Pieces.apart_nil
    · exact Pieces.apart_singleton _
  | edit edit _ _ ih _ => exact preservedByChanges_apart.perform ih edit

theorem Reachable.canonical {table : PieceTable} (htable : table.Reachable) :
    table.Canonical where
  size_eq := (Pieces.foldr_length table.pieces).trans table.size_eq
  length_pos piece hpiece := (htable.proper piece hpiece).length_pos
  stop_le piece hpiece := (htable.proper piece hpiece).stop_le
  apart := htable.apart.imp fun piece next hjoins hsame => by
    simp [Piece.joins, hsame.1, hsame.2] at hjoins

/-- Reachable tables with the same cells have the same pieces. -/
theorem Reachable.pieces_eq {table other : PieceTable} (htable : table.Reachable)
    (hother : other.Reachable) (hcells : other.cells = table.cells) :
    other.pieces = table.pieces :=
  Pieces.eq_of_cells_eq hother.proper htable.proper hother.apart htable.apart hcells

/-- Only the last of the questions that an insertion asks leads to this answer. -/
theorem Proper.perform_of_present {table : PieceTable} (htable : table.Proper) {position : Nat}
    {owner : Packet} {first last : Nat}
    (hpresent : (table.perform (.insert position owner first last)).2 = .ok (.present true)) :
    first < last ∧ position ≤ table.size ∧
      (table.perform (.insert position owner first last)).1 =
        table.splicedAt position { owner := owner, offset := first, length := last - first } := by
  classical
  rw [perform_insert htable] at hpresent ⊢
  by_cases hinvalid : last < first
  · rw [if_pos hinvalid] at hpresent
    cases hpresent
  rw [if_neg hinvalid] at hpresent ⊢
  by_cases hbeyond : owner.size < last
  · rw [if_pos hbeyond] at hpresent
    cases hpresent
  rw [if_neg hbeyond] at hpresent ⊢
  by_cases hempty : first = last
  · rw [if_pos hempty] at hpresent
    cases hpresent
  rw [if_neg hempty] at hpresent ⊢
  by_cases houtside : table.size < position
  · rw [if_pos houtside] at hpresent
    cases hpresent
  rw [if_neg houtside] at hpresent ⊢
  by_cases hshares : table.SharesAt position owner first last
  · rw [if_pos hshares] at hpresent
    cases hpresent
  rw [if_neg hshares]
  exact ⟨by omega, by omega, rfl⟩

theorem preservedByChanges_format (format : BlockFormat) :
    PreservedByChanges fun table => table.format = format where
  splicedAt _ _ htable _ := htable
  without _ _ htable := htable
  truncate _ htable := htable
  clear htable := htable

/-- What was inserted can be removed again, and the table is the same as before. -/
theorem Reachable.erase_inserted {table : PieceTable} (htable : table.Reachable) {position : Nat}
    {owner : Packet} {first last : Nat}
    (hpresent : (table.perform (.insert position owner first last)).2 = .ok (.present true)) :
    (table.perform (.insert position owner first last)).1.perform
        (.erase position (position + (last - first))) = (table, .ok .done) := by
  obtain ⟨hrange, hposition, hgrown⟩ := htable.proper.perform_of_present hpresent
  have hreachable := Reachable.edit (.insert position owner first last) htable
    fun _ hsource => by cases hsource
  have hformat := (preservedByChanges_format table.format).perform rfl
    (.insert position owner first last)
  obtain ⟨piece, hpiece⟩ : ∃ piece : Piece,
      piece = { owner := owner, offset := first, length := last - first } := ⟨_, rfl⟩
  have hlength : last - first = piece.length := by rw [hpiece]
  rw [← hpiece] at hgrown
  rw [hgrown] at hreachable hformat ⊢
  rw [hlength]
  have hsize : (table.splicedAt position piece).size = table.size + piece.length := rfl
  have hstop : min (position + piece.length) (table.splicedAt position piece).size =
      position + piece.length := by omega
  obtain ⟨hdone, hleft⟩ := (erasesCells (table.splicedAt position piece) position
    (position + piece.length)).erased (by omega)
  have htake : (table.cells.take position).length = position := by
    rw [List.length_take, length_cells]
    omega
  rw [hstop, drop_cells_splicedAt hposition, cells_splicedAt, List.append_assoc,
    List.take_left' htake, List.take_append_drop] at hleft
  have hpieces := htable.pieces_eq
    (Reachable.edit (.erase position (position + piece.length)) hreachable
      fun _ hsource => by cases hsource) hleft
  exact Prod.ext (eq_of_pieces_eq hpieces
    ((preservedByChanges_format table.format).perform hformat _)) hdone

/-- **Canonical form.** Every table that edits lead to is canonical, its pieces are a function of
its cells, and an insertion is undone by the removal of what was inserted. -/
theorem reachable_canonical {table : PieceTable} (htable : table.Reachable) :
    table.Canonical ∧
    (∀ other : PieceTable, other.Reachable → other.cells = table.cells →
      other.pieces = table.pieces) ∧
    ∀ (position : Nat) (owner : Packet) (first last : Nat),
      (table.perform (.insert position owner first last)).2 = .ok (.present true) →
        (table.perform (.insert position owner first last)).1.perform
          (.erase position (position + (last - first))) = (table, .ok .done) :=
  ⟨htable.canonical, fun _ hother hcells => htable.pieces_eq hother hcells,
    fun _ _ _ _ hpresent => htable.erase_inserted hpresent⟩

/-- A packet cut in two is one piece again once the missing bytes are back, and bytes of a packet
put into its own middle leave no trace when they are removed. -/
theorem reachable_canonical_rejoined :
    let packet := Packet.raw 0 [1, 2, 3, 4, 5]
    let whole := ofPacket packet
    let cut := (whole.perform (.erase 1 3)).1
    let rejoined := (cut.perform (.insert 1 packet 1 3)).1
    whole.Reachable ∧ cut.pieces.length = 2 ∧ rejoined.pieces = whole.pieces ∧
      (whole.perform (.insert 2 packet 3 5)).1.pieces.length = 3 ∧
      (whole.perform (.insert 2 packet 3 5)).1.perform (.erase 2 4) = (whole, .ok .done) := by
  intro packet whole cut rejoined
  have hwhole : whole.Reachable := .ofPacket packet
  have hcut : cut.Reachable := .edit _ hwhole nofun
  have hrejoined : rejoined.Reachable := .edit _ hcut nofun
  obtain ⟨-, hunique, hundone⟩ := reachable_canonical hwhole
  exact ⟨hwhole, by decide, hunique rejoined hrejoined (by decide), by decide,
    hundone 2 packet 3 5 (by decide)⟩

end PieceTable

end Ccf
