import Ccf.Proofs.Buffer.Readers

/-!
# Block sizes read from piece tables

A table of MAC packets reads the header at a position byte by byte, so the seams and owners of its
bytes do not matter.  A table that delegates asks the packet that owns the byte there, which reads
on past the end of the piece.  The two agree as long as the piece holds the header.
-/

namespace Ccf

namespace MacHeader

/-- The size of the packet that begins with the given bytes; `none` if they are fewer than a header
has. -/
def announced? (bytes : List UInt8) : Option Nat := (decode bytes).toOption.map packetSize

section Enough

variable {bytes : List UInt8} (hlong : wireSize ≤ bytes.length)
include hlong

/-- Bytes that are as many as a header has. -/
theorem exists_cons_of_length : ∃ a b c d rest, bytes = a :: b :: c :: d :: rest := by
  rw [wireSize] at hlong
  rcases bytes with _ | ⟨a, _ | ⟨b, _ | ⟨c, _ | ⟨d, rest⟩⟩⟩⟩
  case cons.cons.cons.cons => exact ⟨a, b, c, d, rest, rfl⟩
  all_goals simp at hlong

theorem exists_decode_of_length : ∃ header, decode bytes = .ok header ∧
    announced? bytes = some header.packetSize := by
  obtain ⟨a, b, c, d, rest, rfl⟩ := exists_cons_of_length hlong
  exact ⟨_, rfl, rfl⟩

/-- A header is read from its own bytes only. -/
theorem announced?_append (rest : List UInt8) : announced? (bytes ++ rest) = announced? bytes := by
  obtain ⟨a, b, c, d, more, rfl⟩ := exists_cons_of_length hlong
  rfl

theorem announced?_take : announced? (bytes.take wireSize) = announced? bytes := by
  obtain ⟨a, b, c, d, rest, rfl⟩ := exists_cons_of_length hlong
  rfl

end Enough

theorem announced?_eq_none_iff {bytes : List UInt8} :
    announced? bytes = none ↔ bytes.length < wireSize := by
  constructor
  · intro hnone
    by_contra hlong
    obtain ⟨header, -, hsome⟩ := exists_decode_of_length (Nat.le_of_not_lt hlong)
    rw [hnone] at hsome
    cases hsome
  · intro hshort
    unfold announced? decode
    split
    · simp only [List.length_cons, wireSize] at hshort
      omega
    · rfl

end MacHeader

namespace Packet

/-- A packet reads the header in its own bytes from a position on. -/
theorem blockSizeAt_eq (packet : Packet) (position : Nat) :
    packet.blockSizeAt position =
      MacHeader.announced? (packet.slice position (position + MacHeader.wireSize)) := by
  rw [blockSizeAt, MacHeader.announced?]
  cases MacHeader.decode (packet.slice position (position + MacHeader.wireSize)) with
  | ok => rfl
  | error => rfl

end Packet

namespace PieceTable

variable {table : PieceTable} {position : Nat}

/-- Gathered from the bytes of the table, a header is the one in front of them. -/
theorem blockSizeAt_of_macHeader (htable : table.Proper) (hformat : table.format = .macHeader)
    (position : Nat) :
    table.blockSizeAt position = MacHeader.announced? (table.bytes.drop position) := by
  have hlength : (table.bytes.drop position).length = table.size - position := by
    rw [List.length_drop, htable.bytes_eq, List.length_map, length_cells]
  have hbyte (index : Nat) :
      table.byteAt? (position + index) = (table.bytes.drop position)[index]? := by
    rw [htable.byteAt?_eq, List.getElem?_drop]
  have hfirst := hbyte 0
  rw [Nat.add_zero] at hfirst
  simp only [blockSizeAt, hformat, ← hlength, hfirst, hbyte]
  by_cases hshort : (table.bytes.drop position).length < MacHeader.wireSize
  · rw [if_pos hshort, MacHeader.announced?_eq_none_iff.2 hshort]
  · rw [if_neg hshort]
    obtain ⟨a, b, c, d, rest, hbytes⟩ :=
      MacHeader.exists_cons_of_length (Nat.le_of_not_lt hshort)
    rw [hbytes]
    rfl

/-- Read by the packet that owns the byte, a header is the one in front of the bytes if the piece
holds it. -/
theorem blockSizeAt_of_delegate (htable : table.Proper) (hformat : table.format = .delegate)
    {owner : Packet} {first last : Nat} (hfound : table.locate? position = some (owner, first, last))
    (hholds : first + MacHeader.wireSize ≤ last) :
    table.blockSizeAt position = MacHeader.announced? (table.bytes.drop position) := by
  obtain ⟨piece, hhead, hplace⟩ := Option.map_eq_some_iff.1 hfound
  obtain ⟨rest, hdrop⟩ := List.head?_eq_some_iff.1 hhead
  cases hplace
  have hpieces := Pieces.Proper.drop htable position
  rw [hdrop, Pieces.proper_cons] at hpieces
  obtain ⟨hpiece, hrest⟩ := hpieces
  have hlong : MacHeader.wireSize ≤ piece.length := by
    rw [Piece.stop] at hholds
    exact Nat.le_of_add_le_add_left hholds
  have hfront : MacHeader.wireSize ≤ piece.bytes.length := by
    rw [hpiece.bytes_eq, List.length_map, Piece.length_cells]
    exact hlong
  have hbytes : table.bytes.drop position = piece.bytes ++ Pieces.bytes rest := by
    rw [htable.bytes_eq, cells, ← List.map_drop, ← Pieces.cells_drop, hdrop, Pieces.cells_cons,
      List.map_append, ← hpiece.bytes_eq, ← hrest.bytes_eq]
  calc table.blockSizeAt position = piece.owner.blockSizeAt piece.offset := by
        simp only [blockSizeAt, hformat, hfound]
    _ = MacHeader.announced? (piece.front MacHeader.wireSize).bytes := Packet.blockSizeAt_eq _ _
    _ = MacHeader.announced? piece.bytes := by
        rw [Piece.bytes_front hlong, MacHeader.announced?_take hfront]
    _ = MacHeader.announced? (table.bytes.drop position) := by
        rw [hbytes, MacHeader.announced?_append hfront]

/-- **Block sizes are read across seams.** In a table of MAC packets, the size at a position is the
one that the header in front of the bytes there announces, and there is none if fewer bytes than a
header are left.  A table of the same bytes that delegates answers alike wherever the piece at the
position holds the header. -/
theorem blockSizeAt_readsHeader {table : PieceTable} (htable : table.Reachable)
    (hformat : table.format = .macHeader) (position : Nat) :
    (table.blockSizeAt position = none ↔
        (table.bytes.drop position).length < MacHeader.wireSize) ∧
      (MacHeader.wireSize ≤ (table.bytes.drop position).length →
        ∃ header, MacHeader.decode (table.bytes.drop position) = .ok header ∧
          table.blockSizeAt position = some header.packetSize) ∧
      ∀ other : PieceTable, other.Reachable → other.format = .delegate →
        other.bytes = table.bytes → ∀ owner first last,
        other.locate? position = some (owner, first, last) →
        first + MacHeader.wireSize ≤ last →
          other.blockSizeAt position = table.blockSizeAt position := by
  have hread := blockSizeAt_of_macHeader htable.proper hformat position
  refine ⟨?_, ?_, ?_⟩
  · rw [hread, MacHeader.announced?_eq_none_iff]
  · intro hlong
    rw [hread]
    exact MacHeader.exists_decode_of_length hlong
  · intro other hother hdelegates hsame owner first last hfound hholds
    rw [hread, ← hsame]
    exact blockSizeAt_of_delegate hother.proper hdelegates hfound hholds

/-- A header of which two packets own two bytes each, and a packet that owns all of it. -/
theorem blockSizeAt_readsHeader_parted :
    let table := (((empty .macHeader).perform (.insert 0 (.raw 0 [9, 0, 7]) 1 3)).1.perform
      (.insert 2 (.raw 1 [0, 1, 42]) 0 3)).1
    let packet := Packet.raw 2 [0, 7, 0, 1, 42]
    table.Reachable ∧ table.format = .macHeader ∧ table.pieces.length = 2 ∧
      table.bytes = (ofPacket packet).bytes ∧ table.blockSizeAt 0 = some 5 ∧
      table.blockSizeAt 2 = none ∧ (ofPacket packet).blockSizeAt 0 = some 5 := by
  intro table packet
  have hfirst : ((empty .macHeader).perform (.insert 0 (.raw 0 [9, 0, 7]) 1 3)).1.Reachable :=
    .edit _ (.empty .macHeader) nofun
  have htable : table.Reachable := .edit _ hfirst nofun
  have hformat : table.format = .macHeader := by decide
  have hsame : (ofPacket packet).bytes = table.bytes := by decide
  have hbytes : table.bytes.drop 0 = [0, 7, 0, 1, 42] := by decide
  obtain ⟨-, hread, hdelegates⟩ := blockSizeAt_readsHeader htable hformat 0
  rw [hbytes] at hread
  have hfive : table.blockSizeAt 0 = some 5 := by
    obtain ⟨header, hheader, hsize⟩ := hread (by decide)
    rw [hsize, ← Except.ok.inj hheader]
    rfl
  refine ⟨htable, hformat, by decide, hsame.symm, hfive,
    (blockSizeAt_readsHeader htable hformat 2).1.2 (by decide), ?_⟩
  rw [hdelegates _ (.ofPacket packet) rfl hsame packet 0 5 (by decide) (by decide), hfive]

end PieceTable

end Ccf
