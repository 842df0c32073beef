import Ccf.Buffer.Gathering
import Ccf.Proofs.Buffer.Cells

/-!
# The cells of a gathering

Gathering a range puts its cells after those that are there.  It is never refused when the range
lies within its source and brings no cell a second time: a refusal needs a byte that is already in
front of the range.

A gathering that begins with the header of a packet is complete from the size on that the header
announces.
-/

namespace Ccf

namespace MacHeader

/-- Reading what was written gives the header back, whatever comes after it. -/
theorem decode_bytes_append (header : MacHeader) (rest : List UInt8) :
    decode (header.bytes ++ rest) = .ok header := by
  simp only [bytes, Word.toBytes, List.cons_append, List.nil_append, decode,
    Word.ofBytes_toBytes]

end MacHeader

namespace Gathering

def cells (gathering : Gathering) : List Cell := Pieces.cells gathering.latest.reverse

def Proper (gathering : Gathering) : Prop := Pieces.Proper gathering.latest.reverse

@[simp]
theorem cells_empty : empty.cells = [] := rfl

theorem proper_empty : empty.Proper := Pieces.proper_nil

@[simp]
theorem length_cells (gathering : Gathering) : gathering.cells.length = gathering.size := by
  rw [cells, Pieces.length_cells, Pieces.size_reverse, gathering.size_eq]

theorem cells_table (gathering : Gathering) (format : BlockFormat) :
    (gathering.table format).cells = gathering.cells := rfl

theorem Proper.table {gathering : Gathering} (hgathering : gathering.Proper)
    (format : BlockFormat) : (gathering.table format).Proper := hgathering

theorem Proper.bytes_eq {gathering : Gathering} (hgathering : gathering.Proper) :
    gathering.bytes = gathering.cells.map Cell.byte :=
  Pieces.Proper.bytes_eq hgathering

theorem cells_add (gathering : Gathering) (piece : Piece) (hpiece : 0 < piece.length) :
    (gathering.add piece hpiece).cells = gathering.cells ++ piece.cells := by
  calc (gathering.add piece hpiece).cells
      = Pieces.cells (Pieces.splice gathering.latest.reverse [piece]) := by
        rw [cells, add, Pieces.reverse_extend]
    _ = gathering.cells ++ Pieces.cells [piece] := by rw [Pieces.cells_splice, cells]
    _ = gathering.cells ++ piece.cells := by
        rw [Pieces.cells_cons, Pieces.cells_nil, List.append_nil]

theorem Proper.add {gathering : Gathering} (hgathering : gathering.Proper) {piece : Piece}
    (hpiece : piece.Proper) : (gathering.add piece hpiece.length_pos).Proper := by
  rw [Proper, Gathering.add, Pieces.reverse_extend]
  exact Pieces.Proper.splice hgathering (Pieces.proper_cons.2 ⟨hpiece, Pieces.proper_nil⟩)

/-- What is gathered piece by piece are the cells of the pieces, and their ranges are ones of their
packets. -/
theorem gather_cells {gathering later : Gathering} {piece : Piece} (hgathering : gathering.Proper)
    (hgather : gathering.gather piece = .ok later) :
    later.Proper ∧ later.cells = gathering.cells ++ piece.cells := by
  unfold gather at hgather
  split at hgather
  · cases hgather
  · rename_i hrange
    rw [checkRange_eq_ok_iff] at hrange
    split at hgather
    · rename_i hpiece
      split at hgather
      · cases hgather
      · cases hgather
        exact ⟨hgathering.add ⟨hpiece, hrange.2⟩, cells_add gathering piece hpiece⟩
    · rename_i hpiece
      have hnone : piece.cells = [] := by
        rw [← List.length_eq_zero_iff, Piece.length_cells]
        omega
      cases hgather
      exact ⟨hgathering, by rw [hnone, List.append_nil]⟩

theorem gatherAll_cells {pieces : List Piece} {gathering later : Gathering}
    (hgathering : gathering.Proper) (hgather : gathering.gatherAll pieces = .ok later) :
    later.Proper ∧ later.cells = gathering.cells ++ Pieces.cells pieces := by
  induction pieces generalizing gathering with
  | nil =>
    cases hgather
    exact ⟨hgathering, (List.append_nil _).symm⟩
  | cons piece rest ih =>
    simp only [gatherAll] at hgather
    split at hgather
    · cases hgather
    · rename_i middle hfirst
      obtain ⟨hmiddle, hcells⟩ := gather_cells hgathering hfirst
      obtain ⟨hlater, hall⟩ := ih hmiddle hgather
      refine ⟨hlater, ?_⟩
      rw [hall, hcells, List.append_assoc, Pieces.cells_cons]

/-- What is gathered of a table are the cells of the range. -/
theorem gatherRange_cells {gathering later : Gathering} (hgathering : gathering.Proper)
    {source : PieceTable} {first last : Nat}
    (hgather : gathering.gatherRange source first last = .ok later) :
    later.Proper ∧ later.cells = gathering.cells ++ (source.cells.take last).drop first := by
  unfold gatherRange at hgather
  split at hgather
  · cases hgather
  · obtain ⟨hlater, hcells⟩ := gatherAll_cells hgathering hgather
    rw [Pieces.cells_slice] at hcells
    exact ⟨hlater, hcells⟩

theorem size_pos {gathering : Gathering} {piece : Piece}
    (hpiece : piece ∈ gathering.latest) : 0 < gathering.size := by
  rw [gathering.size_eq]
  have hpos := gathering.length_pos
  cases hlatest : gathering.latest with
  | nil => simp [hlatest] at hpiece
  | cons first rest =>
    rw [Pieces.size_cons]
    exact Nat.add_pos_left (hpos first (by simp [hlatest])) _

/-- A proper piece is gathered, or it shares bytes with the piece before it. -/
theorem gather_cases (gathering : Gathering) {piece : Piece} (hpiece : piece.Proper) :
    gathering.gather piece = .ok (gathering.add piece hpiece.length_pos) ∨
      0 < gathering.size ∧
        gathering.gather piece = .error (.overlap piece.offset piece.stop) := by
  have hrange : checkRange piece.owner.size piece.offset piece.stop = .ok () :=
    checkRange_eq_ok_iff.2 ⟨Nat.le_add_right _ _, hpiece.stop_le⟩
  unfold gather
  simp only [hrange, hpiece.length_pos, dite_true]
  split
  · rename_i hmeets
    obtain ⟨last, hlast, -⟩ : ∃ last, gathering.latest.head? = some last ∧
        last.meets piece.owner piece.offset piece.stop = true := by
      simpa [Option.any_eq_true] using hmeets
    exact Or.inr ⟨size_pos (List.mem_of_head? hlast), rfl⟩
  · exact Or.inl rfl

/-- A piece shares no byte with the range of a piece whose cells are new. -/
theorem not_meets_of_nodup {gathering : Gathering} {piece last : Piece}
    (hpiece : 0 < piece.length) (hnodup : (gathering.cells ++ piece.cells).Nodup)
    (hlast : last ∈ gathering.latest) :
    last.meets piece.owner piece.offset piece.stop = false := by
  rw [Bool.eq_false_iff]
  intro hmeets
  simp only [Piece.meets, Bool.and_eq_true, beq_iff_eq, decide_eq_true_eq] at hmeets
  obtain ⟨⟨howner, hfirst⟩, hsecond⟩ := hmeets
  have hpos := gathering.length_pos last hlast
  let cell : Cell := { owner := piece.owner, position := max last.offset piece.offset }
  have hgathered : cell ∈ gathering.cells := by
    rw [cells, Pieces.cells, List.mem_flatMap]
    refine ⟨last, List.mem_reverse.2 hlast, Piece.mem_cells.2 ⟨howner.symm, ?_, ?_⟩⟩
    · exact Nat.le_max_left _ _
    · simp only [cell, Piece.stop] at *
      omega
  have hnew : cell ∈ piece.cells := by
    refine Piece.mem_cells.2 ⟨rfl, Nat.le_max_right _ _, ?_⟩
    simp only [cell, Piece.stop] at *
    omega
  exact (List.nodup_append'.1 hnodup).2.2 hgathered hnew

/-- Gathering a proper piece whose cells are new. -/
theorem gather_of_nodup {gathering : Gathering} {piece : Piece} (hpiece : piece.Proper)
    (hnodup : (gathering.cells ++ piece.cells).Nodup) :
    gathering.gather piece = .ok (gathering.add piece hpiece.length_pos) := by
  have hrange : checkRange piece.owner.size piece.offset piece.stop = .ok () :=
    checkRange_eq_ok_iff.2 ⟨Nat.le_add_right _ _, hpiece.stop_le⟩
  have hfree : (gathering.latest.head?.any
      fun last => last.meets piece.owner piece.offset piece.stop) = false := by
    cases hhead : gathering.latest.head? with
    | none => rfl
    | some last =>
      exact not_meets_of_nodup hpiece.length_pos hnodup (List.mem_of_head? hhead)
  unfold gather
  simp only [hrange, hfree, hpiece.length_pos, dite_true, Bool.false_eq_true, if_false]

/-- Proper pieces whose cells are new can be gathered. -/
theorem gatherAll_of_nodup {pieces : List Piece} {gathering : Gathering}
    (hpieces : Pieces.Proper pieces)
    (hnodup : (gathering.cells ++ Pieces.cells pieces).Nodup) :
    ∃ later, gathering.gatherAll pieces = .ok later := by
  induction pieces generalizing gathering with
  | nil => exact ⟨gathering, rfl⟩
  | cons piece rest ih =>
    rw [Pieces.proper_cons] at hpieces
    rw [Pieces.cells_cons, ← List.append_assoc] at hnodup
    have hgather := gather_of_nodup hpieces.1 (List.nodup_append'.1 hnodup).1
    rw [← cells_add gathering piece hpieces.1.length_pos] at hnodup
    simp only [gatherAll, hgather]
    exact ih hpieces.2 hnodup

/-- A range of a proper table that brings no cell a second time can be gathered. -/
theorem gatherRange_of_nodup {gathering : Gathering} {source : PieceTable}
    (hsource : source.Proper) {first last : Nat} (hrange : first ≤ last)
    (hlast : last ≤ source.size)
    (hnodup : (gathering.cells ++ (source.cells.take last).drop first).Nodup) :
    ∃ later, gathering.gatherRange source first last = .ok later := by
  have hcheck : checkRange source.size first last = .ok () :=
    checkRange_eq_ok_iff.2 ⟨hrange, hlast⟩
  have hcells : Pieces.cells (Pieces.slice first last source.pieces) =
      (source.cells.take last).drop first := Pieces.cells_slice _ _ _
  simp only [gatherRange, hcheck]
  exact gatherAll_of_nodup (Pieces.Proper.slice hsource first last) (by rwa [hcells])

/-- Fewer bytes than a header has announce nothing. -/
theorem completeSize?_of_short {gathering : Gathering}
    (hshort : gathering.size < MacHeader.wireSize) : gathering.completeSize? = none := by
  cases hcomplete : gathering.completeSize? with
  | none => rfl
  | some block =>
    have hbounds := completeSize?_bounds hcomplete
    omega

/-- A gathering that begins with a header is complete from the announced size on. -/
theorem completeSize?_of_header {gathering : Gathering} (hgathering : gathering.Proper)
    {header : MacHeader} (hheader : header.bytes <+: gathering.cells.map Cell.byte) :
    gathering.completeSize? =
      if header.packetSize ≤ gathering.size then some header.packetSize else none := by
  obtain ⟨rest, hbytes⟩ := hheader
  have hlead : gathering.lead = header.bytes := by
    calc gathering.lead
        = gathering.bytes.take MacHeader.wireSize := gathering.lead_eq
      _ = (header.bytes ++ rest).take MacHeader.wireSize := by rw [hgathering.bytes_eq, hbytes]
      _ = header.bytes := List.take_left' header.length_bytes
  have hdecode := header.decode_bytes_append []
  rw [List.append_nil] at hdecode
  simp only [completeSize?, hlead, hdecode]

/-- Bytes that complete a gathering are part of what it announces. -/
theorem size_lt_of_completes {gathering later : Gathering} (hgathering : gathering.Proper)
    (hlater : later.Proper) {cells : List Cell} (hcells : later.cells = gathering.cells ++ cells)
    (hopen : gathering.completeSize? = none) {block : Nat}
    (hcomplete : later.completeSize? = some block) : gathering.size < block := by
  by_cases hshort : gathering.size < MacHeader.wireSize
  · exact Nat.lt_of_lt_of_le hshort (completeSize?_bounds hcomplete).1
  · -- The announcement is among the first bytes, which stay.
    have hlead : later.lead = gathering.lead := by
      have hfits : MacHeader.wireSize ≤ (gathering.cells.map Cell.byte).length := by
        rw [List.length_map, Gathering.length_cells]
        exact Nat.le_of_not_lt hshort
      calc later.lead
          = later.bytes.take MacHeader.wireSize := later.lead_eq
        _ = ((gathering.cells ++ cells).map Cell.byte).take MacHeader.wireSize := by
            rw [hlater.bytes_eq, hcells]
        _ = (gathering.cells.map Cell.byte).take MacHeader.wireSize := by
            rw [List.map_append, List.take_append_of_le_length hfits]
        _ = gathering.lead := by rw [← hgathering.bytes_eq, gathering.lead_eq, Gathering.bytes]
    unfold completeSize? at hopen hcomplete
    rw [hlead] at hcomplete
    cases hdecode : MacHeader.decode gathering.lead with
    | error fault =>
      rw [hdecode] at hcomplete
      cases hcomplete
    | ok header =>
      simp only [hdecode] at hopen hcomplete
      split at hopen
      · cases hopen
      · rename_i hbeyond
        split at hcomplete
        · cases hcomplete
          exact Nat.lt_of_not_le hbeyond
        · cases hcomplete

end Gathering

end Ccf
