import Ccf.Proofs.Segmenter.Emission

/-!
# Segments on the wire

A header whose fields fit is read back as it was written, whatever follows it.  A segment that has
been written and read again has the same header and the same bytes, but they now belong to a packet
of their own.
-/

namespace Ccf

namespace SegmentHeader

theorem toNat_startWord (header : SegmentHeader) :
    header.startWord.toNat = header.pfi.toNat * 32768 + header.reserved.toNat * 16384 +
      header.offmac.toNat % 16384 := by
  have hpfi := header.pfi.toNat_le
  have hreserved := header.reserved.toNat_le
  rw [startWord, UInt16.toNat_ofNat']
  omega

theorem toNat_numberWord (header : SegmentHeader) :
    header.numberWord.toNat = header.sequence.toNat % 8192 * 8 + header.sc.toNat % 8 := by
  rw [numberWord, UInt16.toNat_ofNat']
  omega

theorem validate_eq_ok_iff {header : SegmentHeader} :
    header.validate = .ok () ↔
      header.offmac.toNat ≤ offmacMax ∧ header.sequence.toNat ≤ sequenceMax ∧
        header.sc.toNat ≤ clusterMax := by
  unfold validate
  split
  · simp only [reduceCtorEq, false_iff]
    omega
  · split
    · simp only [reduceCtorEq, false_iff]
      omega
    · split
      · simp only [reduceCtorEq, false_iff]
        omega
      · simp only [true_iff]
        omega

/-- The words of a header whose fields fit spell the header. -/
theorem ofWords_eq {header : SegmentHeader} (hvalid : header.validate = .ok ()) :
    ofWords header.startWord header.numberWord header.request header.hcs = header := by
  obtain ⟨hoffmac, hsequence, hcluster⟩ := validate_eq_ok_iff.1 hvalid
  simp only [offmacMax, sequenceMax, clusterMax] at hoffmac hsequence hcluster
  have hstart := header.toNat_startWord
  have hnumber := header.toNat_numberWord
  obtain ⟨pfi, reserved, offmac, sequence, sc, request, hcs⟩ := header
  simp only at hoffmac hsequence hcluster hstart hnumber
  simp only [ofWords, hstart, hnumber, SegmentHeader.mk.injEq, and_true]
  refine ⟨?_, ?_, ?_, ?_, ?_⟩
  · cases pfi <;> cases reserved <;> simp <;> omega
  · cases pfi <;> cases reserved <;> simp <;> omega
  · apply UInt16.toNat_inj.mp
    rw [UInt16.toNat_ofNat']
    cases pfi <;> cases reserved <;> simp <;> omega
  · apply UInt16.toNat_inj.mp
    rw [UInt16.toNat_ofNat']
    omega
  · apply UInt8.toNat_inj.mp
    rw [UInt8.toNat_ofNat']
    omega

/-- Reading what was written gives the header back, whatever comes after it. -/
theorem decode_bytes_append {header : SegmentHeader} (hvalid : header.validate = .ok ())
    (rest : List UInt8) : decode (header.bytes ++ rest) = .ok header := by
  simp only [bytes, Word.toBytes, List.cons_append, List.nil_append, decode, Word.ofBytes_toBytes,
    ofWords_eq hvalid]

section Words

variable (start number request check : UInt16)

theorem startWord_ofWords : (ofWords start number request check).startWord = start := by
  have hstart := start.toNat_lt
  apply UInt16.toNat_inj.mp
  rw [toNat_startWord]
  simp only [ofWords, UInt16.toNat_ofNat']
  by_cases hpfi : 32768 ≤ start.toNat <;> by_cases hreserved : 16384 ≤ start.toNat % 32768 <;>
    simp only [hpfi, hreserved, decide_true, decide_false, Bool.toNat_true, Bool.toNat_false] <;>
    omega

theorem numberWord_ofWords : (ofWords start number request check).numberWord = number := by
  have hnumber := number.toNat_lt
  apply UInt16.toNat_inj.mp
  rw [toNat_numberWord]
  simp only [ofWords, UInt16.toNat_ofNat', UInt8.toNat_ofNat']
  omega

/-- The fields of a header that has been read fit the wire. -/
theorem validate_ofWords : (ofWords start number request check).validate = .ok () := by
  have hnumber := number.toNat_lt
  rw [validate_eq_ok_iff]
  simp only [ofWords, UInt16.toNat_ofNat', UInt8.toNat_ofNat', offmacMax, sequenceMax, clusterMax]
  omega

end Words

/-- Enough bytes begin with those of a header. -/
theorem exists_decode_of_length {bytes : List UInt8} (hlong : wireSize ≤ bytes.length) :
    ∃ header, decode bytes = .ok header ∧ header.validate = .ok () ∧
      header.bytes ++ bytes.drop wireSize = bytes := by
  rw [wireSize] at hlong
  rcases bytes with _ | ⟨a, _ | ⟨b, _ | ⟨c, _ | ⟨d, _ | ⟨e, _ | ⟨f, _ | ⟨g, _ | ⟨h, rest⟩⟩⟩⟩⟩⟩⟩⟩
  case cons.cons.cons.cons.cons.cons.cons.cons =>
    refine ⟨_, rfl, validate_ofWords _ _ _ _, ?_⟩
    simp only [SegmentHeader.bytes, startWord_ofWords, numberWord_ofWords]
    simp only [ofWords, Word.toBytes_ofBytes, wireSize, List.cons_append, List.nil_append,
      List.drop_succ_cons, List.drop_zero]
  all_goals simp at hlong

/-- Fewer bytes are not read. -/
theorem decode_of_length_lt {bytes : List UInt8} (hshort : bytes.length < wireSize) :
    decode bytes = .error (.truncated wireSize bytes.length) := by
  unfold decode
  split
  · simp only [List.length_cons, wireSize] at hshort
    omega
  · rfl

end SegmentHeader

namespace Packet

/-- The places of the content of a segment that has been read. -/
theorem map_byte_cells_ofSegmentContent (id : Nat) (header : SegmentHeader)
    (content : List UInt8) :
    (ofSegmentContent id header content).cells.map Cell.byte = content := by
  rw [← byteList_eq_map_cells]
  simp [byteList, ofSegmentContent]

end Packet

namespace Pieces

/-- Nothing is missing from the slice of all bytes, whatever the pieces are. -/
theorem bytes_slice_size (pieces : List Piece) :
    bytes (slice 0 (size pieces) pieces) = bytes pieces := by
  have hhollow {piece : Piece} (hlength : piece.length = 0) : piece.bytes = [] := by
    rw [← List.length_eq_zero_iff]
    exact Nat.le_zero.1 (hlength ▸ piece.length_bytes_le)
  have hdrop (pieces : List Piece) : bytes (drop 0 pieces) = bytes pieces := by
    induction pieces with
    | nil => rfl
    | cons piece rest ih =>
      rw [drop]
      split
      · rfl
      · rename_i hlength
        have hnone := hhollow (Nat.eq_zero_of_not_pos hlength)
        rw [Nat.zero_sub, ih, bytes, bytes, List.flatMap_cons, hnone, List.nil_append]
  have hzero (pieces : List Piece) : take 0 pieces = [] := by
    cases pieces <;> rfl
  rw [slice, hdrop]
  induction pieces with
  | nil => rfl
  | cons piece rest ih =>
    rw [take, size_cons]
    split
    · rename_i hsize
      obtain ⟨hlength, hrest⟩ := Nat.add_eq_zero_iff.1 hsize
      rw [hrest, hzero] at ih
      rw [bytes, bytes, List.flatMap_cons, hhollow hlength, List.nil_append]
      exact ih
    · rw [if_neg (by omega), Nat.add_sub_cancel_left, bytes, List.flatMap_cons, ← bytes, ih]
      rfl

end Pieces

namespace Segment

theorem proper_ofContent (id : Nat) (header : SegmentHeader) (content : List UInt8) :
    (ofContent id header content).payload.Proper :=
  PieceTable.proper_ofPacket _

theorem cells_ofContent (id : Nat) (header : SegmentHeader) (content : List UInt8) :
    (ofContent id header content).cells = (Packet.ofSegmentContent id header content).cells :=
  PieceTable.cells_ofPacket _

theorem map_byte_cells_ofContent (id : Nat) (header : SegmentHeader) (content : List UInt8) :
    (ofContent id header content).cells.map Cell.byte = content := by
  rw [cells_ofContent, Packet.map_byte_cells_ofSegmentContent]

/-- Content bytes are read off the places. -/
theorem content_eq {segment : Segment} (hproper : segment.payload.Proper) :
    segment.content = segment.cells.map Cell.byte :=
  hproper.bytes_eq

/-- Writing a segment whose header fields fit. -/
theorem toWire_eq {segment : Segment} (hvalid : segment.header.validate = .ok ()) :
    segment.toWire = .ok (segment.header.bytes ++ segment.content) := by
  have hcheck : checkRange segment.payload.size 0 segment.payload.size = .ok () :=
    checkRange_eq_ok_iff.2 ⟨Nat.zero_le _, Nat.le_refl _⟩
  have hall : Pieces.bytes (Pieces.slice 0 segment.payload.size segment.payload.pieces) =
      segment.content := by
    rw [← segment.payload.size_eq]
    exact Pieces.bytes_slice_size segment.payload.pieces
  simp only [toWire, SegmentHeader.appendTo, hvalid, PieceTable.copyTo, hcheck, hall,
    List.nil_append]

/-- A segment that was written and read again. -/
theorem ofWire_toWire {segment : Segment} (hvalid : segment.header.validate = .ok ())
    (id : Nat) {bytes : List UInt8}
    (hwire : segment.toWire = .ok bytes) :
    ofWire id bytes = .ok (ofContent id segment.header segment.content) := by
  rw [toWire_eq hvalid] at hwire
  cases hwire
  simp only [ofWire, SegmentHeader.decode_bytes_append hvalid]
  rw [List.drop_left' segment.header.length_bytes]

/-- A segment that has been read is one of a header and a content. -/
theorem exists_of_ofWire {id : Nat} {bytes : List UInt8} {segment : Segment}
    (hread : ofWire id bytes = .ok segment) :
    ∃ header content, segment = ofContent id header content := by
  unfold ofWire at hread
  split at hread
  · cases hread
  · cases hread
    exact ⟨_, _, rfl⟩

/-- The header of a segment as it is emitted fits the wire. -/
theorem Emitted.validate_eq_ok {segment : Segment} {cluster : UInt8} {number : Nat}
    (hemitted : segment.Emitted cluster number)
    (hcluster : cluster.toNat ≤ SegmentHeader.clusterMax) :
    segment.header.validate = .ok () := by
  refine SegmentHeader.validate_eq_ok_iff.2 ⟨hemitted.notes.offmac_le, ?_, ?_⟩
  · have hlt : number % sequenceSpace < sequenceSpace := Nat.mod_lt _ (by decide)
    rw [hemitted.sequence_eq]
    exact Nat.le_of_lt_succ hlt
  · rwa [hemitted.sc_eq]

end Segment

end Ccf
