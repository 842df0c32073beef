import Ccf.Buffer.Reading

/-!
# Gathering bytes

A gathering is a piece table that grows at its end only.  Its pieces are held latest first, and its
size and its first bytes are at hand, so that adding a range takes the same few steps however many
pieces there are.

`gather` adds and refuses exactly what `PieceTable.insert` does at the end of the table that the
gathering stands for (`insert_table`), and `gatherRange` what `PieceTable.insertRange` does there
(`insertRange_table`).
-/

namespace Ccf

namespace Pieces

/-- Pieces held latest first, with one more after them. -/
def extend : List Piece → Piece → List Piece
  | [], piece => [piece]
  | latest :: earlier, piece =>
    if latest.joins piece then latest.merge piece :: earlier else piece :: latest :: earlier

end Pieces

/-- A piece table that grows at its end only. -/
structure Gathering where
  /-- The pieces, the latest one first. -/
  latest : List Piece
  size : Nat
  /-- The first bytes, as many as a MAC header has. -/
  lead : List UInt8
  size_eq : size = Pieces.size latest
  lead_eq : lead = (Pieces.bytes latest.reverse).take MacHeader.wireSize
  length_pos : ∀ piece ∈ latest, 0 < piece.length
deriving DecidableEq, Repr

namespace Pieces

theorem size_extend (latest : List Piece) (piece : Piece) :
    size (extend latest piece) = size latest + piece.length := by
  unfold extend
  split
  · simp
  · split <;> simp only [size_cons, Piece.merge] <;> omega

theorem bytes_extend (latest : List Piece) (piece : Piece) :
    bytes (extend latest piece).reverse = bytes latest.reverse ++ piece.bytes := by
  unfold extend
  split
  · simp [bytes]
  · split
    · simp [bytes, Piece.bytes_merge ‹_›]
    · simp [bytes]

theorem reverse_extend (latest : List Piece) (piece : Piece) :
    (extend latest piece).reverse = splice latest.reverse [piece] := by
  unfold extend
  split
  · rfl
  · rw [List.reverse_cons, splice_concat]
    split <;> simp

theorem length_pos_extend {latest : List Piece} {piece : Piece}
    (hlatest : ∀ other ∈ latest, 0 < other.length) (hpiece : 0 < piece.length) :
    ∀ other ∈ extend latest piece, 0 < other.length := by
  unfold extend
  split
  · simpa using hpiece
  · simp only [List.mem_cons, forall_eq_or_imp] at hlatest
    split
    · simp only [List.mem_cons, forall_eq_or_imp]
      exact ⟨Nat.add_pos_left hlatest.1 _, hlatest.2⟩
    · simp only [List.mem_cons, forall_eq_or_imp]
      exact ⟨hpiece, hlatest⟩

end Pieces

namespace Gathering

def empty : Gathering where
  latest := []
  size := 0
  lead := []
  size_eq := rfl
  lead_eq := rfl
  length_pos := by simp

instance : Inhabited Gathering := ⟨empty⟩

/-- The piece table that a gathering stands for. -/
def table (gathering : Gathering) (format : BlockFormat) : PieceTable where
  pieces := gathering.latest.reverse
  format := format
  size := gathering.size
  size_eq := by rw [Pieces.size_reverse, gathering.size_eq]

def bytes (gathering : Gathering) : List UInt8 := Pieces.bytes gathering.latest.reverse

theorem length_lead (gathering : Gathering) :
    gathering.lead.length = min MacHeader.wireSize gathering.bytes.length := by
  simp [gathering.lead_eq, bytes]

/-- The first bytes of a gathering with one more piece at its end. -/
def leadWith (gathering : Gathering) (piece : Piece) : List UInt8 :=
  let missing := MacHeader.wireSize - gathering.lead.length
  if missing = 0 then gathering.lead
  else gathering.lead ++ (piece.front (min missing piece.length)).bytes

theorem leadWith_eq (gathering : Gathering) (piece : Piece) :
    gathering.leadWith piece = (gathering.bytes ++ piece.bytes).take MacHeader.wireSize := by
  have hlead := gathering.length_lead
  have hpiece := piece.length_bytes_le
  rw [List.take_append, bytes, ← gathering.lead_eq]
  simp only [leadWith, bytes] at hlead ⊢
  split
  · rw [show MacHeader.wireSize - (Pieces.bytes gathering.latest.reverse).length = 0 by omega,
      List.take_zero, List.append_nil]
  · rw [Piece.bytes_front (Nat.min_le_right _ _), List.append_cancel_left_eq,
      List.take_eq_take_iff]
    omega

def add (gathering : Gathering) (piece : Piece) (hpiece : 0 < piece.length) : Gathering where
  latest := Pieces.extend gathering.latest piece
  size := gathering.size + piece.length
  lead := gathering.leadWith piece
  size_eq := by rw [Pieces.size_extend, gathering.size_eq]
  lead_eq := by rw [Pieces.bytes_extend, gathering.leadWith_eq, bytes]
  length_pos := Pieces.length_pos_extend gathering.length_pos hpiece

/-- A gathering with the range of a piece at its end, if the range is one of its packet and does not
share bytes with the piece before it. -/
def gather (gathering : Gathering) (piece : Piece) : Except BufferError Gathering :=
  match checkRange piece.owner.size piece.offset piece.stop with
  | .error fault => .error fault
  | .ok () =>
    if hpiece : 0 < piece.length then
      if gathering.latest.head?.any fun last => last.meets piece.owner piece.offset piece.stop then
        .error (.overlap piece.offset piece.stop)
      else
        .ok (gathering.add piece hpiece)
    else
      .ok gathering

def gatherAll (gathering : Gathering) : List Piece → Except BufferError Gathering
  | [] => .ok gathering
  | piece :: rest =>
    match gathering.gather piece with
    | .error fault => .error fault
    | .ok later => later.gatherAll rest

/-- Gather the bytes from `first` up to `last` of a table. -/
def gatherRange (gathering : Gathering) (source : PieceTable) (first last : Nat) :
    Except BufferError Gathering :=
  match checkRange source.size first last with
  | .error fault => .error fault
  | .ok () => gathering.gatherAll (Pieces.slice first last source.pieces)

/-- The size of the MAC packet in front, once all of it is there. -/
def completeSize? (gathering : Gathering) : Option Nat :=
  match MacHeader.decode gathering.lead with
  | .ok header => if header.packetSize ≤ gathering.size then some header.packetSize else none
  | .error _ => none

/-! ## What gathering does -/

theorem size_table (gathering : Gathering) (format : BlockFormat) :
    (gathering.table format).size = gathering.size := rfl

theorem take_table (gathering : Gathering) (format : BlockFormat) :
    Pieces.take gathering.size (gathering.table format).pieces = gathering.latest.reverse := by
  rw [gathering.size_eq, ← Pieces.size_reverse]
  exact Pieces.take_size fun piece hpiece =>
    gathering.length_pos piece (List.mem_reverse.1 hpiece)

theorem drop_table (gathering : Gathering) (format : BlockFormat) :
    Pieces.drop gathering.size (gathering.table format).pieces = [] := by
  rw [gathering.size_eq, ← Pieces.size_reverse]
  exact Pieces.drop_size _

theorem isSeam_table (gathering : Gathering) (format : BlockFormat) :
    Pieces.isSeam gathering.size (gathering.table format).pieces = true := by
  rw [gathering.size_eq, ← Pieces.size_reverse]
  exact Pieces.isSeam_size _

/-- Inserting at the end is gathering. -/
theorem insert_table (gathering : Gathering) (piece : Piece) (format : BlockFormat) :
    (gathering.table format).insert gathering.size piece.owner piece.offset piece.stop =
      (gathering.gather piece).map
        fun later => (later.table format, decide (0 < piece.length)) := by
  have hlength : piece.stop - piece.offset = piece.length := Nat.add_sub_cancel_left _ _
  unfold gather PieceTable.insert
  cases checkRange piece.owner.size piece.offset piece.stop with
  | error fault => rfl
  | ok =>
    by_cases hpiece : 0 < piece.length
    · have hrange : piece.offset ≠ piece.stop := by
        simp only [Piece.stop]
        omega
      simp only [hpiece, hrange, size_table, isSeam_table, PieceTable.overlapsAt,
        PieceTable.splicedAt, take_table, drop_table, List.getLast?_reverse, hlength]
      simp only [dite_true, ite_false, Nat.lt_irrefl, Bool.true_and, List.head?_nil,
        Option.any_none, Bool.or_false]
      split
      · rfl
      · refine congrArg (fun later => Except.ok (later, _)) (PieceTable.eq_of_pieces_eq ?_ rfl)
        simp [add, table, Pieces.reverse_extend, Pieces.splice_nil]
    · have hrange : piece.offset = piece.stop := by
        simp only [Piece.stop]
        omega
      simp [hpiece, hrange, Except.map]

theorem size_gather {gathering later : Gathering} {piece : Piece}
    (hgather : gathering.gather piece = .ok later) :
    later.size = gathering.size + piece.length := by
  unfold gather at hgather
  split at hgather
  · cases hgather
  · split at hgather
    · split at hgather
      · cases hgather
      · cases hgather
        rfl
    · cases hgather
      omega

theorem size_gatherAll {pieces : List Piece} {gathering later : Gathering}
    (hgather : gathering.gatherAll pieces = .ok later) :
    later.size = gathering.size + Pieces.size pieces := by
  induction pieces generalizing gathering with
  | nil =>
    cases hgather
    rfl
  | cons piece rest ih =>
    simp only [gatherAll] at hgather
    split at hgather
    · cases hgather
    · rw [ih hgather, size_gather ‹_›, Pieces.size_cons, Nat.add_assoc]

theorem size_gatherRange {gathering later : Gathering} {source : PieceTable} {first last : Nat}
    (hgather : gathering.gatherRange source first last = .ok later) :
    later.size = gathering.size + (last - first) := by
  unfold gatherRange at hgather
  split at hgather
  · cases hgather
  · rename_i hrange
    rw [checkRange_eq_ok_iff, ← source.size_eq] at hrange
    rw [size_gatherAll hgather, Pieces.size_slice]
    omega

theorem insertPieces_table {pieces : List Piece} {gathering : Gathering} {position written : Nat}
    (hplace : position + written = gathering.size) (format : BlockFormat) :
    (match (gathering.table format).insertPieces position written pieces with
      | (table, .ok _) => .ok table
      | (_, .error fault) => .error fault) =
      (gathering.gatherAll pieces).map fun later => later.table format := by
  induction pieces generalizing gathering written with
  | nil => rfl
  | cons piece rest ih =>
    simp only [PieceTable.insertPieces, gatherAll, hplace, insert_table]
    cases hgather : gathering.gather piece with
    | error fault => rfl
    | ok later =>
      have hsize := size_gather hgather
      simp only [Except.map]
      apply ih
      split
      · omega
      · simp_all

/-- Inserting a range at the end is gathering it. -/
theorem insertRange_table (gathering : Gathering) (source : PieceTable) (first last : Nat)
    (format : BlockFormat) :
    (match (gathering.table format).insertRange gathering.size source first last with
      | (table, .ok _) => .ok table
      | (_, .error fault) => .error fault) =
      (gathering.gatherRange source first last).map fun later => later.table format := by
  unfold PieceTable.insertRange gatherRange
  cases checkRange source.size first last with
  | error fault => rfl
  | ok => exact insertPieces_table (Nat.add_zero _) format

theorem completeSize?_bounds {gathering : Gathering} {block : Nat}
    (hblock : gathering.completeSize? = some block) :
    MacHeader.wireSize ≤ block ∧ block ≤ gathering.size := by
  unfold completeSize? at hblock
  split at hblock
  · split at hblock
    · cases hblock
      exact ⟨MacHeader.wireSize_le_packetSize _, by assumption⟩
    · cases hblock
  · cases hblock

end Gathering

end Ccf
