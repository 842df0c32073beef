import Ccf.Buffer.Packet

/-!
# Pieces and runs of pieces

A piece is a range of one packet.  A list of pieces stands for the bytes of its ranges one after
another; its *cells* say for every one of those bytes which packet it belongs to and where in that
packet it is.  `take`, `drop` and `splice` cut and join such lists: they act on the cells as
`List.take`, `List.drop` and `++` do, and `splice` puts together two pieces that continue each other
where the lists meet.
-/

namespace Ccf

/-- One byte of a packet, by place. -/
structure Cell where
  owner : Packet
  position : Nat
deriving DecidableEq, Repr

/-- `length` bytes of `owner`, from `offset` on. -/
structure Piece where
  owner : Packet
  offset : Nat
  length : Nat
deriving DecidableEq, Repr

namespace Piece

def stop (piece : Piece) : Nat := piece.offset + piece.length

def bytes (piece : Piece) : List UInt8 := piece.owner.slice piece.offset piece.stop

def cells (piece : Piece) : List Cell :=
  (List.range' piece.offset piece.length).map (Cell.mk piece.owner)

/-- Whether `next` continues the piece without a gap. -/
def joins (piece next : Piece) : Bool :=
  piece.owner == next.owner && piece.stop == next.offset

/-- Whether the piece shares bytes with the range from `first` to `last` of `owner`. -/
def meets (piece : Piece) (owner : Packet) (first last : Nat) : Bool :=
  piece.owner == owner && decide (first < piece.stop) && decide (piece.offset < last)

/-- Two pieces of which the second continues the first, as one. -/
def merge (piece next : Piece) : Piece := { piece with length := piece.length + next.length }

def front (piece : Piece) (count : Nat) : Piece := { piece with length := count }

/-- A piece without its first `count` bytes. -/
def back (piece : Piece) (count : Nat) : Piece :=
  { piece with offset := piece.offset + count, length := piece.length - count }

theorem bytes_merge {piece next : Piece} (hjoins : piece.joins next) :
    (piece.merge next).bytes = piece.bytes ++ next.bytes := by
  simp only [joins, Bool.and_eq_true, beq_iff_eq, stop] at hjoins
  obtain ⟨howner, hstop⟩ := hjoins
  simp only [bytes, merge, stop, Packet.slice, howner, ← hstop]
  rw [← Array.toList_append, Array.extract_append_extract]
  congr 2 <;> omega

theorem length_bytes_le (piece : Piece) : piece.bytes.length ≤ piece.length := by
  simp only [bytes, stop, Packet.length_slice]
  omega

theorem bytes_front {piece : Piece} {count : Nat} (hcount : count ≤ piece.length) :
    (piece.front count).bytes = piece.bytes.take count := by
  simp only [bytes, front, stop, Packet.slice_eq, List.take_drop, List.take_take]
  congr 2
  omega

end Piece

namespace Pieces

def size : List Piece → Nat
  | [] => 0
  | piece :: rest => piece.length + size rest

def bytes (pieces : List Piece) : List UInt8 := pieces.flatMap Piece.bytes

def cells (pieces : List Piece) : List Cell := pieces.flatMap Piece.cells

def take : Nat → List Piece → List Piece
  | _, [] => []
  | count, piece :: rest =>
    if count = 0 then []
    else if count < piece.length then [piece.front count]
    else piece :: take (count - piece.length) rest

def drop : Nat → List Piece → List Piece
  | _, [] => []
  | count, piece :: rest =>
    if count < piece.length then piece.back count :: rest
    else drop (count - piece.length) rest

/-- One list of pieces after another, with the pieces that meet put together if they continue each
other. -/
def splice : List Piece → List Piece → List Piece
  | [], right => right
  | [last], next :: rest =>
    if last.joins next then last.merge next :: rest else last :: next :: rest
  | [last], [] => [last]
  | piece :: next :: rest, right => piece :: splice (next :: rest) right

/-- The pieces of the bytes from `first` up to `last`. -/
def slice (first last : Nat) (pieces : List Piece) : List Piece :=
  drop first (take last pieces)

/-- Whether a piece starts or the list ends at `position`. -/
def isSeam : Nat → List Piece → Bool
  | 0, _ => true
  | _ + 1, [] => false
  | position + 1, piece :: rest =>
    decide (piece.length ≤ position + 1) && isSeam (position + 1 - piece.length) rest

/-! ## Sizes -/

@[simp]
theorem size_nil : size [] = 0 := rfl

@[simp]
theorem size_cons (piece : Piece) (rest : List Piece) :
    size (piece :: rest) = piece.length + size rest := rfl

theorem size_take (count : Nat) (pieces : List Piece) :
    size (take count pieces) = min count (size pieces) := by
  induction pieces generalizing count with
  | nil => simp [take]
  | cons piece rest ih =>
    simp only [take]
    split
    · simp_all
    · split
      · simp only [size_cons, size_nil, Piece.front]
        omega
      · simp only [size_cons, ih]
        omega

theorem size_drop (count : Nat) (pieces : List Piece) :
    size (drop count pieces) = size pieces - count := by
  induction pieces generalizing count with
  | nil => simp [drop]
  | cons piece rest ih =>
    simp only [drop]
    split
    · simp only [size_cons, Piece.back]
      omega
    · simp only [size_cons, ih]
      omega

theorem size_splice (left right : List Piece) :
    size (splice left right) = size left + size right := by
  induction left with
  | nil => simp [splice]
  | cons piece rest ih =>
    cases rest with
    | nil =>
      cases right with
      | nil => simp [splice]
      | cons next later =>
        simp only [splice]
        split
        · simp only [size_cons, size_nil, Piece.merge]
          omega
        · simp only [size_cons, size_nil]
          omega
    | cons next later =>
      simp only [splice, size_cons] at ih ⊢
      omega

theorem size_slice (first last : Nat) (pieces : List Piece) :
    size (slice first last pieces) = min last (size pieces) - first := by
  simp [slice, size_drop, size_take]

theorem splice_nil (left : List Piece) : splice left [] = left := by
  induction left with
  | nil => rfl
  | cons first rest ih =>
    cases rest with
    | nil => rfl
    | cons second later => simpa [splice] using ih

theorem splice_concat (left : List Piece) (last piece : Piece) :
    splice (left ++ [last]) [piece] =
      left ++ if last.joins piece then [last.merge piece] else [last, piece] := by
  induction left with
  | nil => rfl
  | cons first rest ih =>
    cases rest with
    | nil => simp [splice]
    | cons second later => simpa [splice] using ih

theorem size_append (left right : List Piece) : size (left ++ right) = size left + size right := by
  induction left with
  | nil => simp
  | cons piece rest ih =>
    simp only [List.cons_append, size_cons, ih]
    omega

theorem size_reverse (pieces : List Piece) : size pieces.reverse = size pieces := by
  induction pieces with
  | nil => rfl
  | cons piece rest ih =>
    simp only [List.reverse_cons, size_append, ih, size_cons, size_nil]
    omega

theorem take_size {pieces : List Piece} (hpieces : ∀ piece ∈ pieces, 0 < piece.length) :
    take (size pieces) pieces = pieces := by
  induction pieces with
  | nil => rfl
  | cons piece rest ih =>
    simp only [List.mem_cons, forall_eq_or_imp] at hpieces
    have hsize : size (piece :: rest) - piece.length = size rest :=
      Nat.add_sub_cancel_left _ _
    simp only [take]
    rw [if_neg (by simp; omega), if_neg (by simp), hsize, ih hpieces.2]

theorem drop_size (pieces : List Piece) : drop (size pieces) pieces = [] := by
  induction pieces with
  | nil => rfl
  | cons piece rest ih =>
    have hsize : size (piece :: rest) - piece.length = size rest :=
      Nat.add_sub_cancel_left _ _
    simp only [drop]
    rw [if_neg (by simp), hsize, ih]

theorem isSeam_size (pieces : List Piece) : isSeam (size pieces) pieces = true := by
  induction pieces with
  | nil => rfl
  | cons piece rest ih =>
    simp only [size_cons]
    cases hsize : piece.length + size rest with
    | zero => rfl
    | succ count =>
      simp only [isSeam, ← hsize, Nat.add_sub_cancel_left, ih, Bool.and_true, decide_eq_true_eq]
      omega

end Pieces

end Ccf
