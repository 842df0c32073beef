import Ccf.Proofs.Buffer.GatheredCells
import Ccf.Segmenter.Basic

/-!
# What a filling places

A filling moves cells from the front of the queue to the end of the content and loses none.  As long
as no cell occurs twice, nothing is refused.  The header notes the first cell of the content that is
the first of its packet.

Building a segment fills it within a grant and stamps it: `Segmenter.Yields` says what can come of
that.
-/

namespace Ccf

def firstStart? (cells : List Cell) : Option Nat :=
  cells.findIdx? fun cell => cell.position == 0

/-- A header says whether, and where, a packet starts in content with the given cells. -/
structure SegmentHeader.Notes (header : SegmentHeader) (cells : List Cell) : Prop where
  pfi_eq : header.pfi = (firstStart? cells).isSome
  offmac_eq : header.offmac.toNat = (firstStart? cells).getD 0
  offmac_le : header.offmac.toNat ≤ SegmentHeader.offmacMax

namespace QueuedPacket

def piece (entry : QueuedPacket) : Piece :=
  { owner := entry.packet, offset := entry.placed, length := entry.remaining }

def part (entry : QueuedPacket) (amount : Nat) : Piece :=
  { owner := entry.packet, offset := entry.placed, length := amount }

/-- Placing a part leaves the rest. -/
theorem cells_piece (entry : QueuedPacket) {amount : Nat} (hamount : amount ≤ entry.remaining) :
    entry.piece.cells =
      (entry.part amount).cells ++
        { entry with placed := entry.placed + amount : QueuedPacket }.piece.cells := by
  have hjoins : (entry.part amount).joins
      { entry with placed := entry.placed + amount : QueuedPacket }.piece = true := by
    simp [Piece.joins, part, piece, Piece.stop]
  rw [← Piece.cells_merge hjoins]
  congr 1
  simp only [piece, part, Piece.merge, remaining, Piece.mk.injEq, true_and] at hamount ⊢
  omega

/-- A packet that has not been begun has all its cells to place. -/
theorem cells_piece_of_untouched (entry : QueuedPacket) (huntouched : entry.placed = 0) :
    entry.piece.cells = entry.packet.cells := by
  simp [piece, remaining, huntouched, Piece.cells, Packet.cells, List.range_eq_range']

theorem proper_part {entry : QueuedPacket} {amount : Nat} (hpositive : 0 < amount)
    (hamount : amount ≤ entry.remaining) : (entry.part amount).Proper := by
  refine ⟨hpositive, ?_⟩
  simp only [part, Piece.stop, remaining] at hpositive hamount ⊢
  omega

end QueuedPacket

def queueCells (queue : List QueuedPacket) : List Cell :=
  queue.flatMap fun entry => entry.piece.cells

@[simp]
theorem queueCells_nil : queueCells [] = [] := rfl

@[simp]
theorem queueCells_cons (entry : QueuedPacket) (queue : List QueuedPacket) :
    queueCells (entry :: queue) = entry.piece.cells ++ queueCells queue := rfl

/-- Placing a part of the packet in front leaves its rest and the others. -/
theorem queueCells_advance (front : QueuedPacket) (others : List QueuedPacket) {amount : Nat}
    (hamount : amount ≤ front.remaining) :
    queueCells (front :: others) = (front.part amount).cells ++
      queueCells ({ front with placed := front.placed + amount } :: others) := by
  rw [queueCells_cons, queueCells_cons, front.cells_piece hamount, List.append_assoc]

theorem queueCells_append (queue later : List QueuedPacket) :
    queueCells (queue ++ later) = queueCells queue ++ queueCells later :=
  List.flatMap_append

/-- Every queued packet has bytes left, and only the one in front has been begun. -/
structure QueueReady (queue : List QueuedPacket) : Prop where
  placed_lt : ∀ entry ∈ queue, entry.placed < entry.packet.size
  untouched : ∀ entry ∈ queue.tail, entry.placed = 0

theorem queueReady_nil : QueueReady [] where
  placed_lt := by simp
  untouched := by simp

theorem QueueReady.tail {front : QueuedPacket} {others : List QueuedPacket}
    (hqueue : QueueReady (front :: others)) : QueueReady others where
  placed_lt entry hentry := hqueue.placed_lt entry (List.mem_cons_of_mem _ hentry)
  untouched entry hentry := hqueue.untouched entry (List.mem_of_mem_tail hentry)

theorem QueueReady.advance {front : QueuedPacket} {others : List QueuedPacket}
    (hqueue : QueueReady (front :: others)) {amount : Nat} (hamount : amount < front.remaining) :
    QueueReady ({ front with placed := front.placed + amount } :: others) where
  placed_lt entry hentry := by
    rcases List.mem_cons.1 hentry with rfl | hmem
    · simp only [QueuedPacket.remaining] at hamount ⊢
      omega
    · exact hqueue.placed_lt entry (List.mem_cons_of_mem _ hmem)
  untouched entry hentry := hqueue.untouched entry hentry

theorem queueCells_concat (queue : List QueuedPacket) (packet : Packet) :
    queueCells (queue ++ [{ packet := packet, placed := 0 }]) =
      queueCells queue ++ packet.cells := by
  rw [queueCells_append, queueCells_cons, queueCells_nil, List.append_nil,
    QueuedPacket.cells_piece_of_untouched _ rfl]

theorem QueueReady.concat {queue : List QueuedPacket} (hqueue : QueueReady queue)
    {packet : Packet} (hsize : 0 < packet.size) :
    QueueReady (queue ++ [{ packet := packet, placed := 0 }]) where
  placed_lt entry hentry := by
    rcases List.mem_append.1 hentry with hold | hnew
    · exact hqueue.placed_lt entry hold
    · rw [List.mem_singleton.1 hnew]
      exact hsize
  untouched entry hentry := by
    cases queue with
    | nil => simp at hentry
    | cons front others =>
      rw [List.cons_append, List.tail_cons] at hentry
      rcases List.mem_append.1 hentry with hold | hnew
      · exact hqueue.untouched entry hold
      · rw [List.mem_singleton.1 hnew]

namespace Filling

theorem firstStart?_append (cells later : List Cell) :
    firstStart? (cells ++ later) =
      (firstStart? cells).or ((firstStart? later).map fun index => index + cells.length) :=
  List.findIdx?_append

/-- The first cell of a range is the only one that can begin the packet. -/
theorem firstStart?_piece {piece : Piece} (hpiece : 0 < piece.length) :
    firstStart? piece.cells = if piece.offset = 0 then some 0 else none := by
  obtain ⟨owner, offset, length⟩ := piece
  obtain ⟨rest, rfl⟩ := Nat.exists_eq_succ_of_ne_zero (Nat.ne_of_gt hpiece)
  simp only [firstStart?, Piece.cells, List.range'_succ, List.map_cons, List.findIdx?_cons,
    beq_iff_eq]
  split
  · rfl
  · rename_i hoffset
    rw [Option.map_eq_none_iff, List.findIdx?_eq_none_iff]
    intro cell hcell
    obtain ⟨position, hposition, rfl⟩ := List.mem_map.1 hcell
    rw [List.mem_range'_1] at hposition
    simp only [beq_eq_false_iff_ne]
    omega

/-- Content that grows by a range whose start has been noted. -/
theorem notes_noteStart {header : SegmentHeader} {cells : List Cell} (hheader : header.Notes cells)
    {piece : Piece} (hpiece : 0 < piece.length)
    (hfits : piece.offset = 0 → header.pfi = false → cells.length ≤ SegmentHeader.offmacMax) :
    (noteStart header (piece.offset == 0) cells.length).Notes (cells ++ piece.cells) := by
  have hfirst := firstStart?_append cells piece.cells
  rw [firstStart?_piece hpiece] at hfirst
  have hpfi := hheader.pfi_eq
  have hoffmac := hheader.offmac_eq
  cases hcells : firstStart? cells with
  | some index =>
    rw [hcells, Option.some_or] at hfirst
    rw [hcells] at hpfi hoffmac
    have hkept : noteStart header (piece.offset == 0) cells.length = header := by
      simp [noteStart, hpfi]
    rw [hkept]
    exact ⟨by rw [hpfi, hfirst], by rw [hoffmac, hfirst], hheader.offmac_le⟩
  | none =>
    rw [hcells, Option.none_or] at hfirst
    rw [hcells, Option.isSome_none] at hpfi
    rw [hcells] at hoffmac
    by_cases hstart : piece.offset = 0
    · have hle := hfits hstart hpfi
      have hnat : (UInt16.ofNat cells.length).toNat = cells.length := by
        simp only [SegmentHeader.offmacMax] at hle
        rw [UInt16.toNat_ofNat']
        omega
      rw [if_pos hstart] at hfirst
      constructor <;> simp [noteStart, hstart, hpfi, hfirst, hnat, hle]
    · rw [if_neg hstart] at hfirst
      constructor <;> simp [noteStart, hstart, hfirst, hpfi, hoffmac, SegmentHeader.offmacMax]

/-- What a filling does with the packet in front of the queue. -/
inductive Meets (capacity : Nat) (front : QueuedPacket) (others : List QueuedPacket)
    (header : SegmentHeader) (payload : Gathering) : Filling → Prop where
  | full (hfull : capacity ≤ payload.size) :
    Meets capacity front others header payload
      { queue := front :: others, finished := [], result := .ok (header, payload) }
  /-- The packet would be the first to start, and the header cannot say where. -/
  | far (hroom : payload.size < capacity) (hplaced : front.placed = 0) (hpfi : header.pfi = false)
      (hfar : SegmentHeader.offmacMax < payload.size) :
    Meets capacity front others header payload
      { queue := front :: others, finished := [], result := .ok (header, payload) }
  /-- The payload refuses bytes of the packet. -/
  | refused (amount : Nat) (hpos : 0 < amount) (hle : amount ≤ front.remaining)
      (fault : BufferError) (hgather : payload.gather (front.part amount) = .error fault) :
    Meets capacity front others header payload
      { queue := front :: others, finished := [], result := .error fault }
  /-- The packet leaves the queue, and the next one is met. -/
  | all (filled : Gathering)
      (hnear : front.placed = 0 → header.pfi = false → payload.size ≤ SegmentHeader.offmacMax)
      (hpos : 0 < front.remaining) (hfits : payload.size + front.remaining ≤ capacity)
      (hgather : payload.gather front.piece = .ok filled) :
    Meets capacity front others header payload
      { place capacity others (noteStart header (front.placed == 0) payload.size) filled with
        finished := front.packet ::
          (place capacity others (noteStart header (front.placed == 0) payload.size)
            filled).finished }
  /-- A part of the packet fills the room. -/
  | part (amount : Nat) (filled : Gathering)
      (hnear : front.placed = 0 → header.pfi = false → payload.size ≤ SegmentHeader.offmacMax)
      (hpos : 0 < amount) (hless : amount < front.remaining)
      (hfull : payload.size + amount = capacity)
      (hgather : payload.gather (front.part amount) = .ok filled) :
    Meets capacity front others header payload
      { queue := { front with placed := front.placed + amount } :: others
        finished := []
        result := .ok (noteStart header (front.placed == 0) payload.size, filled) }

theorem place_meets (capacity : Nat) {front : QueuedPacket} (others : List QueuedPacket)
    (header : SegmentHeader) (payload : Gathering) (hfront : front.placed < front.packet.size) :
    Meets capacity front others header payload
      (place capacity (front :: others) header payload) := by
  have hremaining : 0 < front.remaining := Nat.sub_pos_of_lt hfront
  simp only [place]
  split
  · exact .full ‹_›
  · rename_i hroom
    split
    · rename_i hfar
      simp only [Bool.and_eq_true, beq_iff_eq, Bool.not_eq_true', decide_eq_true_eq] at hfar
      exact .far (Nat.lt_of_not_le hroom) hfar.1.1 hfar.1.2 hfar.2
    · rename_i hexpressible
      have hnear : front.placed = 0 → header.pfi = false →
          payload.size ≤ SegmentHeader.offmacMax := by
        intro hplaced hpfi
        simpa [hplaced, hpfi] using hexpressible
      obtain ⟨amount, hamount⟩ :
          ∃ amount, amount = min (capacity - payload.size) front.remaining := ⟨_, rfl⟩
      have hpos : 0 < amount := by omega
      have hle : amount ≤ front.remaining := by omega
      rw [← hamount,
        show (⟨front.packet, front.placed, amount⟩ : Piece) = front.part amount from rfl]
      cases hgather : payload.gather (front.part amount) with
      | error fault => exact .refused amount hpos hle fault hgather
      | ok filled =>
        simp only
        split
        · rename_i hall
          rw [hall] at hgather
          exact .all filled hnear hremaining (by omega) hgather
        · exact .part amount filled hnear hpos (by omega) (by omega) hgather

/-! ## What leaves the queue -/

/-- What a filling takes off the queue, whether a range is refused or not. -/
structure Takes (cells : List Cell) (queue : List QueuedPacket) (filling : Filling)
    (content : Gathering) : Prop where
  proper : content.Proper
  cells_eq : content.cells ++ queueCells filling.queue = cells ++ queueCells queue
  ready : QueueReady filling.queue
  result : (∃ header, filling.result = .ok (header, content)) ∨
    0 < content.size ∧ ∃ first last, filling.result = .error (.overlap first last)

theorem Takes.content_eq {cells : List Cell} {queue : List QueuedPacket} {filling : Filling}
    {content filled : Gathering} (htakes : Takes cells queue filling content)
    {header : SegmentHeader} (hresult : filling.result = .ok (header, filled)) :
    content = filled := by
  rcases htakes.result with ⟨other, hother⟩ | ⟨-, first, last, hfault⟩
  · rw [hother] at hresult
    cases hresult
    rfl
  · rw [hfault] at hresult
    cases hresult

theorem Takes.fault_eq {cells : List Cell} {queue : List QueuedPacket} {filling : Filling}
    {content : Gathering} (htakes : Takes cells queue filling content) {fault : BufferError}
    (hresult : filling.result = .error fault) :
    0 < content.size ∧ ∃ first last, fault = .overlap first last := by
  rcases htakes.result with ⟨header, hother⟩ | ⟨hsize, first, last, hfault⟩
  · rw [hother] at hresult
    cases hresult
  · rw [hfault] at hresult
    cases hresult
    exact ⟨hsize, first, last, rfl⟩

/-- A filling moves cells from the queue to the content, and if a range is refused, it is because
of bytes that have been placed. -/
theorem place_takes (capacity : Nat) {queue : List QueuedPacket} (header : SegmentHeader)
    {payload : Gathering} (hqueue : QueueReady queue) (hpayload : payload.Proper) :
    ∃ content, Takes payload.cells queue (place capacity queue header payload) content := by
  induction queue generalizing header payload with
  | nil => exact ⟨payload, hpayload, rfl, hqueue, Or.inl ⟨header, rfl⟩⟩
  | cons front others ih =>
    have hmeets := place_meets capacity others header payload
      (hqueue.placed_lt front List.mem_cons_self)
    generalize place capacity (front :: others) header payload = filling at hmeets ⊢
    cases hmeets with
    | full => exact ⟨payload, hpayload, rfl, hqueue, Or.inl ⟨header, rfl⟩⟩
    | far => exact ⟨payload, hpayload, rfl, hqueue, Or.inl ⟨header, rfl⟩⟩
    | refused amount hpos hle fault hgather =>
      rcases payload.gather_cases (QueuedPacket.proper_part hpos hle) with hadds | ⟨hsize, hoverlap⟩
      · rw [hadds] at hgather
        cases hgather
      · rw [hoverlap] at hgather
        cases hgather
        exact ⟨payload, hpayload, rfl, hqueue, Or.inr ⟨hsize, _, _, rfl⟩⟩
    | all filled hnear hpos hfits hgather =>
      obtain ⟨hfilled, hcells⟩ := Gathering.gather_cells hpayload hgather
      obtain ⟨content, htakes⟩ :=
        ih (noteStart header (front.placed == 0) payload.size) hqueue.tail hfilled
      refine ⟨content, htakes.proper, ?_, htakes.ready, htakes.result⟩
      rw [htakes.cells_eq, hcells, queueCells_cons, List.append_assoc]
    | part amount filled hnear hpos hless hfull hgather =>
      obtain ⟨hfilled, hcells⟩ := Gathering.gather_cells hpayload hgather
      refine ⟨filled, hfilled, ?_, hqueue.advance hless, Or.inl ⟨_, rfl⟩⟩
      rw [hcells, queueCells_advance front others (Nat.le_of_lt hless), List.append_assoc]

/-- A filling is not refused anything if no cell occurs twice. -/
theorem place_succeeds (capacity : Nat) {queue : List QueuedPacket} (header : SegmentHeader)
    {payload : Gathering} (hqueue : QueueReady queue) (hpayload : payload.Proper)
    (hnodup : (payload.cells ++ queueCells queue).Nodup) :
    ∃ filled content, (place capacity queue header payload).result = .ok (filled, content) := by
  induction queue generalizing header payload with
  | nil => exact ⟨header, payload, rfl⟩
  | cons front others ih =>
    have hmeets := place_meets capacity others header payload
      (hqueue.placed_lt front List.mem_cons_self)
    generalize place capacity (front :: others) header payload = filling at hmeets ⊢
    cases hmeets with
    | full => exact ⟨header, payload, rfl⟩
    | far => exact ⟨header, payload, rfl⟩
    | refused amount hpos hle fault hgather =>
      rw [queueCells_advance front others hle, ← List.append_assoc] at hnodup
      rw [Gathering.gather_of_nodup (QueuedPacket.proper_part hpos hle)
        (List.nodup_append'.1 hnodup).1] at hgather
      cases hgather
    | all filled hnear hpos hfits hgather =>
      obtain ⟨hfilled, hcells⟩ := Gathering.gather_cells hpayload hgather
      apply ih _ hqueue.tail hfilled
      rwa [hcells, List.append_assoc, ← queueCells_cons]
    | part => exact ⟨_, _, rfl⟩

theorem noteStart_eq (header : SegmentHeader) (startsPacket : Bool) (offset : Nat) :
    ∃ pfi offmac, noteStart header startsPacket offset =
      { header with pfi := pfi, offmac := offmac } := by
  unfold noteStart
  split
  · exact ⟨_, _, rfl⟩
  · exact ⟨header.pfi, header.offmac, rfl⟩

/-- What a filling that succeeds says about its content: the header notes the first packet start and
is otherwise the one that the filling was given, and room is left only if nothing could be placed
there. -/
structure Stamps (header : SegmentHeader) (capacity : Nat) (filling : Filling)
    (filled : SegmentHeader) (content : Gathering) : Prop where
  notes : filled.Notes content.cells
  header_eq : filled = { header with pfi := filled.pfi, offmac := filled.offmac }
  size_le : content.size ≤ capacity
  /-- The queue is empty, or the next packet would be the first to start and starts too far into the
  content. -/
  room : content.size < capacity →
    filling.queue = [] ∨
      filled.pfi = false ∧ SegmentHeader.offmacMax < content.size ∧
        ∃ next others, filling.queue = next :: others ∧ next.placed = 0

/-- Content that ends with a range is noted with the start of the range. -/
theorem notes_gather {header : SegmentHeader} {payload filled : Gathering}
    (hheader : header.Notes payload.cells) {front : QueuedPacket} {amount : Nat} (hpos : 0 < amount)
    (hcells : filled.cells = payload.cells ++ (front.part amount).cells)
    (hnear : front.placed = 0 → header.pfi = false → payload.size ≤ SegmentHeader.offmacMax) :
    (noteStart header (front.placed == 0) payload.size).Notes filled.cells := by
  have hpiece : 0 < (front.part amount).length := hpos
  rw [← payload.length_cells] at hnear
  rw [hcells, ← payload.length_cells]
  exact notes_noteStart hheader hpiece hnear

theorem place_stamps (capacity : Nat) {queue : List QueuedPacket} {header filled : SegmentHeader}
    {payload content : Gathering} (hqueue : QueueReady queue) (hpayload : payload.Proper)
    (hsize : payload.size ≤ capacity) (hheader : header.Notes payload.cells)
    (hresult : (place capacity queue header payload).result = .ok (filled, content)) :
    Stamps header capacity (place capacity queue header payload) filled content := by
  induction queue generalizing header payload with
  | nil =>
    cases hresult
    exact ⟨hheader, rfl, hsize, fun _ => Or.inl rfl⟩
  | cons front others ih =>
    have hmeets := place_meets capacity others header payload
      (hqueue.placed_lt front List.mem_cons_self)
    generalize place capacity (front :: others) header payload = filling at hmeets hresult ⊢
    obtain ⟨pfi, offmac, hnoted⟩ := noteStart_eq header (front.placed == 0) payload.size
    cases hmeets with
    | full hfull =>
      cases hresult
      exact ⟨hheader, rfl, hsize, fun hroom => absurd hfull (Nat.not_le_of_lt hroom)⟩
    | far hroom hplaced hpfi hfar =>
      cases hresult
      exact ⟨hheader, rfl, hsize, fun _ => Or.inr ⟨hpfi, hfar, front, others, rfl, hplaced⟩⟩
    | refused => cases hresult
    | all payload' hnear hpos hfits hgather =>
      obtain ⟨hfilled, hcells⟩ := Gathering.gather_cells hpayload hgather
      have hgrown : payload'.size = payload.size + front.remaining :=
        Gathering.size_gather hgather
      have hlater := ih hqueue.tail hfilled (by omega) (notes_gather hheader hpos hcells hnear)
        hresult
      refine ⟨hlater.notes, ?_, hlater.size_le, hlater.room⟩
      rw [hlater.header_eq]
      simp only [hnoted]
    | part amount payload' hnear hpos hless hfull hgather =>
      obtain ⟨hfilled, hcells⟩ := Gathering.gather_cells hpayload hgather
      have hgrown : payload'.size = capacity := (Gathering.size_gather hgather).trans hfull
      cases hresult
      refine ⟨notes_gather hheader hpos hcells hnear, ?_, Nat.le_of_eq hgrown, ?_⟩
      · simp only [hnoted]
      · exact fun hroom => absurd hgrown (Nat.ne_of_lt hroom)

/-- What a filling of the cells `cells` with the given queue leaves: the header, apart from the
packet start, is the one that it was given. -/
structure Filled (header : SegmentHeader) (cells : List Cell) (queue : List QueuedPacket)
    (filling : Filling) (filled : SegmentHeader) (payload : Gathering) : Prop where
  result_eq : filling.result = .ok (filled, payload)
  proper : payload.Proper
  cells_eq : payload.cells ++ queueCells filling.queue = cells ++ queueCells queue
  ready : QueueReady filling.queue
  notes : filled.Notes payload.cells
  header_eq : filled = { header with pfi := filled.pfi, offmac := filled.offmac }

/-- A filling places cells of the queue in order, and is never refused if no cell occurs twice. -/
theorem place_filled (capacity : Nat) {queue : List QueuedPacket} {header : SegmentHeader}
    {payload : Gathering} (hqueue : QueueReady queue) (hpayload : payload.Proper)
    (hsize : payload.size ≤ capacity) (hnodup : (payload.cells ++ queueCells queue).Nodup)
    (hheader : header.Notes payload.cells) :
    ∃ filled content, Filled header payload.cells queue (place capacity queue header payload)
      filled content := by
  obtain ⟨filled, content, hresult⟩ := place_succeeds capacity header hqueue hpayload hnodup
  have hstamps := place_stamps capacity hqueue hpayload hsize hheader hresult
  obtain ⟨other, htakes⟩ := place_takes capacity header hqueue hpayload
  obtain rfl : other = content := htakes.content_eq hresult
  exact ⟨filled, other, hresult, htakes.proper, htakes.cells_eq, htakes.ready, hstamps.notes,
    hstamps.header_eq⟩

end Filling

/-! ## Building a segment -/

namespace Segmenter

def filling (segmenter : Segmenter) (grant : Grant) : Filling :=
  Filling.place grant.capacity segmenter.queue
    { SegmentHeader.blank with sc := segmenter.settings.cluster } .empty

theorem exists_takes {segmenter : Segmenter} (hready : QueueReady segmenter.queue)
    (grant : Grant) :
    ∃ content, Filling.Takes [] segmenter.queue (segmenter.filling grant) content :=
  Filling.place_takes grant.capacity _ hready Gathering.proper_empty

/-- What can come of building a segment within a grant. -/
inductive Yields (segmenter : Segmenter) (grant : Grant) :
    Outcome Segmenter SegmenterReport (Except BufferError (Option Segment)) → Prop where
  /-- The grant has no room for content. -/
  | small (hcapacity : grant.capacity = 0) :
    Yields segmenter grant { state := segmenter, reports := [], value := .ok none }
  /-- The content refuses bytes of a packet. -/
  | refused (fault : BufferError) (hresult : (segmenter.filling grant).result = .error fault) :
    Yields segmenter grant
      { state := { segmenter with queue := (segmenter.filling grant).queue }
        reports := (segmenter.filling grant).finished.map .recycled
        value := .error fault }
  | hollow (header : SegmentHeader) (content : Gathering)
      (hresult : (segmenter.filling grant).result = .ok (header, content))
      (hempty : content.size = 0) :
    Yields segmenter grant
      { state := { segmenter with queue := (segmenter.filling grant).queue }
        reports := (segmenter.filling grant).finished.map .recycled
        value := .ok none }
  | segment (header : SegmentHeader) (content : Gathering)
      (hresult : (segmenter.filling grant).result = .ok (header, content))
      (hpos : 0 < content.size) :
    Yields segmenter grant
      { state := { (segmenter.stamp header).1 with queue := (segmenter.filling grant).queue }
        reports := (segmenter.filling grant).finished.map .recycled
        value := .ok (some
          { header := (segmenter.stamp header).2, payload := content.table .delegate }) }

theorem build_yields (segmenter : Segmenter) (grant : Grant) :
    Yields segmenter grant (segmenter.build grant) := by
  unfold build
  rw [← filling]
  split
  · rename_i hcapacity
    exact .small hcapacity
  · rcases hresult : (segmenter.filling grant).result with fault | ⟨header, content⟩
    · simp only [hresult]
      exact .refused fault hresult
    · simp only [hresult]
      split
      · rename_i hempty
        exact .hollow header content hresult hempty
      · rename_i hsome
        exact .segment header content hresult (Nat.pos_of_ne_zero hsome)

end Segmenter

end Ccf
