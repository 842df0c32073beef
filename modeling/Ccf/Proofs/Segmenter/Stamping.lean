import Ccf.Proofs.Segmenter.Looks
import Ccf.Proofs.Segmenter.Losses
import Ccf.Proofs.Wire.SegmentFrame

/-!
# Headers and sizes of the segments of a run

A segment is filled from the queue as far as its grant goes.  Its header says whether a packet
starts in the content and where the first one does, and every header fits the wire, so every segment
can be written.

Room is left for one of two reasons: the queue has been emptied, or the content goes on with a
packet begun before and reaches so far that a packet starting behind it could not be noted.  In both
cases the segment ends where a packet does.
-/

namespace Ccf

namespace SegmentHeader

variable {header : SegmentHeader} {cells : List Cell}

/-- A noted packet start is the place of the first byte of a packet, and no such place is before
it. -/
theorem Notes.earliest (hnotes : header.Notes cells) (hpfi : header.pfi = true) :
    (∃ cell, cells[header.offmac.toNat]? = some cell ∧ cell.position = 0) ∧
      ∀ cell ∈ cells.take header.offmac.toNat, cell.position ≠ 0 := by
  obtain ⟨index, hindex⟩ := Option.isSome_iff_exists.1 (hnotes.pfi_eq.symm.trans hpfi)
  have hoffmac : header.offmac.toNat = index := by rw [hnotes.offmac_eq, hindex, Option.getD_some]
  obtain ⟨hlt, hstart, hbefore⟩ := List.findIdx?_eq_some_iff_getElem.1 hindex
  rw [hoffmac]
  constructor
  · exact ⟨cells[index], List.getElem?_eq_getElem hlt, by simpa using hstart⟩
  · intro cell hcell
    obtain ⟨position, hposition, rfl⟩ := List.mem_take_iff_getElem.1 hcell
    simpa using hbefore position (Nat.lt_of_lt_of_le hposition (Nat.min_le_left _ _))

/-- A packet start is noted if there is one. -/
theorem Notes.pfi_iff (hnotes : header.Notes cells) :
    header.pfi = true ↔ ∃ cell ∈ cells, cell.position = 0 := by
  rw [hnotes.pfi_eq, firstStart?, List.findIdx?_isSome, List.any_eq_true]
  simp only [beq_iff_eq]

theorem Notes.offmac_eq_zero (hnotes : header.Notes cells) (hpfi : header.pfi = false) :
    header.offmac.toNat = 0 := by
  have hnone := hnotes.pfi_eq.symm.trans hpfi
  rw [Option.isSome_eq_false_iff, Option.isNone_iff_eq_none] at hnone
  rw [hnotes.offmac_eq, hnone, Option.getD_none]

end SegmentHeader

namespace Look

variable {look : Look} {segment : Segment} {header : SegmentHeader} {content : Gathering}

theorem Builds.cells_eq_content (hbuilds : look.Builds segment header content) :
    segment.cells = content.cells := by
  rw [hbuilds.segment_eq]
  rfl

/-- A segment that is built takes its cells off the front of the queue. -/
theorem Builds.cells_eq (hbuilds : look.Builds segment header content)
    (hready : QueueReady look.segmenter.queue) :
    segment.payload.Proper ∧
      segment.cells ++ queueCells look.after.queue = queueCells look.segmenter.queue := by
  obtain ⟨other, htakes⟩ := Segmenter.exists_takes hready look.grant
  obtain rfl : other = content := htakes.content_eq hbuilds.result_eq
  rw [hbuilds.cells_eq_content, hbuilds.queue_eq, hbuilds.segment_eq]
  exact ⟨htakes.proper.table _, htakes.cells_eq⟩

theorem Builds.stamps (hbuilds : look.Builds segment header content)
    (hready : QueueReady look.segmenter.queue) :
    Filling.Stamps { SegmentHeader.blank with sc := look.segmenter.settings.cluster }
      look.grant.capacity (look.segmenter.filling look.grant) header content :=
  Filling.place_stamps look.grant.capacity hready Gathering.proper_empty (Nat.zero_le _)
    (Segmenter.notes_blank _) hbuilds.result_eq

/-- The segment has the noted packet start, the cluster of the settings and the next number. -/
theorem Builds.notes (hbuilds : look.Builds segment header content)
    (hready : QueueReady look.segmenter.queue) : segment.header.Notes segment.cells := by
  have hnotes := (hbuilds.stamps hready).notes
  rw [hbuilds.cells_eq_content, hbuilds.segment_eq]
  exact ⟨hnotes.pfi_eq, hnotes.offmac_eq, hnotes.offmac_le⟩

theorem Builds.sc_eq (hbuilds : look.Builds segment header content)
    (hready : QueueReady look.segmenter.queue) :
    segment.header.sc = look.segmenter.settings.cluster := by
  have hheader := (hbuilds.stamps hready).header_eq
  rw [hbuilds.segment_eq]
  exact congrArg SegmentHeader.sc hheader

theorem Builds.sequence_eq (hbuilds : look.Builds segment header content) :
    segment.header.sequence = look.segmenter.sequence.toWord := by
  rw [hbuilds.segment_eq]
  rfl

theorem Builds.request_eq (hbuilds : look.Builds segment header content) :
    segment.header.request = UInt16.ofNat look.segmenter.requestUnits := by
  rw [hbuilds.segment_eq]
  rfl

theorem Builds.size_eq (hbuilds : look.Builds segment header content) :
    segment.size = content.size := by
  rw [hbuilds.segment_eq, Segment.size, Gathering.size_table]

end Look

namespace Segmenter

/-- The queue is in order and has packets that were handed over, the number can be counted on, and
the cluster is the one of the settings. -/
structure Primed (packets : List Packet) (cluster : UInt8) (segmenter : Segmenter) : Prop where
  ready : QueueReady segmenter.queue
  packet_mem : ∀ entry ∈ segmenter.queue, entry.packet ∈ packets
  sequence_lt : segmenter.sequence.value < sequenceSpace
  cluster_eq : segmenter.settings.cluster = cluster

variable {packets : List Packet} {cluster : UInt8} {segmenter : Segmenter}

theorem primed_start (packets : List Packet) (settings : SegmenterSettings) :
    Primed packets settings.cluster (start settings) where
  ready := queueReady_nil
  packet_mem := nofun
  sequence_lt := (by decide : 0 < sequenceSpace)
  cluster_eq := rfl

theorem Primed.congr (hprimed : Primed packets cluster segmenter) {other : Segmenter}
    (hqueue : other.queue = segmenter.queue) (hsequence : other.sequence = segmenter.sequence)
    (hcluster : other.settings.cluster = segmenter.settings.cluster) :
    Primed packets cluster other where
  ready := hqueue ▸ hprimed.ready
  packet_mem := hqueue ▸ hprimed.packet_mem
  sequence_lt := hsequence ▸ hprimed.sequence_lt
  cluster_eq := hcluster.trans hprimed.cluster_eq

theorem Primed.enqueue (hprimed : Primed packets cluster segmenter) {packet : Packet}
    (hpacket : packet ∈ packets) (hbytes : packet.isEmpty = false) :
    Primed packets cluster
      { segmenter with queue := segmenter.queue ++ [{ packet := packet, placed := 0 }] } where
  ready := hprimed.ready.concat (Packet.size_pos hbytes)
  packet_mem := List.forall_mem_append.2 ⟨hprimed.packet_mem, List.forall_mem_singleton.2 hpacket⟩
  sequence_lt := hprimed.sequence_lt
  cluster_eq := hprimed.cluster_eq

theorem Primed.readied (hprimed : Primed packets cluster segmenter) {call : SegmenterCall}
    (hcall : call.packet?.toList ⊆ packets) : Primed packets cluster (segmenter.readied call) := by
  have htakes := segmenter.takesIn_readied call
  generalize segmenter.readied call = taken at htakes
  cases htakes with
  | packet packet _ _ hbytes => exact hprimed.enqueue (hcall List.mem_cons_self) hbytes
  | clear => exact ⟨queueReady_nil, nofun, hprimed.sequence_lt, hprimed.cluster_eq⟩
  | _ => exact hprimed.congr rfl rfl rfl

theorem Primed.after {look : Look} (hprimed : Primed packets cluster look.segmenter) :
    Primed packets cluster look.after := by
  have hpackets : ∀ entry ∈ look.after.queue, entry.packet ∈ packets := by
    intro entry hentry
    obtain ⟨other, hother, hpacket⟩ :=
      List.mem_map.1 (Look.mem_queue_of_after (List.mem_map_of_mem hentry))
    exact hpacket ▸ hprimed.packet_mem other hother
  have hready : QueueReady look.after.queue := by
    obtain ⟨placed, -, hbuilt, -⟩ := build_puts hprimed.ready look.grant
    rcases look.queue_after with hqueue | hqueue
    · exact hqueue ▸ hprimed.ready
    · exact hqueue ▸ hbuilt
  have hcluster : look.after.settings.cluster = cluster := by
    rw [look.settings_after, hprimed.cluster_eq]
  refine ⟨hready, hpackets, ?_, hcluster⟩
  rcases look.after_cases with ⟨-, hafter⟩ | ⟨_, _, _, -, hbuilds⟩
  · rw [hafter]
    exact hprimed.sequence_lt
  · obtain ⟨refusals, hafter⟩ := hbuilds.after_eq
    rw [hafter]
    exact look.segmenter.sequence.next_lt

theorem upheld_primed (calls : List SegmenterCall) (cluster : UInt8) :
    Upheld calls (Primed (SegmenterCall.packets calls) cluster) where
  congr := fun _ _ hprimed => hprimed.congr rfl rfl rfl
  readied := by
    intro segmenter call hcall hprimed
    apply hprimed.readied
    intro packet hpacket
    exact List.mem_filterMap.2 ⟨call, hcall, Option.mem_toList.1 hpacket⟩
  looked := fun _ hprimed => hprimed.after

/-- Every look of a run is made in a state in order. -/
theorem primed_of_mem_lookAll (settings : SegmenterSettings) (calls : List SegmenterCall)
    {look : Look} (hlook : look ∈ (start settings).lookAll calls) :
    Primed (SegmenterCall.packets calls) settings.cluster look.segmenter :=
  ((upheld_primed calls settings.cluster).run (primed_start _ settings)).1 look hlook

end Segmenter

/-! ## What every segment is like -/

/-- A segment that was made of `packets` for the cluster `cluster`. -/
structure Segment.Stamped (segment : Segment) (packets : List Packet) (cluster : UInt8) : Prop where
  content_eq : segment.content = segment.cells.map Cell.byte
  sc_eq : segment.header.sc = cluster
  pfi_iff : segment.header.pfi = true ↔
    ∃ packet ∈ packets, { owner := packet, position := 0 } ∈ segment.cells
  /-- The noted start is the first byte of a packet, and the earliest one in the content. -/
  offmac_eq : segment.header.pfi = true →
    (∃ packet ∈ packets,
      segment.cells[segment.header.offmac.toNat]? = some { owner := packet, position := 0 }) ∧
    ∀ cell ∈ segment.cells.take segment.header.offmac.toNat, cell.position ≠ 0
  offmac_eq_zero : segment.header.pfi = false → segment.header.offmac.toNat = 0
  offmac_le : segment.header.offmac.toNat ≤ SegmentHeader.offmacMax
  validate_eq_ok : segment.header.validate = .ok ()
  toWire_eq_ok : ∃ bytes, segment.toWire = .ok bytes ∧
    bytes.length = SegmentHeader.wireSize + segment.size

/-- A segment fills the grant for which it was built as far as it goes. -/
structure Look.Fills (look : Look) (segment : Segment) : Prop where
  size_pos : 0 < segment.size
  size_le : segment.size + SegmentHeader.wireSize ≤ look.grant.size
  /-- Room is left if the queue has been emptied, or if nothing starts in the content and the next
  packet would start too far into it. -/
  room : segment.size + SegmentHeader.wireSize < look.grant.size →
    look.after.queue = [] ∨
      (∀ cell ∈ segment.cells, cell.position ≠ 0) ∧ SegmentHeader.offmacMax < segment.size ∧
        ∃ next others, look.after.queue = next :: others ∧ next.placed = 0

namespace Look

variable {look : Look} {segment : Segment} {header : SegmentHeader} {content : Gathering}

theorem Builds.fills (hbuilds : look.Builds segment header content)
    (hready : QueueReady look.segmenter.queue) : look.Fills segment := by
  have hstamps := hbuilds.stamps hready
  have hnotes := hbuilds.notes hready
  have hsize := hbuilds.size_eq
  have hpos := hbuilds.size_pos
  have hle := hstamps.size_le
  have hcapacity : look.grant.capacity = look.grant.size - SegmentHeader.wireSize := rfl
  constructor
  case size_pos => omega
  case size_le => omega
  case room =>
    intro hroom
    rw [hbuilds.queue_eq, hsize]
    apply (hstamps.room (by omega)).imp_right
    rintro ⟨hpfi, hfar, hnext⟩
    refine ⟨?_, hfar, hnext⟩
    intro cell hcell hstart
    rw [hbuilds.cells_eq_content] at hcell
    have hnoted := hstamps.notes.pfi_iff.2 ⟨cell, hcell, hstart⟩
    rw [hpfi] at hnoted
    cases hnoted

theorem Builds.validate_eq_ok {packets : List Packet} {cluster : UInt8}
    (hbuilds : look.Builds segment header content)
    (hprimed : Segmenter.Primed packets cluster look.segmenter)
    (hcluster : cluster.toNat ≤ SegmentHeader.clusterMax) :
    segment.header.validate = .ok () := by
  have hlt : look.segmenter.sequence.value < 8192 := hprimed.sequence_lt
  rw [SegmentHeader.validate_eq_ok_iff]
  refine ⟨(hbuilds.notes hprimed.ready).offmac_le, ?_, ?_⟩
  · rw [hbuilds.sequence_eq, SequenceNumber.toWord, UInt16.toNat_ofNat',
      Nat.mod_eq_of_lt (by omega), SegmentHeader.sequenceMax]
    omega
  · rwa [hbuilds.sc_eq hprimed.ready, hprimed.cluster_eq]

theorem Builds.stamped {packets : List Packet} {cluster : UInt8}
    (hbuilds : look.Builds segment header content)
    (hprimed : Segmenter.Primed packets cluster look.segmenter)
    (hcluster : cluster.toNat ≤ SegmentHeader.clusterMax) : segment.Stamped packets cluster := by
  have hnotes := hbuilds.notes hprimed.ready
  obtain ⟨hproper, hcells⟩ := hbuilds.cells_eq hprimed.ready
  have hvalid := hbuilds.validate_eq_ok hprimed hcluster
  have howner : ∀ cell ∈ segment.cells, cell.owner ∈ packets := by
    intro cell hcell
    have hqueued : cell ∈ queueCells look.segmenter.queue :=
      hcells ▸ List.mem_append_left _ hcell
    obtain ⟨entry, hentry, hpiece⟩ := List.mem_flatMap.1 hqueued
    exact (Piece.mem_cells.1 hpiece).1 ▸ hprimed.packet_mem entry hentry
  have hbegin {cell : Cell} (hstart : cell.position = 0) :
      cell = { owner := cell.owner, position := 0 } := by
    rw [← hstart]
  constructor
  case content_eq => exact Segment.content_eq hproper
  case sc_eq => rw [hbuilds.sc_eq hprimed.ready, hprimed.cluster_eq]
  case pfi_iff =>
    rw [hnotes.pfi_iff]
    constructor
    · rintro ⟨cell, hcell, hstart⟩
      exact ⟨cell.owner, howner cell hcell, hbegin hstart ▸ hcell⟩
    · rintro ⟨packet, -, hcell⟩
      exact ⟨_, hcell, rfl⟩
  case offmac_eq =>
    intro hpfi
    obtain ⟨⟨cell, hcell, hstart⟩, hbefore⟩ := hnotes.earliest hpfi
    refine ⟨⟨cell.owner, howner cell (List.mem_of_getElem? hcell), ?_⟩, hbefore⟩
    rw [hcell, ← hbegin hstart]
  case offmac_eq_zero => exact hnotes.offmac_eq_zero
  case offmac_le => exact hnotes.offmac_le
  case validate_eq_ok => exact hvalid
  case toWire_eq_ok =>
    refine ⟨_, Segment.toWire_eq hvalid, ?_⟩
    rw [List.length_append, SegmentHeader.length_bytes, Segment.content_eq hproper,
      List.length_map, Segment.cells, PieceTable.length_cells, Segment.size]

end Look

namespace Segmenter

/-- **Stamping and filling.** In a run from settings that can be used, every segment is built within
a grant that was handed over, fills it as far as it goes, and has a header that fits the wire and
notes the first packet start in the content. -/
theorem run_stamps {settings : SegmenterSettings} {segmenter : Segmenter}
    (hstart : start? settings = .ok segmenter) (calls : List SegmenterCall) :
    builtSegments (segmenter.run calls).reports =
        (segmenter.lookAll calls).filterMap Look.segment? ∧
      ∀ look ∈ segmenter.lookAll calls, ∀ segment, look.segment? = some segment →
        look.grant ∈ calls.flatMap SegmenterCall.grants ∧
          segment.Stamped (SegmenterCall.packets calls) settings.cluster ∧ look.Fills segment := by
  obtain ⟨rfl, hcluster⟩ := eq_of_start? hstart
  refine ⟨builtSegments_run _ calls, ?_⟩
  intro look hlook segment hsegment
  have hprimed := primed_of_mem_lookAll settings calls hlook
  obtain ⟨header, content, hbuilds⟩ := look.exists_builds hsegment
  exact ⟨grant_mem_of_mem_lookAll hlook, hbuilds.stamped hprimed hcluster,
    hbuilds.fills hprimed.ready⟩

/-- Two packets and two grants: the other packet starts two bytes into the second segment, which
leaves room because the queue has been emptied. -/
theorem run_stamps_mid :
    let long := Packet.raw 0 [1, 2, 3, 4, 5]
    let short := Packet.raw 1 [6, 7, 8]
    let accept : Nat → Answer := fun _ => .accepted
    let grant (size : Nat) : Grant := { channel := 1, time := .zero, size := size }
    let calls : List SegmenterCall :=
      [.process (some long) .zero accept, .process (some short) .zero accept,
        .addGrants [grant 11, grant 100] 0 .zero accept]
    let segmenter := start .standard
    (builtSegments (segmenter.run calls).reports).map
        (fun segment => (segment.header.pfi, segment.header.offmac, segment.content)) =
      [(true, 0, [1, 2, 3]), (true, 2, [4, 5, 6, 7, 8])] ∧
    ∀ look ∈ segmenter.lookAll calls, ∀ segment, look.segment? = some segment →
      segment.Stamped [long, short] 0 ∧ look.Fills segment := by
  intro long short accept grant calls segmenter
  have hstart : start? .standard = .ok segmenter := rfl
  obtain ⟨-, hstamps⟩ := run_stamps hstart calls
  refine ⟨?_, fun look hlook segment hsegment => (hstamps look hlook segment hsegment).2⟩
  simp only [calls, run, perform]
  rw [addGrants_of_sorted rfl (by decide)]
  decide

end Segmenter

end Ccf
