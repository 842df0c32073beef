import Ccf.Proofs.Segmenter.Ledger

/-!
# Conservation of bytes in segmenting runs

The segments of a run and the rest of its queue have, one after another, the bytes of the packets
handed over, and every packet is reported once: as placed when its last byte is in a segment, or as
given up when it has no bytes.  Segments that the scheduler refuses count like the others, and so
does every part of a run: what holds after all calls holds after each of them.

A run that gives up its queue is not covered.
-/

namespace Ccf

namespace QueuedPacket

/-- The bytes still to place are read off the cells still to place. -/
theorem rest_eq (entry : QueuedPacket) : entry.rest = entry.piece.cells.map Cell.byte :=
  entry.packet.slice_eq_map entry.placed (Nat.le_refl entry.packet.size)

end QueuedPacket

/-- The bytes of a queue are read off its cells. -/
theorem flatMap_rest_eq (queue : List QueuedPacket) :
    queue.flatMap QueuedPacket.rest = (queueCells queue).map Cell.byte := by
  rw [queueCells, List.map_flatMap]
  exact List.flatMap_congr fun entry _ => entry.rest_eq

/-- Packets without bytes add no cells. -/
theorem flatMap_cells_packetsWithBytes (packets : List Packet) :
    (packetsWithBytes packets).flatMap Packet.cells = packets.flatMap Packet.cells := by
  induction packets with
  | nil => rfl
  | cons packet later ih =>
    rw [List.flatMap_cons, ← ih, packetsWithBytes, List.filter_cons]
    cases hempty : packet.isEmpty with
    | true =>
      rw [Packet.cells_of_isEmpty hempty]
      rfl
    | false => rfl

/-- The bytes of packets are read off their cells. -/
theorem flatMap_byteList_packetsWithBytes (packets : List Packet) :
    (packetsWithBytes packets).flatMap Packet.byteList =
      (packets.flatMap Packet.cells).map Cell.byte := by
  rw [← flatMap_cells_packetsWithBytes, List.map_flatMap]
  exact List.flatMap_congr fun packet _ => packet.byteList_eq_map_cells

namespace Segmenter

/-- The bytes of segments built one after another are read off their cells. -/
theorem flatMap_content_eq {cluster : UInt8} {segments : List Segment}
    (hsegments : EmittedInOrder cluster segments) :
    segments.flatMap Segment.content = (segments.flatMap Segment.cells).map Cell.byte := by
  rw [List.map_flatMap]
  apply List.flatMap_congr
  intro segment hsegment
  obtain ⟨number, hemitted⟩ := hsegments.exists_emitted hsegment
  exact hemitted.proper.bytes_eq

/-- What a run makes of the packets handed over. -/
structure Conserves (packets : List Packet)
    (outcome : Outcome Segmenter SegmenterReport (List SegmenterAnswer)) : Prop where
  succeeds : ∀ fault, .spent (.error fault) ∉ outcome.value
  /-- The segments and the rest of the queue have all bytes, in order. -/
  bytes_eq : (builtSegments outcome.reports).flatMap Segment.content ++
      outcome.state.queue.flatMap QueuedPacket.rest =
    (packetsWithBytes packets).flatMap Packet.byteList
  /-- A packet with bytes is placed or queued, in order. -/
  recycled_append_queue :
    recycledPackets outcome.reports ++ outcome.state.queue.map QueuedPacket.packet =
      packetsWithBytes packets
  /-- The packets called placed are those with their last byte in a segment. -/
  recycled_eq :
    recycledPackets outcome.reports = placedPackets packets (builtSegments outcome.reports)
  /-- It was like that whenever a segment was offered. -/
  timely : Timely packets outcome.reports
  dropped_eq : droppedPackets outcome.reports = packets.filter Packet.isEmpty
  sequence_eq : ∀ (number : Nat) (segment : Segment),
    (builtSegments outcome.reports)[number]? = some segment →
      segment.header.sequence.toNat = number % sequenceSpace

/-- **Conservation of bytes.** A run from given settings that gives nothing up does not fail, loses
no byte and repeats none, and reports every packet once. -/
theorem run_conserves {settings : SegmenterSettings} {segmenter : Segmenter}
    (hstart : start? settings = .ok segmenter) (calls : List SegmenterCall)
    (hkept : ∀ call ∈ calls, call.isClear = false)
    (hpackets : (SegmenterCall.packets calls).Nodup) :
    Conserves (SegmenterCall.packets calls) (segmenter.run calls) := by
  obtain ⟨hledger, hsucceeds⟩ := run_start_ledger hstart calls hkept hpackets
  have haccounts := hledger.accounts
  constructor
  case succeeds => exact hsucceeds
  case bytes_eq =>
    rw [flatMap_content_eq haccounts.emitted, flatMap_rest_eq, ← List.map_append,
      haccounts.cells_eq, flatMap_byteList_packetsWithBytes]
  case recycled_append_queue => exact hledger.recycled_append_queue
  case recycled_eq => exact haccounts.eq_placedPackets hpackets hledger.recycled_append_queue
  case timely => exact hledger.timely
  case dropped_eq => exact hledger.dropped_eq
  case sequence_eq =>
    intro number segment hsegment
    exact (haccounts.emitted number segment hsegment).sequence_eq

/-- Two packets with bytes and one without, and two grants whose segments are refused: the second
segment ends the first packet and begins the other. -/
theorem run_conserves_refused :
    let long := Packet.raw 0 [1, 2, 3, 4, 5]
    let hollow := Packet.raw 1 []
    let short := Packet.raw 2 [6, 7, 8]
    let refuse : Nat → Answer := fun _ => .refused .closed
    let grant : Grant := { channel := 1, time := .zero, size := 11 }
    let calls : List SegmenterCall :=
      [.process (some long) .zero refuse, .process (some hollow) .zero refuse, .addPiggyback 20,
        .process (some short) .zero refuse, .addGrants [grant, grant] 0 .zero refuse]
    let outcome := (start .standard).run calls
    Conserves [long, hollow, short] outcome ∧
      recycledPackets outcome.reports = [long] ∧ droppedPackets outcome.reports = [hollow] ∧
      (builtSegments outcome.reports).map Segment.content = [[1, 2, 3], [4, 5, 6]] ∧
      outcome.state.queue.flatMap QueuedPacket.rest = [7, 8] := by
  intro long hollow short refuse grant calls outcome
  have hstart : start? .standard = .ok (start .standard) := rfl
  have hconserves : Conserves [long, hollow, short] outcome :=
    run_conserves hstart calls (by decide) (by decide)
  have houtcome : outcome = (start .standard).run calls := rfl
  refine ⟨hconserves, ?_⟩
  rw [houtcome]
  simp only [calls, run, perform]
  rw [addGrants_of_sorted rfl (by decide)]
  decide

end Segmenter

end Ccf
