import Ccf.Proofs.Segmenter.Conservation

/-!
# What failing calls of the segmenting end lose

A packet may be queued more than once.  Its bytes are then refused beside bytes of the same packet,
and the call that was building the segment fails.  What it had gathered has left the queue and is in
no segment, although packets that end in it have been reported as placed.

Nothing else is lost: each failing call loses one stretch of bytes, and the segments and the lost
stretches, in the order in which they left the queue, have all bytes that are no longer queued.  A
run in which no call fails loses nothing, however often its packets are queued.
-/

namespace Ccf

/-- Where bytes are that have left the queue. -/
inductive Placement where
  /-- They are in a segment that was offered. -/
  | sent (segment : Segment)
  /-- The call that gathered them failed. -/
  | lost (content : Gathering)

namespace Placement

def segment? : Placement → Option Segment
  | sent segment => some segment
  | lost _ => none

def content? : Placement → Option Gathering
  | sent _ => none
  | lost content => some content

def cells : Placement → List Cell
  | sent segment => segment.cells
  | lost content => content.cells

def bytes : Placement → List UInt8
  | sent segment => segment.content
  | lost content => content.bytes

def Proper : Placement → Prop
  | sent segment => segment.payload.Proper
  | lost content => content.Proper

theorem Proper.bytes_eq {placement : Placement} (hproper : placement.Proper) :
    placement.bytes = placement.cells.map Cell.byte := by
  cases placement with
  | sent segment => exact PieceTable.Proper.bytes_eq hproper
  | lost content => exact Gathering.Proper.bytes_eq hproper

end Placement

def sentSegments (placements : List Placement) : List Segment :=
  placements.filterMap Placement.segment?

/-- The stretches of bytes among the placements that are in no segment. -/
def lostContents (placements : List Placement) : List Gathering :=
  placements.filterMap Placement.content?

theorem sentSegments_append (placements later : List Placement) :
    sentSegments (placements ++ later) = sentSegments placements ++ sentSegments later :=
  List.filterMap_append

theorem lostContents_append (placements later : List Placement) :
    lostContents (placements ++ later) = lostContents placements ++ lostContents later :=
  List.filterMap_append

/-- Without losses there are segments only. -/
theorem eq_map_sent {placements : List Placement} (hnone : lostContents placements = []) :
    placements = (sentSegments placements).map .sent := by
  induction placements with
  | nil => rfl
  | cons placement later ih =>
    cases placement with
    | lost content => cases hnone
    | sent segment => exact congrArg (Placement.sent segment :: ·) (ih hnone)

/-- For each of the faults a stretch of bytes has been lost, and no other. -/
structure LossPerFault (faults : List BufferError) (placements : List Placement) : Prop where
  overlaps : ∀ fault ∈ faults, ∃ first last, fault = .overlap first last
  size_pos : ∀ content ∈ lostContents placements, 0 < content.size
  length_eq : (lostContents placements).length = faults.length

theorem lossPerFault_nil : LossPerFault [] [] where
  overlaps := nofun
  size_pos := nofun
  length_eq := rfl

theorem LossPerFault.append {faults others : List BufferError}
    {placements later : List Placement} (hlosses : LossPerFault faults placements)
    (hothers : LossPerFault others later) :
    LossPerFault (faults ++ others) (placements ++ later) where
  overlaps := List.forall_mem_append.2 ⟨hlosses.overlaps, hothers.overlaps⟩
  size_pos := by
    rw [lostContents_append]
    exact List.forall_mem_append.2 ⟨hlosses.size_pos, hothers.size_pos⟩
  length_eq := by
    rw [lostContents_append, List.length_append, List.length_append, hlosses.length_eq,
      hothers.length_eq]

/-- The cells still to place are the last ones of the queued packets. -/
theorem queueCells_suffix {queue : List QueuedPacket} (hqueue : QueueReady queue) :
    queueCells queue <:+ (queue.map QueuedPacket.packet).flatMap Packet.cells := by
  cases queue with
  | nil => exact List.suffix_rfl
  | cons front others =>
    have hothers : queueCells others =
        (others.map QueuedPacket.packet).flatMap Packet.cells := by
      rw [queueCells, List.flatMap_map]
      exact List.flatMap_congr fun entry hentry =>
        entry.cells_piece_of_untouched (hqueue.untouched entry hentry)
    let fresh : QueuedPacket := { front with placed := 0 }
    have hle : front.placed ≤ fresh.remaining :=
      Nat.le_of_lt (hqueue.placed_lt front List.mem_cons_self)
    have hfront : front.packet.cells = (fresh.part front.placed).cells ++ front.piece.cells := by
      rw [show front.packet = fresh.packet from rfl, ← fresh.cells_piece_of_untouched rfl,
        fresh.cells_piece hle]
      simp only [fresh, Nat.zero_add]
    refine ⟨(fresh.part front.placed).cells, ?_⟩
    rw [queueCells_cons, List.map_cons, List.flatMap_cons, hothers, hfront, List.append_assoc]

namespace Segmenter

/-- Where building puts the bytes that it takes off the queue, for each of its results. -/
inductive Puts : Except BufferError (Option Segment) → List Placement → Prop where
  | nothing : Puts (.ok none) []
  | segment {segment : Segment} (hproper : segment.payload.Proper) :
    Puts (.ok (some segment)) [.sent segment]
  | fault (first last : Nat) {content : Gathering} (hproper : content.Proper)
    (hsize : 0 < content.size) : Puts (.error (.overlap first last)) [.lost content]

namespace Puts

variable {result : Except BufferError (Option Segment)} {placed : List Placement}

theorem proper (hputs : Puts result placed) : ∀ placement ∈ placed, placement.Proper := by
  cases hputs with
  | nothing => nofun
  | segment hproper => exact List.forall_mem_singleton.2 hproper
  | fault first last hproper hsize => exact List.forall_mem_singleton.2 hproper

theorem lossPerFault (hputs : Puts result placed) :
    LossPerFault (faultOf result).toList placed := by
  cases hputs with
  | nothing => exact lossPerFault_nil
  | segment hproper => exact ⟨nofun, nofun, rfl⟩
  | fault first last hproper hsize =>
    exact ⟨List.forall_mem_singleton.2 ⟨first, last, rfl⟩, List.forall_mem_singleton.2 hsize, rfl⟩

/-- The segment that has been built is offered. -/
theorem offers_eq (hputs : Puts result placed) {offers : List SegmenterReport}
    (hoffers : Offers result offers) :
    builtSegments offers = sentSegments placed ∧ recycledPackets offers = [] := by
  cases hoffers with
  | segment transmission answer =>
    cases hputs with
    | segment hproper => exact ⟨rfl, rfl⟩
  | nothing =>
    cases hputs with
    | nothing => exact ⟨rfl, rfl⟩
  | fault fault =>
    cases hputs with
    | fault first last => exact ⟨rfl, rfl⟩

end Puts

/-- The bytes that building takes off the queue are in its segment, or else it fails. -/
theorem build_puts {segmenter : Segmenter} (hready : QueueReady segmenter.queue)
    (grant : Grant) :
    ∃ placed, Puts (segmenter.build grant).value placed ∧
      QueueReady (segmenter.build grant).state.queue ∧
      placed.flatMap Placement.cells ++ queueCells (segmenter.build grant).state.queue =
        queueCells segmenter.queue := by
  obtain ⟨content, htakes⟩ := exists_takes hready grant
  have hcells := htakes.cells_eq
  rw [List.nil_append] at hcells
  have hyields := segmenter.build_yields grant
  generalize segmenter.build grant = outcome at hyields ⊢
  cases hyields with
  | small => exact ⟨[], .nothing, hready, rfl⟩
  | refused fault hresult =>
    obtain ⟨hsize, first, last, rfl⟩ := htakes.fault_eq hresult
    refine ⟨_, .fault first last htakes.proper hsize, htakes.ready, ?_⟩
    rw [List.flatMap_singleton]
    exact hcells
  | hollow header placed hresult hempty =>
    obtain rfl := htakes.content_eq hresult
    have hnone : content.cells = [] := by
      rw [← List.length_eq_zero_iff, Gathering.length_cells, hempty]
    rw [hnone, List.nil_append] at hcells
    exact ⟨[], .nothing, htakes.ready, hcells⟩
  | segment header placed hresult =>
    obtain rfl := htakes.content_eq hresult
    refine ⟨_, .segment (htakes.proper.table _), htakes.ready, ?_⟩
    rw [List.flatMap_singleton]
    exact hcells

/-! ## Where all bytes are -/

/-- Where the bytes of `packets` are: the placements have the first of them, the queue the others,
and each of the faults has lost one stretch. -/
structure Whereabouts (packets : List Packet) (queue : List QueuedPacket)
    (reports : List SegmenterReport) (faults : List BufferError) (placements : List Placement) :
    Prop where
  proper : ∀ placement ∈ placements, placement.Proper
  cells_eq : placements.flatMap Placement.cells ++ queueCells queue =
    packets.flatMap Packet.cells
  ready : QueueReady queue
  sent_eq : sentSegments placements = builtSegments reports
  losses : LossPerFault faults placements
  recycled_append_queue : recycledPackets reports ++ queue.map QueuedPacket.packet =
    packetsWithBytes packets

theorem whereabouts_start (settings : SegmenterSettings) :
    Whereabouts [] (start settings).queue [] [] [] where
  proper := nofun
  cells_eq := rfl
  ready := queueReady_nil
  sent_eq := rfl
  losses := lossPerFault_nil
  recycled_append_queue := rfl

section Whereabouts

variable {segmenter : Segmenter} {packets : List Packet} {reports : List SegmenterReport}
  {faults : List BufferError} {placements : List Placement}
  (hknown : Whereabouts packets segmenter.queue reports faults placements)
include hknown

/-- The bytes that building takes off the queue are placed, and lost if it fails. -/
theorem Whereabouts.build (grant : Grant) {offers : List SegmenterReport}
    (hoffers : Offers (segmenter.build grant).value offers) :
    ∃ placed, Whereabouts packets (segmenter.build grant).state.queue
      (reports ++ ((segmenter.build grant).reports ++ offers))
      (faults ++ (faultOf (segmenter.build grant).value).toList) (placements ++ placed) := by
  obtain ⟨placed, hputs, hready, hcells⟩ := build_puts hknown.ready grant
  obtain ⟨gone, hreports, hqueue⟩ := segmenter.build_reports grant
  obtain ⟨hsent, hsilent⟩ := hputs.offers_eq hoffers
  refine ⟨placed, ?_⟩
  constructor
  case proper => exact List.forall_mem_append.2 ⟨hknown.proper, hputs.proper⟩
  case cells_eq =>
    rw [List.flatMap_append, List.append_assoc, hcells, hknown.cells_eq]
  case ready => exact hready
  case sent_eq =>
    rw [sentSegments_append, hknown.sent_eq, hreports]
    simp [hsent]
  case losses => exact hknown.losses.append hputs.lossPerFault
  case recycled_append_queue =>
    rw [hreports, ← hknown.recycled_append_queue, ← hqueue]
    simp [hsilent]

/-- A packet without bytes is given up. -/
theorem Whereabouts.give_up {packet : Packet} (hempty : packet.isEmpty = true) :
    Whereabouts (packets ++ [packet]) segmenter.queue (reports ++ [.dropped packet]) faults
      placements := by
  constructor
  case proper => exact hknown.proper
  case cells_eq =>
    rw [hknown.cells_eq, List.flatMap_append, List.flatMap_singleton,
      Packet.cells_of_isEmpty hempty, List.append_nil]
  case ready => exact hknown.ready
  case sent_eq => simpa using hknown.sent_eq
  case losses => exact hknown.losses
  case recycled_append_queue =>
    rw [packetsWithBytes_concat_of_isEmpty packets hempty, ← hknown.recycled_append_queue]
    simp

/-- A packet with bytes is queued, whether it has been queued before or not. -/
theorem Whereabouts.enqueue {packet : Packet} (hbytes : packet.isEmpty = false) :
    Whereabouts (packets ++ [packet]) (segmenter.queue ++ [{ packet := packet, placed := 0 }])
      reports faults placements := by
  constructor
  case proper => exact hknown.proper
  case cells_eq =>
    rw [queueCells_concat, ← List.append_assoc, hknown.cells_eq]
    simp
  case ready => exact hknown.ready.concat (Packet.size_pos hbytes)
  case sent_eq => exact hknown.sent_eq
  case losses => exact hknown.losses
  case recycled_append_queue =>
    rw [packetsWithBytes_concat packets hbytes, ← hknown.recycled_append_queue]
    simp

end Whereabouts

/-! ## Runs -/

/-- However runs end, it is known where all bytes are. -/
theorem whereabouts_invariant : Invariant fun packets reports faults segmenter =>
    ∃ placements, Whereabouts packets segmenter.queue reports faults placements where
  congr _ _ _ segmenter other hqueue _ _ hholds := by rwa [hqueue]
  queues _ _ _ _ packet hbytes hholds := by
    obtain ⟨placements, hknown⟩ := hholds
    exact ⟨placements, hknown.enqueue hbytes⟩
  givesUp _ _ _ _ packet hempty hholds := by
    obtain ⟨placements, hknown⟩ := hholds
    exact ⟨placements, hknown.give_up hempty⟩
  builds _ _ _ _ grant offers hoffers hholds := by
    obtain ⟨placements, hknown⟩ := hholds
    obtain ⟨placed, hbuilt⟩ := hknown.build grant hoffers
    exact ⟨placements ++ placed, hbuilt⟩

/-- The segments and the rest of the queue have all bytes of the packets handed over, in order, and
the packets that were called placed are in the segments. -/
structure KeepsAll (packets : List Packet)
    (outcome : Outcome Segmenter SegmenterReport (List SegmenterAnswer)) : Prop where
  bytes_eq : (builtSegments outcome.reports).flatMap Segment.content ++
      outcome.state.queue.flatMap QueuedPacket.rest =
    (packetsWithBytes packets).flatMap Packet.byteList
  recycled_placed : (recycledPackets outcome.reports).flatMap Packet.cells <+:
    (builtSegments outcome.reports).flatMap Segment.cells

/-- The same, except that a stretch of bytes is missing in the segments for every call that has
failed. -/
structure LosesPerFault (packets : List Packet)
    (outcome : Outcome Segmenter SegmenterReport (List SegmenterAnswer))
    (placements : List Placement) : Prop where
  sent_eq : sentSegments placements = builtSegments outcome.reports
  losses : LossPerFault (outcome.value.filterMap SegmenterAnswer.fault?) placements
  bytes_eq : placements.flatMap Placement.bytes ++
      outcome.state.queue.flatMap QueuedPacket.rest =
    (packetsWithBytes packets).flatMap Packet.byteList
  recycled_append_queue :
    recycledPackets outcome.reports ++ outcome.state.queue.map QueuedPacket.packet =
      packetsWithBytes packets
  recycled_placed : (recycledPackets outcome.reports).flatMap Packet.cells <+:
    placements.flatMap Placement.cells

theorem Whereabouts.losesPerFault {packets : List Packet}
    {outcome : Outcome Segmenter SegmenterReport (List SegmenterAnswer)}
    {placements : List Placement}
    (hknown : Whereabouts packets outcome.state.queue outcome.reports
      (outcome.value.filterMap SegmenterAnswer.fault?) placements) :
    LosesPerFault packets outcome placements where
  sent_eq := hknown.sent_eq
  losses := hknown.losses
  bytes_eq := by
    have hbytes : placements.flatMap Placement.bytes =
        (placements.flatMap Placement.cells).map Cell.byte := by
      rw [List.map_flatMap]
      exact List.flatMap_congr fun placement hmem => (hknown.proper placement hmem).bytes_eq
    calc placements.flatMap Placement.bytes ++ outcome.state.queue.flatMap QueuedPacket.rest
        = (placements.flatMap Placement.cells ++ queueCells outcome.state.queue).map Cell.byte := by
          rw [hbytes, flatMap_rest_eq, List.map_append]
      _ = (packets.flatMap Packet.cells).map Cell.byte := by rw [hknown.cells_eq]
      _ = (packetsWithBytes packets).flatMap Packet.byteList :=
          (flatMap_byteList_packetsWithBytes packets).symm
  recycled_append_queue := hknown.recycled_append_queue
  recycled_placed := by
    obtain ⟨begun, hbegun⟩ := queueCells_suffix hknown.ready
    refine ⟨begun, (List.append_left_inj (queueCells outcome.state.queue)).1 ?_⟩
    calc (recycledPackets outcome.reports).flatMap Packet.cells ++ begun ++
          queueCells outcome.state.queue
        = (recycledPackets outcome.reports ++
            outcome.state.queue.map QueuedPacket.packet).flatMap Packet.cells := by
          rw [List.append_assoc, hbegun, List.flatMap_append]
      _ = packets.flatMap Packet.cells := by
          rw [hknown.recycled_append_queue, flatMap_cells_packetsWithBytes]
      _ = placements.flatMap Placement.cells ++ queueCells outcome.state.queue :=
          hknown.cells_eq.symm

/-- Without faults the segments are all that has left the queue. -/
theorem LosesPerFault.keepsAll {packets : List Packet}
    {outcome : Outcome Segmenter SegmenterReport (List SegmenterAnswer)}
    {placements : List Placement} (hloses : LosesPerFault packets outcome placements)
    (hnone : outcome.value.filterMap SegmenterAnswer.fault? = []) : KeepsAll packets outcome := by
  have hlength := hloses.losses.length_eq
  rw [hnone, List.length_nil, List.length_eq_zero_iff] at hlength
  have hsent := eq_map_sent hlength
  rw [hloses.sent_eq] at hsent
  constructor
  case bytes_eq =>
    have hbytes := hloses.bytes_eq
    rwa [hsent, List.flatMap_map] at hbytes
  case recycled_placed =>
    have hplaced := hloses.recycled_placed
    rwa [hsent, List.flatMap_map] at hplaced

/-- **Losses of failing calls.** Whatever packets are queued, and however often, a run that gives
nothing up loses one stretch of bytes for every call that fails, and nothing if none does. -/
theorem run_losesPerFault (settings : SegmenterSettings) (calls : List SegmenterCall)
    (hkept : ∀ call ∈ calls, call.isClear = false) :
    (∃ placements, LosesPerFault (SegmenterCall.packets calls) ((start settings).run calls)
      placements) ∧
    (((start settings).run calls).value.filterMap SegmenterAnswer.fault? = [] →
      KeepsAll (SegmenterCall.packets calls) ((start settings).run calls)) := by
  obtain ⟨placements, hknown⟩ :=
    whereabouts_invariant.run calls ⟨[], whereabouts_start settings⟩ hkept
  have hloses := hknown.losesPerFault
  exact ⟨⟨placements, hloses⟩, hloses.keepsAll⟩

/-- A packet queued twice, with grants that have room for one copy of it each. -/
theorem run_losesPerFault_apart :
    let packet := Packet.raw 0 [1, 2, 3]
    let accept : Nat → Answer := fun _ => .accepted
    let grant : Grant := { channel := 1, time := .zero, size := 11 }
    let calls : List SegmenterCall :=
      [.process (some packet) .zero accept, .process (some packet) .zero accept,
        .addGrants [grant, grant] 0 .zero accept]
    let outcome := (start .standard).run calls
    KeepsAll [packet, packet] outcome ∧
      recycledPackets outcome.reports = [packet, packet] ∧
      (builtSegments outcome.reports).map Segment.content = [[1, 2, 3], [1, 2, 3]] := by
  intro packet accept grant calls outcome
  have houtcome : outcome = (start .standard).run calls := rfl
  have hnone : outcome.value.filterMap SegmenterAnswer.fault? = [] := by
    rw [houtcome]
    simp only [calls, run, perform]
    rw [addGrants_of_sorted rfl (by decide)]
    decide
  refine ⟨(run_losesPerFault .standard calls (by decide)).2 hnone, ?_⟩
  rw [houtcome]
  simp only [calls, run, perform]
  rw [addGrants_of_sorted rfl (by decide)]
  decide

/-- With room for both copies the second one is refused: the first one is in no segment and no
longer queued, and has been called placed. -/
theorem run_losesBytes :
    let packet := Packet.raw 0 [1, 2, 3]
    let accept : Nat → Answer := fun _ => .accepted
    let grant : Grant := { channel := 1, time := .zero, size := 14 }
    let calls : List SegmenterCall :=
      [.process (some packet) .zero accept, .process (some packet) .zero accept,
        .addGrants [grant] 0 .zero accept]
    let outcome := (start .standard).run calls
    ¬ KeepsAll [packet, packet] outcome ∧ recycledPackets outcome.reports = [packet] ∧
      builtSegments outcome.reports = [] ∧
      outcome.state.queue = [{ packet := packet, placed := 0 }] ∧
      outcome.value.filterMap SegmenterAnswer.fault? = [.overlap 0 3] := by
  intro packet accept grant calls outcome
  have hruns : recycledPackets outcome.reports = [packet] ∧
      builtSegments outcome.reports = [] ∧
      outcome.state.queue = [{ packet := packet, placed := 0 }] ∧
      outcome.value.filterMap SegmenterAnswer.fault? = [.overlap 0 3] := by
    rw [show outcome = (start .standard).run calls from rfl]
    simp only [calls, run, perform]
    rw [addGrants_of_sorted rfl (by decide)]
    decide
  refine ⟨fun hkeeps => ?_, hruns⟩
  obtain ⟨hrecycled, hbuilt, -⟩ := hruns
  have hplaced := hkeeps.recycled_placed
  rw [hrecycled, hbuilt] at hplaced
  exact absurd hplaced (by decide)

end Segmenter

end Ccf
