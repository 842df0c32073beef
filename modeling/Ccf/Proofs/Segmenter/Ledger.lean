import Ccf.Proofs.Segmenter.Emission
import Ccf.Proofs.Segmenter.RunInvariants

/-!
# The ledger of a segmenting run

The reports of a run say which segments it built, which packets it placed to their last byte and
which it gave up.  The ledger compares them with the packets handed over: the placed packets and
those in the queue are the packets with bytes, in order, and the packets given up are those without.
A packet is reported as placed ahead of the segment that has its last byte, and not earlier.

Building a segment and putting a packet into the queue keep the ledger, if the packets are different
ones, and so does every run that gives nothing up.
-/

namespace Ccf

def SegmenterReport.recycled? : SegmenterReport → Option Packet
  | .recycled packet => some packet
  | _ => none

def SegmenterReport.dropped? : SegmenterReport → Option Packet
  | .dropped packet => some packet
  | _ => none

def recycledPackets (reports : List SegmenterReport) : List Packet :=
  reports.filterMap SegmenterReport.recycled?

def droppedPackets (reports : List SegmenterReport) : List Packet :=
  reports.filterMap SegmenterReport.dropped?

@[simp]
theorem recycledPackets_append (reports later : List SegmenterReport) :
    recycledPackets (reports ++ later) = recycledPackets reports ++ recycledPackets later :=
  List.filterMap_append

@[simp]
theorem droppedPackets_append (reports later : List SegmenterReport) :
    droppedPackets (reports ++ later) = droppedPackets reports ++ droppedPackets later :=
  List.filterMap_append

@[simp]
theorem recycledPackets_recycled (packets : List Packet) :
    recycledPackets (packets.map .recycled) = packets := by
  simp [recycledPackets, List.filterMap_map, Function.comp_def, SegmenterReport.recycled?]

@[simp]
theorem droppedPackets_recycled (packets : List Packet) :
    droppedPackets (packets.map .recycled) = [] := by
  simp [droppedPackets, List.filterMap_map, Function.comp_def, SegmenterReport.dropped?]

section Single

variable (transmission : Transmission) (answer : Answer) (packet : Packet)

@[simp]
theorem builtSegments_offered :
    builtSegments [.offered transmission answer] = [transmission.segment] := rfl

@[simp]
theorem recycledPackets_offered : recycledPackets [.offered transmission answer] = [] := rfl

@[simp]
theorem droppedPackets_offered : droppedPackets [.offered transmission answer] = [] := rfl

@[simp]
theorem builtSegments_dropped : builtSegments [.dropped packet] = [] := rfl

@[simp]
theorem recycledPackets_dropped : recycledPackets [.dropped packet] = [] := rfl

@[simp]
theorem droppedPackets_dropped : droppedPackets [.dropped packet] = [packet] := rfl

end Single

def packetsWithBytes (packets : List Packet) : List Packet :=
  packets.filter fun packet => !packet.isEmpty

theorem packetsWithBytes_concat_of_isEmpty (packets : List Packet) {packet : Packet}
    (hempty : packet.isEmpty = true) :
    packetsWithBytes (packets ++ [packet]) = packetsWithBytes packets := by
  simp [packetsWithBytes, hempty]

theorem packetsWithBytes_concat (packets : List Packet) {packet : Packet}
    (hbytes : packet.isEmpty = false) :
    packetsWithBytes (packets ++ [packet]) = packetsWithBytes packets ++ [packet] := by
  simp [packetsWithBytes, hbytes]

/-- Every byte of the packet is in one of the segments. -/
def Packet.PlacedIn (packet : Packet) (segments : List Segment) : Prop :=
  ∀ cell ∈ packet.cells, cell ∈ segments.flatMap Segment.cells

instance (packet : Packet) (segments : List Segment) : Decidable (packet.PlacedIn segments) :=
  inferInstanceAs (Decidable (∀ cell ∈ packet.cells, cell ∈ segments.flatMap Segment.cells))

/-- The packets with bytes of which no byte is missing in the segments. -/
def placedPackets (packets : List Packet) (segments : List Segment) : List Packet :=
  (packetsWithBytes packets).filter fun packet => decide (packet.PlacedIn segments)

/-- When a segment is offered, the packets called placed are those with their last byte in it or
in a segment before it. -/
def Timely (packets : List Packet) (reports : List SegmenterReport) : Prop :=
  ∀ (earlier : List SegmenterReport) (transmission : Transmission) (answer : Answer),
    earlier ++ [.offered transmission answer] <+: reports →
      recycledPackets earlier =
        placedPackets packets (builtSegments (earlier ++ [.offered transmission answer]))

theorem timely_nil (packets : List Packet) : Timely packets [] := by
  intro earlier transmission answer hprefix
  have hlength := hprefix.length_le
  simp at hlength

theorem timely_concat {packets : List Packet} {reports : List SegmenterReport}
    (htimely : Timely packets reports) {report : SegmenterReport}
    (hreport : ∀ transmission answer, report = .offered transmission answer →
      recycledPackets reports = placedPackets packets (builtSegments (reports ++ [report]))) :
    Timely packets (reports ++ [report]) := by
  intro earlier transmission answer hprefix
  rcases List.prefix_concat_iff.1 hprefix with heq | hold
  · obtain ⟨rfl, hlast⟩ := List.append_inj' heq rfl
    rw [List.cons.injEq] at hlast
    rw [hlast.1]
    exact hreport transmission answer hlast.1.symm
  · exact htimely earlier transmission answer hold

theorem timely_append_recycled {packets : List Packet} (placed : List Packet)
    {reports : List SegmenterReport} (htimely : Timely packets reports) :
    Timely packets (reports ++ placed.map .recycled) := by
  induction placed generalizing reports with
  | nil => simpa using htimely
  | cons packet later ih =>
    rw [List.map_cons, ← List.singleton_append, ← List.append_assoc]
    exact ih (timely_concat htimely nofun)

namespace Filling

/-- The packets that leave the queue and those that stay are the packets that were in it. -/
theorem finished_append_queue (capacity : Nat) (queue : List QueuedPacket)
    (header : SegmentHeader) (payload : Gathering) :
    (place capacity queue header payload).finished ++
        (place capacity queue header payload).queue.map QueuedPacket.packet =
      queue.map QueuedPacket.packet := by
  induction queue generalizing header payload with
  | nil => rfl
  | cons front others ih =>
    simp only [place]
    split
    · rfl
    · split
      · rfl
      · split
        · rfl
        · split
          · rw [List.cons_append, ih, List.map_cons]
          · rfl

end Filling

namespace Segmenter

/-- Building reports nothing but the packets that leave the queue. -/
theorem build_reports (segmenter : Segmenter) (grant : Grant) :
    ∃ placed : List Packet, (segmenter.build grant).reports = placed.map .recycled ∧
      placed ++ (segmenter.build grant).state.queue.map QueuedPacket.packet =
        segmenter.queue.map QueuedPacket.packet := by
  have hqueue : (segmenter.filling grant).finished ++
      (segmenter.filling grant).queue.map QueuedPacket.packet =
        segmenter.queue.map QueuedPacket.packet := Filling.finished_append_queue _ _ _ _
  have hyields := segmenter.build_yields grant
  generalize segmenter.build grant = outcome at hyields ⊢
  cases hyields with
  | small => exact ⟨[], rfl, rfl⟩
  | refused | hollow | segment => exact ⟨_, rfl, hqueue⟩

/-- What the reports of a run and the state after it say about the packets handed over. -/
structure Ledger (segmenter : Segmenter) (packets : List Packet)
    (reports : List SegmenterReport) : Prop where
  accounts : segmenter.Accounts packets (builtSegments reports)
  recycled_append_queue : recycledPackets reports ++ segmenter.queue.map QueuedPacket.packet =
    packetsWithBytes packets
  dropped_eq : droppedPackets reports = packets.filter Packet.isEmpty
  timely : Timely packets reports

theorem ledger_start {settings : SegmenterSettings}
    (hcluster : settings.cluster.toNat ≤ SegmentHeader.clusterMax) :
    (start settings).Ledger [] [] where
  accounts := accounts_start hcluster
  recycled_append_queue := rfl
  dropped_eq := rfl
  timely := timely_nil []

/-- A change of anything but queue, number and cluster. -/
theorem Ledger.congr {segmenter other : Segmenter} {packets : List Packet}
    {reports : List SegmenterReport} (hledger : segmenter.Ledger packets reports)
    (hqueue : other.queue = segmenter.queue) (hsequence : other.sequence = segmenter.sequence)
    (hcluster : other.settings.cluster = segmenter.settings.cluster) :
    other.Ledger packets reports where
  accounts := hledger.accounts.congr hqueue hsequence hcluster
  recycled_append_queue := hqueue ▸ hledger.recycled_append_queue
  dropped_eq := hledger.dropped_eq
  timely := hledger.timely

section Accounts

variable {segmenter : Segmenter} {packets : List Packet} {built : List Segment}
  (haccounts : segmenter.Accounts packets built)
include haccounts

/-- A packet in the queue has a byte that no segment has. -/
theorem Accounts.not_placedIn_of_queued (hpackets : packets.Nodup) {entry : QueuedPacket}
    (hentry : entry ∈ segmenter.queue) : ¬ entry.packet.PlacedIn built := by
  intro hplaced
  have hnodup := nodup_cells hpackets
  rw [← haccounts.cells_eq] at hnodup
  have hlt := haccounts.ready.placed_lt entry hentry
  let next : Cell := { owner := entry.packet, position := entry.placed }
  have hwaits : next ∈ queueCells segmenter.queue := by
    refine List.mem_flatMap.2 ⟨entry, hentry, Piece.mem_cells.2 ⟨rfl, Nat.le_refl _, ?_⟩⟩
    simp only [next, QueuedPacket.piece, QueuedPacket.remaining, Piece.stop]
    omega
  have hbuilt := hplaced next (Packet.mem_cells.2 ⟨rfl, hlt⟩)
  exact (List.nodup_append'.1 hnodup).2.2 hbuilt hwaits

/-- A packet that has left the queue is in the segments. -/
theorem Accounts.placedIn_of_not_queued {packet : Packet} (hpacket : packet ∈ packets)
    (hgone : packet ∉ segmenter.queue.map QueuedPacket.packet) : packet.PlacedIn built := by
  intro cell hcell
  have hhanded : cell ∈ packets.flatMap Packet.cells :=
    List.mem_flatMap.2 ⟨packet, hpacket, hcell⟩
  rw [← haccounts.cells_eq] at hhanded
  rcases List.mem_append.1 hhanded with hbuilt | hwaits
  · exact hbuilt
  · obtain ⟨entry, hentry, hmem⟩ := List.mem_flatMap.1 hwaits
    have howner : entry.packet = packet :=
      (Piece.mem_cells.1 hmem).1.symm.trans (Packet.mem_cells.1 hcell).1
    exact absurd (List.mem_map.2 ⟨entry, hentry, howner⟩) hgone

/-- The packets that have left the queue are those that are in the segments. -/
theorem Accounts.eq_placedPackets (hpackets : packets.Nodup) {placed : List Packet}
    (hplaced : placed ++ segmenter.queue.map QueuedPacket.packet = packetsWithBytes packets) :
    placed = placedPackets packets built := by
  have hnodup : (placed ++ segmenter.queue.map QueuedPacket.packet).Nodup := by
    rw [hplaced]
    exact hpackets.filter _
  have hmem : ∀ packet ∈ placed, packet ∈ packets := by
    intro packet hpacket
    have hboth := List.mem_append_left (segmenter.queue.map QueuedPacket.packet) hpacket
    rw [hplaced] at hboth
    exact (List.mem_filter.1 hboth).1
  have hgone : placed.filter (fun packet => decide (packet.PlacedIn built)) = placed := by
    apply List.filter_eq_self.2
    intro packet hpacket
    exact decide_eq_true (haccounts.placedIn_of_not_queued (hmem packet hpacket)
      fun hqueued => (List.nodup_append'.1 hnodup).2.2 hpacket hqueued)
  have hwaiting : (segmenter.queue.map QueuedPacket.packet).filter
      (fun packet => decide (packet.PlacedIn built)) = [] := by
    apply List.filter_eq_nil_iff.2
    intro packet hpacket
    obtain ⟨entry, hentry, rfl⟩ := List.mem_map.1 hpacket
    simpa using haccounts.not_placedIn_of_queued hpackets hentry
  rw [placedPackets, ← hplaced, List.filter_append, hgone, hwaiting, List.append_nil]

/-- No byte of a packet that has not been handed over is in a segment. -/
theorem Accounts.not_placedIn_of_not_mem {packet : Packet} (hpacket : packet ∉ packets)
    (hsize : 0 < packet.size) {segments : List Segment} (hsegments : segments <+: built) :
    ¬ packet.PlacedIn segments := by
  intro hplaced
  obtain ⟨later, rfl⟩ := hsegments
  have hcell := hplaced { owner := packet, position := 0 } (Packet.mem_cells.2 ⟨rfl, hsize⟩)
  have hhanded : ({ owner := packet, position := 0 } : Cell) ∈ packets.flatMap Packet.cells := by
    rw [← haccounts.cells_eq, List.flatMap_append, List.append_assoc]
    exact List.mem_append_left _ hcell
  obtain ⟨other, hother, hmem⟩ := List.mem_flatMap.1 hhanded
  have howner : packet = other := (Packet.mem_cells.1 hmem).1
  exact hpacket (howner ▸ hother)

end Accounts

/-! ## What keeps the ledger -/

/-- Building succeeds, and offering the segment keeps the ledger. -/
theorem Ledger.build {segmenter : Segmenter} {packets : List Packet}
    {reports : List SegmenterReport} (hledger : segmenter.Ledger packets reports)
    (hpackets : packets.Nodup) (grant : Grant) :
    faultOf (segmenter.build grant).value = none ∧
      ∀ offers, Offers (segmenter.build grant).value offers →
        (segmenter.build grant).state.Ledger packets
          (reports ++ ((segmenter.build grant).reports ++ offers)) := by
  obtain ⟨segment, hbuilds⟩ := build_builds hledger.accounts hpackets grant
  obtain ⟨placed, hreports, hqueue⟩ := segmenter.build_reports grant
  have haccounts := hbuilds.accounts
  have hrecycled : (recycledPackets reports ++ placed) ++
      (segmenter.build grant).state.queue.map QueuedPacket.packet = packetsWithBytes packets := by
    rw [List.append_assoc, hqueue, hledger.recycled_append_queue]
  have htimely := timely_append_recycled placed hledger.timely
  rw [hbuilds.value_eq, hreports]
  refine ⟨rfl, fun offers hoffers => ?_⟩
  cases hoffers with
  | nothing =>
    constructor
    case accounts => simpa using haccounts
    case recycled_append_queue => simpa using hrecycled
    case dropped_eq => simpa using hledger.dropped_eq
    case timely => rwa [List.append_nil]
  | segment transmission answer =>
    have hbuilt : builtSegments (reports ++ (placed.map .recycled ++
        [.offered transmission answer])) =
          builtSegments reports ++ [transmission.segment] := by
      simp
    constructor
    case accounts => rwa [hbuilt]
    case recycled_append_queue => simpa using hrecycled
    case dropped_eq => simpa using hledger.dropped_eq
    case timely =>
      rw [← List.append_assoc] at hbuilt ⊢
      refine timely_concat htimely fun _ _ _ => ?_
      rw [hbuilt, recycledPackets_append, recycledPackets_recycled]
      exact haccounts.eq_placedPackets hpackets hrecycled

/-- A packet without bytes is given up. -/
theorem Ledger.give_up {segmenter : Segmenter} {packets : List Packet}
    {reports : List SegmenterReport} (hledger : segmenter.Ledger packets reports)
    {packet : Packet} (hempty : packet.isEmpty = true) :
    segmenter.Ledger (packets ++ [packet]) (reports ++ [.dropped packet]) := by
  have hcells := Packet.cells_of_isEmpty hempty
  have hbytes := packetsWithBytes_concat_of_isEmpty packets hempty
  have haccounts := hledger.accounts
  constructor
  case accounts =>
    have hbuilt : builtSegments (reports ++ [.dropped packet]) = builtSegments reports := by
      simp
    rw [hbuilt]
    refine ⟨?_, haccounts.ready, haccounts.sequence_eq, haccounts.cluster_le, haccounts.emitted⟩
    rw [haccounts.cells_eq, List.flatMap_append]
    simp [hcells]
  case recycled_append_queue =>
    rw [hbytes, ← hledger.recycled_append_queue]
    simp
  case dropped_eq =>
    rw [droppedPackets_append, hledger.dropped_eq]
    simp [hempty]
  case timely =>
    refine timely_concat (fun earlier transmission answer hprefix => ?_) nofun
    rw [placedPackets, hbytes]
    exact hledger.timely earlier transmission answer hprefix

/-- A packet with bytes is queued. -/
theorem Ledger.enqueue {segmenter : Segmenter} {packets : List Packet}
    {reports : List SegmenterReport} (hledger : segmenter.Ledger packets reports)
    {packet : Packet} (hnew : packet ∉ packets) (hbytes : packet.isEmpty = false) :
    Ledger { segmenter with queue := segmenter.queue ++ [{ packet := packet, placed := 0 }] }
      (packets ++ [packet]) reports := by
  have hsize := Packet.size_pos hbytes
  have hwith := packetsWithBytes_concat packets hbytes
  constructor
  case accounts => exact hledger.accounts.enqueue hsize
  case recycled_append_queue =>
    rw [hwith, ← hledger.recycled_append_queue]
    simp
  case dropped_eq =>
    rw [hledger.dropped_eq]
    simp [hbytes]
  case timely =>
    intro earlier transmission answer hprefix
    have hsegments : builtSegments (earlier ++ [.offered transmission answer]) <+:
        builtSegments reports := hprefix.filterMap _
    have hmissing := hledger.accounts.not_placedIn_of_not_mem hnew hsize hsegments
    rw [hledger.timely earlier transmission answer hprefix, placedPackets, placedPackets, hwith,
      List.filter_append, List.filter_singleton, decide_eq_false hmissing]
    exact (List.append_nil _).symm

/-- Runs that are handed different packets do not fail and keep the ledger. -/
theorem ledger_invariant : Invariant fun packets reports faults segmenter =>
    packets.Nodup → faults = [] ∧ segmenter.Ledger packets reports where
  congr _ _ _ _ _ hqueue hsequence hcluster hholds hpackets :=
    (hholds hpackets).imp_right fun hledger => hledger.congr hqueue hsequence hcluster
  queues _ _ _ _ packet hbytes hholds hpackets := by
    obtain ⟨hold, -, hdisjoint⟩ := List.nodup_append'.1 hpackets
    refine (hholds hold).imp_right fun hledger => hledger.enqueue (fun hmem => ?_) hbytes
    exact hdisjoint hmem (List.mem_singleton_self packet)
  givesUp _ _ _ _ _ hempty hholds hpackets :=
    (hholds (List.nodup_append'.1 hpackets).1).imp_right fun hledger => hledger.give_up hempty
  builds _ _ _ _ grant offers hoffers hholds hpackets := by
    obtain ⟨hnone, hledger⟩ := hholds hpackets
    obtain ⟨hfault, hbuilt⟩ := hledger.build hpackets grant
    refine ⟨?_, hbuilt offers hoffers⟩
    rw [hnone, hfault]
    rfl

/-- The ledger of a fresh segmenter, whatever calls it gets. -/
theorem run_start_ledger {settings : SegmenterSettings} {segmenter : Segmenter}
    (hstart : start? settings = .ok segmenter) (calls : List SegmenterCall)
    (hkept : ∀ call ∈ calls, call.isClear = false)
    (hpackets : (SegmenterCall.packets calls).Nodup) :
    (segmenter.run calls).state.Ledger (SegmenterCall.packets calls)
      (segmenter.run calls).reports ∧
    ∀ fault, .spent (.error fault) ∉ (segmenter.run calls).value := by
  obtain ⟨rfl, hcluster⟩ := eq_of_start? hstart
  obtain ⟨hnone, hledger⟩ := ledger_invariant.run calls (fun _ => ⟨rfl, ledger_start hcluster⟩)
    hkept (by simpa using hpackets)
  rw [List.nil_append] at hnone hledger
  refine ⟨hledger, fun fault hfault => ?_⟩
  have hmem : fault ∈ ((start settings).run calls).value.filterMap SegmenterAnswer.fault? :=
    List.mem_filterMap.2 ⟨_, hfault, rfl⟩
  rw [hnone] at hmem
  cases hmem

/-- What a fresh segmenter emits, whatever calls it gets. -/
theorem run_start_accounts {settings : SegmenterSettings} {segmenter : Segmenter}
    (hstart : start? settings = .ok segmenter) (calls : List SegmenterCall)
    (hkept : ∀ call ∈ calls, call.isClear = false)
    (hpackets : (SegmenterCall.packets calls).Nodup) :
    (segmenter.run calls).state.Accounts (SegmenterCall.packets calls)
      (builtSegments (segmenter.run calls).reports) :=
  (run_start_ledger hstart calls hkept hpackets).1.accounts

end Segmenter

end Ccf
