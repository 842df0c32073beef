import Ccf.Proofs.Segmenter.Calls
import Ccf.Proofs.Segmenter.Filling

/-!
# What a run of the segmenting end emits

The segments that a run builds carry the cells of the queued packets in the order of the queue, and
what the queue still holds follows them.  Every segment has content, a header that notes the first
packet start in the content, and the number of segments before it as its sequence number.

A run that gives up its queue loses cells and is not covered; nothing else is excluded.  The packets
have to be different owners: bytes of one packet are refused beside bytes of the same packet.
-/

namespace Ccf

/-- A segment as the segmenting end builds it when it has built `number` segments before. -/
structure Segment.Emitted (segment : Segment) (cluster : UInt8) (number : Nat) : Prop where
  proper : segment.payload.Proper
  size_pos : 0 < segment.size
  notes : segment.header.Notes segment.cells
  sequence_eq : segment.header.sequence.toNat = number % sequenceSpace
  sc_eq : segment.header.sc = cluster

def EmittedInOrder (cluster : UInt8) (segments : List Segment) : Prop :=
  ∀ (number : Nat) (segment : Segment), segments[number]? = some segment →
    segment.Emitted cluster number

theorem EmittedInOrder.exists_emitted {cluster : UInt8} {segments : List Segment}
    (hsegments : EmittedInOrder cluster segments) {segment : Segment}
    (hsegment : segment ∈ segments) : ∃ number, segment.Emitted cluster number := by
  obtain ⟨number, hnumber⟩ := List.mem_iff_getElem?.1 hsegment
  exact ⟨number, hsegments number segment hnumber⟩

theorem emittedInOrder_concat {cluster : UInt8} {segments : List Segment} {segment : Segment}
    (hsegments : EmittedInOrder cluster segments)
    (hsegment : segment.Emitted cluster segments.length) :
    EmittedInOrder cluster (segments ++ [segment]) := by
  intro number other hother
  rw [List.getElem?_append] at hother
  split at hother
  · exact hsegments number other hother
  · rename_i hlength
    obtain ⟨hlt, rfl⟩ := List.getElem?_eq_some_iff.1 hother
    simp only [List.length_cons, List.length_nil] at hlt
    have hnumber : number = segments.length := by omega
    subst hnumber
    simpa using hsegment

namespace Segmenter

/-- What has become of the cells of `packets`: `built` segments carry the first of them, the queue
has the others. -/
structure Accounts (segmenter : Segmenter) (packets : List Packet) (built : List Segment) :
    Prop where
  cells_eq : built.flatMap Segment.cells ++ queueCells segmenter.queue =
    packets.flatMap Packet.cells
  ready : QueueReady segmenter.queue
  sequence_eq : segmenter.sequence.value = built.length % sequenceSpace
  cluster_le : segmenter.settings.cluster.toNat ≤ SegmentHeader.clusterMax
  emitted : EmittedInOrder segmenter.settings.cluster built

theorem nodup_cells {packets : List Packet} (hpackets : packets.Nodup) :
    (packets.flatMap Packet.cells).Nodup := by
  refine List.nodup_flatMap.2 ⟨fun packet _ => packet.nodup_cells, hpackets.imp ?_⟩
  intro packet other hne cell hcell hother
  exact hne ((Packet.mem_cells.1 hcell).1.symm.trans (Packet.mem_cells.1 hother).1)

theorem accounts_start {settings : SegmenterSettings}
    (hcluster : settings.cluster.toNat ≤ SegmentHeader.clusterMax) :
    (start settings).Accounts [] [] where
  cells_eq := rfl
  ready := queueReady_nil
  sequence_eq := rfl
  cluster_le := hcluster
  emitted := fun _ _ hsegment => nomatch hsegment

/-- A change of anything but queue, number and cluster. -/
theorem Accounts.congr {segmenter other : Segmenter} {packets : List Packet}
    {built : List Segment} (haccounts : segmenter.Accounts packets built)
    (hqueue : other.queue = segmenter.queue) (hsequence : other.sequence = segmenter.sequence)
    (hcluster : other.settings.cluster = segmenter.settings.cluster) :
    other.Accounts packets built where
  cells_eq := hqueue ▸ haccounts.cells_eq
  ready := hqueue ▸ haccounts.ready
  sequence_eq := hsequence ▸ haccounts.sequence_eq
  cluster_le := hcluster ▸ haccounts.cluster_le
  emitted := hcluster ▸ haccounts.emitted

/-- What building a segment does: at most one segment is added to those built before. -/
structure Builds (packets : List Packet) (built : List Segment)
    (outcome : Outcome Segmenter SegmenterReport (Except BufferError (Option Segment)))
    (segment : Option Segment) : Prop where
  value_eq : outcome.value = .ok segment
  accounts : outcome.state.Accounts packets (built ++ segment.toList)

theorem notes_blank (cluster : UInt8) :
    ({ SegmentHeader.blank with sc := cluster } : SegmentHeader).Notes Gathering.empty.cells where
  pfi_eq := rfl
  offmac_eq := rfl
  offmac_le := Nat.zero_le _

/-- A grant takes cells off the queue in order, and no packet is refused. -/
theorem Accounts.exists_filled {segmenter : Segmenter} {packets : List Packet}
    {built : List Segment} (haccounts : segmenter.Accounts packets built)
    (hpackets : packets.Nodup) (grant : Grant) :
    ∃ header content,
      Filling.Filled { SegmentHeader.blank with sc := segmenter.settings.cluster } []
        segmenter.queue (segmenter.filling grant) header content := by
  have hnodup : (Gathering.empty.cells ++ queueCells segmenter.queue).Nodup := by
    have hall := nodup_cells hpackets
    rw [← haccounts.cells_eq] at hall
    simpa using (List.nodup_append'.1 hall).2.1
  exact Filling.place_filled grant.capacity haccounts.ready Gathering.proper_empty
    (Nat.zero_le _) hnodup (notes_blank segmenter.settings.cluster)

section Filled

variable {segmenter : Segmenter} {packets : List Packet} {built : List Segment} {grant : Grant}
  {header : SegmentHeader} {content : Gathering}

/-- If nothing was placed, everything is where it was. -/
theorem Accounts.hollow (haccounts : segmenter.Accounts packets built)
    (hfilled : Filling.Filled { SegmentHeader.blank with sc := segmenter.settings.cluster } []
      segmenter.queue (segmenter.filling grant) header content)
    (hempty : content.size = 0) :
    Accounts { segmenter with queue := (segmenter.filling grant).queue } packets built where
  cells_eq := by
    have hnone : content.cells = [] := by
      rw [← List.length_eq_zero_iff, Gathering.length_cells, hempty]
    have hcells := hfilled.cells_eq
    rw [hnone, List.nil_append, List.nil_append] at hcells
    rw [← haccounts.cells_eq, ← hcells]
  ready := hfilled.ready
  sequence_eq := haccounts.sequence_eq
  cluster_le := haccounts.cluster_le
  emitted := haccounts.emitted

/-- The segment that is stamped is the next one. -/
theorem Accounts.emitted_stamp (haccounts : segmenter.Accounts packets built)
    (hfilled : Filling.Filled { SegmentHeader.blank with sc := segmenter.settings.cluster } []
      segmenter.queue (segmenter.filling grant) header content)
    (hpos : 0 < content.size) :
    Segment.Emitted { header := (segmenter.stamp header).2, payload := content.table .delegate }
      segmenter.settings.cluster built.length where
  proper := hfilled.proper.table _
  size_pos := by rwa [Segment.size, Gathering.size_table]
  notes := ⟨hfilled.notes.pfi_eq, hfilled.notes.offmac_eq, hfilled.notes.offmac_le⟩
  sequence_eq := by
    have hspace : built.length % sequenceSpace < 65536 :=
      Nat.lt_trans (Nat.mod_lt _ (by decide)) (by decide)
    simp only [stamp, SequenceNumber.toWord, haccounts.sequence_eq, UInt16.toNat_ofNat']
    exact Nat.mod_eq_of_lt hspace
  sc_eq := by
    simp only [stamp]
    rw [hfilled.header_eq]

/-- A segment takes its cells over from the queue. -/
theorem Accounts.emit (haccounts : segmenter.Accounts packets built)
    (hfilled : Filling.Filled { SegmentHeader.blank with sc := segmenter.settings.cluster } []
      segmenter.queue (segmenter.filling grant) header content)
    (hpos : 0 < content.size) :
    Accounts
      { (segmenter.stamp header).1 with queue := (segmenter.filling grant).queue } packets
      (built ++
        [{ header := (segmenter.stamp header).2, payload := content.table .delegate }]) where
  cells_eq := by
    have hcells := hfilled.cells_eq
    rw [List.nil_append] at hcells
    rw [List.flatMap_append, List.flatMap_singleton, List.append_assoc, ← haccounts.cells_eq,
      ← hcells]
    rfl
  ready := hfilled.ready
  sequence_eq := by
    simp only [stamp, SequenceNumber.next, haccounts.sequence_eq, List.length_append,
      List.length_cons, List.length_nil]
    exact Nat.mod_add_mod _ _ _
  cluster_le := haccounts.cluster_le
  emitted := emittedInOrder_concat haccounts.emitted (haccounts.emitted_stamp hfilled hpos)

end Filled

/-- Building never fails, and accounts for every cell. -/
theorem build_builds {segmenter : Segmenter} {packets : List Packet} {built : List Segment}
    (haccounts : segmenter.Accounts packets built) (hpackets : packets.Nodup) (grant : Grant) :
    ∃ segment, Builds packets built (segmenter.build grant) segment := by
  have hyields := segmenter.build_yields grant
  generalize segmenter.build grant = outcome at hyields ⊢
  obtain ⟨header, content, hfilled⟩ := haccounts.exists_filled hpackets grant
  cases hyields with
  | small => exact ⟨none, rfl, by rwa [Option.toList_none, List.append_nil]⟩
  | refused fault hresult => cases hfilled.result_eq.symm.trans hresult
  | hollow other placed hresult hempty =>
    cases hfilled.result_eq.symm.trans hresult
    refine ⟨none, rfl, ?_⟩
    rw [Option.toList_none, List.append_nil]
    exact haccounts.hollow hfilled hempty
  | segment other placed hresult hpos =>
    cases hfilled.result_eq.symm.trans hresult
    exact ⟨_, rfl, haccounts.emit hfilled hpos⟩

/-- Queueing a packet puts its cells at the end. -/
theorem Accounts.enqueue {segmenter : Segmenter} {packets : List Packet} {built : List Segment}
    (haccounts : segmenter.Accounts packets built) {packet : Packet} (hsize : 0 < packet.size) :
    Accounts { segmenter with queue := segmenter.queue ++ [{ packet := packet, placed := 0 }] }
      (packets ++ [packet]) built where
  cells_eq := by
    rw [queueCells_concat, ← List.append_assoc, haccounts.cells_eq]
    simp
  ready := haccounts.ready.concat hsize
  sequence_eq := haccounts.sequence_eq
  cluster_le := haccounts.cluster_le
  emitted := haccounts.emitted

theorem eq_of_start? {settings : SegmenterSettings} {segmenter : Segmenter}
    (hstart : start? settings = .ok segmenter) :
    segmenter = start settings ∧ settings.cluster.toNat ≤ SegmentHeader.clusterMax := by
  unfold start? SegmenterSettings.validate at hstart
  cases hmultiplier : validateMultiplier settings.multiplier with
  | error fault => simp [hmultiplier] at hstart
  | ok =>
    simp only [hmultiplier] at hstart
    split at hstart
    · cases hstart
    · rename_i hvalid
      split at hvalid
      · cases hvalid
      · cases hstart
        exact ⟨rfl, Nat.le_of_not_lt ‹_›⟩

end Segmenter

end Ccf
