import Ccf.Proofs.Reassembly.DeliveryRuns
import Ccf.Proofs.Reassembly.Undamaged

/-!
# Round trips

Segments that a segmenting end has built may get lost and may arrive in any order.  As long as each
arrives once at most and those in the window are not too far apart, the reassembling end hands out
the packets all of whose bytes have arrived, and keeps the segments that have bytes of others.
-/

namespace Ccf

open Reception

/-- What is kept of a numbered list. -/
theorem map_filter_range' {α β : Type*} {entries : List α} (read : Nat → β) {value : α → β}
    (keep : Nat → Bool) {kept : α → Bool}
    (hread : ∀ place (hplace : place < entries.length), read (place + 1) = value entries[place])
    (hkeep : ∀ place (hplace : place < entries.length), keep (place + 1) = kept entries[place]) :
    ((List.range' 1 entries.length).filter keep).map read = (entries.filter kept).map value := by
  induction entries using List.reverseRecOn with
  | nil => rfl
  | append_singleton entries entry ih =>
    have hlast : entries.length < (entries ++ [entry]).length := by simp
    have hearlier (place : Nat) (hplace : place < entries.length) :
        place < (entries ++ [entry]).length := by
      rw [List.length_append]
      omega
    have hlater := ih
      (fun place hplace => by
        rw [hread place (hearlier place hplace), List.getElem_append_left hplace])
      (fun place hplace => by
        rw [hkeep place (hearlier place hplace), List.getElem_append_left hplace])
    have hread' := hread _ hlast
    have hkeep' := hkeep _ hlast
    rw [List.getElem_concat_length rfl] at hread' hkeep'
    rw [List.length_append, List.length_singleton, List.range'_concat, List.filter_append,
      List.filter_append, List.map_append, List.map_append, hlater, Nat.one_mul,
      Nat.add_comm 1 entries.length]
    congr 1
    rw [List.filter_singleton, List.filter_singleton, hkeep']
    cases kept entry with
    | false => rfl
    | true => simp [hread']

namespace Delivery

variable (built : List Segment) (arrived : List Delivery)

def arrivedCells : List Cell :=
  arrived.flatMap fun delivery => (built[delivery.index]?.map Segment.cells).getD []

def covers (packet : Packet) : Bool :=
  packet.cells.all fun cell => decide (cell ∈ arrivedCells built arrived)

/-- Whether a segment has bytes of a packet not all of whose bytes have arrived. -/
def isNeeded (delivery : Delivery) : Bool :=
  (arrivedCells built [delivery]).any fun cell => !covers built arrived cell.owner

variable {built arrived}

theorem mem_arrivedCells {cell : Cell} :
    cell ∈ arrivedCells built arrived ↔ ∃ delivery ∈ arrived, ∃ segment,
      built[delivery.index]? = some segment ∧ cell ∈ segment.cells := by
  rw [arrivedCells, List.mem_flatMap]
  apply exists_congr
  intro delivery
  apply and_congr_right
  intro _
  cases built[delivery.index]? with
  | none => simp
  | some segment => simp

theorem covers_iff {packet : Packet} :
    covers built arrived packet = true ↔
      ∀ cell ∈ packet.cells, cell ∈ arrivedCells built arrived := by
  simp only [covers, List.all_eq_true, decide_eq_true_eq]

theorem isNeeded_iff {delivery : Delivery} :
    isNeeded built arrived delivery = true ↔ ∃ segment, built[delivery.index]? = some segment ∧
      ∃ cell ∈ segment.cells, ¬ covers built arrived cell.owner = true := by
  simp only [isNeeded, List.any_eq_true, mem_arrivedCells, List.mem_singleton, exists_eq_left,
    Bool.not_eq_true']
  constructor
  · rintro ⟨cell, ⟨segment, hsegment, hcell⟩, hlacks⟩
    exact ⟨segment, hsegment, cell, hcell, by simp [hlacks]⟩
  · rintro ⟨segment, hsegment, cell, hcell, hlacks⟩
    exact ⟨cell, ⟨segment, hsegment, hcell⟩, by simpa using hlacks⟩

end Delivery

namespace Stream

variable {stream : Stream} {deliveries arrived : List Delivery}
  (hreceived : stream.Received deliveries) (hinitial : arrived <+: deliveries)
include hinitial

theorem Received.arrivedBy_iff {index : Nat} :
    (stream.reception deliveries hreceived).ArrivedBy arrived.length index ↔
      ∃ delivery ∈ arrived, delivery.index = index := by
  obtain ⟨later, rfl⟩ := hinitial
  constructor
  · rintro ⟨arrival, hpositive, hle, hindex⟩
    have hplace : (arrived ++ later)[arrival - 1]? = some arrived[arrival - 1] := by
      rw [List.getElem?_append_left (by omega), List.getElem?_eq_getElem (by omega)]
    have hsame := Delivery.indexAt_eq hplace
    rw [Nat.sub_add_cancel hpositive] at hsame
    exact ⟨_, List.getElem_mem (by omega), hsame.symm.trans hindex⟩
  · rintro ⟨delivery, hdelivery, rfl⟩
    obtain ⟨earlier, hearlier, rfl⟩ := List.getElem_of_mem hdelivery
    have hplace : (arrived ++ later)[earlier]? = some arrived[earlier] := by
      rw [List.getElem?_append_left hearlier, List.getElem?_eq_getElem hearlier]
    exact ⟨earlier + 1, Nat.succ_pos _, hearlier, Delivery.indexAt_eq hplace⟩

/-- A packet is complete exactly if all its bytes have arrived. -/
theorem Received.covers_iff_complete {number : Nat} {packet : Packet}
    (hpacket : stream.packets[number]? = some packet) :
    Delivery.covers stream.segments arrived packet = true ↔
      (stream.reception deliveries hreceived).Complete arrived.length number := by
  rw [Delivery.covers_iff, complete_iff hpacket]
  apply forall₂_congr
  intro cell _
  rw [Delivery.mem_arrivedCells]
  constructor
  · rintro ⟨delivery, hdelivery, segment, hsegment, hcell⟩
    exact ⟨_, segment, (hreceived.arrivedBy_iff hinitial).2 ⟨delivery, hdelivery, rfl⟩, hsegment,
      hcell⟩
  · rintro ⟨index, segment, harrived, hsegment, hcell⟩
    obtain ⟨delivery, hdelivery, rfl⟩ := (hreceived.arrivedBy_iff hinitial).1 harrived
    exact ⟨delivery, hdelivery, segment, hsegment, hcell⟩

/-- A segment is needed exactly if it touches a packet that is not complete. -/
theorem Received.isNeeded_iff_touches {delivery : Delivery} (hdelivery : delivery ∈ deliveries) :
    delivery.isNeeded stream.segments arrived = true ↔
      ∃ number, number < stream.packets.length ∧ stream.Touches delivery.index number ∧
        ¬ (stream.reception deliveries hreceived).Complete arrived.length number := by
  obtain ⟨segment, -, hsegment, -⟩ := hreceived.bears delivery hdelivery
  rw [Delivery.isNeeded_iff]
  constructor
  · rintro ⟨segment', hsegment', cell, hcell, hlacks⟩
    obtain ⟨number, hnumber, howner⟩ := List.getElem_of_mem (owner_mem hsegment' hcell).1
    have hpacket := List.getElem?_eq_getElem hnumber
    rw [howner] at hpacket
    refine ⟨number, hnumber, (touches_iff hsegment' hpacket).2 ⟨cell, hcell, rfl⟩, ?_⟩
    rwa [← hreceived.covers_iff_complete hinitial hpacket]
  · rintro ⟨number, hnumber, htouches, hincomplete⟩
    have hpacket := List.getElem?_eq_getElem hnumber
    obtain ⟨cell, hcell, howner⟩ := (touches_iff hsegment hpacket).1 htouches
    refine ⟨segment, hsegment, cell, hcell, ?_⟩
    rw [howner, hreceived.covers_iff_complete hinitial hpacket]
    exact hincomplete

/-- Deliveries with different indices have different numbers of arrival. -/
theorem Received.index_injective (hindices : (deliveries.map Delivery.index).Nodup)
    {arrival other : Nat} (hpositive : 0 < arrival) (hle : arrival ≤ arrived.length)
    (hpositive' : 0 < other) (hle' : other ≤ arrived.length)
    (hindex : (stream.reception deliveries hreceived).index arrival =
      (stream.reception deliveries hreceived).index other) : arrival = other := by
  have hlength := hinitial.length_le
  obtain ⟨delivery, _, hplace, -, -, -, hsame⟩ :=
    hreceived.exists_delivery hpositive (Nat.le_trans hle hlength)
  obtain ⟨delivery', _, hplace', -, -, -, hsame'⟩ :=
    hreceived.exists_delivery hpositive' (Nat.le_trans hle' hlength)
  have hmapped : (deliveries.map Delivery.index)[arrival - 1]? =
      (deliveries.map Delivery.index)[other - 1]? := by
    rw [List.getElem?_map, List.getElem?_map, hplace, hplace', Option.map_some, Option.map_some,
      ← hsame, ← hsame']
    exact congrArg some hindex
  have hplaces := (List.getElem?_inj (by rw [List.length_map]; omega) hindices).1 hmapped
  omega

/-- Where nothing is damaged, the segments in the window are those that are needed. -/
theorem Received.window_perm {settings : ReassemblerSettings} {labels : List (Option Nat)}
    {reports : List ReassemblerReport} {reassembler : Reassembler}
    (hindices : (deliveries.map Delivery.index).Nodup)
    (hstands : (stream.reception deliveries hreceived).Stands settings arrived.length labels
      reports reassembler)
    (hsound : ¬ (stream.reception deliveries hreceived).Damaged) :
    (reassembler.window.map fun entry => Except.ok entry.segment).Perm
      ((arrived.filter (Delivery.isNeeded stream.segments arrived)).map fun delivery =>
        delivery.frame.read) := by
  have hplace {earlier : Nat} (hearlier : earlier < arrived.length) :
      deliveries[earlier]? = some arrived[earlier] := by
    obtain ⟨later, rfl⟩ := hinitial
    rw [List.getElem?_append_left hearlier, List.getElem?_eq_getElem hearlier]
  let needed (arrival : Nat) : Bool :=
    ((arrived[arrival - 1]?).map (Delivery.isNeeded stream.segments arrived)).getD false
  have hkeep (earlier : Nat) (hearlier : earlier < arrived.length) :
      needed (earlier + 1) = Delivery.isNeeded stream.segments arrived arrived[earlier] := by
    simp [needed, hearlier]
  let read (arrival : Nat) : Except TransferError Segment :=
    .ok (Delivery.segmentAt deliveries arrival)
  have hread (earlier : Nat) (hearlier : earlier < arrived.length) :
      read (earlier + 1) = arrived[earlier].frame.read := by
    obtain ⟨segment, hsegment, -⟩ :=
      read_cases (hreceived.bears _ (List.mem_of_getElem? (hplace hearlier)))
    rw [hsegment]
    exact congrArg Except.ok (Delivery.segmentAt_eq (hplace hearlier) hsegment)
  have hneeded (arrival : Nat) (hpositive : 0 < arrival) (hle : arrival ≤ arrived.length) :
      needed arrival = true ↔ ∃ number, number < stream.packets.length ∧
        stream.Touches ((stream.reception deliveries hreceived).index arrival) number ∧
        ¬ (stream.reception deliveries hreceived).Complete arrived.length number := by
    obtain ⟨earlier, rfl⟩ : ∃ earlier, arrival = earlier + 1 := ⟨arrival - 1, by omega⟩
    have hdelivery := hplace (Nat.lt_of_succ_le hle)
    have hindex : (stream.reception deliveries hreceived).index (earlier + 1) =
        arrived[earlier].index := Delivery.indexAt_eq hdelivery
    rw [hkeep earlier hle, hindex]
    exact hreceived.isNeeded_iff_touches hinitial (List.mem_of_getElem? hdelivery)
  have hperm := hstands.arrivals_perm hsound
    (fun _ _ hpositive hle hpositive' hle' hindex =>
      hreceived.index_injective hinitial hindices hpositive hle hpositive' hle' hindex) hneeded
  have hsegments : (reassembler.window.map fun entry => Except.ok entry.segment) =
      (reassembler.window.map Waiting.arrival).map read := by
    rw [List.map_map]
    apply List.map_congr_left
    intro entry hentry
    exact congrArg Except.ok (hstands.lawful entry hentry).1.segment_eq
  rw [hsegments, ← map_filter_range' read needed hread hkeep]
  exact hperm.map _

end Stream

/-- Segments that arrive in any order, each at most once, give back the packets all of whose bytes
have arrived.  The window keeps the segments that have bytes of other packets, nothing is given up,
and no call fails. -/
theorem deliverAll_roundTrip {sending : SegmenterSettings} {segmenter : Segmenter}
    (hstart : Segmenter.start? sending = .ok segmenter) (calls : List SegmenterCall)
    (hkept : ∀ call ∈ calls, call.isClear = false)
    (hmac : ∀ packet ∈ SegmenterCall.packets calls, packet.IsMac)
    (hpackets : (SegmenterCall.packets calls).Nodup)
    {settings : ReassemblerSettings} (hstall : settings.stallTimeout = none)
    (hbound : 8191 ≤ settings.windowBound) {deliveries : List Delivery}
    (hfaithful : ∀ delivery ∈ deliveries,
      delivery.Faithful (builtSegments (segmenter.run calls).reports))
    (hindices : (deliveries.map Delivery.index).Nodup)
    (hids : (deliveries.filterMap fun delivery => delivery.frame.id?).Nodup)
    (hconfined : (builtSegments (segmenter.run calls).reports).length ≤ 8191 ∨
      Delivery.Confined settings deliveries)
    {arrived : List Delivery} (hinitial : arrived <+: deliveries) :
    let built := builtSegments (segmenter.run calls).reports
    let outcome := (Reassembler.start settings).deliverAll arrived
    (∀ value ∈ outcome.value, ∃ count, value = .ok count) ∧
    ((deliveredTables outcome.reports).map PieceTable.bytes).Perm
      (((SegmenterCall.packets calls).filter (Delivery.covers built arrived)).map
        Packet.byteList) ∧
    (∀ segment, .dropped segment ∉ outcome.reports) ∧
    (outcome.state.window.map fun entry => Except.ok entry.segment).Perm
      ((arrived.filter (Delivery.isNeeded built arrived)).map fun delivery =>
        delivery.frame.read) := by
  intro built outcome
  let stream := Stream.ofRun hstart calls hkept hmac hpackets
  have hreceived : stream.Received deliveries :=
    ⟨fun delivery hdelivery => Stream.bears_of_faithful (hfaithful delivery hdelivery),
      Delivery.nodup_sources hindices hids⟩
  have hsound : ¬ (stream.reception deliveries hreceived).Damaged := by
    rintro ⟨index, -, hdamaged⟩
    exact hdamaged fun delivery hdelivery _ => hfaithful delivery hdelivery
  have hconfined' : Delivery.Confined settings deliveries :=
    hconfined.elim (fun hlength => hreceived.confined hlength settings) id
  have hbound' : sequenceSpace ≤ settings.windowBound + 1 := by
    simp only [sequenceSpace]
    omega
  obtain ⟨hvalues, labels, hstands⟩ :=
    hreceived.deliverAll hindices hconfined' hstall hbound' hinitial
  refine ⟨hvalues, ?_, ?_, ?_⟩
  · exact hstands.delivered_perm hsound fun number packet hpacket =>
      hreceived.covers_iff_complete hinitial hpacket
  · intro segment hdropped
    exact hsound (hstands.damaged ⟨segment, hdropped⟩)
  · exact hreceived.window_perm hinitial hindices hstands hsound

namespace Sample

def first : Packet where
  id := 0
  kind := .mac { sequence := 5, length := 8 }
  bytes := #[0, 5, 0, 8, 1, 2, 3, 4, 5, 6, 7, 8]

def second : Packet where
  id := 1
  kind := .mac { sequence := 6, length := 2 }
  bytes := #[0, 6, 0, 2, 9, 10]

def accept (_ : Nat) : Answer := .accepted

/-- Room for six bytes of content. -/
def grant : Grant := { channel := 1, time := .zero, size := 14 }

def calls : List SegmenterCall :=
  [.process (some first) .zero accept, .process (some second) .zero accept,
    .addGrants [grant, grant, grant] 0 .zero accept]

def segment (number : UInt16) (startsPacket : Bool) (owner : Packet) (offset : Nat) :
    Segment where
  header := { SegmentHeader.blank with pfi := startsPacket, sequence := number }
  payload := { pieces := [{ owner := owner, offset := offset, length := 6 }], format := .delegate }

def segments : List Segment :=
  [segment 0 true first 0, segment 1 false first 6, segment 2 true second 0]

theorem isMac_of_mem : ∀ packet ∈ SegmenterCall.packets calls, packet.IsMac := by
  have hpackets : SegmenterCall.packets calls = [first, second] := rfl
  rw [hpackets]
  simp only [List.mem_cons, List.not_mem_nil, or_false, forall_eq_or_imp, forall_eq]
  exact ⟨⟨0, 5, [1, 2, 3, 4, 5, 6, 7, 8], by decide⟩, ⟨1, 6, [9, 10], by decide⟩⟩

theorem builtSegments_calls :
    builtSegments ((Segmenter.start .standard).run calls).reports = segments := by
  simp only [calls, Segmenter.run, Segmenter.perform]
  rw [Segmenter.addGrants_of_sorted rfl (by decide)]
  decide

theorem length_builtSegments_calls :
    (builtSegments ((Segmenter.start .standard).run calls).reports).length ≤ 8191 := by
  rw [builtSegments_calls]
  decide

theorem start?_standard : Segmenter.start? .standard = .ok (Segmenter.start .standard) := rfl

def delivery (index : Nat) (frame : Frame) : Delivery where
  index := index
  frame := frame
  now := .zero
  answers := { request := .accepted, packet := accept }

end Sample

/-- The second segment arrives over the wire, then the first one as it is; the third is lost. -/
theorem deliverAll_roundTrip_swapped :
    let arrived := [Sample.delivery 1 (.wire 7 [0, 0, 0, 8, 0, 0, 0, 0, 3, 4, 5, 6, 7, 8]),
      Sample.delivery 0 (.direct (Sample.segment 0 true Sample.first 0))]
    let outcome := (Reassembler.start .standard).deliverAll arrived
    (∀ value ∈ outcome.value, ∃ count, value = .ok count) ∧
      (deliveredTables outcome.reports).map PieceTable.bytes = [Sample.first.byteList] ∧
      (∀ segment, .dropped segment ∉ outcome.reports) ∧ outcome.state.window = [] := by
  intro arrived outcome
  have hbuilt := Sample.builtSegments_calls
  have hfaithful : ∀ delivery ∈ arrived, delivery.Faithful
      (builtSegments ((Segmenter.start .standard).run Sample.calls).reports) := by
    rw [hbuilt]
    simp only [arrived, List.mem_cons, List.not_mem_nil, or_false, forall_eq_or_imp, forall_eq]
    exact ⟨⟨Sample.segment 1 false Sample.first 6, by decide, rfl⟩,
      ⟨Sample.segment 0 true Sample.first 0, by decide, rfl⟩⟩
  have hstall : ReassemblerSettings.standard.stallTimeout = none := rfl
  have htrip := deliverAll_roundTrip Sample.start?_standard Sample.calls (by decide)
    Sample.isMac_of_mem (by decide) hstall (by decide) hfaithful (by decide) (by decide)
    (Or.inl Sample.length_builtSegments_calls)
    (List.prefix_refl arrived)
  rw [hbuilt] at htrip
  obtain ⟨hvalues, hdelivered, hkept, hwindow⟩ := htrip
  refine ⟨hvalues, ?_, hkept, ?_⟩
  · exact List.perm_singleton.1 hdelivered
  · exact List.map_eq_nil_iff.1 (List.perm_nil.1 hwindow)

end Ccf
