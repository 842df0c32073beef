import Ccf.Proofs.Reassembly.RepeatedRuns
import Ccf.Proofs.RoundTrip
import Mathlib.Data.Sum.Basic

/-!
# Segments that arrive more than once

A segment that arrives again counts as adjacent to the one that is there.  If it begins and ends
inside packets, its bytes may be gathered twice; then a packet is handed out that nobody sent.  All
other packets that are handed out are packets that were sent.
-/

namespace Ccf

open Reception

/-- Whether a segment begins and ends inside packets. -/
def Segment.isInner (segment : Segment) : Bool :=
  segment.cells.head?.any (fun cell => decide (cell.position ≠ 0)) &&
    segment.cells.getLast?.any fun cell => decide (cell.position + 1 ≠ cell.owner.size)

/-- A table with bytes of two deliveries of one segment that begins and ends inside packets. -/
def Delivery.Mixes (built : List Segment) (deliveries : List Delivery) (table : PieceTable) :
    Prop :=
  ∃ (position other : Nat) (first second : Delivery) (segment copy again : Segment),
    position ≠ other ∧ deliveries[position]? = some first ∧ deliveries[other]? = some second ∧
    first.index = second.index ∧ built[first.index]? = some segment ∧ segment.isInner = true ∧
    first.frame.read = .ok copy ∧ second.frame.read = .ok again ∧
    (∃ cell ∈ table.cells, cell ∈ copy.cells) ∧ ∃ cell ∈ table.cells, cell ∈ again.cells

/-- Frames that are read from bytes have their bytes in the packets that are registered. -/
theorem Delivery.map_source_of_wire {deliveries : List Delivery}
    (hwire : ∀ delivery ∈ deliveries, delivery.frame.id?.isSome = true) :
    deliveries.map source =
      (deliveries.filterMap fun delivery => delivery.frame.id?).map Sum.inr := by
  induction deliveries with
  | nil => rfl
  | cons delivery later ih =>
    obtain ⟨hfirst, hlater⟩ := List.forall_mem_cons.1 hwire
    have hsources := ih hlater
    cases hframe : delivery.frame with
    | direct segment => simp [hframe, Frame.id?] at hfirst
    | wire id bytes => simp [source, hframe, Frame.id?, hsources]

namespace Stream

variable {stream : Stream}

theorem isInner_of_inner {index : Nat} {segment : Segment}
    (hsegment : stream.segments[index]? = some segment) (hinner : stream.Inner index) :
    segment.isInner = true := by
  have hsize := (stream.emitted _ _ hsegment).size_pos
  have hnext := cut_succ hsegment
  have hcell {place number : Nat} (hplace : place < segment.size)
      (hlow : stream.origin number ≤ stream.cut index + place)
      (hhigh : stream.cut index + place < stream.origin (number + 1)) :
      ∃ packet, stream.origin (number + 1) = stream.origin number + packet.size ∧
        segment.cells[place]? =
          some ⟨packet, stream.cut index + place - stream.origin number⟩ := by
    obtain ⟨other, hother, hlow', hhigh'⟩ :=
      exists_packet (Nat.lt_of_lt_of_le hhigh (stream.origin_le_length (number + 1)))
    obtain rfl := packet_unique hlow hhigh hlow' hhigh'
    have hpacket := List.getElem?_eq_getElem hother
    have hwidth := origin_succ hpacket
    have hinside : stream.cut index + place - stream.origin number <
        stream.packets[number].size := by omega
    have hline := line_getElem? hpacket hinside
    rw [Nat.add_sub_cancel' hlow] at hline
    exact ⟨_, hwidth, (segment_getElem? hsegment hplace).trans hline⟩
  obtain ⟨⟨first, hfirst⟩, last, hlast⟩ := hinner
  rw [hnext] at hlast
  obtain ⟨packet, -, hhead⟩ := hcell hsize (Nat.le_of_lt hfirst.1) hfirst.2
  have hlastPlace : segment.size - 1 < segment.size := Nat.sub_one_lt_of_lt hsize
  have hbelow : stream.origin last ≤ stream.cut index + (segment.size - 1) := by
    have hlow := hlast.1
    omega
  have habove : stream.cut index + (segment.size - 1) < stream.origin (last + 1) := by
    have hhigh := hlast.2
    omega
  obtain ⟨packet', hwidth, htail⟩ := hcell hlastPlace hbelow habove
  have hpositions : stream.cut index - stream.origin first ≠ 0 ∧
      stream.cut index + (segment.size - 1) - stream.origin last + 1 ≠ packet'.size := by
    have hlow := hfirst.1
    have hhigh := hlast.2
    exact ⟨by omega, by omega⟩
  rw [Segment.isInner, List.head?_eq_getElem?, List.getLast?_eq_getElem?, Segment.length_cells,
    hhead, htail]
  simpa using hpositions

variable {deliveries : List Delivery} (hreceived : stream.Received deliveries)

/-- What is handed out of faithful deliveries is genuine. -/
theorem Received.sincere (hfaithful : ∀ delivery ∈ deliveries, delivery.Faithful stream.segments)
    (hlength : stream.segments.length < sequenceSpace) (settings : ReassemblerSettings)
    {arrived : List Delivery} (hinitial : arrived <+: deliveries) :
    (stream.reception deliveries hreceived).Sincere arrived.length
      ((Reassembler.start settings).deliverAll arrived).reports
      ((Reassembler.start settings).deliverAll arrived).state := by
  induction arrived using List.reverseRecOn with
  | nil => exact sincere_start settings
  | append_singleton earlier delivery ih =>
    have hsincere := ih ((List.prefix_append earlier [delivery]).trans hinitial)
    have hplace := getElem?_of_concat hinitial
    have hlt := (List.getElem?_eq_some_iff.1 hplace).1
    obtain ⟨segment, hread, -⟩ := read_cases (hreceived.bears _ (List.mem_of_getElem? hplace))
    have hsound : ¬ (stream.reception deliveries hreceived).Damaged := by
      rintro ⟨index, -, hdamaged⟩
      exact hdamaged fun delivery hdelivery _ => hfaithful delivery hdelivery
    have hcount := hsincere.arrivals_eq
    rw [← hcount] at hsincere
    have hafter := hsincere.process hsound hlength (by rw [hcount]; exact ⟨Nat.succ_pos _, hlt⟩)
      delivery.now delivery.answers
    have hsegment : (stream.reception deliveries hreceived).segment (earlier.length + 1) =
        segment := Delivery.segmentAt_eq hplace hread
    rw [hcount, hsegment] at hafter
    rwa [Reassembler.deliverAll_concat, Reassembler.deliver_eq_process hread, List.length_append,
      List.length_singleton]

/-- Bytes of two arrivals of an inner segment are bytes of two deliveries of it. -/
theorem Received.mixes_of_doubles {table : PieceTable}
    (hdoubles : (stream.reception deliveries hreceived).Doubles table.cells) :
    Delivery.Mixes stream.segments deliveries table := by
  obtain ⟨arrival, other, harrives, harrives', hne, hindex, hinner, hcells, hcells'⟩ := hdoubles
  obtain ⟨first, copy, hplace, hbears, hread, hsegment, hsame⟩ :=
    hreceived.exists_delivery harrives.1 harrives.2
  obtain ⟨second, again, hplace', hbears', hread', hsegment', hsame'⟩ :=
    hreceived.exists_delivery harrives'.1 harrives'.2
  obtain ⟨original, -, horiginal, -⟩ := hbears
  have hpositive := harrives.1
  have hpositive' := harrives'.1
  change Delivery.indexAt deliveries arrival = Delivery.indexAt deliveries other at hindex
  change stream.Inner (Delivery.indexAt deliveries arrival) at hinner
  rw [hsame] at hinner
  refine ⟨arrival - 1, other - 1, first, second, original, copy, again, by omega, hplace, hplace',
    by rw [← hsame, hindex, hsame'], horiginal, isInner_of_inner horiginal hinner, hread, hread',
    ?_, ?_⟩
  · rw [← hsegment]
    exact hcells
  · rw [← hsegment']
    exact hcells'

end Stream

/-- Segments that arrive over the wire, each any number of times and in any order, make no packet
that was not sent, except for packets put together from two deliveries of a segment that begins and
ends inside packets. -/
theorem deliverAll_genuine {sending : SegmenterSettings} {segmenter : Segmenter}
    (hstart : Segmenter.start? sending = .ok segmenter) (calls : List SegmenterCall)
    (hkept : ∀ call ∈ calls, call.isClear = false)
    (hmac : ∀ packet ∈ SegmenterCall.packets calls, packet.IsMac)
    (hpackets : (SegmenterCall.packets calls).Nodup)
    (hlength : (builtSegments (segmenter.run calls).reports).length ≤ 8191)
    (settings : ReassemblerSettings) {deliveries : List Delivery}
    (hfaithful : ∀ delivery ∈ deliveries,
      delivery.Faithful (builtSegments (segmenter.run calls).reports))
    (hwire : ∀ delivery ∈ deliveries, delivery.frame.id?.isSome = true)
    (hids : (deliveries.filterMap fun delivery => delivery.frame.id?).Nodup) :
    let built := builtSegments (segmenter.run calls).reports
    let outcome := (Reassembler.start settings).deliverAll deliveries
    ∀ table ∈ deliveredTables outcome.reports,
      (∃ packet ∈ SegmenterCall.packets calls, table.bytes = packet.byteList) ∨
        Delivery.Mixes built deliveries table := by
  intro built outcome table htable
  let stream := Stream.ofRun hstart calls hkept hmac hpackets
  have hsources : (deliveries.map Delivery.source).Nodup := by
    rw [Delivery.map_source_of_wire hwire]
    exact hids.map Sum.inr_injective
  have hreceived : stream.Received deliveries :=
    ⟨fun delivery hdelivery => Stream.bears_of_faithful (hfaithful delivery hdelivery), hsources⟩
  have hbound : stream.segments.length < sequenceSpace := Nat.lt_succ_of_le hlength
  have hsincere := hreceived.sincere hfaithful hbound settings (List.prefix_refl deliveries)
  rcases hsincere.genuine table htable with ⟨number, hnumber, hshows⟩ | hdoubles
  · have hpacket := List.getElem?_eq_getElem hnumber
    exact Or.inl ⟨_, List.getElem_mem hnumber, hshows.bytes_eq hpacket⟩
  · exact Or.inr (hreceived.mixes_of_doubles hdoubles)

/-- The first segment arrives twice, after the second one. -/
theorem deliverAll_genuine_doubled :
    let deliveries := [Sample.delivery 1 (.wire 7 [0, 0, 0, 8, 0, 0, 0, 0, 3, 4, 5, 6, 7, 8]),
      Sample.delivery 0 (.wire 8 [128, 0, 0, 0, 0, 0, 0, 0, 0, 5, 0, 8, 1, 2]),
      Sample.delivery 0 (.wire 9 [128, 0, 0, 0, 0, 0, 0, 0, 0, 5, 0, 8, 1, 2])]
    let outcome := (Reassembler.start .standard).deliverAll deliveries
    ∀ table ∈ deliveredTables outcome.reports,
      ∃ packet ∈ [Sample.first, Sample.second], table.bytes = packet.byteList := by
  intro deliveries outcome table htable
  have hbuilt := Sample.builtSegments_calls
  have hfaithful : ∀ delivery ∈ deliveries, delivery.Faithful
      (builtSegments ((Segmenter.start .standard).run Sample.calls).reports) := by
    rw [hbuilt]
    simp only [deliveries, List.mem_cons, List.not_mem_nil, or_false, forall_eq_or_imp, forall_eq]
    exact ⟨⟨Sample.segment 1 false Sample.first 6, by decide, rfl⟩,
      ⟨Sample.segment 0 true Sample.first 0, by decide, rfl⟩,
      ⟨Sample.segment 0 true Sample.first 0, by decide, rfl⟩⟩
  have hgenuine := deliverAll_genuine Sample.start?_standard Sample.calls (by decide)
    Sample.isMac_of_mem (by decide) Sample.length_builtSegments_calls .standard hfaithful
    (by decide) (by decide) table htable
  rw [hbuilt] at hgenuine
  have houter : ∀ segment ∈ Sample.segments, segment.isInner = false := by decide
  rcases hgenuine with hsent | ⟨_, _, _, _, segment, _, _, -, -, -, -, hsegment, hinner, -⟩
  · exact hsent
  · rw [houter segment (List.mem_of_getElem? hsegment)] at hinner
    cases hinner

namespace Sample

def long : Packet where
  id := 0
  kind := .mac { sequence := 5, length := 12 }
  bytes := #[0, 5, 0, 12, 1, 2, 3, 4, 5, 6, 7, 8, 9, 10, 11, 12]

def longCalls : List SegmenterCall :=
  [.process (some long) .zero accept, .addGrants [grant, grant, grant] 0 .zero accept]

/-- The middle of a packet arrives twice before its start and its end arrive. -/
def longDeliveries : List Delivery :=
  [delivery 1 (.wire 7 [0, 0, 0, 8, 0, 0, 0, 0, 3, 4, 5, 6, 7, 8]),
    delivery 1 (.wire 8 [0, 0, 0, 8, 0, 0, 0, 0, 3, 4, 5, 6, 7, 8]),
    delivery 0 (.wire 9 [128, 0, 0, 0, 0, 0, 0, 0, 0, 5, 0, 12, 1, 2]),
    delivery 2 (.wire 10 [0, 0, 0, 16, 0, 0, 0, 0, 9, 10, 11, 12])]

def longSegments : List Segment :=
  [segment 0 true long 0, segment 1 false long 6,
    { header := { SegmentHeader.blank with sequence := 2 }
      payload := { pieces := [{ owner := long, offset := 12, length := 4 }]
                   format := .delegate } }]

theorem builtSegments_longCalls :
    builtSegments ((Segmenter.start .standard).run longCalls).reports = longSegments := by
  simp only [longCalls, Segmenter.run, Segmenter.perform]
  rw [Segmenter.addGrants_of_sorted rfl (by decide)]
  decide

theorem bytes_longDeliveries :
    (deliveredTables ((Reassembler.start .standard).deliverAll longDeliveries).reports).map
        PieceTable.bytes = [[0, 5, 0, 12, 1, 2, 3, 4, 5, 6, 7, 8, 3, 4, 5, 6]] := by
  cbv

end Sample

/-- Bytes of the middle of the packet are handed out twice, in the place of its end. -/
theorem deliverAll_mixes_long :
    let built := builtSegments ((Segmenter.start .standard).run Sample.longCalls).reports
    let outcome := (Reassembler.start .standard).deliverAll Sample.longDeliveries
    (∀ packet ∈ SegmenterCall.packets Sample.longCalls, packet.IsMac) ∧
      (SegmenterCall.packets Sample.longCalls).Nodup ∧ built.length ≤ 4096 ∧
      (∀ delivery ∈ Sample.longDeliveries,
        delivery.Faithful built ∧ delivery.frame.id?.isSome = true) ∧
      (Sample.longDeliveries.filterMap fun delivery => delivery.frame.id?).Nodup ∧
      (∀ index, index < built.length →
        ∃ delivery ∈ Sample.longDeliveries, delivery.index = index) ∧
      ∃ table ∈ deliveredTables outcome.reports,
        ∀ packet ∈ SegmenterCall.packets Sample.longCalls, table.bytes ≠ packet.byteList := by
  intro built outcome
  have hbuilt : built = Sample.longSegments := Sample.builtSegments_longCalls
  have hpackets : SegmenterCall.packets Sample.longCalls = [Sample.long] := rfl
  have hbytes := Sample.bytes_longDeliveries
  rw [hbuilt, hpackets]
  refine ⟨?_, by decide, by decide, ?_, by decide, by decide, ?_⟩
  · intro packet hpacket
    rw [List.mem_singleton.1 hpacket]
    exact ⟨0, 5, [1, 2, 3, 4, 5, 6, 7, 8, 9, 10, 11, 12], by decide⟩
  · simp only [Sample.longDeliveries, List.mem_cons, List.not_mem_nil, or_false,
      forall_eq_or_imp, forall_eq]
    exact ⟨⟨⟨Sample.segment 1 false Sample.long 6, by decide, rfl⟩, rfl⟩,
      ⟨⟨Sample.segment 1 false Sample.long 6, by decide, rfl⟩, rfl⟩,
      ⟨⟨Sample.segment 0 true Sample.long 0, by decide, rfl⟩, rfl⟩,
      ⟨⟨_, rfl, rfl⟩, rfl⟩⟩
  · obtain ⟨table, htable, hgarbled⟩ := List.mem_map.1 (hbytes ▸ List.mem_singleton_self _)
    refine ⟨table, htable, fun packet hpacket => ?_⟩
    rw [hgarbled, List.mem_singleton.1 hpacket]
    decide

end Ccf
