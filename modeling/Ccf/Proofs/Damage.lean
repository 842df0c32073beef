import Ccf.Proofs.RoundTrip

/-!
# Damaged segments

Segments may be replaced by any others with the same number.  Replacements may swallow and garble
what comes after them, but a packet none of whose bytes was in a replaced segment is handed out as
if nothing had happened: once, and put together from the bytes that its segments brought.
-/

namespace Ccf

open Reception

namespace Delivery

/-- Deliveries bring a cell of a segment under the guise of another cell, unless they replace the
segment. -/
def Brings (built : List Segment) (deliveries : List Delivery) (sent received : Cell) : Prop :=
  ∃ delivery ∈ deliveries, ∃ (original segment : Segment) (place : Nat),
    built[delivery.index]? = some original ∧
    delivery.frame.Conveys original ∧ delivery.frame.read = .ok segment ∧
    original.cells[place]? = some sent ∧ segment.cells[place]? = some received

/-- All bytes of a packet are in segments that arrive and are not replaced. -/
def Spares (built : List Segment) (deliveries : List Delivery) (packet : Packet) : Prop :=
  ∀ cell ∈ packet.cells, ∃ delivery ∈ deliveries, ∃ original,
    built[delivery.index]? = some original ∧ delivery.frame.Conveys original ∧
    cell ∈ original.cells

theorem eq_of_index {deliveries : List Delivery} (hindices : (deliveries.map index).Nodup)
    {delivery other : Delivery} (hdelivery : delivery ∈ deliveries) (hother : other ∈ deliveries)
    (hindex : delivery.index = other.index) : delivery = other :=
  List.inj_on_of_nodup_map hindices hdelivery hother hindex

end Delivery

namespace Stream

variable {stream : Stream} {deliveries : List Delivery} (hreceived : stream.Received deliveries)
  (hindices : (deliveries.map Delivery.index).Nodup)
include hindices

/-- What is brought for the cells of the line are the cells that carry their places. -/
theorem Received.brings_iff_carries {place : Nat} {sent received : Cell}
    (hsent : stream.line[place]? = some sent) :
    Delivery.Brings stream.segments deliveries sent received ↔
      (stream.reception deliveries hreceived).Carries place received := by
  constructor
  · rintro ⟨delivery, hdelivery, original, segment, inner, horiginal, hconveys, hread, hcell,
      hcell'⟩
    obtain ⟨earlier, hplace⟩ := List.mem_iff_getElem?.1 hdelivery
    have hearlier := (List.getElem?_eq_some_iff.1 hplace).1
    have hinner := (List.getElem?_eq_some_iff.1 hcell).1
    rw [Segment.length_cells] at hinner
    have hline := segment_getElem? horiginal hinner
    rw [hcell, ← hsent] at hline
    have hplaces :=
      (List.getElem?_inj (List.getElem?_eq_some_iff.1 hsent).1 stream.nodup_line).1 hline
    have hindex := Delivery.indexAt_eq hplace
    refine ⟨earlier + 1, ⟨Nat.succ_pos _, hearlier⟩, ?_, ?_, ?_⟩
    · intro other hother hsame
      rw [Delivery.eq_of_index hindices hother hdelivery (hsame.trans hindex)]
      exact ⟨original, horiginal, hconveys⟩
    · change stream.cut (Delivery.indexAt deliveries (earlier + 1)) ≤ place
      rw [hindex]
      omega
    · change (Delivery.segmentAt deliveries (earlier + 1)).cells[place -
        stream.cut (Delivery.indexAt deliveries (earlier + 1))]? = some received
      rw [hindex, Delivery.segmentAt_eq hplace hread, hplaces, Nat.add_sub_cancel_left, hcell']
  · rintro ⟨arrival, harrives, hintact, hlow, hcell⟩
    obtain ⟨delivery, segment, hplace, hbears, hread, hsegment, hindex⟩ :=
      hreceived.exists_delivery harrives.1 harrives.2
    have hdelivery := List.mem_of_getElem? hplace
    obtain ⟨original, horiginal, hconveys⟩ := hintact delivery hdelivery hindex.symm
    have hrepeats := repeats_of_conveys horiginal hconveys hread
    change stream.cut (Delivery.indexAt deliveries arrival) ≤ place at hlow
    change (Delivery.segmentAt deliveries arrival).cells[place -
      stream.cut (Delivery.indexAt deliveries arrival)]? = some received at hcell
    rw [hindex] at hlow hcell
    rw [hsegment] at hcell
    refine ⟨delivery, hdelivery, original, segment, _, horiginal, hconveys, hread, ?_, hcell⟩
    have hinner := (List.getElem?_eq_some_iff.1 hcell).1
    rw [Segment.length_cells, hrepeats.size_eq] at hinner
    rw [segment_getElem? horiginal hinner, Nat.add_sub_cancel' hlow, hsent]

/-- What is brought for a packet are the cells that carry its range. -/
theorem Received.forall₂_brings_iff {number : Nat} {packet : Packet}
    (hpacket : stream.packets[number]? = some packet) {cells : List Cell} :
    List.Forall₂ (Delivery.Brings stream.segments deliveries) packet.cells cells ↔
      (stream.reception deliveries hreceived).CarriesRange (stream.origin number)
        (stream.origin (number + 1)) cells := by
  have hnext := origin_succ hpacket
  have hpointwise : (fun place received => place < packet.size ∧
      Delivery.Brings stream.segments deliveries ⟨packet, place⟩ received) =
      fun place received => place < packet.size ∧
        (stream.reception deliveries hreceived).Carries (stream.origin number + place)
          received := by
    funext place received
    exact propext (and_congr_right fun hplace =>
      hreceived.brings_iff_carries hindices (line_getElem? hpacket hplace))
  have hbound (relation : Nat → Cell → Prop) :
      List.Forall₂ relation (List.range packet.size) cells ↔
        List.Forall₂ (fun place received => place < packet.size ∧ relation place received)
          (List.range packet.size) cells := by
    rw [List.forall₂_and_left]
    exact (and_iff_right fun place hplace => List.mem_range.1 hplace).symm
  rw [CarriesRange, hnext, Nat.add_sub_cancel_left, Packet.cells, List.range'_eq_map_range,
    List.forall₂_map_left_iff, List.forall₂_map_left_iff, hbound, hpointwise, ← hbound]

/-- A packet that is spared is unspoiled and complete. -/
theorem Received.unspoiled_of_spares {number : Nat} {packet : Packet}
    (hpacket : stream.packets[number]? = some packet)
    (hspares : Delivery.Spares stream.segments deliveries packet) :
    (stream.reception deliveries hreceived).Unspoiled number ∧
      (stream.reception deliveries hreceived).Complete deliveries.length number := by
  constructor
  · refine ⟨(List.getElem?_eq_some_iff.1 hpacket).1, fun index hindex htouches other hother
      hsame => ?_⟩
    have hsegment := List.getElem?_eq_getElem hindex
    obtain ⟨cell, hcell, rfl⟩ := (touches_iff hsegment hpacket).1 htouches
    obtain ⟨delivery, hdelivery, original, horiginal, hconveys, hmember⟩ :=
      hspares cell (owner_mem hsegment hcell).2
    have hindex' : delivery.index = index := by
      by_contra hne
      exact disjoint_segments horiginal hsegment hne hmember hcell
    rw [Delivery.eq_of_index hindices hother hdelivery (hsame.trans hindex'.symm)]
    exact ⟨original, horiginal, hconveys⟩
  · rw [complete_iff hpacket]
    intro cell hcell
    obtain ⟨delivery, hdelivery, original, horiginal, -, hmember⟩ := hspares cell hcell
    exact ⟨_, original, (hreceived.arrivedBy_iff (List.prefix_refl deliveries)).2
      ⟨delivery, hdelivery, rfl⟩, horiginal, hmember⟩

end Stream

/-- **Damage is contained.**  Whatever replaces segments under their numbers, a packet all of whose
bytes arrive in segments that are not replaced is handed out once, with its bytes, and put together
from what these segments bring. -/
theorem deliverAll_containsDamage {sending : SegmenterSettings} {segmenter : Segmenter}
    (hstart : Segmenter.start? sending = .ok segmenter) (calls : List SegmenterCall)
    (hkept : ∀ call ∈ calls, call.isClear = false)
    (hmac : ∀ packet ∈ SegmenterCall.packets calls, packet.IsMac)
    (hpackets : (SegmenterCall.packets calls).Nodup)
    (hlength : (builtSegments (segmenter.run calls).reports).length ≤ 8191)
    {settings : ReassemblerSettings} (hstall : settings.stallTimeout = none)
    (hbound : 8191 ≤ settings.windowBound) {deliveries : List Delivery}
    (hbears : ∀ delivery ∈ deliveries,
      delivery.Bears (builtSegments (segmenter.run calls).reports))
    (hindices : (deliveries.map Delivery.index).Nodup)
    (hids : (deliveries.filterMap fun delivery => delivery.frame.id?).Nodup) :
    let built := builtSegments (segmenter.run calls).reports
    let tables := deliveredTables ((Reassembler.start settings).deliverAll deliveries).reports
    ∀ packet ∈ SegmenterCall.packets calls, Delivery.Spares built deliveries packet →
      ∃ (position : Nat) (table : PieceTable), tables[position]? = some table ∧
        table.bytes = packet.byteList ∧
        List.Forall₂ (Delivery.Brings built deliveries) packet.cells table.cells ∧
        ∀ (other : Nat) (table' : PieceTable), tables[other]? = some table' →
          List.Forall₂ (Delivery.Brings built deliveries) packet.cells table'.cells →
          other = position := by
  intro built tables packet hmember hspares
  let stream := Stream.ofRun hstart calls hkept hmac hpackets
  have hreceived : stream.Received deliveries :=
    ⟨hbears, Delivery.nodup_sources hindices hids⟩
  have hbound' : sequenceSpace ≤ settings.windowBound + 1 := by
    simp only [sequenceSpace]
    omega
  obtain ⟨-, labels, hstands⟩ := hreceived.deliverAll hindices
    (hreceived.confined hlength settings) hstall hbound' (List.prefix_refl deliveries)
  obtain ⟨number, hpacket⟩ := List.mem_iff_getElem?.1 hmember
  obtain ⟨hunspoiled, hcomplete⟩ := hreceived.unspoiled_of_spares hindices hpacket hspares
  obtain ⟨position, table, htable, hshows, hunique⟩ := hstands.exists_table hunspoiled hcomplete
  refine ⟨position, table, htable, hshows.bytes_eq hpacket,
    (hreceived.forall₂_brings_iff hindices hpacket).2 hshows.range, fun other table' hother
      hbrings => ?_⟩
  exact hunique other table' hother ((hreceived.forall₂_brings_iff hindices hpacket).1 hbrings)

/-- The third segment is replaced by one that announces a packet it does not have; the others
arrive after it. -/
theorem deliverAll_containsDamage_garbled :
    let deliveries := [Sample.delivery 2 (.wire 7 [128, 0, 0, 16, 0, 0, 0, 0, 255, 255, 255, 255]),
      Sample.delivery 1 (.wire 8 [0, 0, 0, 8, 0, 0, 0, 0, 3, 4, 5, 6, 7, 8]),
      Sample.delivery 0 (.wire 9 [128, 0, 0, 0, 0, 0, 0, 0, 0, 5, 0, 8, 1, 2])]
    let tables := deliveredTables ((Reassembler.start .standard).deliverAll deliveries).reports
    ∃ (position : Nat) (table : PieceTable), tables[position]? = some table ∧
      table.bytes = Sample.first.byteList ∧
      ∀ (other : Nat) (table' : PieceTable), tables[other]? = some table' →
        List.Forall₂ (Delivery.Brings Sample.segments deliveries) Sample.first.cells
          table'.cells → other = position := by
  intro deliveries tables
  have hbuilt := Sample.builtSegments_calls
  have hstall : ReassemblerSettings.standard.stallTimeout = none := rfl
  have hbears : ∀ delivery ∈ deliveries, delivery.Bears
      (builtSegments ((Segmenter.start .standard).run Sample.calls).reports) := by
    rw [hbuilt]
    simp only [deliveries, List.mem_cons, List.not_mem_nil, or_false, forall_eq_or_imp, forall_eq]
    exact ⟨⟨_, _, rfl, rfl, by decide, nofun⟩, ⟨_, _, rfl, rfl, by decide, nofun⟩,
      ⟨_, _, rfl, rfl, by decide, nofun⟩⟩
  have hspares : Delivery.Spares Sample.segments deliveries Sample.first := by
    intro cell hcell
    have hsplit : Sample.first.cells = (Sample.segment 0 true Sample.first 0).cells ++
      (Sample.segment 1 false Sample.first 6).cells := by decide
    rw [hsplit] at hcell
    rcases List.mem_append.1 hcell with hfront | hback
    · exact ⟨Sample.delivery 0 (.wire 9 [128, 0, 0, 0, 0, 0, 0, 0, 0, 5, 0, 8, 1, 2]),
        by simp [deliveries], _, rfl, rfl, hfront⟩
    · exact ⟨Sample.delivery 1 (.wire 8 [0, 0, 0, 8, 0, 0, 0, 0, 3, 4, 5, 6, 7, 8]),
        by simp [deliveries], _, rfl, rfl, hback⟩
  have hcontained := deliverAll_containsDamage Sample.start?_standard Sample.calls (by decide)
    Sample.isMac_of_mem (by decide) Sample.length_builtSegments_calls hstall (by decide) hbears
    (by decide) (by decide)
  rw [hbuilt] at hcontained
  obtain ⟨position, table, htable, hbytes, -, hunique⟩ :=
    hcontained Sample.first (by decide) hspares
  exact ⟨position, table, htable, hbytes, hunique⟩

end Ccf
