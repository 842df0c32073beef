import Ccf.Proofs.RoundTrip
import Ccf.Proofs.Simulation.Packing
import Ccf.Proofs.Simulation.Reordering
import Mathlib.Algebra.Order.Floor.Div

/-!
# Segments of a simulation on their way

Segments fill their grants inside packets, so a packet is spread over a bounded number of them.  A
segment waits for its packet only as long as another segment of the packet is still to come, and
those are never far ahead: whenever a segment comes in, it and the segments in the window lie within
the spread of a packet and the depth of the reordering.  If this is less than one round of sequence
numbers, all packets arrive and nothing is left.
-/

namespace Ccf

namespace Stream

variable {stream : Stream}

/-- Where a segment leaves room, a packet begins behind it, or no cell is left. -/
def Tight (stream : Stream) (capacity : Nat) : Prop :=
  ∀ index segment, stream.segments[index]? = some segment → segment.size < capacity →
    ∀ cell, stream.line[stream.cut (index + 1)]? = some cell → cell.position = 0

def Exhausted (stream : Stream) : Prop := stream.line.length ≤ stream.emittedLength

theorem Exhausted.lt_length (hexhausted : stream.Exhausted) {index number : Nat}
    (hlt : stream.cut index < stream.origin number) : index < stream.segments.length := by
  have hbefore : stream.cut index < stream.cut stream.segments.length :=
    calc stream.cut index
        < stream.origin number := hlt
      _ ≤ stream.line.length := stream.origin_le_length number
      _ ≤ stream.cut stream.segments.length := hexhausted
  exact lt_of_cut_lt hbefore

/-- A segment behind whose end a packet goes on leaves no room. -/
theorem Tight.le_size {capacity : Nat} (htight : stream.Tight capacity) {index number : Nat}
    {segment : Segment} (hsegment : stream.segments[index]? = some segment)
    (hcrosses : stream.Crosses number (stream.cut (index + 1))) : capacity ≤ segment.size := by
  by_contra hroom
  have hplace : stream.cut (index + 1) < stream.line.length :=
    Nat.lt_of_lt_of_le hcrosses.2 (stream.origin_le_length _)
  have hzero := htight index segment hsegment (Nat.lt_of_not_le hroom) _
    (List.getElem?_eq_getElem hplace)
  obtain ⟨other, hother, horigin⟩ :=
    (position_eq_zero_iff (List.getElem?_eq_getElem hplace)).1 hzero
  have hnext := origin_lt hother (Nat.lt_add_one other)
  have hsame := packet_unique (Nat.le_of_lt hcrosses.1) hcrosses.2 (Nat.le_of_eq horigin)
    (by omega)
  have hbegins := hcrosses.1
  rw [hsame, horigin] at hbegins
  exact Nat.lt_irrefl _ hbegins

/-- Segments that end inside a packet have the sizes of their grants. -/
theorem Tight.cut_add_le {capacity : Nat} (htight : stream.Tight capacity)
    (hexhausted : stream.Exhausted) {number first count : Nat}
    (hlow : stream.origin number < stream.cut first)
    (hhigh : stream.cut (first + count) < stream.origin (number + 1)) :
    stream.cut first + count * capacity ≤ stream.cut (first + count) := by
  induction count with
  | zero => simp
  | succ count ih =>
    rw [← Nat.add_assoc] at hhigh ⊢
    have hindex := List.getElem?_eq_getElem (hexhausted.lt_length
      (Nat.lt_of_le_of_lt (stream.cut_mono (Nat.le_succ (first + count))) hhigh))
    have hstep := cut_succ hindex
    have hmono := stream.cut_mono (show first ≤ first + count + 1 by omega)
    have hsize := htight.le_size hindex ⟨Nat.lt_of_lt_of_le hlow hmono, hhigh⟩
    have hbefore := ih (by omega)
    rw [Nat.succ_mul]
    omega

/-- The largest distance between segments with bytes of one packet. -/
theorem Tight.le_add_of_touches {capacity width : Nat} (htight : stream.Tight capacity)
    (hexhausted : stream.Exhausted) (hcapacity : 0 < capacity)
    (hwidth : ∀ packet ∈ stream.packets, packet.size ≤ width) {index later number : Nat}
    (hnumber : number < stream.packets.length) (htouches : stream.Touches index number)
    (hlater : stream.Touches later number) : later ≤ index + (width ⌈/⌉ capacity + 1) := by
  by_contra hfar
  obtain ⟨count, rfl⟩ : ∃ count, later = index + 1 + count :=
    Nat.exists_eq_add_of_le (by omega)
  have hinside := htight.cut_add_le hexhausted htouches.2 hlater.1
  have hpacket := origin_succ (List.getElem?_eq_getElem hnumber)
  have hsize := hwidth _ (List.getElem_mem hnumber)
  have hlow := htouches.2
  have hhigh := hlater.1
  have hrounds : width ≤ width ⌈/⌉ capacity * capacity := by
    rw [Nat.mul_comm]
    exact le_smul_ceilDiv hcapacity
  have hcount : width ⌈/⌉ capacity * capacity ≤ count * capacity :=
    Nat.mul_le_mul_right _ (by omega)
  omega

end Stream

namespace Simulation

open Reception

/-- What comes in at a place of an order of arrival. -/
def comingIn (wire : List (List UInt8)) (entry : Nat × Nat) : Delivery where
  index := entry.1
  frame := .wire entry.2 (wire.getD entry.1 [])
  now := .zero
  answers := accepting

def deliveriesOf (wire : List (List UInt8)) (order : List Nat) : List Delivery :=
  order.zipIdx.map (comingIn wire)

variable {wire : List (List UInt8)} {order : List Nat}

theorem map_index_deliveriesOf : (deliveriesOf wire order).map Delivery.index = order := by
  rw [deliveriesOf, List.map_map]
  exact List.zipIdx_map_fst 0 order

theorem nodup_ids_deliveriesOf :
    ((deliveriesOf wire order).filterMap fun delivery => delivery.frame.id?).Nodup := by
  have hids : ((deliveriesOf wire order).filterMap fun delivery => delivery.frame.id?) =
      order.zipIdx.map Prod.snd := by
    rw [deliveriesOf, List.filterMap_map, ← List.filterMap_eq_map]
    rfl
  rw [hids, List.zipIdx_map_snd]
  exact List.nodup_range'

def Conveyed (segments : List Segment) (wire : List (List UInt8)) : Prop :=
  List.Forall₂ (fun segment bytes => segment.toWire = .ok bytes) segments wire

/-- Everything that comes in conveys a segment. -/
theorem Conveyed.faithful {segments : List Segment} (hwire : Conveyed segments wire)
    (horder : ∀ index ∈ order, index < wire.length) :
    ∀ delivery ∈ deliveriesOf wire order, delivery.Faithful segments := by
  intro delivery hdelivery
  obtain ⟨entry, hentry, rfl⟩ := List.mem_map.1 hdelivery
  have hindex := horder _ (List.fst_mem_of_mem_zipIdx hentry)
  have hindex' : entry.1 < segments.length := List.Forall₂.length_eq hwire ▸ hindex
  refine ⟨_, List.getElem?_eq_getElem hindex', ?_⟩
  have hconveys := List.Forall₂.get hwire hindex' hindex
  simpa [Frame.Conveys, comingIn, hindex] using hconveys

/-- Everything has been emitted, and all of it comes in, in a mixed order. -/
structure Crossing (stream : Stream) (wire : List (List UInt8)) (depth : Nat) (order : List Nat) :
    Prop where
  exhausted : stream.Exhausted
  conveyed : Conveyed stream.segments wire
  mixed : Mixed depth 0 order
  length_eq : order.length = wire.length

namespace Crossing

variable {stream : Stream} {depth : Nat} (hcrossing : Crossing stream wire depth order)
include hcrossing

theorem mem_order_iff {index : Nat} : index ∈ order ↔ index < wire.length := by
  rw [hcrossing.mixed.perm.mem_iff, List.mem_range'_1, hcrossing.length_eq]
  omega

theorem nodup_order : order.Nodup :=
  hcrossing.mixed.perm.nodup_iff.2 List.nodup_range'

theorem nodup_indices : ((deliveriesOf wire order).map Delivery.index).Nodup := by
  rw [map_index_deliveriesOf]
  exact hcrossing.nodup_order

theorem faithful : ∀ delivery ∈ deliveriesOf wire order, delivery.Faithful stream.segments :=
  hcrossing.conveyed.faithful fun _ hindex => hcrossing.mem_order_iff.1 hindex

theorem received : stream.Received (deliveriesOf wire order) where
  bears delivery hdelivery := Stream.bears_of_faithful (hcrossing.faithful delivery hdelivery)
  nodup := Delivery.nodup_sources hcrossing.nodup_indices nodup_ids_deliveriesOf

theorem not_damaged : ¬ (stream.reception _ hcrossing.received).Damaged := by
  rintro ⟨index, -, hdamaged⟩
  exact hdamaged fun delivery hdelivery _ => hcrossing.faithful delivery hdelivery

/-- A packet that is not complete has a segment that is still to come. -/
theorem exists_missing {arrived number : Nat}
    (hincomplete : ¬ (stream.reception _ hcrossing.received).Complete arrived number) :
    ∃ index, stream.Touches index number ∧
      ¬ (stream.reception _ hcrossing.received).ArrivedBy arrived index := by
  by_contra hnone
  apply hincomplete
  constructor
  case emitted => exact Nat.le_trans (stream.origin_le_length _) hcrossing.exhausted
  case arrived =>
    intro index htouches
    by_contra hmissing
    exact hnone ⟨index, htouches, hmissing⟩

/-- Once everything has come in, every packet is complete. -/
theorem complete (number : Nat) :
    (stream.reception _ hcrossing.received).Complete (deliveriesOf wire order).length number := by
  by_contra hincomplete
  obtain ⟨index, htouches, hmissing⟩ := hcrossing.exists_missing hincomplete
  have hindex : index < wire.length :=
    List.Forall₂.length_eq hcrossing.conveyed ▸ hcrossing.exhausted.lt_length htouches.1
  have hmember : index ∈ (deliveriesOf wire order).map Delivery.index := by
    rw [map_index_deliveriesOf]
    exact hcrossing.mem_order_iff.2 hindex
  exact hmissing
    ((hcrossing.received.arrivedBy_iff (List.prefix_refl _)).2 (List.mem_map.1 hmember))

section Spread

variable {capacity width : Nat} (htight : stream.Tight capacity) (hcapacity : 0 < capacity)
  (hwidth : ∀ packet ∈ stream.packets, packet.size ≤ width)
  (hspread : width ⌈/⌉ capacity + 1 + depth ≤ 8191) {settings : ReassemblerSettings}
include htight hcapacity hwidth hspread

/-- What comes in and what is in the window lie close together. -/
theorem exists_base {earlier : List Delivery} {delivery : Delivery}
    (hinitial : earlier ++ [delivery] <+: deliveriesOf wire order) {labels : List (Option Nat)}
    {reports : List ReassemblerReport} {reassembler : Reassembler}
    (hstands : (stream.reception _ hcrossing.received).Stands settings earlier.length labels reports
      reassembler) :
    ∃ base, ∀ index ∈ delivery.index ::
        Delivery.bufferedIndices (deliveriesOf wire order) reassembler.window,
      base ≤ index ∧ index < base + 8191 := by
  have hearlier : earlier <+: deliveriesOf wire order :=
    (List.prefix_append earlier [delivery]).trans hinitial
  have hindices : earlier.map Delivery.index ++ [delivery.index] <+: order := by
    have hmapped := hinitial.map Delivery.index
    rwa [List.map_append, map_index_deliveriesOf] at hmapped
  obtain ⟨start, -, hthere, hbound⟩ := hcrossing.mixed.exists_start hindices
  have hnew : start ≤ delivery.index := by
    by_contra hbehind
    have hboth := hcrossing.nodup_order.sublist hindices.sublist
    exact (List.nodup_append'.1 hboth).2.2 (hthere _ (Nat.zero_le _) (Nat.lt_of_not_le hbehind))
      (List.mem_singleton_self _)
  refine ⟨start - (width ⌈/⌉ capacity + 1), fun index hmem => ?_⟩
  rcases List.mem_cons.1 hmem with rfl | hbuffered
  · have hnear := hbound _ (List.mem_append_right _ (List.mem_singleton_self delivery.index))
    omega
  · obtain ⟨entry, hentry, hplace⟩ := List.mem_filterMap.1 hbuffered
    obtain ⟨other, hother, rfl⟩ := Option.map_eq_some_iff.1 hplace
    obtain ⟨hlawful, hle⟩ := hstands.lawful entry hentry
    have hpositive := hlawful.arrives.1
    -- The entry has arrived before, so it is not too far ahead.
    have hmember : other ∈ earlier := by
      obtain ⟨later, hlater⟩ := hearlier
      rw [← hlater, List.getElem?_append_left (by omega)] at hother
      exact List.mem_of_getElem? hother
    have hnear := hbound _ (List.mem_append_left _ (List.mem_map_of_mem hmember))
    -- It waits for a segment that is still to come, so it is not too far behind.
    obtain ⟨number, hnumber, htouches, hincomplete⟩ :=
      hstands.exists_incomplete hcrossing.not_damaged hentry
    have hindex : (stream.reception _ hcrossing.received).index entry.arrival = other.index := by
      have hsame := Delivery.indexAt_eq hother
      rwa [Nat.sub_add_cancel hpositive] at hsame
    rw [hindex] at htouches
    obtain ⟨awaited, hawaited, hmissing⟩ := hcrossing.exists_missing hincomplete
    have hahead : start ≤ awaited := by
      by_contra hbehind
      obtain ⟨there, hthere', hsame⟩ :=
        List.mem_map.1 (hthere awaited (Nat.zero_le _) (Nat.lt_of_not_le hbehind))
      exact hmissing ((hcrossing.received.arrivedBy_iff hearlier).2 ⟨there, hthere', hsame⟩)
    have hclose := htight.le_add_of_touches hcrossing.exhausted hcapacity hwidth hnumber htouches
      hawaited
    omega

/-- **The way across.** All packets are handed out, no segment is given up, and none is left. -/
theorem deliverAll (hstall : settings.stallTimeout = none) (hbound : 8191 ≤ settings.windowBound) :
    let outcome := (Reassembler.start settings).deliverAll (deliveriesOf wire order)
    (∀ value ∈ outcome.value, ∃ count, value = .ok count) ∧
      ((deliveredTables outcome.reports).map PieceTable.bytes).Perm
        (stream.packets.map Packet.byteList) ∧
      (∀ segment, .dropped segment ∉ outcome.reports) ∧ outcome.state.window = [] := by
  intro outcome
  have hbound' : sequenceSpace ≤ settings.windowBound + 1 := by
    simp only [sequenceSpace]
    omega
  obtain ⟨hvalues, labels, hstands⟩ := hcrossing.received.deliverAll_of_close
    hcrossing.nodup_indices (fun _ _ hinitial _ hearlier =>
      hcrossing.exists_base htight hcapacity hwidth hspread hinitial hearlier)
    hstall hbound' (List.prefix_refl _)
  have hsound := hcrossing.not_damaged
  refine ⟨hvalues, ?_, fun segment hdropped => hsound (hstands.damaged ⟨segment, hdropped⟩), ?_⟩
  · have hperm : ((deliveredTables outcome.reports).map PieceTable.bytes).Perm
        ((stream.packets.filter fun _ => true).map Packet.byteList) :=
      hstands.delivered_perm hsound fun number _ _ => iff_of_true rfl (hcrossing.complete number)
    rwa [List.filter_true] at hperm
  · apply List.eq_nil_iff_forall_not_mem.2
    intro entry hentry
    obtain ⟨number, -, -, hincomplete⟩ := hstands.exists_incomplete hsound hentry
    exact hincomplete (hcrossing.complete number)

end Spread

end Crossing

end Simulation

end Ccf
