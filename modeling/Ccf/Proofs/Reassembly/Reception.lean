import Ccf.Proofs.Buffer.GatheredCells
import Ccf.Proofs.Reassembly.Stream

/-!
# Receptions of a stream

A reception says which segments of a stream arrive: the one that arrives under a number has the
sequence number of the segment with some index.  It is intact if it repeats that segment; otherwise
its header and its content may be anything.  Arrivals share no cells, so a cell that is found in a
packet says from which arrival it comes.

A cell of an intact arrival *carries* a place of the line.  Cells that carry a range have the bytes
of that range, and this is all that is needed to recognize a header or the end of a packet.
-/

namespace Ccf

/-- A copy of a segment: its bytes belong to other packets, and its request may differ. -/
structure Segment.Repeats (copy original : Segment) : Prop where
  pfi_eq : copy.header.pfi = original.header.pfi
  offmac_eq : copy.header.offmac = original.header.offmac
  bytes_eq : copy.cells.map Cell.byte = original.cells.map Cell.byte

theorem Segment.Repeats.size_eq {copy original : Segment} (hrepeats : copy.Repeats original) :
    copy.size = original.size := by
  have hlength := congrArg List.length hrepeats.bytes_eq
  rwa [List.length_map, List.length_map, Segment.length_cells, Segment.length_cells] at hlength

/-- What arrives of a stream, by order of arrival; the first arrival has the number 1. -/
structure Reception (stream : Stream) where
  count : Nat
  segment : Nat → Segment
  /-- The index of the segment of the stream whose number an arrival bears. -/
  index : Nat → Nat
  /-- Whether arrivals with the number of a segment repeat it. -/
  intact : Nat → Prop
  index_lt : ∀ {arrival : Nat}, 0 < arrival → arrival ≤ count →
    index arrival < stream.segments.length
  sequence_eq : ∀ {arrival : Nat}, 0 < arrival → arrival ≤ count →
    (segment arrival).sequence.value = index arrival % sequenceSpace
  proper : ∀ {arrival : Nat}, 0 < arrival → arrival ≤ count → (segment arrival).payload.Proper
  nodup : ∀ {arrival : Nat}, 0 < arrival → arrival ≤ count → (segment arrival).cells.Nodup
  disjoint : ∀ {arrival other : Nat}, 0 < arrival → arrival ≤ count → 0 < other →
    other ≤ count → arrival ≠ other → (segment arrival).cells.Disjoint (segment other).cells
  repeats : ∀ {arrival : Nat}, 0 < arrival → arrival ≤ count → intact (index arrival) →
    ∀ original, stream.segments[index arrival]? = some original →
      (segment arrival).Repeats original

namespace Reception

variable {stream : Stream} (reception : Reception stream)

def Arrives (arrival : Nat) : Prop := 0 < arrival ∧ arrival ≤ reception.count

/-- A cell is that of an intact arrival which has the byte at a place of the line. -/
def Carries (place : Nat) (cell : Cell) : Prop :=
  ∃ arrival, reception.Arrives arrival ∧ reception.intact (reception.index arrival) ∧
    stream.cut (reception.index arrival) ≤ place ∧
    (reception.segment arrival).cells[place - stream.cut (reception.index arrival)]? = some cell

/-- Cells carry a range of places, in order. -/
def CarriesRange (first last : Nat) (cells : List Cell) : Prop :=
  List.Forall₂ reception.Carries (List.range' first (last - first)) cells

variable {reception}

theorem Arrives.original {arrival : Nat} (harrives : reception.Arrives arrival) :
    ∃ original, stream.segments[reception.index arrival]? = some original :=
  ⟨_, List.getElem?_eq_getElem (reception.index_lt harrives.1 harrives.2)⟩

/-- The range of an intact arrival. -/
theorem Arrives.cut_succ {arrival : Nat} (harrives : reception.Arrives arrival)
    (hintact : reception.intact (reception.index arrival)) :
    stream.cut (reception.index arrival + 1) =
      stream.cut (reception.index arrival) + (reception.segment arrival).size := by
  obtain ⟨original, horiginal⟩ := harrives.original
  rw [Stream.cut_succ horiginal,
    (reception.repeats harrives.1 harrives.2 hintact original horiginal).size_eq]

/-- A cell occurs in one arrival only. -/
theorem arrival_unique {arrival other : Nat} {cell : Cell} (harrives : reception.Arrives arrival)
    (hother : reception.Arrives other) (hcell : cell ∈ (reception.segment arrival).cells)
    (hcell' : cell ∈ (reception.segment other).cells) : arrival = other := by
  by_contra hne
  exact reception.disjoint harrives.1 harrives.2 hother.1 hother.2 hne hcell hcell'

/-- A cell carries one place only. -/
theorem Carries.place_unique {place other : Nat} {cell : Cell}
    (hcarries : reception.Carries place cell) (hother : reception.Carries other cell) :
    place = other := by
  obtain ⟨arrival, harrives, -, hlow, hcell⟩ := hcarries
  obtain ⟨arrival', harrives', -, hlow', hcell'⟩ := hother
  have hsame := arrival_unique harrives harrives' (List.mem_of_getElem? hcell)
    (List.mem_of_getElem? hcell')
  subst hsame
  have hnodup := reception.nodup harrives.1 harrives.2
  obtain ⟨hbound, hread⟩ := List.getElem?_eq_some_iff.1 hcell
  obtain ⟨hbound', hread'⟩ := List.getElem?_eq_some_iff.1 hcell'
  have hindex := (List.Nodup.getElem_inj_iff hnodup).1 (hread.trans hread'.symm)
  omega

/-- A cell has the byte at the place that it carries. -/
theorem Carries.byte_eq {place : Nat} {cell : Cell} (hcarries : reception.Carries place cell) :
    cell.byte = stream.byteAt place := by
  obtain ⟨arrival, harrives, hintact, hlow, hcell⟩ := hcarries
  obtain ⟨original, horiginal⟩ := harrives.original
  have hrepeats := reception.repeats harrives.1 harrives.2 hintact original horiginal
  obtain ⟨hbound, -⟩ := List.getElem?_eq_some_iff.1 hcell
  rw [Segment.length_cells, hrepeats.size_eq] at hbound
  have hread := Stream.segment_getElem? horiginal hbound
  rw [Nat.add_sub_cancel' hlow] at hread
  have hbytes := congrArg (fun bytes => bytes[place - stream.cut (reception.index arrival)]?)
    hrepeats.bytes_eq
  simp only [List.getElem?_map, hcell, hread, Option.map_some] at hbytes
  rw [Stream.byteAt, ← hbytes, Option.getD_some]

theorem CarriesRange.length_eq {first last : Nat} {cells : List Cell}
    (hrange : reception.CarriesRange first last cells) : cells.length = last - first := by
  rw [← List.Forall₂.length_eq hrange, List.length_range']

/-- The bytes of cells that carry a range. -/
theorem CarriesRange.map_byte {first last : Nat} {cells : List Cell}
    (hrange : reception.CarriesRange first last cells) :
    cells.map Cell.byte = (List.range' first (last - first)).map stream.byteAt := by
  rw [CarriesRange] at hrange
  generalize List.range' first (last - first) = places at hrange ⊢
  induction hrange with
  | nil => rfl
  | cons hcarries _ ih => rw [List.map_cons, List.map_cons, hcarries.byte_eq, ih]

theorem CarriesRange.append {first middle last : Nat} {cells more : List Cell}
    (hfirst : first ≤ middle) (hlast : middle ≤ last)
    (hrange : reception.CarriesRange first middle cells)
    (hmore : reception.CarriesRange middle last more) :
    reception.CarriesRange first last (cells ++ more) := by
  have hsplit : List.range' first (last - first) =
      List.range' first (middle - first) ++ List.range' middle (last - middle) := by
    have happend := List.range'_append_1 (s := first) (m := middle - first) (n := last - middle)
    rw [Nat.add_sub_cancel' hfirst] at happend
    rw [happend]
    congr 1
    omega
  rw [CarriesRange, hsplit]
  exact List.rel_append hrange hmore

/-- A part of an intact arrival carries its places. -/
theorem carriesRange_slice {arrival first last : Nat} (harrives : reception.Arrives arrival)
    (hintact : reception.intact (reception.index arrival)) (hle : first ≤ last)
    (hlast : last ≤ (reception.segment arrival).size) :
    reception.CarriesRange (stream.cut (reception.index arrival) + first)
      (stream.cut (reception.index arrival) + last)
      (((reception.segment arrival).cells.take last).drop first) := by
  have hlength : (((reception.segment arrival).cells.take last).drop first).length =
      last - first := by
    rw [List.length_drop, List.length_take, Segment.length_cells, Nat.min_eq_left hlast]
  refine List.forall₂_iff_get.2 ⟨?_, ?_⟩
  · rw [hlength, List.length_range']
    omega
  · intro place hplace hcell
    rw [hlength] at hcell
    refine ⟨arrival, harrives, hintact, ?_, ?_⟩
    · simp only [List.get_eq_getElem, List.getElem_range']
      omega
    · simp only [List.get_eq_getElem, List.getElem_range', List.getElem_drop, List.getElem_take]
      rw [List.getElem?_eq_some_iff]
      refine ⟨?_, ?_⟩
      · rw [Segment.length_cells]
        omega
      · congr 1
        omega

theorem CarriesRange.of_mem {first last : Nat} {cells : List Cell}
    (hrange : reception.CarriesRange first last cells) {cell : Cell} (hcell : cell ∈ cells) :
    ∃ place, first ≤ place ∧ place < last ∧ reception.Carries place cell := by
  obtain ⟨index, hindex, rfl⟩ := List.getElem_of_mem hcell
  have hlength := hrange.length_eq
  have hplace : index < (List.range' first (last - first)).length := by
    rw [List.length_range']
    omega
  have hcarries := (List.forall₂_iff_get.1 hrange).2 index hplace hindex
  simp only [List.get_eq_getElem, List.getElem_range'] at hcarries
  exact ⟨_, by omega, by omega, hcarries⟩

theorem CarriesRange.take {first middle last : Nat} {cells : List Cell}
    (hmiddle : middle ≤ last) (hrange : reception.CarriesRange first last cells) :
    reception.CarriesRange first middle (cells.take (middle - first)) := by
  have hplaces : List.range' first (middle - first) =
      (List.range' first (last - first)).take (middle - first) := by
    rw [List.take_range'_of_length_ge (by omega)]
  rw [CarriesRange, hplaces]
  exact List.forall₂_take _ hrange

/-- Cells that carry the line from a packet's start on complete the packet once they reach its
end. -/
theorem CarriesRange.completeSize?_eq {content : Gathering} (hcontent : content.Proper)
    {number last : Nat} {packet : Packet} (hpacket : stream.packets[number]? = some packet)
    (hlast : stream.origin number ≤ last)
    (hrange : reception.CarriesRange (stream.origin number) last content.cells) :
    content.completeSize? =
      if stream.origin (number + 1) ≤ last then some packet.size else none := by
  have hsize := hrange.length_eq
  rw [Gathering.length_cells] at hsize
  have hnext := Stream.origin_succ hpacket
  have hmac := stream.mac packet (List.mem_of_getElem? hpacket)
  have hheader := hmac.le_size
  by_cases hshort : content.size < MacHeader.wireSize
  · rw [Gathering.completeSize?_of_short hshort, if_neg (by omega)]
  · obtain ⟨header, hinitial, hannounced⟩ := hmac.exists_header
    have hbytes : header.bytes <+: content.cells.map Cell.byte := by
      rw [← Stream.map_byteAt_packet hpacket] at hinitial
      rw [hrange.map_byte, ← hsize]
      have htake := List.prefix_iff_eq_take.1 hinitial
      rw [MacHeader.length_bytes, ← List.map_take, List.take_range'_of_length_ge hheader] at htake
      rw [htake, ← List.take_range'_of_length_ge (Nat.le_of_not_lt hshort), List.map_take]
      exact List.take_prefix _ _
    rw [Gathering.completeSize?_of_header hcontent hbytes, hannounced, hsize]
    by_cases hreach : stream.origin (number + 1) ≤ last
    · rw [if_pos hreach, if_pos (by omega)]
    · rw [if_neg hreach, if_neg (by omega)]

/-- A table shows a packet if its cells carry the range of the packet. -/
structure Shows (reception : Reception stream) (number : Nat) (table : PieceTable) : Prop where
  proper : table.Proper
  range : reception.CarriesRange (stream.origin number) (stream.origin (number + 1)) table.cells

theorem Shows.bytes_eq {number : Nat} {table : PieceTable} {packet : Packet}
    (hpacket : stream.packets[number]? = some packet) (hshows : Shows reception number table) :
    table.bytes = packet.byteList := by
  have hnext := Stream.origin_succ hpacket
  calc table.bytes
      = table.cells.map Cell.byte := hshows.proper.bytes_eq
    _ = (List.range' (stream.origin number) packet.size).map stream.byteAt := by
        rw [hshows.range.map_byte, hnext, Nat.add_sub_cancel_left]
    _ = packet.byteList := Stream.map_byteAt_packet hpacket

/-- What is handed out of gathered cells that carry a packet and perhaps more. -/
theorem shows_truncate {content : Gathering} (hcontent : content.Proper) {number last : Nat}
    {packet : Packet} (hpacket : stream.packets[number]? = some packet)
    (hlast : stream.origin (number + 1) ≤ last)
    (hrange : reception.CarriesRange (stream.origin number) last content.cells) :
    Shows reception number ((content.table .macHeader).truncate packet.size) where
  proper := Pieces.Proper.take (hcontent.table .macHeader) packet.size
  range := by
    have hnext := Stream.origin_succ hpacket
    have htaken := hrange.take hlast
    rwa [hnext, Nat.add_sub_cancel_left, ← hnext, ← Gathering.cells_table content .macHeader,
      ← PieceTable.cells_truncate] at htaken

/-- Cells carry the range of one packet at most. -/
theorem CarriesRange.packet_unique {number other : Nat} {cells : List Cell}
    (hnumber : number < stream.packets.length)
    (hrange : reception.CarriesRange (stream.origin number) (stream.origin (number + 1)) cells)
    (hother : reception.CarriesRange (stream.origin other) (stream.origin (other + 1)) cells) :
    number = other := by
  have hnext := Stream.origin_lt hnumber (Nat.lt_add_one number)
  have hlength := hrange.length_eq
  obtain ⟨cell, hcell⟩ := List.exists_mem_of_length_pos (l := cells) (by omega)
  obtain ⟨place, hlow, hhigh, hcarries⟩ := hrange.of_mem hcell
  obtain ⟨place', hlow', hhigh', hcarries'⟩ := hother.of_mem hcell
  have hsame := hcarries.place_unique hcarries'
  subst hsame
  exact Stream.packet_unique hlow hhigh hlow' hhigh'

end Reception

end Ccf
