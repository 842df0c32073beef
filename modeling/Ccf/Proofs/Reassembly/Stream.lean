import Ccf.Proofs.Segmenter.Ledger
import Ccf.Proofs.Wire.SegmentFrame
import Mathlib.Data.List.Flatten
import Mathlib.Data.List.Induction

/-!
# Streams

A stream is a line of packets whose first part has been emitted in segments.  Packets and segments
are two divisions of the same line of cells: `origin` is where a packet begins on it, `cut` where a
segment does.  Everything that a walk finds out about a segment it finds out from bytes and from the
two fields that note a packet start; this module says what they are in terms of the two divisions.
-/

namespace Ccf

namespace Blocks

variable {α : Type*}

/-- Where in the concatenation the block with an index begins. -/
def boundary (blocks : List (List α)) (index : Nat) : Nat := (blocks.take index).flatten.length

theorem boundary_length (blocks : List (List α)) :
    boundary blocks blocks.length = blocks.flatten.length := by
  rw [boundary, List.take_length]

theorem boundary_succ {blocks : List (List α)} {index : Nat} {block : List α}
    (hblock : blocks[index]? = some block) :
    boundary blocks (index + 1) = boundary blocks index + block.length := by
  rw [boundary, List.take_add_one, hblock, List.flatten_append, List.length_append]
  simp [boundary]

theorem boundary_mono (blocks : List (List α)) {index later : Nat} (hle : index ≤ later) :
    boundary blocks index ≤ boundary blocks later := by
  have hinitial : blocks.take index <+: blocks.take later := List.take_prefix_take_left hle
  obtain ⟨rest, hrest⟩ := hinitial
  rw [boundary, boundary, ← hrest, List.flatten_append, List.length_append]
  exact Nat.le_add_right _ _

/-- The concatenation, read block by block. -/
theorem getElem?_flatten {blocks : List (List α)} {index : Nat} {block : List α}
    (hblock : blocks[index]? = some block) {place : Nat} (hplace : place < block.length) :
    blocks.flatten[boundary blocks index + place]? = block[place]? := by
  obtain ⟨hindex, rfl⟩ := List.getElem?_eq_some_iff.1 hblock
  have hsplit : blocks.flatten = (blocks.take index).flatten ++
      (blocks[index] ++ (blocks.drop (index + 1)).flatten) := by
    rw [← List.flatten_cons, ← List.drop_eq_getElem_cons hindex, ← List.flatten_append,
      List.take_append_drop]
  calc blocks.flatten[boundary blocks index + place]?
      = (blocks[index] ++ (blocks.drop (index + 1)).flatten)[place]? := by
        rw [hsplit, boundary, List.getElem?_append_right (Nat.le_add_right _ _),
          Nat.add_sub_cancel_left]
    _ = blocks[index][place]? := List.getElem?_append_left hplace

/-- Every place of the concatenation is in a block. -/
theorem exists_block {blocks : List (List α)} {place : Nat}
    (hplace : place < blocks.flatten.length) :
    ∃ index, index < blocks.length ∧ boundary blocks index ≤ place ∧
      place < boundary blocks (index + 1) := by
  induction blocks using List.reverseRecOn with
  | nil => simp at hplace
  | append_singleton blocks block ih =>
    have hearlier (index : Nat) (hindex : index ≤ blocks.length) :
        boundary (blocks ++ [block]) index = boundary blocks index := by
      rw [boundary, boundary, List.take_append_of_le_length hindex]
    by_cases hold : place < blocks.flatten.length
    · obtain ⟨index, hindex, hlow, hhigh⟩ := ih hold
      refine ⟨index, by simp; omega, ?_, ?_⟩
      · rwa [hearlier index (Nat.le_of_lt hindex)]
      · rwa [hearlier (index + 1) hindex]
    · refine ⟨blocks.length, by simp, ?_, ?_⟩
      · rw [hearlier _ (Nat.le_refl _), boundary_length]
        omega
      · have hlast := boundary_length (blocks ++ [block])
        rw [List.length_append, List.length_singleton] at hlast
        rwa [hlast]

end Blocks

namespace Packet

def IsMac (packet : Packet) : Prop :=
  ∃ id sequence content, mac id sequence content = .ok packet

/-- The bytes of a MAC packet begin with a header that announces its size. -/
theorem IsMac.exists_header {packet : Packet} (hmac : packet.IsMac) :
    ∃ header : MacHeader, header.bytes <+: packet.byteList ∧ header.packetSize = packet.size := by
  obtain ⟨id, sequence, content, hbuilt⟩ := hmac
  unfold mac at hbuilt
  split at hbuilt
  · cases hbuilt
  · rename_i header hheader
    cases hbuilt
    unfold MacHeader.ofContentSize at hheader
    split at hheader
    · cases hheader
    · rename_i hsize
      cases hheader
      simp only [MacHeader.contentMax] at hsize
      refine ⟨{ sequence := sequence, length := UInt16.ofNat content.length },
        ⟨content, by simp [byteList]⟩, ?_⟩
      simp only [MacHeader.packetSize, size, List.size_toArray, List.length_append,
        MacHeader.length_bytes, UInt16.toNat_ofNat']
      omega

theorem IsMac.le_size {packet : Packet} (hmac : packet.IsMac) :
    MacHeader.wireSize ≤ packet.size := by
  obtain ⟨header, -, hsize⟩ := hmac.exists_header
  rw [← hsize]
  exact header.wireSize_le_packetSize

end Packet

/-- A line of MAC packets, the first part of which has been emitted in segments. -/
structure Stream where
  packets : List Packet
  segments : List Segment
  cluster : UInt8
  mac : ∀ packet ∈ packets, packet.IsMac
  nodup : packets.Nodup
  cluster_le : cluster.toNat ≤ SegmentHeader.clusterMax
  emitted : EmittedInOrder cluster segments
  cells_prefix : segments.flatMap Segment.cells <+: packets.flatMap Packet.cells

namespace Stream

def line (stream : Stream) : List Cell := stream.packets.flatMap Packet.cells

def origin (stream : Stream) (number : Nat) : Nat :=
  Blocks.boundary (stream.packets.map Packet.cells) number

def cut (stream : Stream) (index : Nat) : Nat :=
  Blocks.boundary (stream.segments.map Segment.cells) index

def byteAt (stream : Stream) (place : Nat) : UInt8 := (stream.line[place]?.map Cell.byte).getD 0

variable {stream : Stream}

/-! ## The division into packets -/

theorem origin_length : stream.origin stream.packets.length = stream.line.length := by
  have hlength := Blocks.boundary_length (stream.packets.map Packet.cells)
  rwa [List.length_map] at hlength

theorem origin_succ {number : Nat} {packet : Packet}
    (hpacket : stream.packets[number]? = some packet) :
    stream.origin (number + 1) = stream.origin number + packet.size := by
  have hblock : (stream.packets.map Packet.cells)[number]? = some packet.cells := by
    rw [List.getElem?_map, hpacket, Option.map_some]
  rw [origin, Blocks.boundary_succ hblock, Packet.length_cells, origin]

theorem origin_mono {number later : Nat} (hle : number ≤ later) :
    stream.origin number ≤ stream.origin later :=
  Blocks.boundary_mono _ hle

theorem origin_add_le {number later : Nat} (hnumber : number < stream.packets.length)
    (hlt : number < later) :
    stream.origin number + MacHeader.wireSize ≤ stream.origin later := by
  have hpacket := List.getElem?_eq_getElem hnumber
  have hsize := (stream.mac _ (List.getElem_mem hnumber)).le_size
  have hnext := origin_succ hpacket
  have hmono := stream.origin_mono (Nat.succ_le_of_lt hlt)
  simp only [Nat.succ_eq_add_one] at hmono
  omega

theorem origin_lt {number later : Nat} (hnumber : number < stream.packets.length)
    (hlt : number < later) : stream.origin number < stream.origin later := by
  have hle := origin_add_le hnumber hlt
  simp only [MacHeader.wireSize] at hle
  omega

theorem lt_of_origin_lt {number other : Nat}
    (hlt : stream.origin number < stream.origin other) : number < other := by
  by_contra hge
  have hmono := stream.origin_mono (Nat.le_of_not_lt hge)
  omega

theorem lt_of_origin_le {number other : Nat} (hnumber : number < stream.packets.length)
    (hle : stream.origin number ≤ stream.origin other) (hne : other ≠ number) :
    number < other := by
  by_contra hge
  have hlt := origin_lt (Nat.lt_of_le_of_lt (Nat.le_of_not_lt hge) hnumber)
    (Nat.lt_of_le_of_ne (Nat.le_of_not_lt hge) hne)
  omega

/-- Packets whose ranges meet are the same. -/
theorem packet_unique {number other place : Nat} (hlow : stream.origin number ≤ place)
    (hhigh : place < stream.origin (number + 1)) (hlow' : stream.origin other ≤ place)
    (hhigh' : place < stream.origin (other + 1)) : number = other := by
  have hfirst : number < other + 1 := lt_of_origin_lt (Nat.lt_of_le_of_lt hlow hhigh')
  have hsecond : other < number + 1 := lt_of_origin_lt (Nat.lt_of_le_of_lt hlow' hhigh)
  omega

theorem exists_packet {place : Nat} (hplace : place < stream.line.length) :
    ∃ number, number < stream.packets.length ∧ stream.origin number ≤ place ∧
      place < stream.origin (number + 1) := by
  have hblocks : place < (stream.packets.map Packet.cells).flatten.length := hplace
  obtain ⟨number, hnumber, hrange⟩ := Blocks.exists_block hblocks
  exact ⟨number, by simpa using hnumber, hrange⟩

/-- The cells of a packet, read off the line. -/
theorem line_getElem? {number : Nat} {packet : Packet}
    (hpacket : stream.packets[number]? = some packet) {place : Nat} (hplace : place < packet.size) :
    stream.line[stream.origin number + place]? =
      some { owner := packet, position := place } := by
  have hblock : (stream.packets.map Packet.cells)[number]? = some packet.cells := by
    rw [List.getElem?_map, hpacket, Option.map_some]
  have hcells : place < packet.cells.length := by rwa [Packet.length_cells]
  have hflatten := Blocks.getElem?_flatten hblock hcells
  rw [line, List.flatMap_def, origin, hflatten]
  simp [Packet.cells, hplace]

theorem origin_le_length (number : Nat) : stream.origin number ≤ stream.line.length := by
  rcases Nat.le_total number stream.packets.length with hle | hge
  · rw [← origin_length]
    exact stream.origin_mono hle
  · have hall : stream.origin number = stream.origin stream.packets.length := by
      simp [origin, Blocks.boundary, List.take_of_length_le, hge]
    exact Nat.le_of_eq (hall.trans origin_length)

/-- A cell of the line is the first of its packet exactly where a packet begins. -/
theorem position_eq_zero_iff {place : Nat} {cell : Cell} (hcell : stream.line[place]? = some cell) :
    cell.position = 0 ↔
      ∃ number, number < stream.packets.length ∧ stream.origin number = place := by
  obtain ⟨hplace, -⟩ := List.getElem?_eq_some_iff.1 hcell
  obtain ⟨number, hnumber, hlow, hhigh⟩ := exists_packet hplace
  have hpacket := List.getElem?_eq_getElem hnumber
  have hsucc := origin_succ hpacket
  have hinside : place - stream.origin number < stream.packets[number].size := by omega
  have hread := line_getElem? hpacket hinside
  rw [Nat.add_sub_cancel' hlow, hcell, Option.some.injEq] at hread
  have hposition : cell.position = place - stream.origin number := by rw [hread]
  constructor
  · intro hzero
    exact ⟨number, hnumber, by omega⟩
  · rintro ⟨other, hother, rfl⟩
    have hnext := origin_lt hother (Nat.lt_succ_self other)
    have hsame := packet_unique hlow hhigh (Nat.le_refl _) hnext
    rw [hposition, hsame, Nat.sub_self]

theorem map_byteAt_range' {first count : Nat} (hle : first + count ≤ stream.line.length) :
    (List.range' first count).map stream.byteAt =
      ((stream.line.drop first).take count).map Cell.byte := by
  apply List.ext_getElem?
  intro place
  rw [List.getElem?_map, List.getElem?_map, List.getElem?_take, List.getElem?_drop]
  by_cases hplace : place < count
  · have hrange : (List.range' first count)[place]? = some (first + place) := by
      simp [hplace]
    rw [hrange, if_pos hplace, Option.map_some, byteAt,
      List.getElem?_eq_getElem (Nat.lt_of_lt_of_le (Nat.add_lt_add_left hplace _) hle)]
    simp
  · rw [if_neg hplace, List.getElem?_eq_none (by simpa using hplace)]
    rfl

/-- The bytes of a packet, read off the line. -/
theorem map_byteAt_packet {number : Nat} {packet : Packet}
    (hpacket : stream.packets[number]? = some packet) :
    (List.range' (stream.origin number) packet.size).map stream.byteAt = packet.byteList := by
  have hle := stream.origin_le_length (number + 1)
  rw [origin_succ hpacket] at hle
  rw [map_byteAt_range' hle, Packet.byteList_eq_map_cells]
  congr 1
  apply List.ext_getElem?
  intro place
  rw [List.getElem?_take, List.getElem?_drop]
  by_cases hplace : place < packet.size
  · rw [if_pos hplace, line_getElem? hpacket hplace]
    simp [Packet.cells, hplace]
  · rw [if_neg hplace, List.getElem?_eq_none (by simpa using hplace)]

/-! ## The division into segments -/

theorem cut_succ {index : Nat} {segment : Segment}
    (hsegment : stream.segments[index]? = some segment) :
    stream.cut (index + 1) = stream.cut index + segment.size := by
  have hblock : (stream.segments.map Segment.cells)[index]? = some segment.cells := by
    rw [List.getElem?_map, hsegment, Option.map_some]
  rw [cut, Blocks.boundary_succ hblock, Segment.length_cells, cut]

theorem cut_mono {index later : Nat} (hle : index ≤ later) :
    stream.cut index ≤ stream.cut later :=
  Blocks.boundary_mono _ hle

theorem cut_lt {index later : Nat} (hindex : index < stream.segments.length)
    (hlt : index < later) : stream.cut index < stream.cut later := by
  have hsegment := List.getElem?_eq_getElem hindex
  have hsize := (stream.emitted index _ hsegment).size_pos
  have hnext := cut_succ hsegment
  have hmono := stream.cut_mono (Nat.succ_le_of_lt hlt)
  simp only [Nat.succ_eq_add_one] at hmono
  omega

theorem lt_of_cut_lt {index other : Nat} (hlt : stream.cut index < stream.cut other) :
    index < other := by
  by_contra hge
  have hmono := stream.cut_mono (Nat.le_of_not_lt hge)
  omega

def emittedLength (stream : Stream) : Nat := stream.cut stream.segments.length

theorem emittedLength_eq :
    stream.emittedLength = (stream.segments.flatMap Segment.cells).length := by
  have hlength := Blocks.boundary_length (stream.segments.map Segment.cells)
  rwa [List.length_map] at hlength

theorem cut_le_emittedLength (index : Nat) : stream.cut index ≤ stream.emittedLength := by
  rcases Nat.le_total index stream.segments.length with hle | hge
  · exact stream.cut_mono hle
  · have hall : stream.cut index = stream.cut stream.segments.length := by
      simp [cut, Blocks.boundary, List.take_of_length_le, hge]
    exact Nat.le_of_eq hall

theorem emittedLength_le : stream.emittedLength ≤ stream.line.length := by
  rw [emittedLength_eq]
  exact stream.cells_prefix.length_le

theorem exists_segment {place : Nat} (hplace : place < stream.emittedLength) :
    ∃ index, index < stream.segments.length ∧ stream.cut index ≤ place ∧
      place < stream.cut (index + 1) := by
  have hblocks : place < (stream.segments.map Segment.cells).flatten.length := by
    rwa [emittedLength_eq] at hplace
  obtain ⟨index, hindex, hrange⟩ := Blocks.exists_block hblocks
  exact ⟨index, by simpa using hindex, hrange⟩

/-- The cells of a segment, read off the line. -/
theorem segment_getElem? {index : Nat} {segment : Segment}
    (hsegment : stream.segments[index]? = some segment) {place : Nat}
    (hplace : place < segment.size) :
    segment.cells[place]? = stream.line[stream.cut index + place]? := by
  have hblock : (stream.segments.map Segment.cells)[index]? = some segment.cells := by
    rw [List.getElem?_map, hsegment, Option.map_some]
  have hcells : place < segment.cells.length := by rwa [Segment.length_cells]
  have hflatten := Blocks.getElem?_flatten hblock hcells
  obtain ⟨rest, hrest⟩ := stream.cells_prefix
  have hemitted : stream.cut index + place < (stream.segments.flatMap Segment.cells).length := by
    have hnext := cut_succ hsegment
    have hle := stream.cut_le_emittedLength (index + 1)
    rw [emittedLength_eq] at hle
    omega
  calc segment.cells[place]?
      = (stream.segments.flatMap Segment.cells)[stream.cut index + place]? := by
        rw [List.flatMap_def, cut, hflatten]
    _ = stream.line[stream.cut index + place]? := by
        rw [line, ← hrest, List.getElem?_append_left hemitted]

def StartsIn (stream : Stream) (number index : Nat) : Prop :=
  number < stream.packets.length ∧ stream.cut index ≤ stream.origin number ∧
    stream.origin number < stream.cut (index + 1)

/-- The cells of a segment that begin a packet. -/
theorem startsIn_of_cell {index : Nat} {segment : Segment}
    (hsegment : stream.segments[index]? = some segment) {place : Nat} {cell : Cell}
    (hcell : segment.cells[place]? = some cell) (hposition : cell.position = 0) :
    ∃ number, stream.StartsIn number index ∧ stream.origin number = stream.cut index + place := by
  obtain ⟨hplace, -⟩ := List.getElem?_eq_some_iff.1 hcell
  rw [Segment.length_cells] at hplace
  rw [segment_getElem? hsegment hplace] at hcell
  obtain ⟨number, hnumber, horigin⟩ := (position_eq_zero_iff hcell).1 hposition
  have hnext := cut_succ hsegment
  exact ⟨number, ⟨hnumber, by omega, by omega⟩, horigin⟩

theorem cell_of_startsIn {index number : Nat} {segment : Segment}
    (hsegment : stream.segments[index]? = some segment) (hstarts : stream.StartsIn number index) :
    ∃ cell, segment.cells[stream.origin number - stream.cut index]? = some cell ∧
      cell.position = 0 := by
  obtain ⟨hnumber, hlow, hhigh⟩ := hstarts
  rw [cut_succ hsegment] at hhigh
  have hplace : stream.origin number - stream.cut index < segment.size := by omega
  have hread := segment_getElem? hsegment hplace
  rw [Nat.add_sub_cancel' hlow] at hread
  obtain ⟨cell, hcell⟩ : ∃ cell,
      segment.cells[stream.origin number - stream.cut index]? = some cell :=
    ⟨_, List.getElem?_eq_getElem (by rwa [Segment.length_cells])⟩
  refine ⟨cell, hcell, (position_eq_zero_iff (hread.symm.trans hcell)).2 ⟨number, hnumber, rfl⟩⟩

/-- A header notes a packet start exactly if there is one in the content. -/
theorem pfi_iff {index : Nat} {segment : Segment}
    (hsegment : stream.segments[index]? = some segment) :
    segment.header.pfi = true ↔ ∃ number, stream.StartsIn number index := by
  have hnotes := (stream.emitted index segment hsegment).notes
  rw [hnotes.pfi_eq, firstStart?, List.findIdx?_isSome, List.any_eq_true]
  constructor
  · rintro ⟨cell, hmem, hposition⟩
    obtain ⟨place, hcell⟩ := List.mem_iff_getElem?.1 hmem
    obtain ⟨number, hstarts, -⟩ := startsIn_of_cell hsegment hcell (by simpa using hposition)
    exact ⟨number, hstarts⟩
  · rintro ⟨number, hstarts⟩
    obtain ⟨cell, hcell, hposition⟩ := cell_of_startsIn hsegment hstarts
    exact ⟨cell, List.mem_of_getElem? hcell, by simpa using hposition⟩

/-- The noted offset is that of a packet start. -/
theorem exists_origin_eq {index : Nat} {segment : Segment}
    (hsegment : stream.segments[index]? = some segment) (hpfi : segment.header.pfi = true) :
    ∃ number, stream.StartsIn number index ∧
      stream.origin number = stream.cut index + segment.header.offmac.toNat := by
  have hnotes := (stream.emitted index segment hsegment).notes
  rw [hnotes.pfi_eq] at hpfi
  obtain ⟨place, hfirst⟩ := Option.isSome_iff_exists.1 hpfi
  have hoffset := hnotes.offmac_eq
  rw [hfirst, Option.getD_some] at hoffset
  rw [firstStart?, List.findIdx?_eq_some_iff_getElem] at hfirst
  obtain ⟨hplace, hposition, -⟩ := hfirst
  rw [hoffset]
  exact startsIn_of_cell hsegment (List.getElem?_eq_getElem hplace) (by simpa using hposition)

/-- The noted offset is that of the first packet start. -/
theorem cut_add_offmac_le {index number : Nat} {segment : Segment}
    (hsegment : stream.segments[index]? = some segment) (hstarts : stream.StartsIn number index) :
    stream.cut index + segment.header.offmac.toNat ≤ stream.origin number := by
  have hnotes := (stream.emitted index segment hsegment).notes
  obtain ⟨cell, hcell, hposition⟩ := cell_of_startsIn hsegment hstarts
  have hpfi := (pfi_iff hsegment).2 ⟨number, hstarts⟩
  rw [hnotes.pfi_eq] at hpfi
  obtain ⟨place, hfirst⟩ := Option.isSome_iff_exists.1 hpfi
  have hoffset := hnotes.offmac_eq
  rw [hfirst, Option.getD_some] at hoffset
  rw [firstStart?, List.findIdx?_eq_some_iff_getElem] at hfirst
  obtain ⟨_, _, hearlier⟩ := hfirst
  rw [hoffset]
  obtain ⟨-, hlow, -⟩ := hstarts
  by_contra hgt
  have hbefore := hearlier (stream.origin number - stream.cut index) (by omega)
  obtain ⟨hbound, hread⟩ := List.getElem?_eq_some_iff.1 hcell
  rw [hread] at hbefore
  simp [hposition] at hbefore

theorem nodup_line (stream : Stream) : stream.line.Nodup := Segmenter.nodup_cells stream.nodup

/-- Cells of different segments are different. -/
theorem disjoint_segments {index other : Nat} {segment segment' : Segment}
    (hsegment : stream.segments[index]? = some segment)
    (hsegment' : stream.segments[other]? = some segment') (hne : index ≠ other) :
    segment.cells.Disjoint segment'.cells := by
  intro cell hcell hcell'
  obtain ⟨place, hplace, hread⟩ := List.getElem_of_mem hcell
  obtain ⟨place', hplace', hread'⟩ := List.getElem_of_mem hcell'
  have hsize := hplace
  have hsize' := hplace'
  rw [Segment.length_cells] at hsize hsize'
  have hline := segment_getElem? hsegment hsize
  have hline' := segment_getElem? hsegment' hsize'
  rw [List.getElem?_eq_getElem hplace, hread] at hline
  rw [List.getElem?_eq_getElem hplace', hread'] at hline'
  obtain ⟨hbound, hsame⟩ := List.getElem?_eq_some_iff.1 hline.symm
  obtain ⟨hbound', hsame'⟩ := List.getElem?_eq_some_iff.1 hline'.symm
  have hplaces := (List.Nodup.getElem_inj_iff stream.nodup_line).1 (hsame.trans hsame'.symm)
  have hnext := cut_succ hsegment
  have hnext' := cut_succ hsegment'
  rcases Nat.lt_or_gt_of_ne hne with hlt | hgt
  · have hmono := stream.cut_mono (Nat.succ_le_of_lt hlt)
    simp only [Nat.succ_eq_add_one] at hmono
    omega
  · have hmono := stream.cut_mono (Nat.succ_le_of_lt hgt)
    simp only [Nat.succ_eq_add_one] at hmono
    omega

theorem nodup_segment {index : Nat} {segment : Segment}
    (hsegment : stream.segments[index]? = some segment) : segment.cells.Nodup := by
  have hnodup := stream.nodup_line.sublist stream.cells_prefix.sublist
  exact (List.nodup_flatMap.1 hnodup).1 segment (List.mem_of_getElem? hsegment)

/-- The cells of a segment of a stream belong to its packets. -/
theorem owner_mem {index : Nat} {segment : Segment}
    (hsegment : stream.segments[index]? = some segment) {cell : Cell}
    (hcell : cell ∈ segment.cells) :
    cell.owner ∈ stream.packets ∧ cell ∈ cell.owner.cells := by
  have hemitted : cell ∈ stream.segments.flatMap Segment.cells :=
    List.mem_flatMap.2 ⟨segment, List.mem_of_getElem? hsegment, hcell⟩
  obtain ⟨packet, hpacket, hmember⟩ := List.mem_flatMap.1 (stream.cells_prefix.subset hemitted)
  rw [(Packet.mem_cells.1 hmember).1]
  exact ⟨hpacket, hmember⟩

/-- The cells of a segment are those of its range of the line. -/
theorem mem_cells_iff {index place : Nat} {segment : Segment} {cell : Cell}
    (hsegment : stream.segments[index]? = some segment) (hcell : stream.line[place]? = some cell) :
    cell ∈ segment.cells ↔ stream.cut index ≤ place ∧ place < stream.cut (index + 1) := by
  have hnext := cut_succ hsegment
  constructor
  · intro hmem
    obtain ⟨inner, hinner, hread⟩ := List.getElem_of_mem hmem
    have hsize := hinner
    rw [Segment.length_cells] at hsize
    have hline := segment_getElem? hsegment hsize
    rw [List.getElem?_eq_getElem hinner, hread, ← hcell] at hline
    obtain ⟨hbound, -⟩ := List.getElem?_eq_some_iff.1 hcell
    have hplaces := (List.getElem?_inj hbound stream.nodup_line).1 hline
    omega
  · rintro ⟨hlow, hhigh⟩
    have hinside : place - stream.cut index < segment.size := by omega
    have hline := segment_getElem? hsegment hinside
    rw [Nat.add_sub_cancel' hlow, hcell] at hline
    exact List.mem_of_getElem? hline

/-! ## Streams of a segmenting end -/

/-- The stream of a run of the segmenting end that gives nothing up. -/
def ofRun {settings : SegmenterSettings} {segmenter : Segmenter}
    (hstart : Segmenter.start? settings = .ok segmenter) (calls : List SegmenterCall)
    (hkept : ∀ call ∈ calls, call.isClear = false)
    (hmac : ∀ packet ∈ SegmenterCall.packets calls, packet.IsMac)
    (hpackets : (SegmenterCall.packets calls).Nodup) : Stream :=
  have haccounts := Segmenter.run_start_accounts hstart calls hkept hpackets
  { packets := SegmenterCall.packets calls
    segments := builtSegments (segmenter.run calls).reports
    cluster := (segmenter.run calls).state.settings.cluster
    mac := hmac
    nodup := hpackets
    cluster_le := haccounts.cluster_le
    emitted := haccounts.emitted
    cells_prefix := haccounts.cells_eq ▸ List.prefix_append _ _ }

end Stream

end Ccf
