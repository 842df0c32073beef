import Ccf.Proofs.Reassembly.Disposal

/-!
# Where the bytes of a packet come from

A packet that is handed out is put together from parts, each a stretch of the content of one
segment.  Either it is one part, at or after a packet start; or it begins at or after a packet start
and takes the rest of that segment, then all of the segments in between, in none of which a packet
starts, then the front of the last one, no further than to a packet start in it.  The numbers of the
segments follow one another.
-/

namespace Ccf

/-- A stretch of the content of a segment, with the place of the segment in the order of
arrival. -/
structure Part where
  arrival : Nat
  segment : Segment
  first : Nat
  /-- The position after the last one. -/
  last : Nat

namespace Part

def label (part : Part) : Segment × Nat := (part.segment, part.arrival)

def cells (part : Part) : List Cell := (part.segment.cells.take part.last).drop part.first

def bytes (part : Part) : List UInt8 := (part.segment.content.take part.last).drop part.first

/-- The byte positions of the part, with the arrival that they are positions of. -/
def places (part : Part) : List (Nat × Nat) :=
  (List.range' part.first (part.last - part.first)).map (Prod.mk part.arrival)

/-- Some bytes of a segment at or after its packet start. -/
structure AfterStart (part : Part) : Prop where
  starts : part.segment.header.pfi = true
  start_le : part.segment.header.offmac.toNat ≤ part.first
  nonempty : part.first < part.last
  last_le : part.last ≤ part.segment.size

structure IsWhole (part : Part) : Prop where
  starts : part.segment.header.pfi = false
  first_eq : part.first = 0
  last_eq : part.last = part.segment.size

/-- Some bytes at the front of a segment, none after a packet start. -/
structure IsFront (part : Part) : Prop where
  first_eq : part.first = 0
  nonempty : 0 < part.last
  last_le : part.last ≤ part.segment.size
  last_le_start : part.segment.header.pfi = true →
    part.last ≤ part.segment.header.offmac.toNat

/-- The number of the part's segment is that of the previous part's or the next one. -/
def Follows (previous part : Part) : Prop :=
  part.segment.sequence = previous.segment.sequence ∨
    part.segment.sequence = previous.segment.sequence.next

/-- How the parts of a packet lie in their segments. -/
inductive Laid : List Part → Prop
  /-- Within one segment. -/
  | within {part : Part} (hpart : part.AfterStart) : Laid [part]
  /-- Across segments. -/
  | across {opening closing : Part} {between : List Part} (hopening : opening.AfterStart)
      (hend : opening.last = opening.segment.size) (hbetween : ∀ part ∈ between, part.IsWhole)
      (hclosing : closing.IsFront)
      (hfollows : List.IsChain Follows (opening :: between ++ [closing])) :
      Laid (opening :: between ++ [closing])

theorem mem_places {part : Part} {place : Nat × Nat} :
    place ∈ part.places ↔
      place.1 = part.arrival ∧ part.first ≤ place.2 ∧ place.2 < part.last := by
  cases place
  simp only [places, List.mem_map, List.mem_range'_1, Prod.mk.injEq]
  constructor
  · rintro ⟨position, ⟨hfirst, hlast⟩, rfl, rfl⟩
    exact ⟨rfl, hfirst, by omega⟩
  · rintro ⟨harrival, hfirst, hlast⟩
    exact ⟨_, ⟨hfirst, by omega⟩, harrival.symm, rfl⟩

theorem nodup_places (part : Part) : part.places.Nodup :=
  List.Nodup.map (fun _ _ heq => (Prod.mk.inj heq).2) List.nodup_range'

/-- Parts of different arrivals have different places. -/
theorem nodup_flatMap_places {parts : List Part}
    (hparts : (parts.map Part.arrival).Nodup) : (parts.flatMap Part.places).Nodup := by
  rw [List.nodup_flatMap]
  refine ⟨fun part _ => part.nodup_places, ?_⟩
  refine (List.pairwise_map.1 hparts).imp fun {part other} hne place hplace hother => hne ?_
  exact (mem_places.1 hplace).1.symm.trans (mem_places.1 hother).1

theorem bytes_eq {part : Part} (hproper : part.segment.payload.Proper) :
    part.bytes = part.cells.map Cell.byte := by
  rw [bytes, cells, Segment.content, hproper.bytes_eq, ← List.map_take, ← List.map_drop,
    Segment.cells]

end Part

namespace PieceTable

/-- The table holds one MAC packet: its bytes are a header, in which the length of the content is
the third and fourth byte, and that many bytes after it. -/
def IsMacPacket (table : PieceTable) : Prop :=
  ∃ (first second high low : UInt8) (content : List UInt8),
    table.bytes = first :: second :: high :: low :: content ∧
    content.length = 256 * high.toNat + low.toNat ∧
    table.size = 4 + (256 * high.toNat + low.toNat)

/-- The table is a MAC packet put together from parts of labelled segments. -/
structure MadeOf (labels : List (Segment × Nat)) (table : PieceTable) (parts : List Part) :
    Prop where
  isMacPacket : table.IsMacPacket
  laid : Part.Laid parts
  labelled : ∀ part ∈ parts, part.label ∈ labels
  cells_eq : table.cells = parts.flatMap Part.cells
  bytes_eq : (∀ part ∈ parts, part.segment.payload.Proper) →
    table.bytes = parts.flatMap Part.bytes

theorem MadeOf.mono {labels more : List (Segment × Nat)} {table : PieceTable}
    {parts : List Part} (hmade : table.MadeOf labels parts) (hsubset : labels ⊆ more) :
    table.MadeOf more parts where
  isMacPacket := hmade.isMacPacket
  laid := hmade.laid
  labelled part hpart := hsubset (hmade.labelled part hpart)
  cells_eq := hmade.cells_eq
  bytes_eq := hmade.bytes_eq

theorem bytes_of_cells_eq {table : PieceTable} (htable : table.Proper) {parts : List Part}
    (hcells : table.cells = parts.flatMap Part.cells)
    (hparts : ∀ part ∈ parts, part.segment.payload.Proper) :
    table.bytes = parts.flatMap Part.bytes := by
  rw [htable.bytes_eq, hcells, List.map_flatMap]
  exact List.flatMap_congr fun part hpart => (Part.bytes_eq (hparts part hpart)).symm

end PieceTable

namespace Walk

/-- What is handed out for gathered content that is complete is one packet. -/
theorem isMacPacket_handedOut {content : Gathering} {block : Nat} (hproper : content.Proper)
    (hcomplete : content.completeSize? = some block) :
    (handedOut content block).IsMacPacket := by
  obtain ⟨hheader, hfits⟩ := Gathering.completeSize?_bounds hcomplete
  have hbytes : (handedOut content block).bytes = content.bytes.take block := by
    rw [(proper_handedOut hproper block).bytes_eq, cells_handedOut, List.map_take,
      hproper.bytes_eq]
  have hsize : (handedOut content block).size = block := by
    rw [← PieceTable.length_cells, cells_handedOut, List.length_take, Gathering.length_cells,
      Nat.min_eq_left hfits]
  have hlength : content.bytes.length = content.size := by
    rw [hproper.bytes_eq, List.length_map, Gathering.length_cells]
  unfold Gathering.completeSize? at hcomplete
  rw [content.lead_eq, ← Gathering.bytes] at hcomplete
  rw [MacHeader.wireSize] at hheader hcomplete
  obtain ⟨first, second, high, low, rest, hcontent⟩ :
      ∃ first second high low rest, content.bytes = first :: second :: high :: low :: rest := by
    have hlong : 4 ≤ content.bytes.length := by omega
    generalize content.bytes = bytes at hlong
    rcases bytes with _ | ⟨first, _ | ⟨second, _ | ⟨high, _ | ⟨low, rest⟩⟩⟩⟩
    · exact absurd hlong (by simp)
    · exact absurd hlong (by simp)
    · exact absurd hlong (by simp)
    · exact absurd hlong (by simp)
    · exact ⟨first, second, high, low, rest, rfl⟩
  simp only [hcontent, List.take_succ_cons, List.take_zero, MacHeader.decode,
    MacHeader.packetSize, MacHeader.wireSize, Word.toNat_ofBytes, Option.ite_none_right_eq_some,
    Option.some.injEq] at hcomplete
  simp only [hcontent, List.length_cons] at hlength
  refine ⟨first, second, high, low, rest.take (block - 4), ?_, ?_, by omega⟩
  · obtain ⟨more, rfl⟩ := Nat.exists_eq_add_of_le' hheader
    rw [hbytes, hcontent]
    simp
  · rw [List.length_take]
    omega

end Walk

end Ccf
