import Ccf.Proofs.Reassembly.LawfulVisits

/-!
# What entries owe to packets

A packet touches the segments that have some of its bytes.  It is unspoiled if those of them that
arrive are intact.  An entry that touches an unspoiled packet owes it its bytes until they have been
handed out: the cursor says whether it owes a packet that begins in the segment, the count of lead
bytes whether it owes the one that reaches in from before.

While a packet is open, its entries owe their bytes to that packet, apart from the lead of the
oldest one.  If a damaged segment is involved, they owe nothing at all to unspoiled packets: those
touch no damaged segment, and everything from the damage on to the next packet start belongs to a
packet that does.
-/

namespace Ccf

namespace Stream

def Touches (stream : Stream) (index number : Nat) : Prop :=
  stream.cut index < stream.origin (number + 1) ∧ stream.origin number < stream.cut (index + 1)

def Crosses (stream : Stream) (number place : Nat) : Prop :=
  stream.origin number < place ∧ place < stream.origin (number + 1)

variable {stream : Stream}

theorem Crosses.unique {number other place : Nat} (hcrosses : stream.Crosses number place)
    (hother : stream.Crosses other place) : number = other :=
  packet_unique (Nat.le_of_lt hcrosses.1) hcrosses.2 (Nat.le_of_lt hother.1) hother.2

theorem StartsIn.touches {number index : Nat} (hstarts : stream.StartsIn number index) :
    stream.Touches index number :=
  ⟨Nat.lt_of_le_of_lt hstarts.2.1 (origin_lt hstarts.1 (Nat.lt_add_one number)), hstarts.2.2⟩

theorem Crosses.touches {number index : Nat} (hindex : index < stream.segments.length)
    (hcrosses : stream.Crosses number (stream.cut index)) : stream.Touches index number :=
  ⟨hcrosses.2, Nat.lt_trans hcrosses.1 (cut_lt hindex (Nat.lt_add_one index))⟩

/-- A touching packet begins in the segment or reaches into it. -/
theorem Touches.startsIn_or_crosses {number index : Nat} (hnumber : number < stream.packets.length)
    (htouches : stream.Touches index number) :
    stream.StartsIn number index ∨ stream.Crosses number (stream.cut index) := by
  rcases Nat.lt_or_ge (stream.origin number) (stream.cut index) with hlt | hge
  · exact Or.inr ⟨hlt, htouches.1⟩
  · exact Or.inl ⟨hnumber, hge, htouches.2⟩

/-- The segments touched by a packet that begins in one segment and ends in another. -/
theorem Touches.bounds {number index first last : Nat} (htouches : stream.Touches index number)
    (hlow : stream.cut first ≤ stream.origin number)
    (hhigh : stream.origin (number + 1) ≤ stream.cut last) : first ≤ index ∧ index < last := by
  have hfirst : first < index + 1 := lt_of_cut_lt (Nat.lt_of_le_of_lt hlow htouches.2)
  have hlast : index < last := lt_of_cut_lt (Nat.lt_of_lt_of_le htouches.1 hhigh)
  omega

/-- A segment touches a packet exactly if it has cells of it. -/
theorem touches_iff {index number : Nat} {segment : Segment} {packet : Packet}
    (hsegment : stream.segments[index]? = some segment)
    (hpacket : stream.packets[number]? = some packet) :
    stream.Touches index number ↔ ∃ cell ∈ segment.cells, cell.owner = packet := by
  have hnext := cut_succ hsegment
  have hnext' := origin_succ hpacket
  have hsize := (stream.emitted _ _ hsegment).size_pos
  have hsize' := (stream.mac packet (List.mem_of_getElem? hpacket)).le_size
  simp only [MacHeader.wireSize] at hsize'
  constructor
  · rintro ⟨hlow, hhigh⟩
    obtain ⟨place, hplace⟩ : ∃ place,
        place = max (stream.cut index) (stream.origin number) := ⟨_, rfl⟩
    have hinside : place - stream.origin number < packet.size := by omega
    have hline := line_getElem? hpacket hinside
    rw [Nat.add_sub_cancel' (by omega)] at hline
    exact ⟨_, (mem_cells_iff hsegment hline).2 (by omega), rfl⟩
  · rintro ⟨cell, hcell, rfl⟩
    have hmember : cell ∈ stream.segments.flatMap Segment.cells :=
      List.mem_flatMap.2 ⟨segment, List.mem_of_getElem? hsegment, hcell⟩
    obtain ⟨other, -, howned⟩ := List.mem_flatMap.1 (stream.cells_prefix.subset hmember)
    obtain ⟨rfl, hposition⟩ := Packet.mem_cells.1 howned
    have hline := line_getElem? hpacket hposition
    have hrange := (mem_cells_iff hsegment hline).1 hcell
    exact ⟨by omega, by omega⟩

end Stream

namespace Reception

variable {stream : Stream} (reception : Reception stream)

def indexOf (entry : Waiting) : Nat := reception.index entry.arrival

/-- All segments that a packet touches are intact if they arrive. -/
def Unspoiled (number : Nat) : Prop :=
  number < stream.packets.length ∧ ∀ index, index < stream.segments.length →
    stream.Touches index number → reception.intact index

/-- An entry has bytes of a packet that have not been handed out. -/
structure Owes (entry : Waiting) (number : Nat) : Prop where
  touches : stream.Touches (reception.indexOf entry) number
  tail : stream.cut (reception.indexOf entry) ≤ stream.origin number →
    stream.cut (reception.indexOf entry) + entry.next ≤ stream.origin number
  lead : stream.origin number < stream.cut (reception.indexOf entry) →
    entry.startsPacket = true → 0 < entry.lead
  middle : stream.origin number < stream.cut (reception.indexOf entry) →
    entry.startsPacket = false → entry.next = 0

def Owed (entries : List Waiting) (index number : Nat) : Prop :=
  ∃ entry ∈ entries, reception.indexOf entry = index ∧ reception.Owes entry number

/-- An entry owes an unspoiled packet only if that reaches in from before. -/
def FrontOnly (entry : Waiting) : Prop :=
  ∀ number, reception.Unspoiled number → reception.Owes entry number →
    stream.origin number < stream.cut (reception.indexOf entry)

variable {reception}

theorem owed_nil {index number : Nat} : ¬ reception.Owed [] index number := by
  rintro ⟨entry, hentry, -⟩
  cases hentry

theorem owed_cons {entry : Waiting} {entries : List Waiting} {index number : Nat} :
    reception.Owed (entry :: entries) index number ↔
      (reception.indexOf entry = index ∧ reception.Owes entry number) ∨
        reception.Owed entries index number := by
  simp only [Owed, List.mem_cons, or_and_right, exists_or, exists_eq_left]

theorem owed_append {entries others : List Waiting} {index number : Nat} :
    reception.Owed (entries ++ others) index number ↔
      reception.Owed entries index number ∨ reception.Owed others index number := by
  simp only [Owed, List.mem_append, or_and_right, exists_or]

theorem owed_congr {entries others : List Waiting} (hperm : entries.Perm others)
    {index number : Nat} :
    reception.Owed entries index number ↔ reception.Owed others index number := by
  simp only [Owed, hperm.mem_iff]

namespace Lawful

variable {entry : Waiting} (hentry : reception.Lawful entry)
include hentry

theorem index_lt : reception.indexOf entry < stream.segments.length :=
  reception.index_lt hentry.arrives.1 hentry.arrives.2

theorem intact_of_touches {number : Nat} (hnumber : reception.Unspoiled number)
    (htouches : stream.Touches (reception.indexOf entry) number) :
    reception.intact (reception.indexOf entry) :=
  hnumber.2 _ hentry.index_lt htouches

theorem exists_repeats (hintact : reception.intact (reception.indexOf entry)) :
    ∃ original, stream.segments[reception.indexOf entry]? = some original ∧
      entry.segment.Repeats original := by
  obtain ⟨original, horiginal⟩ := hentry.arrives.original
  refine ⟨original, horiginal, ?_⟩
  rw [hentry.segment_eq]
  exact reception.repeats hentry.arrives.1 hentry.arrives.2 hintact original horiginal

theorem cut_succ (hintact : reception.intact (reception.indexOf entry)) :
    stream.cut (reception.indexOf entry + 1) =
      stream.cut (reception.indexOf entry) + entry.size := by
  obtain ⟨original, horiginal, hrepeats⟩ := hentry.exists_repeats hintact
  rw [Stream.cut_succ horiginal, Waiting.size, hrepeats.size_eq]

theorem size_pos (hintact : reception.intact (reception.indexOf entry)) : 0 < entry.size := by
  have hlt := stream.cut_lt hentry.index_lt (Nat.lt_add_one (reception.indexOf entry))
  rw [hentry.cut_succ hintact] at hlt
  omega

theorem startsPacket_iff (hintact : reception.intact (reception.indexOf entry)) :
    entry.startsPacket = true ↔ ∃ number, stream.StartsIn number (reception.indexOf entry) := by
  obtain ⟨original, horiginal, hrepeats⟩ := hentry.exists_repeats hintact
  rw [Waiting.startsPacket, hrepeats.pfi_eq, Stream.pfi_iff horiginal]

theorem exists_firstStart (hintact : reception.intact (reception.indexOf entry))
    (hstarts : entry.startsPacket = true) :
    ∃ number, stream.StartsIn number (reception.indexOf entry) ∧
      stream.origin number = stream.cut (reception.indexOf entry) + entry.firstStart := by
  obtain ⟨original, horiginal, hrepeats⟩ := hentry.exists_repeats hintact
  rw [Waiting.startsPacket, hrepeats.pfi_eq] at hstarts
  rw [Waiting.firstStart, hrepeats.offmac_eq]
  exact Stream.exists_origin_eq horiginal hstarts

theorem firstStart_le (hintact : reception.intact (reception.indexOf entry)) {number : Nat}
    (hstarts : stream.StartsIn number (reception.indexOf entry)) :
    stream.cut (reception.indexOf entry) + entry.firstStart ≤ stream.origin number := by
  obtain ⟨original, horiginal, hrepeats⟩ := hentry.exists_repeats hintact
  rw [Waiting.firstStart, hrepeats.offmac_eq]
  exact Stream.cut_add_offmac_le horiginal hstarts

theorem firstStart_lt (hintact : reception.intact (reception.indexOf entry))
    (hstarts : entry.startsPacket = true) : entry.firstStart < entry.size := by
  obtain ⟨number, hnumber, horigin⟩ := hentry.exists_firstStart hintact hstarts
  have hinside := hnumber.2.2
  rw [hentry.cut_succ hintact] at hinside
  omega

/-- A packet that reaches into an intact entry ends at the first packet start. -/
theorem origin_succ_eq (hintact : reception.intact (reception.indexOf entry))
    (hstarts : entry.startsPacket = true) {number : Nat}
    (hcrosses : stream.Crosses number (stream.cut (reception.indexOf entry))) :
    stream.origin (number + 1) = stream.cut (reception.indexOf entry) + entry.firstStart := by
  obtain ⟨first, hfirst, horigin⟩ := hentry.exists_firstStart hintact hstarts
  have hlt : number < first :=
    Stream.lt_of_origin_lt (Nat.lt_of_lt_of_le hcrosses.1 hfirst.2.1)
  have hle := stream.origin_mono (Nat.succ_le_of_lt hlt)
  rw [Nat.succ_eq_add_one] at hle
  have hinside := hfirst.2.2
  have hnext : stream.StartsIn (number + 1) (reception.indexOf entry) := by
    refine ⟨?_, Nat.le_of_lt hcrosses.2, Nat.lt_of_le_of_lt hle hinside⟩
    have hcount := hfirst.1
    omega
  have hge := hentry.firstStart_le hintact hnext
  omega

/-- A packet that reaches into an intact entry without a packet start fills it. -/
theorem covers (hintact : reception.intact (reception.indexOf entry))
    (hstarts : entry.startsPacket = false) {number : Nat}
    (hcrosses : stream.Crosses number (stream.cut (reception.indexOf entry))) :
    stream.cut (reception.indexOf entry + 1) ≤ stream.origin (number + 1) := by
  by_contra hlt
  have hend : stream.origin (number + 1) < stream.line.length :=
    Nat.lt_of_lt_of_le (Nat.lt_of_not_le hlt)
      (Nat.le_trans (stream.cut_le_emittedLength _) Stream.emittedLength_le)
  have hcount : number + 1 < stream.packets.length := by
    rw [← Stream.origin_length] at hend
    exact Stream.lt_of_origin_lt hend
  have hnext : stream.StartsIn (number + 1) (reception.indexOf entry) :=
    ⟨hcount, Nat.le_of_lt hcrosses.2, Nat.lt_of_not_le hlt⟩
  rw [(hentry.startsPacket_iff hintact).2 ⟨_, hnext⟩] at hstarts
  cases hstarts

/-- An entry without a packet start owes nothing but bytes of a packet that reaches in. -/
theorem crosses_of_touches (hintact : reception.intact (reception.indexOf entry))
    (hstarts : entry.startsPacket = false) {number : Nat}
    (hnumber : number < stream.packets.length)
    (htouches : stream.Touches (reception.indexOf entry) number) :
    stream.Crosses number (stream.cut (reception.indexOf entry)) := by
  rcases htouches.startsIn_or_crosses hnumber with hin | hcrosses
  · rw [(hentry.startsPacket_iff hintact).2 ⟨_, hin⟩] at hstarts
    cases hstarts
  · exact hcrosses

/-- An entry that has been parsed to its end owes at most its lead bytes. -/
theorem lead_of_owes (hparsed : entry.size ≤ entry.next) {number : Nat}
    (hnumber : reception.Unspoiled number) (howes : reception.Owes entry number) :
    stream.origin number < stream.cut (reception.indexOf entry) ∧ 0 < entry.lead := by
  have hintact := hentry.intact_of_touches hnumber howes.touches
  have hcut := hentry.cut_succ hintact
  have hsize := hentry.size_pos hintact
  have hinside := howes.touches.2
  have hlt : stream.origin number < stream.cut (reception.indexOf entry) := by
    by_contra hge
    have htail := howes.tail (Nat.le_of_not_lt hge)
    omega
  refine ⟨hlt, ?_⟩
  cases hstarts : entry.startsPacket with
  | true => exact howes.lead hlt hstarts
  | false =>
    have hmiddle := howes.middle hlt hstarts
    omega

/-- The packet that has the first byte of an intact entry. -/
theorem exists_touches (hintact : reception.intact (reception.indexOf entry)) :
    ∃ number, number < stream.packets.length ∧
      stream.origin number ≤ stream.cut (reception.indexOf entry) ∧
      stream.Touches (reception.indexOf entry) number := by
  have hcut := hentry.cut_succ hintact
  have hsize := hentry.size_pos hintact
  have hlast := stream.cut_le_emittedLength (reception.indexOf entry + 1)
  have hline := stream.emittedLength_le
  have hplace : stream.cut (reception.indexOf entry) < stream.line.length := by omega
  obtain ⟨number, hnumber, hlow, hhigh⟩ := Stream.exists_packet hplace
  exact ⟨number, hnumber, hlow, hhigh, by omega⟩

/-- Lead bytes belong to a packet that begins earlier. -/
theorem exists_crosses (hintact : reception.intact (reception.indexOf entry))
    (hlead : 0 < entry.lead) :
    ∃ number, number < stream.packets.length ∧
      stream.Crosses number (stream.cut (reception.indexOf entry)) := by
  obtain ⟨number, hnumber, hlow, htouches⟩ := hentry.exists_touches hintact
  have hbefore : stream.origin number < stream.cut (reception.indexOf entry) := by
    by_contra hge
    have hle := hentry.firstStart_le hintact ⟨hnumber, Nat.le_of_not_lt hge, htouches.2⟩
    have hcases := hentry.lead_eq
    omega
  exact ⟨number, hnumber, hbefore, htouches.1⟩

/-- An entry whose content has not been handed out altogether owes some packet. -/
theorem exists_owes (hintact : reception.intact (reception.indexOf entry))
    (hbusy : 0 < entry.lead ∨ entry.next < entry.size) :
    ∃ number, number < stream.packets.length ∧ reception.Owes entry number := by
  cases hstarts : entry.startsPacket with
  | false =>
    obtain ⟨number, hnumber, -, htouches⟩ := hentry.exists_touches hintact
    have hlead : entry.lead = 0 := hentry.lead_eq.resolve_right fun h => by simp [hstarts] at h
    have hnext : entry.next = 0 := by
      have hcases := hentry.next_eq hstarts
      omega
    refine ⟨number, hnumber, htouches, fun _ => by omega, fun _ hstarts' => ?_, fun _ _ => hnext⟩
    rw [hstarts] at hstarts'
    cases hstarts'
  | true =>
    by_cases hunparsed : entry.next < entry.size
    · obtain ⟨number, hstartsIn, horigin⟩ := hentry.aligned hintact hstarts hunparsed
      rw [← indexOf] at hstartsIn horigin
      refine ⟨number, hstartsIn.1, hstartsIn.touches, fun _ => Nat.le_of_eq horigin.symm,
        fun hlt _ => ?_, fun hlt _ => ?_⟩
      · omega
      · omega
    · have hlead := hbusy.resolve_right hunparsed
      obtain ⟨number, hnumber, hcrosses⟩ := hentry.exists_crosses hintact hlead
      refine ⟨number, hnumber, hcrosses.touches hentry.index_lt, fun hge => ?_, fun _ _ => hlead,
        fun _ hstarts' => ?_⟩
      · exact absurd hcrosses.1 (Nat.not_lt.2 hge)
      · rw [hstarts] at hstarts'
        cases hstarts'

end Lawful

end Reception

end Ccf
