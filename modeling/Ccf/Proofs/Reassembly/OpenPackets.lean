import Ccf.Proofs.Reassembly.Obligations

/-!
# Open packets

The content of an open packet consists of bytes of its entries, none of them twice, so a walk is
never refused what it gathers.  From an intact entry a walk gathers the line from a packet start on;
whether that completes the packet can be read off the division of the line.
-/

namespace Ccf

namespace Reception

open Walk

variable {stream : Stream} (reception : Reception stream)

/-- An open packet made of bytes of its entries. -/
structure Composed (packet : OpenPacket) : Prop where
  proper : packet.content.Proper
  nodup : packet.content.cells.Nodup
  mem_cells : ∀ cell ∈ packet.content.cells, ∃ entry ∈ packet.entries, cell ∈ entry.segment.cells
  lawful : ∀ entry ∈ packet.entries, reception.Lawful entry
  unparsed : ∀ entry ∈ packet.entries, entry.startsPacket = true → entry.next < entry.size

variable {reception}

/-- An open packet can take the bytes of any other entry. -/
theorem canTake_of_composed {pending : Option OpenPacket} {entry : Waiting}
    (hentry : reception.Lawful entry)
    (hpending : ∀ packet, pending = some packet → reception.Composed packet)
    (hother : ∀ other ∈ openEntries pending, other.arrival ≠ entry.arrival) :
    CanTake pending entry := by
  intro packet hpacket
  have hcomposed := hpending packet hpacket
  refine ⟨hcomposed.proper, List.nodup_append'.2 ⟨hcomposed.nodup, ?_, ?_⟩⟩
  · rw [hentry.segment_eq]
    exact reception.nodup hentry.arrives.1 hentry.arrives.2
  · intro cell hcell hcell'
    obtain ⟨other, hmem, hcells⟩ := hcomposed.mem_cells cell hcell
    have hlawful := hcomposed.lawful other hmem
    apply hother other
    · rw [hpacket]
      exact List.mem_reverse.2 hmem
    · rw [hlawful.segment_eq] at hcells
      rw [hentry.segment_eq] at hcell'
      exact arrival_unique hlawful.arrives hentry.arrives hcells hcell'

theorem Lawful.nodup_cells {entry : Waiting} (hentry : reception.Lawful entry) :
    entry.segment.cells.Nodup := by
  rw [hentry.segment_eq]
  exact reception.nodup hentry.arrives.1 hentry.arrives.2

/-- The packet that a visit leaves open is composed. -/
theorem composed_of_visits {entry : Waiting} {pending later : Option OpenPacket}
    {stays back : List Waiting} {reports : List ReassemblerReport}
    (hentry : reception.Lawful entry)
    (hpending : ∀ packet, pending = some packet → reception.Composed packet)
    (htake : CanTake pending entry) (hvisits : Visits entry pending stays later back reports) :
    ∀ packet, later = some packet → reception.Composed packet := by
  intro packet hpacket
  cases hvisits with
  | begin hstarts hunparsed hproper hcells hopen =>
    cases hpacket
    refine ⟨hproper, ?_, ?_, by simpa using hentry, by simpa using fun _ => hunparsed⟩
    · rw [hcells]
      exact hentry.nodup_cells.sublist (List.drop_sublist _ _)
    · intro cell hcell
      rw [hcells] at hcell
      exact ⟨entry, List.mem_singleton_self _, List.mem_of_mem_drop hcell⟩
  | @«continue» opened content hstarts hproper hcells hopen =>
    cases hpacket
    have hcomposed := hpending opened rfl
    refine ⟨hproper, ?_, ?_, ?_, ?_⟩
    · rw [hcells]
      exact (htake opened rfl).2.sublist ((List.drop_sublist _ _).append_left _)
    · intro cell hcell
      rw [hcells] at hcell
      rcases List.mem_append.1 hcell with hold | hnew
      · obtain ⟨other, hother, hmem⟩ := hcomposed.mem_cells cell hold
        exact ⟨other, List.mem_cons_of_mem _ hother, hmem⟩
      · exact ⟨entry, List.mem_cons_self, List.mem_of_mem_drop hnew⟩
    · intro other hother
      rcases List.mem_cons.1 hother with rfl | hold
      · exact hentry
      · exact hcomposed.lawful other hold
    · intro other hother hstart
      rcases List.mem_cons.1 hother with rfl | hold
      · rw [hstarts] at hstart
        cases hstart
      · exact hcomposed.unparsed other hold hstart
  | reject => cases hpacket
  | letGo => cases hpacket
  | owe => cases hpacket
  | await => cases hpacket
  | parse => cases hpacket
  | finish => cases hpacket
  | abandon => cases hpacket
  | complete => cases hpacket
  | overrun => cases hpacket

section Intact

variable {entry : Waiting} {content : Gathering} (hentry : reception.Lawful entry)
  (hintact : reception.intact (reception.indexOf entry))
include hentry hintact

theorem carriesRange_drop {first : Nat} (hfirst : first ≤ entry.size) :
    reception.CarriesRange (stream.cut (reception.indexOf entry) + first)
      (stream.cut (reception.indexOf entry + 1)) (entry.segment.cells.drop first) := by
  have hsize : entry.size = (reception.segment entry.arrival).size := by
    rw [Waiting.size, hentry.segment_eq]
  have hrange := carriesRange_slice hentry.arrives hintact hfirst (Nat.le_of_eq hsize)
  rw [← hentry.segment_eq, take_size_cells] at hrange
  rw [hentry.cut_succ hintact]
  exact hrange

theorem carriesRange_take {last : Nat} (hlast : last ≤ entry.size) :
    reception.CarriesRange (stream.cut (reception.indexOf entry))
      (stream.cut (reception.indexOf entry) + last) (entry.segment.cells.take last) := by
  have hsize : last ≤ (reception.segment entry.arrival).size := by
    rw [← hentry.segment_eq]
    exact hlast
  have hrange := carriesRange_slice hentry.arrives hintact (Nat.zero_le last) hsize
  rwa [← hentry.segment_eq, List.drop_zero, Nat.add_zero] at hrange

/-- What a walk gathers from the cursor on is the line from a packet start on. -/
theorem gathered_spec (hproper : content.Proper) (hstarts : entry.startsPacket = true)
    (hunparsed : entry.next < entry.size)
    (hcells : content.cells = entry.segment.cells.drop entry.next) :
    ∃ number packet, stream.packets[number]? = some packet ∧
      stream.StartsIn number (reception.indexOf entry) ∧
      stream.origin number = stream.cut (reception.indexOf entry) + entry.next ∧
      reception.CarriesRange (stream.origin number)
        (stream.cut (reception.indexOf entry + 1)) content.cells ∧
      content.completeSize? =
        if stream.origin (number + 1) ≤ stream.cut (reception.indexOf entry + 1) then
          some packet.size
        else none := by
  obtain ⟨number, hstart, horigin⟩ := hentry.aligned hintact hstarts hunparsed
  have hpacket := List.getElem?_eq_getElem hstart.1
  have hrange := carriesRange_drop hentry hintact (Nat.le_of_lt hunparsed)
  rw [← hcells] at hrange
  have horigin' : stream.origin number = stream.cut (reception.indexOf entry) + entry.next :=
    horigin
  rw [← horigin'] at hrange
  exact ⟨number, _, hpacket, hstart, horigin, hrange,
    hrange.completeSize?_eq hproper hpacket (Nat.le_of_lt hstart.2.2)⟩

/-- A packet that is completed within an intact entry is one of the stream. -/
theorem parse_spec {block : Nat} (hproper : content.Proper)
    (hstarts : entry.startsPacket = true) (hunparsed : entry.next < entry.size)
    (hcells : content.cells = entry.segment.cells.drop entry.next)
    (hcomplete : content.completeSize? = some block) :
    ∃ number, stream.StartsIn number (reception.indexOf entry) ∧
      stream.origin number = stream.cut (reception.indexOf entry) + entry.next ∧
      stream.origin (number + 1) =
        stream.cut (reception.indexOf entry) + (parsedTo entry content block).next ∧
      (parsedTo entry content block).next ≤ entry.size ∧
      reception.Shows number (handedOut content block) := by
  obtain ⟨number, packet, hpacket, hstart, horigin, hrange, hsize⟩ :=
    gathered_spec hentry hintact hproper hstarts hunparsed hcells
  rw [hcomplete] at hsize
  split at hsize
  · rename_i hreach
    cases hsize
    have hnext := Stream.origin_succ hpacket
    have hlength := hrange.length_eq
    rw [Gathering.length_cells, hentry.cut_succ hintact] at hlength
    rw [hentry.cut_succ hintact] at hreach
    refine ⟨number, hstart, horigin, ?_, ?_, ?_⟩
    · simp only [parsedTo]
      omega
    · simp only [parsedTo]
      omega
    · rw [← hentry.cut_succ hintact] at hreach
      exact shows_truncate hproper hpacket hreach hrange
  · cases hsize

/-- A packet that begins in an intact entry and is not completed there goes on after it. -/
theorem begin_spec (hproper : content.Proper) (hstarts : entry.startsPacket = true)
    (hunparsed : entry.next < entry.size)
    (hcells : content.cells = entry.segment.cells.drop entry.next)
    (hopen : content.completeSize? = none) :
    ∃ number, stream.StartsIn number (reception.indexOf entry) ∧
      stream.origin number = stream.cut (reception.indexOf entry) + entry.next ∧
      stream.Crosses number (stream.cut (reception.indexOf entry + 1)) ∧
      reception.CarriesRange (stream.origin number)
        (stream.cut (reception.indexOf entry + 1)) content.cells := by
  obtain ⟨number, packet, hpacket, hstart, horigin, hrange, hsize⟩ :=
    gathered_spec hentry hintact hproper hstarts hunparsed hcells
  rw [hopen] at hsize
  split at hsize
  · cases hsize
  · rename_i hbeyond
    exact ⟨number, hstart, horigin, ⟨hstart.2.2, Nat.lt_of_not_le hbeyond⟩, hrange⟩

section Opened

variable {opened : Gathering} {number : Nat} (hnumber : number < stream.packets.length)
  (hcrosses : stream.Crosses number (stream.cut (reception.indexOf entry)))
  (hrange : reception.CarriesRange (stream.origin number)
    (stream.cut (reception.indexOf entry)) opened.cells)
include hnumber hcrosses hrange

/-- Lead bytes complete what carries the line from a packet start up to the entry. -/
theorem lead_spec (hproper : content.Proper) (hstarts : entry.startsPacket = true)
    (hlead : 0 < entry.lead)
    (hcells : content.cells = opened.cells ++ entry.segment.cells.take entry.lead) :
    ∃ packet, stream.packets[number]? = some packet ∧
      content.completeSize? = some packet.size ∧
      reception.Shows number (handedOut content packet.size) ∧
      stream.origin (number + 1) < stream.cut (reception.indexOf entry + 1) := by
  have hfirst : entry.lead = entry.firstStart := by
    rcases hentry.lead_eq with hzero | ⟨-, heq⟩
    · omega
    · exact heq
  have hend := hentry.origin_succ_eq hintact hstarts hcrosses
  have hinside := hentry.firstStart_lt hintact hstarts
  have hlower := Nat.le_of_lt hcrosses.1
  have hwhole : reception.CarriesRange (stream.origin number) (stream.origin (number + 1))
      content.cells := by
    have htaken := carriesRange_take hentry hintact (Nat.le_of_lt (hfirst ▸ hinside))
    rw [hcells, hend, ← hfirst]
    exact hrange.append hlower (Nat.le_add_right _ _) htaken
  have hpacket := List.getElem?_eq_getElem hnumber
  have hcomplete := hwhole.completeSize?_eq hproper hpacket (stream.origin_mono (Nat.le_succ _))
  rw [if_pos (Nat.le_refl _)] at hcomplete
  refine ⟨_, hpacket, hcomplete, shows_truncate hproper hpacket (Nat.le_refl _) hwhole, ?_⟩
  rw [hend, hentry.cut_succ hintact]
  omega

/-- All bytes of an entry continue what carries the line from a packet start up to it. -/
theorem whole_spec (hproper : content.Proper) (hnext : entry.next = 0)
    (hcells : content.cells = opened.cells ++ entry.segment.cells.drop entry.next) :
    ∃ packet, stream.packets[number]? = some packet ∧
      reception.CarriesRange (stream.origin number)
        (stream.cut (reception.indexOf entry + 1)) content.cells ∧
      content.completeSize? =
        if stream.origin (number + 1) ≤ stream.cut (reception.indexOf entry + 1) then
          some packet.size
        else none := by
  have hlower := Nat.le_of_lt hcrosses.1
  have hmono := stream.cut_mono (Nat.le_succ (reception.indexOf entry))
  have hwhole : reception.CarriesRange (stream.origin number)
      (stream.cut (reception.indexOf entry + 1)) content.cells := by
    have hdropped := carriesRange_drop hentry hintact (Nat.zero_le entry.size)
    rw [Nat.add_zero] at hdropped
    rw [hcells, hnext]
    exact hrange.append hlower hmono hdropped
  have hpacket := List.getElem?_eq_getElem hnumber
  exact ⟨_, hpacket, hwhole,
    hwhole.completeSize?_eq hproper hpacket (Nat.le_trans hlower hmono)⟩

end Opened

end Intact

/-- Parsing to the end leaves a lawful entry. -/
theorem Lawful.parsed {entry : Waiting} (hentry : reception.Lawful entry)
    (hunparsed : entry.startsPacket = true → entry.next < entry.size) :
    reception.Lawful { entry with next := entry.size } where
  toCoherent := hentry.toCoherent.parsed hunparsed
  arrives := hentry.arrives
  segment_eq := hentry.segment_eq
  aligned _ _ hlt := absurd hlt (Nat.lt_irrefl _)

theorem Lawful.settled {entry : Waiting} (hentry : reception.Lawful entry) :
    reception.Lawful { entry with lead := 0 } where
  toCoherent := hentry.toCoherent.settled
  arrives := hentry.arrives
  segment_eq := hentry.segment_eq
  aligned := hentry.aligned

theorem lawful_of_closing {packet : OpenPacket} (hpacket : reception.Composed packet)
    (how : Release) : ∀ entry ∈ (closing how (some packet)).1, reception.Lawful entry := by
  intro entry hmem
  obtain ⟨oldest, holdest, -, rfl⟩ := mem_closing hmem
  rw [openEntries, List.mem_reverse] at holdest
  exact (hpacket.lawful oldest holdest).parsed (hpacket.unparsed oldest holdest)

/-- A packet completed within an entry leaves a lawful entry. -/
theorem Lawful.parsedTo {entry : Waiting} (hentry : reception.Lawful entry)
    {content : Gathering} {block : Nat} (hproper : content.Proper)
    (hstarts : entry.startsPacket = true) (hunparsed : entry.next < entry.size)
    (hcells : content.cells = entry.segment.cells.drop entry.next)
    (hcomplete : content.completeSize? = some block) :
    reception.Lawful (parsedTo entry content block) := by
  refine ⟨coherent_parsedTo hentry.toCoherent hstarts hunparsed hcells hcomplete,
    hentry.arrives, hentry.segment_eq, fun hintact _ hlt => ?_⟩
  obtain ⟨number, hstart, -, hnext, -, -⟩ :=
    parse_spec hentry hintact hproper hstarts hunparsed hcells hcomplete
  have hcut := hentry.cut_succ hintact
  have hinside : stream.origin (number + 1) <
      stream.cut (reception.indexOf entry + 1) := by
    rw [hnext, hcut]
    exact Nat.add_lt_add_left hlt _
  have hcount : number + 1 < stream.packets.length := by
    have hline : stream.origin (number + 1) < stream.line.length :=
      Nat.lt_of_lt_of_le hinside
        (Nat.le_trans (stream.cut_le_emittedLength _) Stream.emittedLength_le)
    rw [← Stream.origin_length] at hline
    exact Stream.lt_of_origin_lt hline
  refine ⟨number + 1, ⟨hcount, ?_, hinside⟩, hnext⟩
  rw [hnext]
  exact Nat.le_add_right _ _

/-- Every entry that a visit leaves in the walk is lawful. -/
theorem lawful_of_visits {entry : Waiting} {pending later : Option OpenPacket}
    {stays back : List Waiting} {reports : List ReassemblerReport}
    (hentry : reception.Lawful entry)
    (hpending : ∀ packet, pending = some packet → reception.Composed packet)
    (hvisits : Visits entry pending stays later back reports) :
    ∀ other ∈ stays ++ openEntries later ++ back, reception.Lawful other := by
  have hopen {other : Waiting} (hother : other ∈ openEntries pending) :
      ∃ packet, reception.Composed packet ∧ other ∈ packet.entries := by
    cases hcase : pending with
    | none =>
      rw [hcase] at hother
      cases hother
    | some packet =>
      rw [hcase, openEntries, List.mem_reverse] at hother
      exact ⟨packet, hpending packet hcase, hother⟩
  intro other hother
  cases leaves_of_visits hvisits other hother with
  | opened hopened =>
    obtain ⟨packet, hpacket, hmem⟩ := hopen hopened
    exact hpacket.lawful other hmem
  | same => exact hentry
  | closed holdest hlead =>
    obtain ⟨packet, hpacket, hmem⟩ := hopen holdest
    exact (hpacket.lawful _ hmem).parsed (hpacket.unparsed _ hmem)
  | settled => exact hentry.settled
  | parsed hstarts =>
    exact hentry.parsed fun hstarts' => absurd (hstarts.symm.trans hstarts') (by decide)
  | advanced hstarts hunparsed hproper hcells hcomplete =>
    exact hentry.parsedTo hproper hstarts hunparsed hcells hcomplete

/-- Every entry of a walk is lawful after a visit. -/
theorem lawful_held {walk : Walk} {entry : Waiting} {rest stays back : List Waiting}
    {outcome : WalkOutcome} {later : Option OpenPacket} (hahead : walk.ahead = entry :: rest)
    (hmakes : Makes walk entry rest outcome stays later back)
    (hlawful : ∀ other ∈ walk.held, reception.Lawful other)
    (hcomposed : ∀ packet, walk.pending = some packet → reception.Composed packet) :
    ∀ other ∈ outcome.walk.held, reception.Lawful other := by
  intro other hother
  rcases List.mem_append.1 ((held_perm_of_makes hmakes).mem_iff.1 hother) with hold | hnew
  · exact hlawful other ((held_perm hahead).mem_iff.2 (List.mem_append_left _ hold))
  · have hentry := hlawful entry (entry_mem_held hahead)
    exact lawful_of_visits hentry hcomposed hmakes.visits other hnew

end Reception

end Ccf
