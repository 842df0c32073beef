import Ccf.Proofs.Reassembly.Accounting

/-!
# Segments that arrive repeatedly

A run may hold several arrivals of one segment next to each other.  A walk that comes to such a
repetition with a packet open takes bytes for a second time.  It does so only at a segment that
begins and ends inside packets: at any other segment the packet is complete before the repetition,
or the repetition has nothing to give.

What is handed out is then put together from the range of a packet, or it has bytes of two arrivals
of such a segment.
-/

namespace Ccf

namespace Stream

/-- A segment that begins and ends inside packets. -/
def Inner (stream : Stream) (index : Nat) : Prop :=
  (∃ number, stream.Crosses number (stream.cut index)) ∧
    ∃ number, stream.Crosses number (stream.cut (index + 1))

variable {stream : Stream}

/-- A place lies in one segment. -/
theorem segment_unique {index other place : Nat} (hlow : stream.cut index ≤ place)
    (hhigh : place < stream.cut (index + 1)) (hlow' : stream.cut other ≤ place)
    (hhigh' : place < stream.cut (other + 1)) : index = other := by
  have hfirst := lt_of_cut_lt (Nat.lt_of_le_of_lt hlow hhigh')
  have hsecond := lt_of_cut_lt (Nat.lt_of_le_of_lt hlow' hhigh)
  omega

end Stream

namespace Reception

open Walk

variable {stream : Stream} (reception : Reception stream)

/-- Cells of two arrivals that repeat one inner segment. -/
def Doubles (cells : List Cell) : Prop :=
  ∃ arrival other, reception.Arrives arrival ∧ reception.Arrives other ∧ arrival ≠ other ∧
    reception.index arrival = reception.index other ∧ stream.Inner (reception.index arrival) ∧
    (∃ cell ∈ cells, cell ∈ (reception.segment arrival).cells) ∧
    ∃ cell ∈ cells, cell ∈ (reception.segment other).cells

/-- A table that shows a packet or has bytes of two arrivals of an inner segment. -/
def Genuine (table : PieceTable) : Prop :=
  (∃ number, number < stream.packets.length ∧ reception.Shows number table) ∨
    reception.Doubles table.cells

/-- Content that carries the line from the start of a packet up to the end of a segment. -/
structure Reaches (content : Gathering) (index number : Nat) : Prop where
  number_lt : number < stream.packets.length
  crosses : stream.Crosses number (stream.cut (index + 1))
  range : reception.CarriesRange (stream.origin number) (stream.cut (index + 1)) content.cells

/-- An open packet that reaches the end of its newest entry, or has bytes of two arrivals. -/
structure Gathered (packet : OpenPacket) : Prop where
  incomplete : packet.content.completeSize? = none
  newest : ∃ newest older, packet.entries = newest :: older ∧
    (reception.Doubles packet.content.cells ∨
      ∃ number, reception.Reaches packet.content (reception.indexOf newest) number)

/-- An entry that holds the newest segment of an open packet again, or the next one. -/
def Adjacent (packet : OpenPacket) (entry : Waiting) : Prop :=
  ∀ newest older, packet.entries = newest :: older →
    reception.indexOf entry = reception.indexOf newest ∨
      reception.indexOf entry = reception.indexOf newest + 1

variable {reception}

theorem Doubles.mono {cells more : List Cell} (hsubset : cells ⊆ more)
    (hdoubles : reception.Doubles cells) : reception.Doubles more := by
  obtain ⟨arrival, other, harrives, harrives', hne, hindex, hinner, ⟨cell, hcell, hmem⟩,
    ⟨cell', hcell', hmem'⟩⟩ := hdoubles
  exact ⟨arrival, other, harrives, harrives', hne, hindex, hinner,
    ⟨cell, hsubset hcell, hmem⟩, ⟨cell', hsubset hcell', hmem'⟩⟩

/-- What is handed out when added bytes complete a packet has all the bytes before, and one of the
added ones. -/
theorem subset_handedOut {opened content : Gathering} {more : List Cell} {block : Nat}
    (hopened : opened.Proper) (hproper : content.Proper)
    (hcells : content.cells = opened.cells ++ more) (hopen : opened.completeSize? = none)
    (hcomplete : content.completeSize? = some block) :
    opened.cells ⊆ (handedOut content block).cells ∧
      ∃ cell ∈ more, cell ∈ (handedOut content block).cells := by
  obtain ⟨hgrows, hfits, hhanded⟩ :=
    cells_handedOut_of_completes hopened hproper hcells hopen hcomplete
  rw [hhanded]
  refine ⟨List.subset_append_left _ _, ?_⟩
  obtain ⟨cell, hcell⟩ := List.exists_mem_of_length_pos
    (l := more.take (block - opened.size)) (by rw [List.length_take]; omega)
  exact ⟨cell, List.mem_of_mem_take hcell, List.mem_append_right _ hcell⟩

/-- Content that reaches the end of a segment has a byte of one of its arrivals. -/
theorem Reaches.exists_cell {content : Gathering} {index number : Nat}
    (hreaches : reception.Reaches content index number) (hindex : index < stream.segments.length) :
    ∃ arrival, reception.Arrives arrival ∧ reception.index arrival = index ∧
      ∃ cell ∈ content.cells, cell ∈ (reception.segment arrival).cells := by
  have hlength := hreaches.range.length_eq
  have hlow := hreaches.crosses.1
  have hwidth := stream.cut_lt hindex (Nat.lt_add_one index)
  have hlast : stream.cut (index + 1) - stream.origin number - 1 < content.cells.length := by
    omega
  have hplace : stream.cut (index + 1) - stream.origin number - 1 <
      (List.range' (stream.origin number)
        (stream.cut (index + 1) - stream.origin number)).length := by
    rw [List.length_range']
    omega
  have hcarries := (List.forall₂_iff_get.1 hreaches.range).2 _ hplace hlast
  simp only [List.get_eq_getElem, List.getElem_range'] at hcarries
  obtain ⟨arrival, harrives, hintact, hlow', hcell⟩ := hcarries
  have hbound := (List.getElem?_eq_some_iff.1 hcell).1
  rw [Segment.length_cells] at hbound
  have hnext := harrives.cut_succ hintact
  refine ⟨arrival, harrives, ?_, _, List.getElem_mem hlast, List.mem_of_getElem? hcell⟩
  have hbelow : stream.cut (reception.index arrival) ≤ stream.cut (index + 1) - 1 := by omega
  have habove : stream.cut (index + 1) - 1 < stream.cut (reception.index arrival + 1) := by omega
  exact Stream.segment_unique hbelow habove (by omega) (by omega)

/-- An arrival of a segment that content has already reached doubles its bytes. -/
theorem Reaches.doubles {content : Gathering} {entry : Waiting} {number : Nat}
    (hreaches : reception.Reaches content (reception.indexOf entry) number)
    (hentry : reception.Lawful entry)
    (hfront : ∃ other, stream.Crosses other (stream.cut (reception.indexOf entry)))
    (hnodup : (content.cells ++ entry.segment.cells).Nodup) {cells : List Cell}
    (hsubset : content.cells ⊆ cells) (hmore : ∃ cell ∈ cells, cell ∈ entry.segment.cells) :
    reception.Doubles cells := by
  obtain ⟨arrival, harrives, hindex, cell, hcell, hmem⟩ := hreaches.exists_cell hentry.index_lt
  rw [hentry.segment_eq] at hnodup hmore
  refine ⟨arrival, entry.arrival, harrives, hentry.arrives, ?_, hindex, ?_,
    ⟨cell, hsubset hcell, hmem⟩, hmore⟩
  · rintro rfl
    exact (List.nodup_append'.1 hnodup).2.2 hcell hmem
  · rw [hindex]
    exact ⟨hfront, number, hreaches.crosses⟩

section Open

variable (hsound : ¬ reception.Damaged) {entry : Waiting} {packet : OpenPacket}
  {content : Gathering} (hentry : reception.Lawful entry)
  (hgathered : reception.Gathered packet) (hadjacent : reception.Adjacent packet entry)
  (hnodup : (packet.content.cells ++ entry.segment.cells).Nodup) (hproper : content.Proper)
include hsound hentry hgathered hadjacent hnodup hproper

/-- Lead bytes that complete an open packet. -/
theorem genuine_of_finish (hopened : packet.content.Proper) {block : Nat}
    (hstarts : entry.startsPacket = true)
    (hcells : content.cells = packet.content.cells ++ entry.segment.cells.take entry.lead)
    (hcomplete : content.completeSize? = some block) :
    reception.Genuine (handedOut content block) := by
  have hintact := intact_of_not_damaged hsound hentry
  obtain ⟨hsubset, cell, hlead, hcell⟩ :=
    subset_handedOut hopened hproper hcells hgathered.incomplete hcomplete
  have hpositive : 0 < entry.lead := by
    by_contra hzero
    rw [Nat.eq_zero_of_not_pos hzero, List.take_zero] at hlead
    cases hlead
  obtain ⟨newest, older, hentries, hdoubles | ⟨number, hreaches⟩⟩ := hgathered.newest
  · exact Or.inr (hdoubles.mono hsubset)
  · rcases hadjacent newest older hentries with hagain | hnext
    · obtain ⟨other, -, hfront⟩ := hentry.exists_crosses hintact hpositive
      rw [← hagain] at hreaches
      exact Or.inr (hreaches.doubles hentry ⟨other, hfront⟩ hnodup hsubset
        ⟨cell, hcell, List.mem_of_mem_take hlead⟩)
    · obtain ⟨original, -, hsize, hshows, -⟩ := lead_spec hentry hintact hreaches.number_lt
        (hnext ▸ hreaches.crosses) (hnext ▸ hreaches.range) hproper hstarts hpositive hcells
      rw [hcomplete] at hsize
      cases hsize
      exact Or.inl ⟨number, hreaches.number_lt, hshows⟩

/-- What holds of content to which a whole entry has been added: it reaches the entry's end, or it
has the bytes of an inner segment twice. -/
theorem reaches_of_whole (hstarts : entry.startsPacket = false) (hfresh : entry.next = 0)
    (hcells : content.cells = packet.content.cells ++ entry.segment.cells.drop entry.next)
    {cells : List Cell} (hsubset : packet.content.cells ⊆ cells)
    (hmore : ∃ cell ∈ cells, cell ∈ entry.segment.cells) :
    reception.Doubles cells ∨ ∃ number original, stream.packets[number]? = some original ∧
      stream.origin number < stream.cut (reception.indexOf entry) ∧
      reception.CarriesRange (stream.origin number)
        (stream.cut (reception.indexOf entry + 1)) content.cells ∧
      content.completeSize? =
        if stream.origin (number + 1) ≤ stream.cut (reception.indexOf entry + 1) then
          some original.size
        else none := by
  have hintact := intact_of_not_damaged hsound hentry
  obtain ⟨newest, older, hentries, hdoubles | ⟨number, hreaches⟩⟩ := hgathered.newest
  · exact Or.inl (hdoubles.mono hsubset)
  · rcases hadjacent newest older hentries with hagain | hnext
    · -- No packet starts in the segment, so the open one begins before it.
      rw [← hagain] at hreaches
      have hwidth := stream.cut_lt hentry.index_lt (Nat.lt_add_one (reception.indexOf entry))
      have hbefore : stream.origin number < stream.cut (reception.indexOf entry) := by
        by_contra hge
        have hstartsIn : stream.StartsIn number (reception.indexOf entry) :=
          ⟨hreaches.number_lt, Nat.le_of_not_lt hge, hreaches.crosses.1⟩
        rw [(hentry.startsPacket_iff hintact).2 ⟨number, hstartsIn⟩] at hstarts
        cases hstarts
      exact Or.inl (hreaches.doubles hentry
        ⟨number, hbefore, Nat.lt_trans hwidth hreaches.crosses.2⟩ hnodup hsubset hmore)
    · obtain ⟨original, horiginal, hrange, hsize⟩ := whole_spec hentry hintact
        hreaches.number_lt (hnext ▸ hreaches.crosses) (hnext ▸ hreaches.range) hproper hfresh
        hcells
      exact Or.inr ⟨number, original, horiginal, hnext ▸ hreaches.crosses.1, hrange, hsize⟩

/-- A whole entry that completes an open packet. -/
theorem genuine_of_complete (hopened : packet.content.Proper) {block : Nat}
    (hstarts : entry.startsPacket = false) (hfresh : entry.next = 0)
    (hcells : content.cells = packet.content.cells ++ entry.segment.cells.drop entry.next)
    (hcomplete : content.completeSize? = some block) :
    reception.Genuine (handedOut content block) := by
  obtain ⟨hsubset, cell, hadded, hcell⟩ :=
    subset_handedOut hopened hproper hcells hgathered.incomplete hcomplete
  rcases reaches_of_whole hsound hentry hgathered hadjacent hnodup hproper hstarts hfresh
    hcells hsubset ⟨cell, hcell, List.mem_of_mem_drop hadded⟩ with hdoubles | hreaches
  · exact Or.inr hdoubles
  · obtain ⟨number, original, horiginal, -, hrange, hsize⟩ := hreaches
    rw [hcomplete] at hsize
    split at hsize
    · rename_i hend
      cases hsize
      exact Or.inl ⟨number, (List.getElem?_eq_some_iff.1 horiginal).1,
        shows_truncate hproper horiginal hend hrange⟩
    · cases hsize

/-- A whole entry that continues an open packet. -/
theorem gathered_of_continue (hstarts : entry.startsPacket = false) (hfresh : entry.next = 0)
    (hcells : content.cells = packet.content.cells ++ entry.segment.cells.drop entry.next)
    (hopen : content.completeSize? = none) :
    reception.Gathered { entries := entry :: packet.entries, content := content } := by
  have hintact := intact_of_not_damaged hsound hentry
  have hsize := hentry.size_pos hintact
  have hsubset : packet.content.cells ⊆ content.cells := by
    rw [hcells]
    exact List.subset_append_left _ _
  obtain ⟨cell, hcell⟩ : ∃ cell, cell ∈ entry.segment.cells :=
    List.exists_mem_of_length_pos (by rwa [Segment.length_cells])
  have hadded : cell ∈ content.cells := by
    rw [hcells, hfresh]
    exact List.mem_append_right _ hcell
  refine ⟨hopen, entry, packet.entries, rfl, ?_⟩
  rcases reaches_of_whole hsound hentry hgathered hadjacent hnodup hproper hstarts hfresh
    hcells hsubset ⟨cell, hadded, hcell⟩ with hdoubles | hreaches
  · exact Or.inl hdoubles
  · obtain ⟨number, original, horiginal, hbefore, hrange, hsize⟩ := hreaches
    rw [hopen] at hsize
    split at hsize
    · cases hsize
    · rename_i hbeyond
      have hwidth := stream.cut_lt hentry.index_lt (Nat.lt_add_one (reception.indexOf entry))
      exact Or.inr ⟨number, (List.getElem?_eq_some_iff.1 horiginal).1,
        ⟨Nat.lt_trans hbefore hwidth, Nat.lt_of_not_le hbeyond⟩, hrange⟩

end Open

/-- A visit hands out genuine packets and leaves a gathered one open. -/
theorem genuine_of_visits (hsound : ¬ reception.Damaged) {entry : Waiting}
    {pending later : Option OpenPacket} {stays back : List Waiting}
    {reports : List ReassemblerReport} (hentry : reception.Lawful entry)
    (hgathered : ∀ packet, pending = some packet →
      reception.Gathered packet ∧ reception.Adjacent packet entry ∧ entry.Fresh)
    (htake : CanTake pending entry) (hvisits : Visits entry pending stays later back reports) :
    (∀ table ∈ deliveredTables reports, reception.Genuine table) ∧
      ∀ packet, later = some packet → reception.Gathered packet := by
  have hintact := intact_of_not_damaged hsound hentry
  have hone {table : PieceTable} {answer : Answer} {others : List ReassemblerReport}
      (hothers : deliveredTables others = []) (hgenuine : reception.Genuine table) :
      ∀ table' ∈ deliveredTables (.delivered table answer :: others),
        reception.Genuine table' := by
    rw [deliveredTables_cons_delivered, hothers]
    simpa using hgenuine
  cases hvisits with
  | reject => exact ⟨by simp, nofun⟩
  | letGo => exact ⟨by simp [deliveredTables], nofun⟩
  | owe => exact ⟨by simp, nofun⟩
  | await => exact ⟨by simp, nofun⟩
  | parse answer hstarts hunparsed hproper hcells hcomplete =>
    obtain ⟨number, hstartsIn, -, -, -, hshows⟩ :=
      parse_spec hentry hintact hproper hstarts hunparsed hcells hcomplete
    exact ⟨hone rfl (Or.inl ⟨number, hstartsIn.1, hshows⟩), nofun⟩
  | «begin» hstarts hunparsed hproper hcells hopen =>
    obtain ⟨number, hstartsIn, -, hcrosses, hrange⟩ :=
      begin_spec hentry hintact hproper hstarts hunparsed hcells hopen
    refine ⟨by simp, ?_⟩
    rintro packet ⟨rfl⟩
    exact ⟨hopen, entry, [], rfl, Or.inr ⟨number, hstartsIn.1, hcrosses, hrange⟩⟩
  | @finish packet content block answer hstarts hinside hproper hcells hcomplete =>
    obtain ⟨hpacket, hadjacent, -⟩ := hgathered packet rfl
    obtain ⟨hopened, hnodup⟩ := htake packet rfl
    exact ⟨hone (deliveredTables_closing _ _) (genuine_of_finish hsound hentry hpacket
      hadjacent hnodup hproper hopened hstarts hcells hcomplete), nofun⟩
  | abandon => exact ⟨by simp, nofun⟩
  | @complete packet content block answer hstarts hproper hcells hcomplete hparsed =>
    obtain ⟨hpacket, hadjacent, hfresh⟩ := hgathered packet rfl
    obtain ⟨hopened, hnodup⟩ := htake packet rfl
    exact ⟨hone (deliveredTables_closing _ _) (genuine_of_complete hsound hentry hpacket
      hadjacent hnodup hproper hopened hstarts (hfresh hstarts) hcells hcomplete), nofun⟩
  | @overrun packet content block answer hstarts hproper hcells hcomplete hunparsed =>
    obtain ⟨hpacket, hadjacent, hfresh⟩ := hgathered packet rfl
    obtain ⟨hopened, hnodup⟩ := htake packet rfl
    exact ⟨hone (by simp) (genuine_of_complete hsound hentry hpacket
      hadjacent hnodup hproper hopened hstarts (hfresh hstarts) hcells hcomplete), nofun⟩
  | @«continue» packet content hstarts hproper hcells hopen =>
    obtain ⟨hpacket, hadjacent, hfresh⟩ := hgathered packet rfl
    refine ⟨by simp, ?_⟩
    rintro packet' ⟨rfl⟩
    exact gathered_of_continue hsound hentry hpacket hadjacent (htake packet rfl).2 hproper
      hstarts (hfresh hstarts) hcells hopen

end Reception

end Ccf
