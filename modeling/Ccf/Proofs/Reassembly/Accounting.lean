import Ccf.Proofs.Reassembly.OpenPackets

/-!
# Accounts of a visit

A packet that is open in front of a segment either gathers an unspoiled packet of the stream up to
that segment, or its first byte belongs to no unspoiled packet.  In both cases the entries it holds
owe nothing else to unspoiled packets, but for the lead of the oldest.

`visit_accounted` says what a visit does in these terms: what is owed to unspoiled packets stays as
it is, except that a packet that is handed out is owed nothing afterwards.  Segments are given up,
and other packets handed out, only where some segment is not intact.
-/

namespace Ccf

def GivesUp (reports : List ReassemblerReport) : Prop :=
  ∃ segment, .dropped segment ∈ reports

namespace Walk

theorem not_givesUp_closing (pending : Option OpenPacket) :
    ¬ GivesUp (closing .recycle pending).2 := by
  rintro ⟨segment, hmem⟩
  cases pending with
  | none => cases hmem
  | some packet =>
    rw [closing] at hmem
    cases hentries : packet.entries.reverse with
    | nil =>
      rw [hentries] at hmem
      cases hmem
    | cons oldest others =>
      rw [hentries, retire] at hmem
      split at hmem <;> simp [Release.report] at hmem

/-- Handing a packet out and letting its entries go gives nothing up. -/
theorem not_givesUp_delivered (table : PieceTable) (answer : Answer)
    (pending : Option OpenPacket) :
    ¬ GivesUp (.delivered table answer :: (closing .recycle pending).2) := by
  rintro ⟨segment, hmem⟩
  rcases List.mem_cons.1 hmem with heq | hrest
  · cases heq
  · exact not_givesUp_closing pending ⟨segment, hrest⟩

end Walk

namespace Reception

open Walk

variable {stream : Stream} (reception : Reception stream)

def Damaged : Prop := ∃ index, index < stream.segments.length ∧ ¬ reception.intact index

/-- A cell that carries no byte of an unspoiled packet. -/
def Foreign (cell : Cell) : Prop :=
  ∀ place number, reception.Unspoiled number → stream.origin number ≤ place →
    place < stream.origin (number + 1) → ¬ reception.Carries place cell

/-- Content that gathers an unspoiled packet up to the segment with the index `next`. -/
structure Gathers (oldest : Waiting) (others : List Waiting) (content : Gathering)
    (next number : Nat) : Prop where
  unspoiled : reception.Unspoiled number
  startsIn : stream.StartsIn number (reception.indexOf oldest)
  origin_eq : stream.origin number = stream.cut (reception.indexOf oldest) + oldest.next
  plain : ∀ entry ∈ others, entry.startsPacket = false ∧ entry.next = 0
  crosses : stream.Crosses number (stream.cut next)
  range : reception.CarriesRange (stream.origin number) (stream.cut next) content.cells

/-- An open packet in front of the segment with the index `next`; `whole` is the unspoiled packet
that it gathers, if it gathers one. -/
structure Opened (oldest : Waiting) (others : List Waiting) (content : Gathering) (next : Nat)
    (whole : Option Nat) : Prop where
  starts : oldest.startsPacket = true
  across : ∀ number, reception.Unspoiled number → stream.Crosses number (stream.cut next) →
    whole = some number
  free : ∀ entry ∈ others, ∀ number, reception.Unspoiled number → reception.Owes entry number →
    whole = some number
  front : ∀ number, reception.Unspoiled number → reception.Owes oldest number →
    whole = some number ∨ stream.origin number < stream.cut (reception.indexOf oldest)
  gathers : ∀ number, whole = some number → reception.Gathers oldest others content next number
  foreign : whole = none → reception.Damaged ∧
    ∃ cell rest, content.cells = cell :: rest ∧ reception.Foreign cell

def OpenedAt (packet : OpenPacket) (next : Nat) : Prop :=
  ∃ oldest others whole, packet.entries.reverse = oldest :: others ∧
    reception.Opened oldest others packet.content next whole

/-- What is handed out: an unspoiled packet, or something that is not put together like one. -/
def Matches : Option Nat → PieceTable → Prop
  | some number, table => reception.Unspoiled number ∧ reception.Shows number table
  | none, table => reception.Damaged ∧ ∀ number, reception.Unspoiled number →
      ¬ reception.CarriesRange (stream.origin number) (stream.origin (number + 1)) table.cells

/-- What becomes of the debts of `before`: they are those of `after` but for the packet `gone`,
which every segment that it touches owed and none owes any more. -/
structure Settles (before after : List Waiting) (gone : Option Nat) : Prop where
  keeps : ∀ number, reception.Unspoiled number → gone ≠ some number →
    ∀ index, reception.Owed after index number ↔ reception.Owed before index number
  gone_owed : ∀ number, gone = some number → ∀ index, stream.Touches index number →
    index < stream.segments.length ∧ reception.Owed before index number
  gone_settled : ∀ number, gone = some number → ∀ index, ¬ reception.Owed after index number
  emitted : ∀ number, gone = some number → stream.origin (number + 1) ≤ stream.emittedLength

/-- What a visit hands out and leaves. -/
structure Accounted (before : List Waiting) (next : Nat) (stays : List Waiting)
    (later : Option OpenPacket) (back : List Waiting) (reports : List ReassemblerReport)
    (gone : Option Nat) : Prop where
  settles : reception.Settles before (stays ++ openEntries later ++ back) gone
  handed : deliveredTables reports = [] ∧ gone = none ∨
    ∃ table, deliveredTables reports = [table] ∧ reception.Matches gone table
  stays_front : ∀ entry ∈ stays, reception.FrontOnly entry ∧
    (0 < entry.lead ∨ entry.next < entry.size)
  opened : ∀ packet, later = some packet → reception.OpenedAt packet next
  damaged : GivesUp reports → reception.Damaged

variable {reception}

theorem not_owes_of_damaged {entry : Waiting} (hentry : reception.Lawful entry)
    (hdamaged : ¬ reception.intact (reception.indexOf entry)) {number : Nat}
    (hnumber : reception.Unspoiled number) : ¬ reception.Owes entry number :=
  fun howes => hdamaged (hentry.intact_of_touches hnumber howes.touches)

theorem damaged_of_entry {entry : Waiting} (hentry : reception.Lawful entry)
    (hdamaged : ¬ reception.intact (reception.indexOf entry)) : reception.Damaged :=
  ⟨_, hentry.index_lt, hdamaged⟩

theorem intact_of_not_damaged {entry : Waiting} (hsound : ¬ reception.Damaged)
    (hentry : reception.Lawful entry) : reception.intact (reception.indexOf entry) := by
  by_contra hdamaged
  exact hsound (damaged_of_entry hentry hdamaged)

theorem damaged_of_spoiled {number : Nat} (hnumber : number < stream.packets.length)
    (hspoiled : ¬ reception.Unspoiled number) : reception.Damaged := by
  by_contra hsound
  refine hspoiled ⟨hnumber, fun index hindex _ => ?_⟩
  by_contra hdamaged
  exact hsound ⟨index, hindex, hdamaged⟩

theorem foreign_of_damaged {entry : Waiting} (hentry : reception.Lawful entry)
    (hdamaged : ¬ reception.intact (reception.indexOf entry)) {cell : Cell}
    (hcell : cell ∈ entry.segment.cells) : reception.Foreign cell := by
  rintro place number - - - ⟨arrival, harrives, hintact, -, hread⟩
  rw [hentry.segment_eq] at hcell
  have hsame := arrival_unique hentry.arrives harrives hcell (List.mem_of_getElem? hread)
  rw [← hsame] at hintact
  exact hdamaged hintact

theorem foreign_of_spoiled {place number : Nat} {cell : Cell}
    (hcarries : reception.Carries place cell) (hlow : stream.origin number ≤ place)
    (hhigh : place < stream.origin (number + 1)) (hspoiled : ¬ reception.Unspoiled number) :
    reception.Foreign cell := by
  intro place' number' hunspoiled hlow' hhigh' hcarries'
  have hplace := hcarries.place_unique hcarries'
  subst hplace
  have hsame := Stream.packet_unique hlow hhigh hlow' hhigh'
  subst hsame
  exact hspoiled hunspoiled

/-- A table that begins with a foreign cell matches no unspoiled packet. -/
theorem Foreign.matches_none {content : Gathering} {block : Nat} {cell : Cell}
    {rest : List Cell} (hdamaged : reception.Damaged) (hforeign : reception.Foreign cell)
    (hcells : content.cells = cell :: rest) (hcomplete : content.completeSize? = some block) :
    reception.Matches none (handedOut content block) := by
  refine ⟨hdamaged, fun number hnumber hrange => ?_⟩
  obtain ⟨hblock, -⟩ := Gathering.completeSize?_bounds hcomplete
  simp only [MacHeader.wireSize] at hblock
  obtain ⟨amount, rfl⟩ := Nat.exists_eq_add_of_le' (Nat.le_trans (by decide : 1 ≤ 4) hblock)
  have hmem : cell ∈ (handedOut content (amount + 1)).cells := by
    rw [handedOut, PieceTable.cells_truncate, Gathering.cells_table, hcells, List.take_succ_cons]
    exact List.mem_cons_self
  obtain ⟨place, hlow, hhigh, hcarries⟩ := hrange.of_mem hmem
  exact hforeign place number hnumber hlow hhigh hcarries

/-! ## Closing an open packet -/

/-- Closing an open packet settles what its entries owe to it and nothing else. -/
theorem owed_closing {packet : OpenPacket} {oldest : Waiting} {others : List Waiting}
    {next : Nat} {whole : Option Nat} (how : Release)
    (hentries : packet.entries.reverse = oldest :: others) (holdest : reception.Lawful oldest)
    (hopened : reception.Opened oldest others packet.content next whole) {number : Nat}
    (hnumber : reception.Unspoiled number) (index : Nat) :
    reception.Owed (closing how (some packet)).1 index number ↔
      whole ≠ some number ∧ reception.Owed (openEntries (some packet)) index number := by
  rw [closing_eq how packet hentries, openEntries, hentries]
  constructor
  · intro howed
    split at howed
    · rename_i hlead
      rw [owed_cons] at howed
      obtain ⟨rfl, howes⟩ := howed.resolve_right owed_nil
      have hintact := holdest.intact_of_touches hnumber howes.touches
      have hcut := holdest.cut_succ hintact
      have hinside := howes.touches.2
      have hfront : stream.origin number < stream.cut (reception.indexOf oldest) := by
        by_contra hge
        have htail := howes.tail (Nat.le_of_not_lt hge)
        change stream.cut (reception.indexOf oldest) + oldest.size ≤ _ at htail
        change stream.origin number < stream.cut (reception.indexOf oldest + 1) at hinside
        omega
      constructor
      · intro hwhole
        have hlow := (hopened.gathers number hwhole).startsIn.2.1
        omega
      · refine owed_cons.2 (Or.inl ⟨rfl, howes.touches, fun hge => ?_, fun _ _ => hlead, ?_⟩)
        · omega
        · intro _ hstarts
          rw [hopened.starts] at hstarts
          cases hstarts
    · exact absurd howed owed_nil
  · rintro ⟨hwhole, howed⟩
    rw [owed_cons] at howed
    rcases howed with ⟨rfl, howes⟩ | ⟨entry, hentry, -, howes⟩
    · have hfront := (hopened.front number hnumber howes).resolve_left hwhole
      have hlead := howes.lead hfront hopened.starts
      rw [if_pos hlead]
      refine owed_cons.2 (Or.inl ⟨rfl, howes.touches, fun hge => ?_, fun _ _ => hlead, ?_⟩)
      · exact absurd hfront (Nat.not_lt_of_le hge)
      · intro _ hstarts
        have hplain : oldest.startsPacket = false := hstarts
        rw [hopened.starts] at hplain
        cases hplain
    · exact absurd (hopened.free entry hentry number hnumber howes) hwhole

/-- What closing a packet leaves owes only lead bytes. -/
theorem front_of_closing {packet : OpenPacket} {oldest : Waiting} {others : List Waiting}
    (how : Release) (hentries : packet.entries.reverse = oldest :: others)
    (hpacket : reception.Composed packet) :
    ∀ entry ∈ (closing how (some packet)).1, reception.FrontOnly entry ∧
      (0 < entry.lead ∨ entry.next < entry.size) := by
  intro entry hmem
  have hlawful := lawful_of_closing hpacket how entry hmem
  rw [closing_eq how packet hentries] at hmem
  split at hmem
  · rename_i hlead
    rw [List.mem_singleton.1 hmem] at hlawful ⊢
    exact ⟨fun number hnumber howes =>
      (hlawful.lead_of_owes (Nat.le_refl _) hnumber howes).1, Or.inl hlead⟩
  · cases hmem

section Gathers

variable {oldest entry : Waiting} {others : List Waiting} {opened content : Gathering}
  {number : Nat} (hentry : reception.Lawful entry)
  (hgathers : reception.Gathers oldest others opened (reception.indexOf entry) number)
include hentry hgathers

theorem Gathers.intact : reception.intact (reception.indexOf entry) :=
  hentry.intact_of_touches hgathers.unspoiled (hgathers.crosses.touches hentry.index_lt)

/-- The lead bytes that an entry owes to a gathered packet complete it. -/
theorem Gathers.finish_spec (hproper : content.Proper) (hstarts : entry.startsPacket = true)
    (howes : reception.Owes entry number)
    (hcells : content.cells = opened.cells ++ entry.segment.cells.take entry.lead) :
    ∃ packet, stream.packets[number]? = some packet ∧
      content.completeSize? = some packet.size ∧
      reception.Shows number (handedOut content packet.size) ∧
      stream.origin (number + 1) < stream.cut (reception.indexOf entry + 1) := by
  have hlead := howes.lead hgathers.crosses.1 hstarts
  exact lead_spec hentry (hgathers.intact hentry) hgathers.unspoiled.1 hgathers.crosses
    hgathers.range hproper hstarts hlead hcells

/-- An entry without a packet start that owes bytes to a gathered packet continues it by all its
bytes. -/
theorem Gathers.continue_spec (hproper : content.Proper) (hstarts : entry.startsPacket = false)
    (howes : reception.Owes entry number)
    (hcells : content.cells = opened.cells ++ entry.segment.cells.drop entry.next) :
    ∃ packet, stream.packets[number]? = some packet ∧
      stream.cut (reception.indexOf entry + 1) ≤ stream.origin (number + 1) ∧
      reception.CarriesRange (stream.origin number)
        (stream.cut (reception.indexOf entry + 1)) content.cells ∧
      content.completeSize? =
        if stream.origin (number + 1) ≤ stream.cut (reception.indexOf entry + 1) then
          some packet.size
        else none := by
  have hintact := hgathers.intact hentry
  obtain ⟨packet, hpacket, hrange, hcomplete⟩ := whole_spec hentry hintact hgathers.unspoiled.1
    hgathers.crosses hgathers.range hproper (howes.middle hgathers.crosses.1 hstarts) hcells
  exact ⟨packet, hpacket, hentry.covers hintact hstarts hgathers.crosses, hrange, hcomplete⟩

/-- Every segment that a gathered packet touches is held by its entries or by the one at hand, if
the packet ends there, and owes it. -/
theorem Gathers.owed (howes : reception.Owes entry number)
    (hindices : (oldest :: others ++ [entry]).map reception.indexOf =
      List.range' (reception.indexOf oldest) (others.length + 2))
    (hlawful : ∀ other ∈ oldest :: others, reception.Lawful other)
    (hend : stream.origin (number + 1) ≤ stream.cut (reception.indexOf entry + 1)) {index : Nat}
    (htouches : stream.Touches index number) :
    index < stream.segments.length ∧
      reception.Owed (oldest :: others ++ [entry]) index number := by
  obtain ⟨hlow, hhigh⟩ := htouches.bounds hgathers.startsIn.2.1 hend
  have hlength : reception.indexOf entry = reception.indexOf oldest + (others.length + 1) := by
    have hlast := congrArg (fun indices => indices[others.length + 1]?) hindices
    simpa using hlast
  have hmem : index ∈ (oldest :: others ++ [entry]).map reception.indexOf := by
    rw [hindices, List.mem_range'_1]
    omega
  obtain ⟨other, hother, rfl⟩ := List.mem_map.1 hmem
  have hall : ∀ other ∈ oldest :: others ++ [entry], reception.Lawful other := by
    intro other hother
    rcases List.mem_append.1 hother with hold | hnew
    · exact hlawful other hold
    · rw [List.mem_singleton.1 hnew]
      exact hentry
  refine ⟨(hall other hother).index_lt, other, hother, rfl, ?_⟩
  rcases List.mem_append.1 hother with hold | hnew
  · rcases List.mem_cons.1 hold with rfl | hmiddle
    · refine ⟨htouches, fun _ => Nat.le_of_eq hgathers.origin_eq.symm, fun hlt => ?_,
        fun hlt => ?_⟩
      · exact absurd hlt (Nat.not_lt_of_le hgathers.startsIn.2.1)
      · exact absurd hlt (Nat.not_lt_of_le hgathers.startsIn.2.1)
    · have hsorted := List.pairwise_lt_range' (s := reception.indexOf oldest)
        (n := others.length + 2) 1
      rw [← hindices, List.map_append, List.map_cons, List.cons_append,
        List.pairwise_cons] at hsorted
      have hlater := hsorted.1 (reception.indexOf other)
        (List.mem_append_left _ (List.mem_map_of_mem hmiddle))
      have hmono := stream.cut_mono (Nat.succ_le_of_lt hlater)
      have hinside := hgathers.startsIn.2.2
      simp only [Nat.succ_eq_add_one] at hmono
      obtain ⟨hplain, hnext⟩ := hgathers.plain other hmiddle
      refine ⟨htouches, fun hge => ?_, fun _ hstarts => ?_, fun _ _ => hnext⟩
      · omega
      · rw [hplain] at hstarts
        cases hstarts
  · rw [List.mem_singleton.1 hnew]
    exact howes

end Gathers

end Reception

end Ccf
