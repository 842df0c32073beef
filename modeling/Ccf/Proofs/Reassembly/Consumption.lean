import Ccf.Proofs.Reassembly.WireRuns

/-!
# What becomes of the bytes of recycled segments

A segment without a packet start is recycled when all its bytes have been handed out.  One with a
packet start need not have been: a step may give up some of its bytes and keep the segment, which is
recycled later.  This happens to lead bytes after the end of the packet that they complete, to lead
bytes that complete no packet, and to the first bytes of a packet that is given up, if the segment
stays because it owes lead bytes.  No other byte of a recycled segment is missing.
-/

namespace Ccf

namespace Walk

/-- Bytes that a step at `entry` gives up, with the given packet open, although their segment
stays. -/
inductive Forfeits (entry : Waiting) (packet : OpenPacket) : Segment → List Cell → Prop
  /-- Lead bytes after the end of the packet that they complete. -/
  | surplus {content : Gathering} {block : Nat} (hstarts : entry.startsPacket = true)
      (hinside : entry.firstStart < entry.size) (hproper : content.Proper)
      (hcells : content.cells = packet.content.cells ++ entry.segment.cells.take entry.lead)
      (hcomplete : content.completeSize? = some block) :
      Forfeits entry packet entry.segment
        ((entry.segment.cells.take entry.lead).drop (block - packet.content.size))
  /-- Lead bytes that do not complete it. -/
  | contradicted {content : Gathering} (hstarts : entry.startsPacket = true)
      (hinside : entry.firstStart < entry.size) (hproper : content.Proper)
      (hcells : content.cells = packet.content.cells ++ entry.segment.cells.take entry.lead)
      (hopen : content.completeSize? = none) :
      Forfeits entry packet entry.segment (entry.segment.cells.take entry.lead)
  /-- The first bytes of a packet that is given up, if the lead bytes before them are owed. -/
  | abandoned {oldest : Waiting} {others : List Waiting} (hstarts : entry.startsPacket = true)
      (hgiven : entry.size ≤ entry.firstStart ∨ ∃ content : Gathering, content.Proper ∧
        content.cells = packet.content.cells ++ entry.segment.cells.take entry.lead ∧
        content.completeSize? = none)
      (hentries : packet.entries.reverse = oldest :: others) (hlead : 0 < oldest.lead) :
      Forfeits entry packet oldest.segment (oldest.segment.cells.drop oldest.next)

end Walk

/-- The step gives up a byte of a segment that stays. -/
def WalkStep.Forfeits (step : WalkStep) (segment : Segment) (cell : Cell) : Prop :=
  ∃ entry rest packet cells, step.before.ahead = entry :: rest ∧
    step.before.pending = some packet ∧ Walk.Forfeits entry packet segment cells ∧ cell ∈ cells

section Accounts

variable (forfeited : Segment → Cell → Prop) (tables : List PieceTable)

def Spent (segment : Segment) (cell : Cell) : Prop :=
  cell ∈ tables.flatMap PieceTable.cells ∨ segment.header.pfi = true ∧ forfeited segment cell

/-- All bytes between what the entry owes and its cursor are spent. -/
def Waiting.Accounted (entry : Waiting) : Prop :=
  ∀ cell ∈ (entry.segment.cells.take entry.next).drop entry.lead,
    Spent forfeited tables entry.segment cell

def Segment.Consumed (segment : Segment) : Prop :=
  ∀ cell ∈ segment.cells, Spent forfeited tables segment cell

/-- Every segment is consumed when it is recycled, `tables` having been handed out before. -/
def Orderly : List PieceTable → List ReassemblerReport → Prop
  | _, [] => True
  | tables, report :: later =>
    (∀ segment, report = .recycled segment → segment.Consumed forfeited tables) ∧
      Orderly (tables ++ deliveredTables [report]) later

/-- Every segment that the reports recycle is consumed, and the entries `left` are accounted after
them. -/
structure Reckoned (left : List Waiting) (reports : List ReassemblerReport) : Prop where
  accounted : ∀ other ∈ left, other.Accounted forfeited (tables ++ deliveredTables reports)
  orderly : Orderly forfeited tables reports

end Accounts

variable {forfeited : Segment → Cell → Prop} {tables : List PieceTable}

theorem Spent.mono {segment : Segment} {cell : Cell} (hspent : Spent forfeited tables segment cell)
    (more : List PieceTable) : Spent forfeited (tables ++ more) segment cell := by
  refine hspent.imp_left fun hdelivered => ?_
  rw [List.flatMap_append]
  exact List.mem_append_left _ hdelivered

/-- A byte of the last table. -/
theorem Spent.of_mem {segment : Segment} {cell : Cell} {table : PieceTable}
    (hcell : cell ∈ table.cells) : Spent forfeited (tables ++ [table]) segment cell := by
  refine Or.inl ?_
  rw [List.flatMap_append, List.flatMap_singleton]
  exact List.mem_append_right _ hcell

theorem Waiting.Accounted.mono {entry : Waiting} (haccounted : entry.Accounted forfeited tables)
    (more : List PieceTable) : entry.Accounted forfeited (tables ++ more) :=
  fun cell hcell => (haccounted cell hcell).mono more

theorem orderly_append {reports later : List ReassemblerReport} :
    Orderly forfeited tables (reports ++ later) ↔
      Orderly forfeited tables reports ∧
        Orderly forfeited (tables ++ deliveredTables reports) later := by
  induction reports generalizing tables with
  | nil => simp [Orderly]
  | cons report rest ih =>
    have htables : tables ++ deliveredTables [report] ++ deliveredTables rest =
        tables ++ deliveredTables (report :: rest) := by
      rw [List.append_assoc, ← deliveredTables_append, List.singleton_append]
    rw [List.cons_append, Orderly, ih, htables, Orderly, and_assoc]

/-- Reports that deliver nothing and recycle consumed segments. -/
theorem orderly_of_consumed {reports : List ReassemblerReport}
    (hsilent : deliveredTables reports = [])
    (hconsumed : ∀ segment, .recycled segment ∈ reports → segment.Consumed forfeited tables) :
    Orderly forfeited tables reports := by
  induction reports with
  | nil => trivial
  | cons report rest ih =>
    rw [← List.singleton_append, deliveredTables_append, List.append_eq_nil_iff] at hsilent
    refine ⟨fun segment hreport => hconsumed segment (hreport ▸ List.mem_cons_self), ?_⟩
    rw [hsilent.1, List.append_nil]
    exact ih hsilent.2 fun segment hmem => hconsumed segment (List.mem_cons_of_mem _ hmem)

/-- Nothing is delivered, and what is recycled has been consumed. -/
theorem reckoned_silent {left : List Waiting} {reports : List ReassemblerReport}
    (hsilent : deliveredTables reports = [])
    (hleft : ∀ other ∈ left, other.Accounted forfeited tables)
    (hconsumed : ∀ segment, .recycled segment ∈ reports → segment.Consumed forfeited tables) :
    Reckoned forfeited tables left reports where
  accounted := by rwa [hsilent, List.append_nil]
  orderly := orderly_of_consumed hsilent hconsumed

/-- One table is delivered, and what is recycled after it has been consumed with it. -/
theorem reckoned_delivered {table : PieceTable} (answer : Answer) {left : List Waiting}
    {reports : List ReassemblerReport} (hsilent : deliveredTables reports = [])
    (hleft : ∀ other ∈ left, other.Accounted forfeited (tables ++ [table]))
    (hconsumed : ∀ segment, .recycled segment ∈ reports →
      segment.Consumed forfeited (tables ++ [table])) :
    Reckoned forfeited tables left (.delivered table answer :: reports) where
  accounted := by rwa [deliveredTables_cons_delivered, hsilent]
  orderly := ⟨fun _ hreport => (by cases hreport), orderly_of_consumed hsilent hconsumed⟩

/-- A byte after the lead is before the cursor or after it. -/
theorem mem_take_drop_or {cells : List Cell} {cell : Cell} {lead : Nat}
    (hcell : cell ∈ cells.drop lead) (next : Nat) :
    cell ∈ (cells.take next).drop lead ∨ cell ∈ cells.drop next := by
  rw [← List.take_append_drop next cells, List.drop_append] at hcell
  exact (List.mem_append.1 hcell).imp_right List.mem_of_mem_drop

theorem Waiting.Coherent.lead_eq_zero {entry : Waiting} (hentry : entry.Coherent)
    (hstarts : entry.startsPacket = false) : entry.lead = 0 :=
  Nat.eq_zero_of_not_pos fun hlead =>
    absurd (hstarts.symm.trans (hentry.startsPacket_of_lead hlead)) (by decide)

namespace Walk

section Closing

variable {packet : OpenPacket} (hpacket : packet.Unfinished)
  (hcoherent : ∀ other ∈ packet.entries.reverse, other.Coherent)
include hpacket hcoherent

/-- Lead bytes are owed by the oldest entry of an open packet only. -/
theorem eq_oldest_of_lead {oldest other : Waiting} {others : List Waiting}
    (hentries : packet.entries.reverse = oldest :: others)
    (hother : other ∈ packet.entries.reverse) (hlead : 0 < other.lead) : other = oldest := by
  have hstarts := (hcoherent other hother).startsPacket_of_lead hlead
  obtain ⟨first, later, hopened, -, -, hlater⟩ := hpacket.opened
  rw [hentries] at hopened hother
  rw [(List.cons.inj hopened).2] at hother
  rcases List.mem_cons.1 hother with rfl | hmem
  · rfl
  · exact absurd (hstarts.symm.trans (hlater other hmem).1) (by decide)

variable {how : Release}
  (haccounted : ∀ other ∈ packet.entries.reverse, other.Accounted forfeited tables)
  (hrest : ∀ other ∈ packet.entries.reverse, how = .recycle ∨ 0 < other.lead →
    ∀ cell ∈ other.segment.cells.drop other.next, Spent forfeited tables other.segment cell)
include haccounted hrest

/-- A packet whose bytes are spent is closed: the entry that stays is accounted, and those that are
recycled are consumed. -/
theorem closing_accounted :
    (∀ other ∈ (closing how (some packet)).1, other.Accounted forfeited tables) ∧
      ∀ segment, .recycled segment ∈ (closing how (some packet)).2 →
        segment.Consumed forfeited tables := by
  have hspent : ∀ other ∈ packet.entries.reverse, how = .recycle ∨ 0 < other.lead →
      ∀ cell ∈ other.segment.cells.drop other.lead, Spent forfeited tables other.segment cell :=
    fun other hother hhow cell hcell =>
      (mem_take_drop_or hcell other.next).elim (haccounted other hother cell)
        (hrest other hother hhow cell)
  constructor
  · intro other hother cell hcell
    obtain ⟨oldest, holdest, hlead, rfl⟩ := mem_closing hother
    rw [take_size_cells] at hcell
    exact hspent oldest holdest (Or.inr hlead) cell hcell
  · intro segment hrecycled
    obtain ⟨oldest, others, hentries, -, -, hothers⟩ := hpacket.opened
    have hconsumed : ∀ other ∈ packet.entries.reverse, other.lead = 0 →
        how.report other.segment = .recycled segment → segment.Consumed forfeited tables := by
      intro other hother hlead hreport cell hcell
      cases how with
      | drop => cases hreport
      | recycle =>
        cases hreport
        exact hspent other hother (Or.inl rfl) cell (by rwa [hlead])
    have hlater : ∀ other ∈ others, how.report other.segment = .recycled segment →
        segment.Consumed forfeited tables := fun other hother => by
      have hmem : other ∈ packet.entries.reverse := hentries ▸ List.mem_cons_of_mem _ hother
      exact hconsumed other hmem ((hcoherent other hmem).lead_eq_zero (hothers other hother).1)
    rw [closing, hentries, retire] at hrecycled
    split at hrecycled
    · obtain ⟨other, hother, hreport⟩ := List.mem_map.1 hrecycled
      exact hlater other hother hreport
    · rename_i hlead
      obtain ⟨other, hother, hreport⟩ := List.mem_map.1 hrecycled
      rcases List.mem_cons.1 hother with rfl | hmem
      · exact hconsumed other (hentries ▸ List.mem_cons_self) (Nat.eq_zero_of_not_pos hlead)
          hreport
      · exact hlater other hmem hreport

end Closing

/-! ## Visits -/

section Visits

variable {entry : Waiting} {pending later : Option OpenPacket} {stays back : List Waiting}
  {reports : List ReassemblerReport}

section Completing

variable {packet : OpenPacket} (hpacket : packet.Unfinished) {content : Gathering}
  {more : List Cell} {block : Nat} (hproper : content.Proper)
  (hcells : content.cells = packet.content.cells ++ more)
  (hcomplete : content.completeSize? = some block)
include hpacket hproper hcells hcomplete

/-- The unparsed bytes of the entries of an open packet are in the table that is handed out when it
is complete. -/
theorem spent_rest {other : Waiting} (hother : other ∈ packet.entries.reverse) {cell : Cell}
    (hcell : cell ∈ other.segment.cells.drop other.next) :
    Spent forfeited (tables ++ [handedOut content block]) other.segment cell := by
  obtain ⟨-, -, hhanded⟩ := cells_handedOut_of_completes hpacket.proper hproper hcells
    hpacket.incomplete hcomplete
  refine Spent.of_mem ?_
  rw [hhanded, hpacket.cells_eq]
  refine List.mem_append_left _ (List.mem_flatMap.2 ⟨other.rest, List.mem_map_of_mem hother, ?_⟩)
  rwa [Waiting.cells_rest]

/-- So are the bytes that complete it, up to the end of the packet. -/
theorem spent_front {segment : Segment} {cell : Cell}
    (hcell : cell ∈ more.take (block - packet.content.size)) :
    Spent forfeited (tables ++ [handedOut content block]) segment cell := by
  obtain ⟨-, -, hhanded⟩ := cells_handedOut_of_completes hpacket.proper hproper hcells
    hpacket.incomplete hcomplete
  refine Spent.of_mem ?_
  rw [hhanded]
  exact List.mem_append_right _ hcell

end Completing

/-- An entry gives up its claim on the lead bytes when they are spent. -/
theorem accounted_settled (hentry : entry.Accounted forfeited tables)
    (hlead : ∀ cell ∈ entry.segment.cells.take entry.lead,
      Spent forfeited tables entry.segment cell) :
    Waiting.Accounted forfeited tables { entry with lead := 0 } := by
  intro cell hcell
  rcases mem_take_drop_or hcell entry.lead with hfront | hback
  · refine hlead cell ?_
    rw [List.drop_zero, List.take_take] at hfront
    exact List.take_subset_take_left _ (Nat.min_le_left _ _) hfront
  · exact hentry cell hback

/-- A packet is closed after it has been handed out. -/
theorem closing_handedOut {packet : OpenPacket} (hpacket : packet.Unfinished)
    (hcoherent : ∀ other ∈ packet.entries.reverse, other.Coherent)
    (haccounted : ∀ other ∈ packet.entries.reverse, other.Accounted forfeited tables)
    {content : Gathering} {more : List Cell} {block : Nat} (hproper : content.Proper)
    (hcells : content.cells = packet.content.cells ++ more)
    (hcomplete : content.completeSize? = some block) :
    (∀ other ∈ (closing .recycle (some packet)).1,
        other.Accounted forfeited (tables ++ [handedOut content block])) ∧
      ∀ segment, .recycled segment ∈ (closing .recycle (some packet)).2 →
        segment.Consumed forfeited (tables ++ [handedOut content block]) :=
  closing_accounted hpacket hcoherent (fun other hother => (haccounted other hother).mono _)
    fun _ hother _ _ hcell => spent_rest hpacket hproper hcells hcomplete hother hcell

/-- A packet is closed that an entry contradicts. -/
theorem closing_givenUp {packet : OpenPacket} (hpacket : packet.Unfinished)
    (hcoherent : ∀ other ∈ packet.entries.reverse, other.Coherent)
    (haccounted : ∀ other ∈ packet.entries.reverse, other.Accounted forfeited tables)
    (hforfeits : ∀ segment cells,
      Forfeits entry packet segment cells → ∀ cell ∈ cells, forfeited segment cell)
    (hstarts : entry.startsPacket = true)
    (hgiven : entry.size ≤ entry.firstStart ∨ ∃ content : Gathering, content.Proper ∧
      content.cells = packet.content.cells ++ entry.segment.cells.take entry.lead ∧
      content.completeSize? = none) :
    (∀ other ∈ (closing .drop (some packet)).1, other.Accounted forfeited tables) ∧
      ∀ segment, .recycled segment ∈ (closing .drop (some packet)).2 →
        segment.Consumed forfeited tables := by
  refine closing_accounted hpacket hcoherent haccounted fun other hother hhow cell hcell => ?_
  have hlead : 0 < other.lead := hhow.resolve_left (by decide)
  obtain ⟨oldest, others, hentries, -, -, -⟩ := hpacket.opened
  have holdest := eq_oldest_of_lead hpacket hcoherent hentries hother hlead
  rw [← holdest] at hentries
  exact Or.inr ⟨(hcoherent other hother).startsPacket_of_lead hlead,
    hforfeits _ _ (.abandoned hstarts hgiven hentries hlead) cell hcell⟩

/-- A packet is handed out and closed, with entries to be looked at again and further reports. -/
theorem reckoned_handedOut {packet : OpenPacket} (hpacket : packet.Unfinished)
    (hcoherent : ∀ other ∈ packet.entries.reverse, other.Coherent)
    (haccounted : ∀ other ∈ packet.entries.reverse, other.Accounted forfeited tables)
    {content : Gathering} {more : List Cell} {block : Nat} (answer : Answer)
    (hproper : content.Proper) (hcells : content.cells = packet.content.cells ++ more)
    (hcomplete : content.completeSize? = some block) {tail : List ReassemblerReport}
    (htail : deliveredTables tail = []) (hkept : ∀ segment, .recycled segment ∉ tail)
    (hback : ∀ other ∈ back, other.Accounted forfeited (tables ++ [handedOut content block])) :
    Reckoned forfeited tables ((closing .recycle (some packet)).1 ++ openEntries none ++ back)
      (.delivered (handedOut content block) answer ::
        ((closing .recycle (some packet)).2 ++ tail)) := by
  obtain ⟨hstays, hconsumed⟩ :=
    closing_handedOut hpacket hcoherent haccounted hproper hcells hcomplete
  apply reckoned_delivered
  · rw [deliveredTables_append, deliveredTables_closing, htail, List.append_nil]
  · rw [openEntries, List.append_nil]
    exact List.forall_mem_append.2 ⟨hstays, hback⟩
  · intro segment hrecycled
    exact hconsumed segment ((List.mem_append.1 hrecycled).resolve_right (hkept segment))

/-- The bytes of a packet that begins and ends in the entry are parsed. -/
theorem accounted_parsed (hentry : entry.Accounted forfeited tables) {content : Gathering}
    {block : Nat} (hunparsed : entry.next < entry.size)
    (hcells : content.cells = entry.segment.cells.drop entry.next)
    (hcomplete : content.completeSize? = some block) :
    (parsedTo entry content block).Accounted forfeited
      (tables ++ [handedOut content block]) := by
  obtain ⟨hnext, -⟩ := parsedTo_next_of_cells hunparsed hcells hcomplete
  intro cell hcell
  rw [hnext] at hcell
  rcases mem_take_drop_or hcell entry.next with hfront | hback
  · rw [List.take_take, Nat.min_eq_left (Nat.le_add_right _ _)] at hfront
    exact (hentry cell hfront).mono _
  · refine Spent.of_mem ?_
    rw [cells_handedOut, hcells, List.take_drop]
    exact hback

/-- The lead bytes finish the open packet; those after its end are given up. -/
theorem accounted_finished {packet : OpenPacket} (hpacket : packet.Unfinished)
    (hentry : entry.Accounted forfeited tables)
    (hforfeits : ∀ segment cells,
      Forfeits entry packet segment cells → ∀ cell ∈ cells, forfeited segment cell)
    {content : Gathering} {block : Nat} (hstarts : entry.startsPacket = true)
    (hinside : entry.firstStart < entry.size) (hproper : content.Proper)
    (hcells : content.cells = packet.content.cells ++ entry.segment.cells.take entry.lead)
    (hcomplete : content.completeSize? = some block) :
    Waiting.Accounted forfeited (tables ++ [handedOut content block])
      { entry with lead := 0 } := by
  refine accounted_settled (hentry.mono _) fun cell hcell => ?_
  rw [← List.take_append_drop (block - packet.content.size)
    (entry.segment.cells.take entry.lead)] at hcell
  rcases List.mem_append.1 hcell with hfront | hback
  · exact spent_front hpacket hproper hcells hcomplete hfront
  · exact Or.inr ⟨hstarts, hforfeits _ _
      (.surplus hstarts hinside hproper hcells hcomplete) cell hback⟩

/-- All of the entry is needed to complete the open packet. -/
theorem accounted_completed {packet : OpenPacket} (hpacket : packet.Unfinished)
    (hnext : entry.next = 0) {content : Gathering} {block : Nat} (hproper : content.Proper)
    (hcells : content.cells = packet.content.cells ++ entry.segment.cells.drop entry.next)
    (hcomplete : content.completeSize? = some block)
    (hparsed : entry.size ≤ (parsedTo entry content block).next) :
    (parsedTo entry content block).Accounted forfeited
      (tables ++ [handedOut content block]) := by
  have hsize := congrArg List.length hcells
  rw [List.length_append, Gathering.length_cells, Gathering.length_cells, hnext, List.drop_zero,
    Segment.length_cells] at hsize
  have hends : entry.segment.size ≤ block - packet.content.size := by
    simp only [parsedTo, Waiting.size] at hparsed
    omega
  intro cell hcell
  refine spent_front hpacket hproper hcells hcomplete ?_
  rw [hnext, List.drop_zero, List.take_of_length_le (by rwa [Segment.length_cells])]
  exact List.mem_of_mem_take (List.mem_of_mem_drop hcell)

/-- A visit leaves entries accounted and recycles consumed segments, if what it gives up is
counted. -/
theorem reckoned_of_visits
    (hopen : ∀ other ∈ openEntries pending, other.Coherent)
    (hpending : ∀ packet, pending = some packet → packet.Unfinished)
    (hfresh : ∀ packet, pending = some packet → entry.Fresh)
    (hforfeits : ∀ packet, pending = some packet → ∀ segment cells,
      Forfeits entry packet segment cells → ∀ cell ∈ cells, forfeited segment cell)
    (haccounted : ∀ other ∈ openEntries pending ++ [entry], other.Accounted forfeited tables)
    (hvisits : Visits entry pending stays later back reports) :
    Reckoned forfeited tables (stays ++ openEntries later ++ back) reports := by
  obtain ⟨hheld, hhand⟩ := List.forall_mem_append.1 haccounted
  have hentry : entry.Accounted forfeited tables := List.forall_mem_singleton.1 hhand
  have hnothing (segment : Segment)
      (hrecycled : .recycled segment ∈ ([] : List ReassemblerReport)) :
      segment.Consumed forfeited tables := by cases hrecycled
  cases hvisits with
  | reject hstarts hpast =>
    have hgiven : (∀ other ∈ (closing .drop pending).1, other.Accounted forfeited tables) ∧
        ∀ segment, .recycled segment ∈ (closing .drop pending).2 →
          segment.Consumed forfeited tables := by
      cases pending with
      | none => exact ⟨List.forall_mem_nil _, hnothing⟩
      | some packet =>
        exact closing_givenUp (hpending packet rfl) hopen hheld (hforfeits packet rfl) hstarts
          (Or.inl hpast)
    rw [openEntries, List.append_nil, List.append_nil]
    refine reckoned_silent (by simp) hgiven.1 fun segment hrecycled => hgiven.2 segment ?_
    simpa using hrecycled
  | letGo hparsed hlead =>
    refine reckoned_silent rfl (List.forall_mem_nil _) fun segment hrecycled cell hcell => ?_
    obtain rfl : segment = entry.segment := by simpa using hrecycled
    refine hentry cell ?_
    rwa [hlead, List.drop_zero, List.take_of_length_le]
    rw [Segment.length_cells]
    exact hparsed
  | owe => exact reckoned_silent rfl hhand hnothing
  | await => exact reckoned_silent rfl hhand hnothing
  | parse answer hstarts hunparsed hproper hcells hcomplete =>
    refine reckoned_delivered answer rfl ?_ fun segment hrecycled => (by cases hrecycled)
    exact List.forall_mem_singleton.2 (accounted_parsed hentry hunparsed hcells hcomplete)
  | «begin» => exact reckoned_silent rfl hhand hnothing
  | @finish packet content block answer hstarts hinside hproper hcells hcomplete =>
    have hsettled := accounted_finished (hpending packet rfl) hentry (hforfeits packet rfl)
      hstarts hinside hproper hcells hcomplete
    have hall := reckoned_handedOut (hpending packet rfl) hopen hheld answer hproper hcells
      hcomplete deliveredTables_nil (fun _ => List.not_mem_nil)
      (List.forall_mem_singleton.2 hsettled)
    rwa [List.append_nil] at hall
  | @abandon packet content hstarts hinside hproper hcells hopened =>
    have hgiven := closing_givenUp (hpending packet rfl) hopen hheld (hforfeits packet rfl) hstarts
      (Or.inr ⟨content, hproper, hcells, hopened⟩)
    have hsettled : Waiting.Accounted forfeited tables { entry with lead := 0 } :=
      accounted_settled hentry fun cell hcell => Or.inr ⟨hstarts, hforfeits packet rfl _ _
        (.contradicted hstarts hinside hproper hcells hopened) cell hcell⟩
    rw [openEntries, List.append_nil]
    exact reckoned_silent (by simp)
      (List.forall_mem_append.2 ⟨hgiven.1, List.forall_mem_singleton.2 hsettled⟩) hgiven.2
  | @complete packet content block answer hstarts hproper hcells hcomplete hparsed =>
    have hspent : (parsedTo entry content block).Accounted forfeited
        (tables ++ [handedOut content block]) :=
      accounted_completed (hpending packet rfl) (hfresh packet rfl hstarts) hproper hcells
        hcomplete hparsed
    have hall := reckoned_handedOut (hpending packet rfl) hopen hheld answer hproper hcells
      hcomplete deliveredTables_nil (fun _ => List.not_mem_nil)
      (List.forall_mem_singleton.2 hspent)
    rwa [List.append_nil] at hall
  | @overrun packet content block answer hstarts hproper hcells hcomplete hunparsed =>
    exact reckoned_handedOut (hpending packet rfl) hopen hheld answer hproper hcells hcomplete
      (deliveredTables_dropped _) (by simp) (List.forall_mem_nil _)
  | «continue» =>
    rw [openEntries, List.nil_append, List.append_nil, List.reverse_cons]
    exact reckoned_silent rfl haccounted hnothing

end Visits

end Walk

/-! ## Runs -/

/-- The entries are as they are between calls, and all bytes are accounted for. -/
structure Balanced (forfeited : Segment → Cell → Prop) (reports : List ReassemblerReport)
    (entries : List Waiting) : Prop where
  steady : ∀ entry ∈ entries, entry.IsSteady
  accounted : ∀ entry ∈ entries, entry.Accounted forfeited (deliveredTables reports)
  orderly : Orderly forfeited [] reports

namespace Balanced

variable {reports : List ReassemblerReport} {entries : List Waiting}

theorem lasting (forfeited : Segment → Cell → Prop) :
    Lasting fun _ reports entries => Balanced forfeited reports entries where
  leaves _ _ _ _ hbalanced hsubperm :=
    { steady := fun entry hentry => hbalanced.steady entry (hsubperm.subset hentry)
      accounted := fun entry hentry => hbalanced.accounted entry (hsubperm.subset hentry)
      orderly := hbalanced.orderly }
  reports _ reports more _ hbalanced hidle := by
    obtain ⟨hdelivered, hrecycled⟩ := hidle
    refine ⟨hbalanced.steady, ?_, orderly_append.2 ⟨hbalanced.orderly, ?_⟩⟩
    · rw [deliveredTables_append, hdelivered, List.append_nil]
      exact hbalanced.accounted
    · refine orderly_of_consumed hdelivered fun segment hsegment => ?_
      have hmem : segment ∈ recycledSegments more :=
        List.mem_filterMap.2 ⟨_, hsegment, rfl⟩
      rw [hrecycled] at hmem
      cases hmem
  arrives _ reports entries segment reassembler now hbalanced :=
    { steady := List.forall_mem_append.2 ⟨hbalanced.steady,
        List.forall_mem_singleton.2 ⟨.arriving _ _ _, .arriving _ _ _⟩⟩
      accounted := by
        refine List.forall_mem_append.2 ⟨hbalanced.accounted, List.forall_mem_singleton.2 ?_⟩
        intro cell hcell
        simp [Reassembler.arriving] at hcell
      orderly := hbalanced.orderly }

/-- A tour keeps the balance, if what its steps give up is counted. -/
theorem keeps {forfeited : Segment → Cell → Prop} {tour : Tour}
    (hforfeits : ∀ step ∈ tour.steps, ∀ segment cell,
      step.Forfeits segment cell → forfeited segment cell) :
    tour.Keeps fun _ reports entries => Balanced forfeited reports entries := by
  intro _ reports aside hbalanced
  have hrun : ∀ entry ∈ tour.run, entry.IsSteady := fun entry hentry =>
    hbalanced.steady entry (List.mem_append_right _ hentry)
  have hstep : ∀ step ∈ tour.steps, ∀ earlier, step.before.Steady →
      (∀ entry ∈ aside ++ step.before.held,
          entry.Accounted forfeited (deliveredTables earlier)) ∧ Orderly forfeited [] earlier →
      ∀ entry rest stays later back, step.before.ahead = entry :: rest →
        Walk.Makes step.before entry rest step.outcome stays later back →
        (∀ entry ∈ aside ++ step.outcome.walk.held,
            entry.Accounted forfeited (deliveredTables (earlier ++ step.outcome.reports))) ∧
          Orderly forfeited [] (earlier ++ step.outcome.reports) := by
    intro step hstep earlier hsteady hbefore entry rest stays later back hahead hmakes
    obtain ⟨haccounted, horderly⟩ := hbefore
    obtain ⟨haside, hheld⟩ := List.forall_mem_append.1 haccounted
    obtain ⟨hleft, hvisit⟩ := Walk.reckoned_of_visits (hsteady.coherent_open hahead)
      hsteady.unfinished (hsteady.fresh_at hahead)
      (fun packet hpacket segment cells hgives cell hcell => hforfeits step hstep segment cell
        ⟨entry, rest, packet, cells, hahead, hpacket, hgives, hcell⟩)
      (fun other hother => hheld other (Walk.mem_held hahead other hother)) hmakes.visits
    rw [deliveredTables_append]
    refine ⟨List.forall_mem_append.2 ⟨fun other hother => (haside other hother).mono _,
      fun other hother => ?_⟩, orderly_append.2 ⟨horderly, by rwa [List.nil_append]⟩⟩
    rcases List.mem_append.1 ((Walk.held_perm_of_makes hmakes).subset hother) with hframe | hmade
    · exact (hheld other ((Walk.held_perm hahead).mem_iff.2
        (List.mem_append_left _ hframe))).mono _
    · exact hleft other hmade
  obtain ⟨-, haccounted, horderly⟩ := Tour.steps_keep hrun
    (fun reports walk => (∀ entry ∈ aside ++ walk.held,
      entry.Accounted forfeited (deliveredTables reports)) ∧ Orderly forfeited [] reports)
    reports ⟨hbalanced.accounted, hbalanced.orderly⟩ hstep
  exact ⟨List.forall_mem_append.2
    ⟨fun entry hentry => hbalanced.steady entry (List.mem_append_left _ hentry),
      Tour.isSteady_outcome hrun⟩, haccounted, horderly⟩

end Balanced

namespace Reassembler

/-- What has become of the bytes of a segment when it is recycled, after any calls with any
segments.  Each of them has been handed out in a packet before; or the segment has a packet start,
and a step of the run has given the byte up in one of the ways listed by `Walk.Forfeits`. -/
theorem run_accountsRecycled (settings : ReassemblerSettings) (calls : List ReassemblerCall)
    (earlier : List ReassemblerReport) (segment : Segment)
    (hrecycled : earlier ++ [.recycled segment] <+: ((start settings).run calls).reports) :
    ∀ cell ∈ segment.cells,
      cell ∈ (deliveredTables earlier).flatMap PieceTable.cells ∨
        segment.header.pfi = true ∧
          ∃ tour ∈ (start settings).tours calls, ∃ step ∈ tour.steps,
            step.Forfeits segment cell := by
  have hstart : Balanced
      (fun segment cell => ∃ tour ∈ (start settings).tours calls, ∃ step ∈ tour.steps,
        step.Forfeits segment cell) [] (start settings).window :=
    ⟨List.forall_mem_nil _, List.forall_mem_nil _, trivial⟩
  have hended := (run_keeps (Balanced.lasting _) (start settings) calls
    (fun tour htour => Balanced.keeps fun step hstep segment cell hgives =>
      ⟨tour, htour, step, hstep, hgives⟩) [] [] hstart).2.orderly
  obtain ⟨later, hreports⟩ := hrecycled
  rw [List.nil_append, ← hreports, orderly_append, orderly_append] at hended
  have hconsumed := hended.1.2.1 segment rfl
  rwa [List.nil_append] at hconsumed

namespace Sample

def arrives (segment : Segment) : ReassemblerCall :=
  .process (some segment) .zero { request := .accepted, packet := fun _ => .accepted }

/-- A packet begins, and all but its last byte are there. -/
def opening : Segment := .ofContent 0 { SegmentHeader.blank with pfi := true } [0, 0, 0, 1]

/-- Two bytes, of which the packet needs one, and then another packet. -/
def closing : Segment :=
  .ofContent 1 { SegmentHeader.blank with pfi := true, offmac := 2, sequence := 1 }
    [255, 238, 0, 1, 0, 0]

def calls : List ReassemblerCall := [arrives opening, arrives closing]

theorem drop_reports_calls :
    ((start .standard).run calls).reports.drop 3 = [.recycled closing] := by cbv

theorem places_calls :
    ((deliveredTables ((start .standard).run calls).reports).flatMap PieceTable.cells).map
        (fun cell => (cell.owner.id, cell.position)) =
      [(0, 0), (0, 1), (0, 2), (0, 3), (1, 0), (1, 2), (1, 3), (1, 4), (1, 5)] := by cbv

end Sample

/-- A segment with bytes for two packets. -/
theorem run_accountsRecycled_shared :
    let reports := ((start .standard).run Sample.calls).reports
    reports.take 3 ++ [.recycled Sample.closing] <+: reports ∧
      ∀ cell ∈ Sample.closing.cells,
        cell ∈ (deliveredTables (reports.take 3)).flatMap PieceTable.cells ∨
          Sample.closing.header.pfi = true ∧
            ∃ tour ∈ (start .standard).tours Sample.calls, ∃ step ∈ tour.steps,
              step.Forfeits Sample.closing cell := by
  intro reports
  have hbegins : reports.take 3 ++ [.recycled Sample.closing] <+: reports := by
    refine ⟨[], ?_⟩
    rw [← Sample.drop_reports_calls, List.append_nil]
    exact List.take_append_drop 3 reports
  exact ⟨hbegins, run_accountsRecycled .standard Sample.calls _ Sample.closing hbegins⟩

/-- The second byte before the packet start is handed out in neither packet, and its segment is
recycled. -/
theorem run_recyclesUndelivered :
    let reports := ((start .standard).run Sample.calls).reports
    Segment.ReadFrom [(0, [128, 0, 0, 0, 0, 0, 0, 0, 0, 0, 0, 1]),
        (1, [128, 2, 0, 8, 0, 0, 0, 0, 255, 238, 0, 1, 0, 0])]
        (ReassemblerCall.segments Sample.calls) ∧
      Sample.closing ∈ recycledSegments reports ∧
      ∃ cell ∈ Sample.closing.cells, cell ∉ (deliveredTables reports).flatMap PieceTable.cells := by
  intro reports
  refine ⟨.cons rfl (.cons rfl .nil), ?_, ⟨Packet.ofSegmentContent 1 Sample.closing.header
    [255, 238, 0, 1, 0, 0], 1⟩, ?_, fun hcell => ?_⟩
  · refine List.mem_filterMap.2 ⟨.recycled Sample.closing, List.mem_of_mem_drop (i := 3) ?_, rfl⟩
    rw [Sample.drop_reports_calls]
    exact List.mem_singleton_self _
  · rw [Sample.closing, Segment.cells_ofContent, Packet.mem_cells]
    exact ⟨rfl, by decide⟩
  · have hplace := List.mem_map_of_mem (f := fun cell => (cell.owner.id, cell.position)) hcell
    rw [Sample.places_calls] at hplace
    revert hplace
    decide

end Reassembler

end Ccf
