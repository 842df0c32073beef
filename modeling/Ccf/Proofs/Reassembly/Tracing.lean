import Ccf.Proofs.Reassembly.Cursors
import Ccf.Proofs.Reassembly.Parts
import Mathlib.Data.List.Chain

/-!
# Tracing what a walk hands out

The bytes of an entry that have been handed out lie between what it still owes and its cursor.  A
visit hands out bytes outside of these bounds only, and afterwards the bounds take them in; so no
byte is handed out twice, however often the entries are walked again.

The content of an open packet is what its entries had not been parsed of.  It is not complete before
the visit that hands it out, so the packet ends in the entry that is visited then.
-/

namespace Ccf

namespace Waiting

def part (entry : Waiting) (first last : Nat) : Part where
  arrival := entry.arrival
  segment := entry.segment
  first := first
  last := last

def rest (entry : Waiting) : Part := entry.part entry.next entry.size

theorem cells_rest (entry : Waiting) :
    entry.rest.cells = entry.segment.cells.drop entry.next := by
  rw [Part.cells]
  exact congrArg (List.drop entry.next) (Walk.take_size_cells entry)

end Waiting

/-- No place has been handed out twice, and those of an entry are bounded by its lead and its
cursor. -/
structure Guards (entries : List Waiting) (places : List (Nat × Nat)) : Prop where
  nodup : places.Nodup
  bounded : ∀ entry ∈ entries, ∀ position, (entry.arrival, position) ∈ places →
    entry.lead ≤ position ∧ position < entry.next

/-- Handing out parts of the entries `before` leaves the entries `after`. -/
structure Hands (before after : List Waiting) (parts : List Part) : Prop where
  distinct : (parts.map Part.arrival).Nodup
  /-- The parts lie outside of the bounds. -/
  unused : ∀ part ∈ parts, ∃ entry ∈ before, entry.arrival = part.arrival ∧
    (part.last ≤ entry.lead ∨ entry.next ≤ part.first)
  /-- The bounds become wider. -/
  advances : ∀ entry ∈ after, ∃ old ∈ before, old.arrival = entry.arrival ∧
    entry.lead ≤ old.lead ∧ old.next ≤ entry.next
  /-- They take the parts in. -/
  covers : ∀ entry ∈ after, ∀ part ∈ parts, part.arrival = entry.arrival →
    entry.lead ≤ part.first ∧ part.last ≤ entry.next

/-- Where nothing is handed out, cursors only move forward. -/
theorem Hands.nothing {before after : List Waiting}
    (hadvances : ∀ entry ∈ after, ∃ old ∈ before, old.arrival = entry.arrival ∧
      entry.lead ≤ old.lead ∧ old.next ≤ entry.next) : Hands before after [] where
  distinct := List.nodup_nil
  unused := List.forall_mem_nil _
  advances := hadvances
  covers _ _ := List.forall_mem_nil _

theorem Guards.of_subset {entries others : List Waiting} {places : List (Nat × Nat)}
    (hguards : Guards entries places) (hsubset : others ⊆ entries) : Guards others places where
  nodup := hguards.nodup
  bounded entry hentry := hguards.bounded entry (hsubset hentry)

/-- Parts that are handed out are new. -/
theorem Guards.hands {frame before after : List Waiting} {places : List (Nat × Nat)}
    {parts : List Part} (hguards : Guards (frame ++ before) places)
    (hnodup : ((frame ++ before).map Waiting.arrival).Nodup)
    (hhands : Hands before after parts) :
    Guards (frame ++ after) (places ++ parts.flatMap Part.places) := by
  rw [List.map_append, List.nodup_append'] at hnodup
  constructor
  · refine List.nodup_append'.2
      ⟨hguards.nodup, Part.nodup_flatMap_places hhands.distinct, fun place hold hnew => ?_⟩
    obtain ⟨part, hpart, hplace⟩ := List.mem_flatMap.1 hnew
    obtain ⟨harrival, hfirst, hlast⟩ := Part.mem_places.1 hplace
    obtain ⟨entry, hentry, hsame, hunused⟩ := hhands.unused part hpart
    have hbounds := hguards.bounded entry (List.mem_append_right _ hentry) place.2
      (by rwa [hsame, ← harrival])
    omega
  · intro entry hentry position hplace
    rcases List.mem_append.1 hentry with hframe | hafter
    · rcases List.mem_append.1 hplace with hold | hnew
      · exact hguards.bounded entry (List.mem_append_left _ hframe) position hold
      · -- Another entry of the same arrival would have handed the part out.
        obtain ⟨part, hpart, hpartPlace⟩ := List.mem_flatMap.1 hnew
        obtain ⟨other, hother, hsame, -⟩ := hhands.unused part hpart
        exfalso
        exact hnodup.2.2 (List.mem_map_of_mem hframe)
          (List.mem_map.2 ⟨other, hother, hsame.trans (Part.mem_places.1 hpartPlace).1.symm⟩)
    · rcases List.mem_append.1 hplace with hold | hnew
      · obtain ⟨old, hmem, harrival, hlead, hnext⟩ := hhands.advances entry hafter
        have hbounds := hguards.bounded old (List.mem_append_right _ hmem) position
          (by rwa [harrival])
        omega
      · obtain ⟨part, hpart, hpartPlace⟩ := List.mem_flatMap.1 hnew
        obtain ⟨harrival, hfirst, hlast⟩ := Part.mem_places.1 hpartPlace
        have hcovers := hhands.covers entry hafter part hpart harrival.symm
        simp only at hfirst hlast
        omega

/-! ## Open packets -/

/-- The open packet is what its entries have not been parsed of.  It begins in the oldest of them
and goes on through the others, in none of which a packet starts. -/
structure OpenPacket.Unfinished (packet : OpenPacket) : Prop where
  proper : packet.content.Proper
  incomplete : packet.content.completeSize? = none
  cells_eq : packet.content.cells =
    (packet.entries.reverse.map Waiting.rest).flatMap Part.cells
  opened : ∃ oldest others, packet.entries.reverse = oldest :: others ∧
    oldest.startsPacket = true ∧ oldest.next < oldest.size ∧
    ∀ other ∈ others, other.startsPacket = false ∧ other.next = 0

namespace Walk

variable {entry : Waiting} {pending later : Option OpenPacket} {stays back : List Waiting}
  {reports : List ReassemblerReport}

/-- An entry of an open packet in which a packet starts has unparsed bytes. -/
theorem next_lt_of_unfinished
    (hpending : ∀ packet, pending = some packet → packet.Unfinished) :
    ∀ other ∈ openEntries pending, other.startsPacket = true → other.next < other.size := by
  intro other hother hstarts
  cases pending with
  | none => cases hother
  | some packet =>
    obtain ⟨oldest, others, hentries, -, hnext, hothers⟩ := (hpending packet rfl).opened
    rw [openEntries, hentries] at hother
    rcases List.mem_cons.1 hother with rfl | hlater
    · exact hnext
    · exact absurd (hstarts.symm.trans (hothers other hlater).1) (by decide)

/-- The packet that a visit leaves open is unfinished. -/
theorem unfinished_of_visits (hpending : ∀ packet, pending = some packet → packet.Unfinished)
    (hfresh : ∀ packet, pending = some packet → entry.Fresh)
    (hvisits : Visits entry pending stays later back reports) :
    ∀ packet, later = some packet → packet.Unfinished := by
  intro packet hpacket
  subst hpacket
  cases hvisits with
  | «begin» hstarts hunparsed hproper hcells hopen =>
    exact ⟨hproper, hopen, by simp [hcells, Waiting.cells_rest], entry, [], rfl, hstarts,
      hunparsed, List.forall_mem_nil _⟩
  | @«continue» opened content hstarts hproper hcells hopen =>
    have hopened := hpending opened rfl
    obtain ⟨oldest, others, hentries, hopening, hnext, hothers⟩ := hopened.opened
    refine ⟨hproper, hopen, ?_, oldest, others ++ [entry], ?_, hopening, hnext, ?_⟩
    · rw [hcells, hopened.cells_eq, List.reverse_cons, List.map_append, List.flatMap_append,
        List.map_singleton, List.flatMap_singleton, Waiting.cells_rest]
    · rw [List.reverse_cons, hentries, List.cons_append]
    · exact List.forall_mem_append.2
        ⟨hothers, List.forall_mem_singleton.2 ⟨hstarts, hfresh opened rfl hstarts⟩⟩

/-- A packet within one entry. -/
theorem madeOf_within {labels : List (Segment × Nat)} {content : Gathering} {block : Nat}
    (hentry : entry.Coherent) (hlabel : entry.label ∈ labels)
    (hstarts : entry.startsPacket = true) (hunparsed : entry.next < entry.size)
    (hproper : content.Proper) (hcells : content.cells = entry.segment.cells.drop entry.next)
    (hcomplete : content.completeSize? = some block) :
    (handedOut content block).MadeOf labels [entry.part entry.next (entry.next + block)] := by
  obtain ⟨-, hend⟩ := parsedTo_next_of_cells hunparsed hcells hcomplete
  obtain ⟨hheader, -⟩ := Gathering.completeSize?_bounds hcomplete
  have hmade : (handedOut content block).cells =
      [entry.part entry.next (entry.next + block)].flatMap Part.cells := by
    rw [cells_handedOut, hcells, List.flatMap_singleton, Part.cells]
    simp [Waiting.part, List.drop_take]
  refine ⟨isMacPacket_handedOut hproper hcomplete, .within ⟨hstarts, hentry.start_le hstarts, ?_,
    hend⟩, List.forall_mem_singleton.2 hlabel, hmade,
    PieceTable.bytes_of_cells_eq (proper_handedOut hproper block) hmade⟩
  rw [MacHeader.wireSize] at hheader
  exact Nat.lt_add_of_pos_right (by omega)

section Ending

variable {packet : OpenPacket} {content : Gathering} {block limit : Nat}
  (hpacket : packet.Unfinished) (hproper : content.Proper)
  (hcells : content.cells = packet.content.cells ++ entry.segment.cells.take limit)
  (hcomplete : content.completeSize? = some block)
include hpacket hproper hcells hcomplete

/-- A packet that ends in the entry at hand. -/
theorem madeOf_ending {labels : List (Segment × Nat)} (hlimit : limit ≤ entry.size)
    (hcoherent : ∀ other ∈ packet.entries.reverse ++ [entry], other.Coherent)
    (hlabelled : ∀ other ∈ packet.entries.reverse ++ [entry], other.label ∈ labels)
    (hchained : List.IsChain (fun previous other => other.follows previous = true)
      (packet.entries.reverse ++ [entry]))
    (hfront : entry.startsPacket = true → limit ≤ entry.firstStart) :
    (handedOut content block).MadeOf labels
      (packet.entries.reverse.map Waiting.rest ++
        [entry.part 0 (block - packet.content.size)]) := by
  obtain ⟨hgrows, hfits, hhanded⟩ :=
    cells_handedOut_of_completes hpacket.proper hproper hcells hpacket.incomplete hcomplete
  rw [List.length_take, Segment.length_cells] at hfits
  have hshort := Nat.le_trans hfits (Nat.min_le_left _ _)
  have hmade : (handedOut content block).cells = (packet.entries.reverse.map Waiting.rest ++
      [entry.part 0 (block - packet.content.size)]).flatMap Part.cells := by
    rw [hhanded, hpacket.cells_eq, List.flatMap_append, List.flatMap_singleton, List.take_take,
      Nat.min_eq_left hshort]
    rfl
  have hsequences : (packet.entries.reverse.map Waiting.rest ++
      [entry.part 0 (block - packet.content.size)]).map (fun part => part.segment.sequence) =
        (packet.entries.reverse ++ [entry]).map Waiting.sequence := by
    rw [List.map_append, List.map_append, List.map_map]
    rfl
  have hfollows : List.IsChain Part.Follows (packet.entries.reverse.map Waiting.rest ++
      [entry.part 0 (block - packet.content.size)]) := by
    have hnumbers : List.IsChain
        (fun previous number : SequenceNumber => number = previous ∨ number = previous.next)
        ((packet.entries.reverse ++ [entry]).map Waiting.sequence) :=
      (List.isChain_map _).2 (hchained.imp fun _ _ => (SequenceNumber.follows_iff _ _).1)
    rw [← hsequences] at hnumbers
    exact (List.isChain_map fun part : Part => part.segment.sequence).1 hnumbers
  refine ⟨isMacPacket_handedOut hproper hcomplete, ?_, ?_, hmade,
    PieceTable.bytes_of_cells_eq (proper_handedOut hproper block) hmade⟩
  · obtain ⟨oldest, others, hentries, hstarts, hnext, hothers⟩ := hpacket.opened
    have holdest : oldest.Coherent :=
      hcoherent oldest (by rw [hentries]; exact List.mem_cons_self)
    rw [hentries, List.map_cons] at hfollows ⊢
    refine .across ⟨hstarts, holdest.start_le hstarts, hnext, Nat.le_refl _⟩ rfl ?_
      ⟨rfl, Nat.sub_pos_of_lt hgrows, Nat.le_trans hshort hlimit,
        fun hstarts' => Nat.le_trans hshort (hfront hstarts')⟩ hfollows
    intro part hpart
    obtain ⟨other, hother, rfl⟩ := List.mem_map.1 hpart
    exact ⟨(hothers other hother).1, (hothers other hother).2, rfl⟩
  · refine List.forall_mem_append.2 ⟨fun part hpart => ?_, List.forall_mem_singleton.2 ?_⟩
    · obtain ⟨other, hother, rfl⟩ := List.mem_map.1 hpart
      exact hlabelled other (List.mem_append_left _ hother)
    · exact hlabelled entry (List.mem_append_right _ (List.mem_singleton_self entry))

/-- Handing out a packet that ends in the entry at hand. -/
theorem hands_ending (hlimit : limit ≤ entry.lead ∨ entry.next = 0)
    (hcoherent : ∀ other ∈ packet.entries.reverse, other.Coherent)
    (hnodup : ((packet.entries.reverse ++ [entry]).map Waiting.arrival).Nodup)
    (how : Release) {rest : List Waiting}
    (hrest : ∀ other ∈ rest, other.arrival = entry.arrival ∧ other.lead = 0 ∧ limit ≤ other.next)
    (hadvances : ∀ other ∈ (closing how (some packet)).1 ++ rest,
      ∃ old ∈ packet.entries.reverse ++ [entry], old.arrival = other.arrival ∧
        other.lead ≤ old.lead ∧ old.next ≤ other.next) :
    Hands (packet.entries.reverse ++ [entry]) ((closing how (some packet)).1 ++ rest)
      (packet.entries.reverse.map Waiting.rest ++
        [entry.part 0 (block - packet.content.size)]) := by
  obtain ⟨-, hfits, -⟩ :=
    cells_handedOut_of_completes hpacket.proper hproper hcells hpacket.incomplete hcomplete
  rw [List.length_take] at hfits
  have hshort := Nat.le_trans hfits (Nat.min_le_left _ _)
  have hdistinct := hnodup
  rw [List.map_append, List.nodup_append'] at hdistinct
  obtain ⟨hentries, -, hapart⟩ := hdistinct
  have hother {other : Waiting} (hmem : other ∈ packet.entries.reverse)
      (harrival : other.arrival = entry.arrival) : False :=
    hapart (List.mem_map_of_mem hmem) (List.mem_singleton.2 harrival)
  refine ⟨?_, ?_, hadvances, ?_⟩
  · rw [List.map_append, List.map_map]
    rwa [List.map_append] at hnodup
  · refine List.forall_mem_append.2 ⟨fun part hpart => ?_, List.forall_mem_singleton.2 ?_⟩
    · obtain ⟨other, hmem, rfl⟩ := List.mem_map.1 hpart
      exact ⟨other, List.mem_append_left _ hmem, rfl, Or.inr (Nat.le_refl _)⟩
    · exact ⟨entry, List.mem_append_right _ (List.mem_singleton_self entry), rfl,
        hlimit.imp (Nat.le_trans hshort) Nat.le_of_eq⟩
  · refine List.forall_mem_append.2 ⟨fun other hclosed => ?_, fun other hmem => ?_⟩
    · obtain ⟨oldest, holdest, hlead, rfl⟩ := mem_closing hclosed
      refine List.forall_mem_append.2 ⟨fun part hpart harrival => ?_,
        List.forall_mem_singleton.2 fun harrival => (hother holdest harrival.symm).elim⟩
      obtain ⟨same, hsame, rfl⟩ := List.mem_map.1 hpart
      have heq : same = oldest := List.inj_on_of_nodup_map hentries hsame holdest harrival
      rw [heq]
      exact ⟨(hcoherent oldest holdest).lead_le_next, Nat.le_refl _⟩
    · obtain ⟨hsame, hlead, hnext⟩ := hrest other hmem
      refine List.forall_mem_append.2 ⟨fun part hpart harrival => ?_,
        List.forall_mem_singleton.2 fun _ => ⟨Nat.le_of_eq hlead, Nat.le_trans hshort hnext⟩⟩
      obtain ⟨same, hmem', rfl⟩ := List.mem_map.1 hpart
      exact (hother hmem' (harrival.trans hsame)).elim

end Ending

/-- What a visit hands out is made of the entries it looks at, and their bounds take it in. -/
theorem exists_origins_of_visits {labels : List (Segment × Nat)}
    (hcoherent : ∀ other ∈ openEntries pending ++ [entry], other.Coherent)
    (hlabelled : ∀ other ∈ openEntries pending ++ [entry], other.label ∈ labels)
    (hnodup : ((openEntries pending ++ [entry]).map Waiting.arrival).Nodup)
    (hchained : List.IsChain (fun previous other => other.follows previous = true)
      (openEntries pending ++ [entry]))
    (hpending : ∀ packet, pending = some packet → packet.Unfinished)
    (hfresh : ∀ packet, pending = some packet → entry.Fresh)
    (hvisits : Visits entry pending stays later back reports) :
    ∃ origins, List.Forall₂ (PieceTable.MadeOf labels) (deliveredTables reports) origins ∧
      Hands (openEntries pending ++ [entry]) (stays ++ openEntries later ++ back)
        origins.flatten := by
  have hhand : entry ∈ openEntries pending ++ [entry] :=
    List.mem_append_right _ (List.mem_singleton_self entry)
  have hentry := hcoherent entry hhand
  have hopen : ∀ other ∈ openEntries pending, other.Coherent :=
    fun other hother => hcoherent other (List.mem_append_left _ hother)
  have hadvances : ∀ other ∈ stays ++ openEntries later ++ back,
      ∃ old ∈ openEntries pending ++ [entry], old.arrival = other.arrival ∧
        other.lead ≤ old.lead ∧ old.next ≤ other.next := fun other hother =>
    advances_of_leaves hentry
      (fun old hold => ⟨hopen old hold, next_lt_of_unfinished hpending old hold⟩)
      (leaves_of_visits hvisits other hother)
  have hsilent (hnone : deliveredTables reports = []) :
      ∃ origins, List.Forall₂ (PieceTable.MadeOf labels) (deliveredTables reports) origins ∧
        Hands (openEntries pending ++ [entry]) (stays ++ openEntries later ++ back)
          origins.flatten := by
    rw [hnone]
    exact ⟨[], .nil, .nothing hadvances⟩
  have hends {packet : OpenPacket} (hopened : pending = some packet) {content : Gathering}
      {block limit : Nat} (hproper : content.Proper)
      (hcells : content.cells = packet.content.cells ++ entry.segment.cells.take limit)
      (hcomplete : content.completeSize? = some block) (hlimit : limit ≤ entry.size)
      (hfront : entry.startsPacket = true → limit ≤ entry.firstStart)
      (hunused : limit ≤ entry.lead ∨ entry.next = 0)
      (htables : deliveredTables reports = [handedOut content block])
      (hafter : stays ++ openEntries later ++ back =
        (closing .recycle (some packet)).1 ++ back)
      (hback : ∀ other ∈ back,
        other.arrival = entry.arrival ∧ other.lead = 0 ∧ limit ≤ other.next) :
      ∃ origins, List.Forall₂ (PieceTable.MadeOf labels) (deliveredTables reports) origins ∧
        Hands (openEntries pending ++ [entry]) (stays ++ openEntries later ++ back)
          origins.flatten := by
    have hpacket := hpending packet hopened
    rw [hafter] at hadvances ⊢
    rw [hopened] at hcoherent hlabelled hchained hnodup hadvances ⊢
    rw [htables]
    refine ⟨[_], .cons (madeOf_ending hpacket hproper hcells hcomplete hlimit hcoherent hlabelled
      hchained hfront) .nil, ?_⟩
    rw [List.flatten_singleton]
    exact hands_ending hpacket hproper hcells hcomplete hunused
      (fun other hother => hcoherent other (List.mem_append_left _ hother)) hnodup .recycle hback
      hadvances
  cases hvisits with
  | reject => exact hsilent (by simp)
  | letGo => exact hsilent rfl
  | owe => exact hsilent rfl
  | await => exact hsilent rfl
  | @parse content block answer hstarts hunparsed hproper hcells hcomplete =>
    obtain ⟨hnext, -⟩ := parsedTo_next_of_cells hunparsed hcells hcomplete
    refine ⟨[[entry.part entry.next (entry.next + block)]], .cons (madeOf_within hentry
      (hlabelled entry hhand) hstarts hunparsed hproper hcells hcomplete) .nil, ?_, ?_,
      hadvances, ?_⟩
    · exact List.nodup_singleton _
    · exact List.forall_mem_singleton.2 ⟨entry, hhand, rfl, Or.inr (Nat.le_refl _)⟩
    · refine List.forall_mem_singleton.2 (List.forall_mem_singleton.2 fun _ => ⟨?_, ?_⟩)
      · exact hentry.lead_le_next
      · exact Nat.le_of_eq hnext.symm
  | «begin» => exact hsilent rfl
  | @finish packet content block answer hstarts hinside hproper hcells hcomplete =>
    have hlead : entry.lead ≤ entry.firstStart := by
      rcases hentry.lead_eq with hzero | ⟨-, hfirst⟩ <;> omega
    exact hends rfl hproper hcells hcomplete (Nat.le_trans hlead (Nat.le_of_lt hinside))
      (fun _ => hlead) (Or.inl (Nat.le_refl _)) (by simp) (by simp [openEntries])
      (List.forall_mem_singleton.2 ⟨rfl, rfl, hentry.lead_le_next⟩)
  | abandon => exact hsilent (by simp)
  | @complete packet content block answer hstarts hproper hcells hcomplete hparsed =>
    have hnext := hfresh packet rfl hstarts
    rw [hnext, List.drop_zero, ← take_size_cells] at hcells
    rw [parsedTo_eq hparsed] at hends ⊢
    refine hends rfl hproper hcells hcomplete (Nat.le_refl _)
      (fun hstarts' => absurd (hstarts.symm.trans hstarts') (by decide)) (Or.inr hnext) (by simp)
      (by simp [openEntries]) (List.forall_mem_singleton.2 ⟨rfl, ?_, Nat.le_refl _⟩)
    exact Nat.le_zero.1 (hnext ▸ hentry.lead_le_next)
  | @overrun packet content block answer hstarts hproper hcells hcomplete hunparsed =>
    have hnext := hfresh packet rfl hstarts
    rw [hnext, List.drop_zero, ← take_size_cells] at hcells
    exact hends rfl hproper hcells hcomplete (Nat.le_refl _)
      (fun hstarts' => absurd (hstarts.symm.trans hstarts') (by decide)) (Or.inr hnext) (by simp)
      (by simp [openEntries]) (List.forall_mem_nil _)
  | «continue» => exact hsilent rfl

end Walk

/-! ## Walks -/

/-- Every table is a packet made of parts of labelled segments, and the bounds of the entries take
in what the tables have of them. -/
structure Traced (labels : List (Segment × Nat)) (entries : List Waiting)
    (tables : List PieceTable) : Prop where
  nodup : (entries.map Waiting.arrival).Nodup
  labelled : ∀ entry ∈ entries, entry.label ∈ labels
  coherent : ∀ entry ∈ entries, entry.Coherent
  origins : ∃ origins, List.Forall₂ (PieceTable.MadeOf labels) tables origins ∧
    Guards entries (origins.flatten.flatMap Part.places)

theorem Traced.subperm {labels : List (Segment × Nat)} {entries others : List Waiting}
    {tables : List PieceTable} (htraced : Traced labels entries tables)
    (hsubperm : others.Subperm entries) : Traced labels others tables where
  nodup := by
    obtain ⟨same, hperm, hsublist⟩ := hsubperm
    exact (hperm.map Waiting.arrival).nodup_iff.1
      (htraced.nodup.sublist (hsublist.map Waiting.arrival))
  labelled entry hentry := htraced.labelled entry (hsubperm.subset hentry)
  coherent entry hentry := htraced.coherent entry (hsubperm.subset hentry)
  origins := by
    obtain ⟨origins, hmade, hguards⟩ := htraced.origins
    exact ⟨origins, hmade, hguards.of_subset hsubperm.subset⟩

namespace Walk

/-- A visit leaves entries that are traced, with what it hands out. -/
theorem traced_of_visits {labels : List (Segment × Nat)} {frame : List Waiting}
    {tables : List PieceTable} {entry : Waiting} {pending later : Option OpenPacket}
    {stays back : List Waiting} {reports : List ReassemblerReport}
    (htraced : Traced labels (frame ++ (openEntries pending ++ [entry])) tables)
    (hchained : List.IsChain (fun previous other => other.follows previous = true)
      (openEntries pending ++ [entry]))
    (hpending : ∀ packet, pending = some packet → packet.Unfinished)
    (hfresh : ∀ packet, pending = some packet → entry.Fresh)
    (hvisits : Visits entry pending stays later back reports) :
    Traced labels (frame ++ (stays ++ openEntries later ++ back))
      (tables ++ deliveredTables reports) := by
  have hcoherent : ∀ other ∈ openEntries pending ++ [entry], other.Coherent :=
    fun other hother => htraced.coherent other (List.mem_append_right _ hother)
  have hdisposes := (disposes_of_visits hvisits).frame (frame.map Waiting.label)
  rw [← List.map_append, ← List.map_append] at hdisposes
  constructor
  · have hsubperm := hdisposes.arrivals_subperm
    simp only [List.map_map, Function.comp_def, Waiting.label] at hsubperm
    obtain ⟨arrivals, hperm, hsublist⟩ := hsubperm
    exact hperm.nodup_iff.1 (htraced.nodup.sublist hsublist)
  · intro other hother
    obtain ⟨old, hold, hlabel⟩ :=
      List.mem_map.1 (hdisposes.subset (List.mem_map_of_mem hother))
    exact hlabel ▸ htraced.labelled old hold
  · refine List.forall_mem_append.2
      ⟨fun other hother => htraced.coherent other (List.mem_append_left _ hother),
        fun other hother => ?_⟩
    exact coherent_of_leaves
      (hcoherent entry (List.mem_append_right _ (List.mem_singleton_self entry)))
      (fun old hold => ⟨hcoherent old (List.mem_append_left _ hold),
        next_lt_of_unfinished hpending old hold⟩)
      (leaves_of_visits hvisits other hother)
  · obtain ⟨origins, hmade, hguards⟩ := htraced.origins
    have hnodup := htraced.nodup
    rw [List.map_append] at hnodup
    obtain ⟨origins', hmade', hhands⟩ := exists_origins_of_visits hcoherent
      (fun other hother => htraced.labelled other (List.mem_append_right _ hother))
      (List.nodup_append'.1 hnodup).2.1 hchained hpending hfresh hvisits
    refine ⟨origins ++ origins', List.rel_append hmade hmade', ?_⟩
    rw [List.flatten_append, List.flatMap_append]
    exact hguards.hands htraced.nodup hhands

/-- A walk along a run, with other entries set aside, all of it traced. -/
structure Traces (labels : List (Segment × Nat)) (aside : List Waiting)
    (reports : List ReassemblerReport) (walk : Walk) : Prop where
  traced : Traced labels (aside ++ walk.held) (deliveredTables reports)
  fresh : walk.KeepsFresh
  chained : List.IsChain (fun previous entry => entry.follows previous = true)
    (openEntries walk.pending ++ walk.ahead)
  unfinished : ∀ packet, walk.pending = some packet → packet.Unfinished

/-- Whether entries are a run can be seen from their labels. -/
theorem isChain_follows_iff (entries : List Waiting) :
    List.IsChain (fun previous entry => entry.follows previous = true) entries ↔
      List.IsChain (fun previous label : Segment × Nat =>
        label.1.sequence.follows previous.1.sequence = true) (entries.map Waiting.label) :=
  (List.isChain_map (R := fun previous label : Segment × Nat =>
    label.1.sequence.follows previous.1.sequence = true) Waiting.label).symm

section Traces

variable {labels : List (Segment × Nat)} {aside : List Waiting}
  {reports : List ReassemblerReport} {walk : Walk}
  (htraces : Traces labels aside reports walk)
include htraces

theorem Traces.coherent_held : ∀ entry ∈ walk.held, entry.Coherent :=
  fun entry hentry => htraces.traced.coherent entry (List.mem_append_right _ hentry)

variable {entry : Waiting} {rest : List Waiting} (hahead : walk.ahead = entry :: rest)
include hahead

theorem Traces.fresh_at : ∀ packet, walk.pending = some packet → entry.Fresh :=
  fun packet hpacket => htraces.fresh.ahead packet hpacket entry
    (by rw [hahead]; exact List.mem_cons_self)

/-- A visit leaves a traced walk. -/
theorem Traces.makes {stays back : List Waiting} {later : Option OpenPacket}
    {outcome : WalkOutcome} (hmakes : Makes walk entry rest outcome stays later back) :
    Traces labels aside (reports ++ outcome.reports) outcome.walk := by
  have hbefore : (aside ++ walk.held).Perm
      ((aside ++ (walk.kept ++ rest)) ++ (openEntries walk.pending ++ [entry])) := by
    rw [List.append_assoc]
    exact (held_perm hahead).append_left aside
  have hafter : (aside ++ outcome.walk.held).Perm
      ((aside ++ (walk.kept ++ rest)) ++ (stays ++ openEntries later ++ back)) := by
    rw [List.append_assoc]
    exact (held_perm_of_makes hmakes).append_left aside
  have hchained : List.IsChain (fun previous other => other.follows previous = true)
      (openEntries walk.pending ++ [entry]) := by
    have hrun := htraces.chained
    rw [hahead, ← List.singleton_append, ← List.append_assoc] at hrun
    exact hrun.left_of_append
  constructor
  · rw [deliveredTables_append]
    exact (traced_of_visits (htraces.traced.subperm hbefore.symm.subperm) hchained
      htraces.unfinished (htraces.fresh_at hahead) hmakes.visits).subperm hafter.subperm
  · exact htraces.fresh.makes hahead htraces.coherent_held hmakes
  · rw [isChain_follows_iff]
    exact ((isChain_follows_iff _).1 htraces.chained).suffix (labels_suffix hahead hmakes)
  · rw [hmakes.pending_eq]
    exact unfinished_of_visits htraces.unfinished (htraces.fresh_at hahead) hmakes.visits

end Traces

/-- Nothing has been taken from an entry whose bytes are refused. -/
theorem fresh_of_refuses {entry : Waiting} {pending : Option OpenPacket} {fault : BufferError}
    (hentry : entry.Coherent) (hhand : ∀ packet, pending = some packet → entry.Fresh)
    (hrefuses : Refuses entry pending fault) : entry.Fresh := by
  cases hrefuses with
  | opening hunparsed => exact hentry.fresh_of_unparsed hunparsed
  | ending hstarts =>
    exact fun hstarts' => absurd (hstarts.symm.trans hstarts') (by decide)
  | continuing => exact hhand _ rfl

/-- A traced walk ends with traced entries from which nothing has been taken but what their bounds
take in, wherever it ends. -/
theorem Traces.finish {labels : List (Segment × Nat)} {aside : List Waiting}
    {reports : List ReassemblerReport} {walk : Walk} (answers : Nat → Answer)
    (htraces : Traces labels aside reports walk) :
    Traced labels (aside ++ (walk.finish answers).walk.held)
        (deliveredTables (reports ++ (walk.finish answers).reports)) ∧
      ∀ entry ∈ (walk.finish answers).walk.held, entry.Fresh := by
  have hgoes {reports : List ReassemblerReport} {walk : Walk} {entry : Waiting}
      {rest : List Waiting} (htraces : Traces labels aside reports walk)
      (hahead : walk.ahead = entry :: rest) :
      Goes walk entry rest (walk.visit answers entry rest) := by
    have hentry := htraces.coherent_held entry (entry_mem_held hahead)
    have hvisit := visit_cases answers entry rest fun packet hpacket =>
      (htraces.unfinished packet hpacket).proper
    rwa [toFirstStart_eq hentry] at hvisit
  refine finish_induction (Traces labels aside)
    (fun _ reports walk => Traced labels (aside ++ walk.held) (deliveredTables reports) ∧
      ∀ entry ∈ walk.held, entry.Fresh) answers ?_ ?_ ?_ walk reports htraces
  · intro reports walk htraces hended
    refine ⟨htraces.traced, fun entry hentry => htraces.fresh.others entry ?_⟩
    rw [held, hended, List.append_nil] at hentry
    exact List.mem_append_left _ hentry
  · intro reports walk entry rest htraces hahead fault hfault
    have hstay : ({ walk with ahead := entry :: rest } : Walk) = walk := by
      rw [← hahead]
    rcases hgoes htraces hahead with ⟨_, hrefuses, hstopped⟩ | ⟨_, _, _, hmakes⟩
    · rw [hstopped, stoppedAt, List.append_nil, hstay]
      refine ⟨htraces.traced, fun other hother => ?_⟩
      have hentry := htraces.coherent_held entry (entry_mem_held hahead)
      rw [held, hahead] at hother
      rcases List.mem_append.1 hother with hpassed | hunpassed
      · exact htraces.fresh.others other (List.mem_append_left _ hpassed)
      · rcases List.mem_cons.1 hunpassed with rfl | hrest
        · exact fresh_of_refuses hentry (htraces.fresh_at hahead) hrefuses
        · exact htraces.fresh.others other (List.mem_append_right _ (by rwa [hahead]))
    · rw [hmakes.fault_eq] at hfault
      cases hfault
  · intro reports walk entry rest htraces hahead hfault
    rcases hgoes htraces hahead with ⟨_, hrefuses, hstopped⟩ | ⟨_, _, _, hmakes⟩
    · rw [hstopped] at hfault
      cases hfault
    · exact htraces.makes hahead hmakes

end Walk

end Ccf
