import Mathlib.Algebra.BigOperators.Group.List.Basic
import Mathlib.Algebra.GroupWithZero.Nat
import Ccf.CommandLine.Decode
import Ccf.Proofs.Reassembly.Leftovers
import Ccf.Proofs.Reassembly.Processing

/-!
# Packets listed and packets handed out

The decoder splits the content of one segment in a single pass; the reassembling end gathers it
anew for every packet and moves a cursor.  A reassembling end that has received nothing else hands
out what the decoder lists.

The walk of a single entry has one quantity that no step changes: what has been handed out, followed
by what the decoder would list from the cursor on (`Waiting.wholeFrames`).
-/

namespace Ccf

open CommandLine

namespace MacFrame

/-- A packet that is handed out has the bytes of the one that is listed, and so its number, its
length and its size. -/
structure CarriedBy (frame : MacFrame) (table : PieceTable) : Prop where
  bytes_eq : table.bytes = frame.bytes
  header_eq : MacHeader.decode table.bytes = .ok frame.header
  size_eq : table.size = frame.wireSize

theorem carriedBy_of_bytes {frame : MacFrame} {table : PieceTable} (htable : table.Proper)
    (hbytes : table.bytes = frame.bytes) : frame.CarriedBy table where
  bytes_eq := hbytes
  header_eq := by rw [hbytes, bytes, MacHeader.decode_bytes_append]
  size_eq := by
    rw [← length_bytes, ← hbytes, htable.bytes_eq, List.length_map, PieceTable.length_cells]

end MacFrame

/-- Gathered content that begins with a packet is complete from the end of that packet on. -/
theorem Gathering.Proper.completeSize?_of_next? {gathering : Gathering}
    (hgathering : gathering.Proper) {frame : MacFrame} {rest : List UInt8}
    (hnext : MacFrame.next? (gathering.cells.map Cell.byte) = some (frame, rest)) :
    gathering.completeSize? = some frame.wireSize := by
  obtain ⟨hframe, hbytes⟩ := MacFrame.next?_eq_some_iff.1 hnext
  have hheader : frame.header.bytes <+: gathering.cells.map Cell.byte := by
    rw [hbytes, MacFrame.bytes, List.append_assoc]
    exact List.prefix_append _ _
  have hfits : frame.wireSize ≤ gathering.size := by
    rw [← Gathering.length_cells, ← List.length_map (f := Cell.byte), hbytes, List.length_append,
      MacFrame.length_bytes]
    exact Nat.le_add_right _ _
  rw [completeSize?_of_header hgathering hheader, hframe.packetSize_eq, if_pos hfits]

/-! ## The packets that lie ahead -/

/-- The whole packets from the cursor on, if a packet starts in the entry. -/
def Waiting.wholeFrames (entry : Waiting) : List MacFrame :=
  if entry.startsPacket then (MacFrame.split entry.unparsed).1 else []

namespace Waiting

variable {entry : Waiting}

theorem unparsed_eq (entry : Waiting) :
    entry.unparsed = (entry.segment.cells.map Cell.byte).drop entry.next := by
  rw [unparsed, cells_rest, List.map_drop]

theorem wholeFrames_of_parsed (hparsed : entry.size ≤ entry.next) : entry.wholeFrames = [] := by
  have hnone : entry.unparsed = [] := by
    rw [unparsed_eq, List.drop_eq_nil_iff, List.length_map, Segment.length_cells]
    exact hparsed
  rw [wholeFrames, hnone, MacFrame.split_of_none rfl, ite_self]

theorem wholeFrames_of_open {content : Gathering} (hproper : content.Proper)
    (hcells : content.cells = entry.segment.cells.drop entry.next)
    (hopen : content.completeSize? = none) : entry.wholeFrames = [] := by
  have hnone : MacFrame.next? entry.unparsed = none := by
    rw [unparsed, cells_rest, ← hcells]
    exact hproper.completeSize?_eq_none_iff.1 hopen
  rw [wholeFrames, MacFrame.split_of_none hnone, ite_self]

/-- Completing a packet within the entry hands out the first of the packets that lie ahead. -/
theorem wholeFrames_of_complete {content : Gathering} {block : Nat}
    (hstarts : entry.startsPacket = true) (hunparsed : entry.next < entry.size)
    (hproper : content.Proper) (hcells : content.cells = entry.segment.cells.drop entry.next)
    (hcomplete : content.completeSize? = some block) :
    ∃ frame : MacFrame, frame.CarriedBy (Walk.handedOut content block) ∧
      entry.wholeFrames = frame :: (Walk.parsedTo entry content block).wholeFrames := by
  have hbytes : entry.unparsed = content.cells.map Cell.byte := by
    rw [unparsed, cells_rest, hcells]
  cases hnext : MacFrame.next? entry.unparsed with
  | none =>
    rw [hbytes, ← hproper.completeSize?_eq_none_iff, hcomplete] at hnext
    cases hnext
  | some taken =>
    obtain ⟨frame, rest⟩ := taken
    have hblock : block = frame.wireSize := by
      rw [hbytes] at hnext
      rw [hproper.completeSize?_of_next? hnext, Option.some.injEq] at hcomplete
      exact hcomplete.symm
    have hsource := (MacFrame.next?_eq_some_iff.1 hnext).2
    refine ⟨frame, MacFrame.carriedBy_of_bytes (Walk.proper_handedOut hproper block) ?_, ?_⟩
    · rw [PieceTable.Proper.bytes_eq (Walk.proper_handedOut hproper block), Walk.cells_handedOut,
        List.map_take, ← hbytes, hsource, hblock, List.take_left' frame.length_bytes]
    · have hlater : (Walk.parsedTo entry content block).unparsed = rest := by
        have hsegment : (Walk.parsedTo entry content block).segment = entry.segment := rfl
        rw [unparsed_eq, hsegment, (Walk.parsedTo_next_of_cells hunparsed hcells hcomplete).1,
          ← List.drop_drop, ← unparsed_eq, hsource, hblock, List.drop_left' frame.length_bytes]
      have hstarts' : (Walk.parsedTo entry content block).startsPacket = true := hstarts
      rw [wholeFrames, if_pos hstarts, MacFrame.split_of_some hnext, wholeFrames, if_pos hstarts',
        hlater]

theorem wholeFrames_arriving (reassembler : Reassembler) (segment : Segment) (now : Instant) :
    (reassembler.arriving segment now).wholeFrames =
      if segment.header.pfi then
        (MacFrame.split
          ((segment.cells.map Cell.byte).drop segment.header.offmac.toNat)).1
      else [] := by
  have hstarts : (reassembler.arriving segment now).startsPacket = segment.header.pfi := rfl
  have hsegment : (reassembler.arriving segment now).segment = segment := rfl
  rw [wholeFrames, unparsed_eq, hstarts, hsegment]
  cases hpfi : segment.header.pfi with
  | false => rfl
  | true =>
    have hnext : (reassembler.arriving segment now).next = segment.header.offmac.toNat := by
      rw [Reassembler.arriving, hpfi, if_pos rfl]
    rw [hnext]

end Waiting

namespace Walk

/-- A visit of an entry with no packet open hands out the first of the packets that lie ahead, and
those of what it puts back are the others. -/
theorem handsOut_of_visits {entry : Waiting} {later : Option OpenPacket} {stays back : List Waiting}
    {reports : List ReassemblerReport} (hentry : entry.Coherent)
    (hvisits : Visits entry none stays later back reports) :
    (back = [] ∨ later = none ∧ ∃ next, back = [next]) ∧
      ∃ frames, List.Forall₂ MacFrame.CarriedBy frames (deliveredTables reports) ∧
        entry.wholeFrames = frames ++ back.flatMap Waiting.wholeFrames := by
  cases hvisits with
  | reject hstarts hpast =>
    have hparsed := Nat.le_trans hpast (hentry.start_le hstarts)
    exact ⟨Or.inl rfl, [], .nil, Waiting.wholeFrames_of_parsed hparsed⟩
  | letGo hparsed => exact ⟨Or.inl rfl, [], .nil, Waiting.wholeFrames_of_parsed hparsed⟩
  | owe hparsed => exact ⟨Or.inl rfl, [], .nil, Waiting.wholeFrames_of_parsed hparsed⟩
  | await hstarts => exact ⟨Or.inl rfl, [], .nil, if_neg (by rw [hstarts]; decide)⟩
  | parse answer hstarts hunparsed hproper hcells hcomplete =>
    obtain ⟨frame, hcarried, hframes⟩ :=
      Waiting.wholeFrames_of_complete hstarts hunparsed hproper hcells hcomplete
    refine ⟨Or.inr ⟨rfl, _, rfl⟩, [frame], .cons hcarried .nil, ?_⟩
    rw [hframes, List.flatMap_singleton, List.singleton_append]
  | «begin» _ _ hproper hcells hopen =>
    exact ⟨Or.inl rfl, [], .nil, Waiting.wholeFrames_of_open hproper hcells hopen⟩

/-- One entry at most is ahead, with no packet open; the reports hand out the first of some packets,
and the others lie ahead. -/
structure HandsOut (frames : List MacFrame) (reports : List ReassemblerReport) (walk : Walk) :
    Prop where
  alone : walk.ahead = [] ∨ walk.pending = none ∧ ∃ entry, walk.ahead = [entry]
  divides : ∃ done, List.Forall₂ MacFrame.CarriedBy done (deliveredTables reports) ∧
    frames = done ++ walk.ahead.flatMap Waiting.wholeFrames

theorem HandsOut.begin (entry : Waiting) (delivered refused : Nat) :
    HandsOut entry.wholeFrames [] (begin [entry] delivered refused) where
  alone := Or.inr ⟨rfl, entry, rfl⟩
  divides := ⟨[], .nil, by rw [Walk.begin, List.flatMap_singleton, List.nil_append]⟩

theorem HandsOut.makes {frames : List MacFrame} {reports : List ReassemblerReport} {walk : Walk}
    {entry : Waiting} {rest stays back : List Waiting} {outcome : WalkOutcome}
    {later : Option OpenPacket} (hwalk : HandsOut frames reports walk) (hsteady : walk.Steady)
    (hahead : walk.ahead = entry :: rest)
    (hmakes : Makes walk entry rest outcome stays later back) :
    HandsOut frames (reports ++ outcome.reports) outcome.walk := by
  obtain ⟨hend | ⟨hpending, only, honly⟩, done, hdone, hframes⟩ := hwalk
  · rw [hahead] at hend
    cases hend
  · rw [hahead, List.cons.injEq] at honly
    obtain ⟨-, rfl⟩ := honly
    have hvisits := hmakes.visits
    rw [hpending] at hvisits
    obtain ⟨hback, more, hmore, hnext⟩ := handsOut_of_visits (hsteady.coherent_at hahead) hvisits
    have hahead' : outcome.walk.ahead = back := by rw [hmakes.ahead_eq, List.append_nil]
    refine ⟨by rwa [hahead', hmakes.pending_eq], done ++ more, ?_, ?_⟩
    · rw [deliveredTables_append]
      exact List.rel_append hdone hmore
    · rw [hframes, hahead, hahead', List.flatMap_singleton, hnext, List.append_assoc]

end Walk

/-- A tour of a single entry hands out the packets that lie ahead in it. -/
theorem Tour.handsOut (tour : Tour) {entry : Waiting} (hrun : tour.run = [entry])
    (hentry : entry.IsSteady) (hseparate : Segment.Separate [entry.segment]) :
    tour.outcome.fault = none ∧
      List.Forall₂ MacFrame.CarriedBy entry.wholeFrames (deliveredTables tour.outcome.reports) := by
  have hsteady : ∀ other ∈ tour.run, other.IsSteady := by
    rw [hrun]
    exact List.forall_mem_singleton.2 hentry
  have hfault := (Tour.succeeds_of_separate hsteady (by rwa [hrun])).2
  have hfirst : Walk.HandsOut entry.wholeFrames [] tour.first := by
    rw [first, hrun]
    exact .begin entry tour.delivered tour.refused
  obtain ⟨-, -, done, hdone, hframes⟩ := Tour.steps_keep hsteady
    (Walk.HandsOut entry.wholeFrames) [] hfirst
    fun _ _ _ hbefore hwalk _ _ _ _ _ hahead hmakes => hwalk.makes hbefore hahead hmakes
  have hahead : tour.outcome.walk.ahead = [] := Walk.finish_ahead _ _ hfault
  rw [hahead, List.flatMap_nil, List.append_nil] at hframes
  refine ⟨hfault, ?_⟩
  rw [hframes]
  exact hdone

/-! ## What the decoder lists -/

namespace CommandLine.MacContents

def listed : Option MacContents → List MacFrame
  | none => []
  | some contents => contents.frames

variable {header : SegmentHeader} {content : List UInt8}

theorem ofContent?_of_starts (hstarts : header.pfi = true)
    (hinside : header.offmac.toNat < content.length) :
    ofContent? header content =
      some
        { lead := header.offmac.toNat
          frames := (MacFrame.split (content.drop header.offmac.toNat)).1
          trailing := (MacFrame.split (content.drop header.offmac.toNat)).2.length } := by
  simp only [ofContent?, hstarts, hinside, decide_true, Bool.and_true, if_true]

theorem ofContent?_eq_none_iff :
    ofContent? header content = none ↔
      header.pfi = false ∨ content.length ≤ header.offmac.toNat := by
  simp only [ofContent?]
  cases header.pfi <;> simp

/-- Nothing of the content is left out. -/
theorem lengths_of_ofContent? {contents : MacContents}
    (hcontents : ofContent? header content = some contents) :
    contents.lead + (contents.frames.map MacFrame.wireSize).sum + contents.trailing =
      content.length := by
  have hsome : ¬ (header.pfi = false ∨ content.length ≤ header.offmac.toNat) := by
    rw [← ofContent?_eq_none_iff, hcontents]
    exact Option.some_ne_none _
  rw [not_or, Bool.not_eq_false, Nat.not_le] at hsome
  obtain ⟨hstarts, hinside⟩ := hsome
  rw [ofContent?_of_starts hstarts hinside] at hcontents
  cases hcontents
  have hlength := congrArg List.length
    (MacFrame.split_spec (content.drop header.offmac.toNat)).2.1
  rw [List.length_append, List.length_flatMap, List.length_drop,
    List.map_congr_left fun frame _ => MacFrame.length_bytes frame] at hlength
  simp only
  omega

theorem listed_ofContent? (header : SegmentHeader) (content : List UInt8) :
    listed (ofContent? header content) =
      if header.pfi then (MacFrame.split (content.drop header.offmac.toNat)).1 else [] := by
  cases hstarts : header.pfi with
  | false => rw [ofContent?_eq_none_iff.2 (Or.inl hstarts), listed, if_neg Bool.false_ne_true]
  | true =>
    rw [if_pos rfl]
    by_cases hinside : header.offmac.toNat < content.length
    · rw [ofContent?_of_starts hstarts hinside, listed]
    · have hpast := Nat.le_of_not_lt hinside
      rw [ofContent?_eq_none_iff.2 (Or.inr hpast), listed, List.drop_of_length_le hpast,
        MacFrame.split_of_none rfl]

/-- What a decoder shows of a content agrees with the packets that have been handed out. -/
structure Agrees (header : SegmentHeader) (content : List UInt8) (packets : List PieceTable) :
    Prop where
  delivered : List.Forall₂ MacFrame.CarriedBy (listed (ofContent? header content)) packets
  lengths (contents : MacContents) (hcontents : ofContent? header content = some contents) :
    contents.lead + (contents.frames.map MacFrame.wireSize).sum + contents.trailing =
      content.length
  none_iff : ofContent? header content = none ↔
    header.pfi = false ∨ content.length ≤ header.offmac.toNat
  nothing (hnone : ofContent? header content = none) : packets = []

end CommandLine.MacContents

namespace Reassembler

/-- A reassembling end that takes one segment in hands out the packets that lie ahead in it. -/
theorem process_start (settings : ReassemblerSettings) {id : Nat} {bytes : List UInt8}
    {segment : Segment} (hread : Segment.ofWire id bytes = .ok segment) (now : Instant)
    (answers : ReassemblerAnswers) :
    let outcome := (start settings).process (some segment) now answers
    outcome.value = .ok (deliveredTables outcome.reports).length ∧
      List.Forall₂ MacFrame.CarriedBy ((start settings).arriving segment now).wholeFrames
        (deliveredTables outcome.reports) := by
  intro outcome
  obtain ⟨front, refused, hfront, -, hprocess⟩ :=
    (start settings).process_some segment now answers
  let tour : Tour :=
    { run := [(start settings).arriving segment now]
      delivered := 0
      refused := refused
      answers := answers.packet }
  have hframe : Segment.ReadFrom [(id, bytes)] [segment] := .cons hread .nil
  obtain ⟨hfault, hcarried⟩ := tour.handsOut rfl
    ⟨.arriving _ _ _, .arriving _ _ _⟩ (hframe.separate (List.nodup_singleton id))
  have hcount : tour.outcome.walk.delivered = (deliveredTables tour.outcome.reports).length :=
    (tour.first.delivered_finish tour.answers).trans (Nat.zero_add _)
  have houtcome : outcome = _ := hprocess hfault
  have htables : deliveredTables outcome.reports = deliveredTables tour.outcome.reports := by
    rw [houtcome]
    simp only [deliveredTables_append, hfront, deliveredTables_evict, List.nil_append,
      List.append_nil]
    rfl
  rw [htables]
  refine ⟨?_, hcarried⟩
  rw [← hcount, houtcome]
  rfl

/-- **The decoder and the reassembling end agree.** Any bytes that are as many as a header has can be
decoded and read as a segment, and what the decoder shows of the content are the packets that a
reassembling end hands out when this segment is the first that it takes in. -/
theorem process_agreesWithDecoder {bytes : List UInt8}
    (hlong : SegmentHeader.wireSize ≤ bytes.length) :
    ∃ header, SegmentHeader.decode bytes = .ok header ∧
      ∀ id : Nat, ∃ segment, Segment.ofWire id bytes = .ok segment ∧
        ∀ (settings : ReassemblerSettings) (now : Instant) (answers : ReassemblerAnswers),
          let outcome := (start settings).process (some segment) now answers
          outcome.value = .ok (deliveredTables outcome.reports).length ∧
            MacContents.Agrees header (bytes.drop SegmentHeader.wireSize)
              (deliveredTables outcome.reports) := by
  obtain ⟨header, hheader, -⟩ := SegmentHeader.exists_decode_of_length hlong
  refine ⟨header, hheader, fun id => ?_⟩
  have hread : Segment.ofWire id bytes =
      .ok (.ofContent id header (bytes.drop SegmentHeader.wireSize)) := by
    rw [Segment.ofWire, hheader]
  refine ⟨_, hread, fun settings now answers => ?_⟩
  obtain ⟨hvalue, hcarried⟩ := process_start settings hread now answers
  have hlisted := MacContents.listed_ofContent? header (bytes.drop SegmentHeader.wireSize)
  rw [Waiting.wholeFrames_arriving, Segment.map_byte_cells_ofContent, Segment.ofContent, ← hlisted]
    at hcarried
  refine ⟨hvalue, hcarried, fun _ => MacContents.lengths_of_ofContent?,
    MacContents.ofContent?_eq_none_iff, fun hnone => ?_⟩
  rw [hnone] at hcarried
  exact List.forall₂_nil_left_iff.1 hcarried

/-- The end of an earlier packet, an empty packet, a packet of one byte and half a header. -/
theorem process_agreesWithDecoder_cut :
    let bytes : List UInt8 := [128, 2, 0, 0, 0, 0, 0, 0, 170, 187, 0, 7, 0, 0, 0, 8, 0, 1, 65, 0, 9]
    SegmentHeader.wireSize ≤ bytes.length ∧
      ∃ header segment, SegmentHeader.decode bytes = .ok header ∧
        Segment.ofWire 0 bytes = .ok segment ∧
        MacContents.ofContent? header (bytes.drop SegmentHeader.wireSize) =
          some
            { lead := 2
              frames := [.ofContent 7 [], .ofContent 8 [65]]
              trailing := 2 } ∧
        ((start .standard).process (some segment) .zero
          { request := .accepted, packet := fun _ => .accepted }).value = .ok 2 := by
  intro bytes
  have hlong : SegmentHeader.wireSize ≤ bytes.length := by decide
  obtain ⟨header, hheader, hsegment⟩ := process_agreesWithDecoder hlong
  obtain ⟨segment, hread, hagrees⟩ := hsegment 0
  have hcontents : MacContents.ofContent? header (bytes.drop SegmentHeader.wireSize) =
      some { lead := 2, frames := [.ofContent 7 [], .ofContent 8 [65]], trailing := 2 } := by
    have hfields : header.pfi = true ∧ header.offmac = 2 := by
      cases hheader
      decide
    have hsplit : MacFrame.split [0, 7, 0, 0, 0, 8, 0, 1, 65, 0, 9] =
        ([.ofContent 7 [], .ofContent 8 [65]], [0, 9]) := by
      rw [MacFrame.split_of_some (by rfl), MacFrame.split_of_some (by rfl),
        MacFrame.split_of_none (by rfl)]
      rfl
    have hdrop : (bytes.drop SegmentHeader.wireSize).drop (2 : UInt16).toNat =
        [0, 7, 0, 0, 0, 8, 0, 1, 65, 0, 9] := by decide
    rw [MacContents.ofContent?_of_starts hfields.1 (by rw [hfields.2]; decide), hfields.2, hdrop,
      hsplit]
    rfl
  refine ⟨hlong, header, segment, hheader, hread, hcontents, ?_⟩
  obtain ⟨hvalue, hdelivered⟩ := hagrees .standard .zero
    { request := .accepted, packet := fun _ => .accepted }
  have hlength := hdelivered.delivered.length_eq
  rw [hcontents] at hlength
  rw [hvalue, ← hlength]
  rfl

end Reassembler

end Ccf
