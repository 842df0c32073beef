import Ccf.Proofs.Reassembly.SteadyWalks
import Ccf.Proofs.Wire.SegmentFrame
import Mathlib.Data.List.Flatten

/-!
# Runs over the wire

A segment that is read off the wire has content of its own, so no two of them share a byte, however
malformed they are, in whichever order they arrive and however often the same bytes come.  A packet
that is being put together has bytes of different arrivals only, and each of them once.  So no step
of a walk is refused bytes, and no call fails.
-/

namespace Ccf

namespace Segment

/-- Any bytes can be read as a segment, if they are as many as a header has. -/
theorem exists_ofWire_of_length (id : Nat) {bytes : List UInt8}
    (hlong : SegmentHeader.wireSize ≤ bytes.length) :
    ∃ segment, ofWire id bytes = .ok segment := by
  obtain ⟨header, hheader, -⟩ := SegmentHeader.exists_decode_of_length hlong
  exact ⟨_, by rw [ofWire, hheader]⟩

/-- The bytes of a segment that has been read are its own. -/
theorem owner_id_of_ofWire {id : Nat} {bytes : List UInt8} {segment : Segment}
    (hread : ofWire id bytes = .ok segment) : ∀ cell ∈ segment.cells, cell.owner.id = id := by
  obtain ⟨header, content, rfl⟩ := exists_of_ofWire hread
  intro cell hcell
  rw [cells_ofContent, Packet.mem_cells] at hcell
  rw [hcell.1]
  rfl

/-- The segments have been read off the wire, one for each frame. -/
def ReadFrom (frames : List (Nat × List UInt8)) (segments : List Segment) : Prop :=
  List.Forall₂ (fun frame segment => ofWire frame.1 frame.2 = .ok segment) frames segments

/-- No byte belongs to two of the segments, or to one of them twice. -/
structure Separate (segments : List Segment) : Prop where
  proper : ∀ segment ∈ segments, segment.payload.Proper
  nodup : (segments.flatMap cells).Nodup

theorem Separate.subperm {segments others : List Segment} (hseparate : Separate segments)
    (hsubperm : others.Subperm segments) : Separate others where
  proper segment hsegment := hseparate.proper segment (hsubperm.subset hsegment)
  nodup := by
    obtain ⟨same, hperm, hsublist⟩ := hsubperm
    exact (hperm.flatMap_right cells).nodup_iff.1 (hseparate.nodup.sublist (hsublist.flatMap cells))

variable {frames : List (Nat × List UInt8)} {segments : List Segment}

theorem ReadFrom.owner_id (hread : ReadFrom frames segments) :
    ∀ cell ∈ segments.flatMap cells, cell.owner.id ∈ frames.map Prod.fst := by
  induction hread with
  | nil => exact List.forall_mem_nil _
  | cons hfirst _ ih =>
    rw [List.flatMap_cons, List.map_cons]
    refine List.forall_mem_append.2 ⟨fun cell hcell => ?_, fun cell hcell => ?_⟩
    · rw [owner_id_of_ofWire hfirst cell hcell]
      exact List.mem_cons_self
    · exact List.mem_cons_of_mem _ (ih cell hcell)

/-- Segments that are registered under different numbers share no byte. -/
theorem ReadFrom.separate (hread : ReadFrom frames segments)
    (hids : (frames.map Prod.fst).Nodup) : Separate segments := by
  induction hread with
  | nil => exact ⟨List.forall_mem_nil _, List.nodup_nil⟩
  | @cons frame segment frames segments hfirst hlater ih =>
    rw [List.map_cons, List.nodup_cons] at hids
    obtain ⟨hproper, hnodup⟩ := ih hids.2
    obtain ⟨header, content, hsegment⟩ := exists_of_ofWire hfirst
    constructor
    · refine List.forall_mem_cons.2 ⟨?_, hproper⟩
      rw [hsegment]
      exact proper_ofContent _ _ _
    · rw [List.flatMap_cons]
      refine List.nodup_append'.2 ⟨?_, hnodup, fun cell hcell hother => hids.1 ?_⟩
      · rw [hsegment, cells_ofContent]
        exact Packet.nodup_cells _
      · rw [← owner_id_of_ofWire hfirst cell hcell]
        exact ReadFrom.owner_id hlater cell hother

/-- Frames that are long enough can all be read. -/
theorem exists_readFrom (hlong : ∀ frame ∈ frames, SegmentHeader.wireSize ≤ frame.2.length) :
    ∃ segments, ReadFrom frames segments := by
  induction frames with
  | nil => exact ⟨[], .nil⟩
  | cons frame later ih =>
    obtain ⟨segment, hsegment⟩ :=
      exists_ofWire_of_length frame.1 (hlong frame List.mem_cons_self)
    obtain ⟨segments, hsegments⟩ := ih fun other hother =>
      hlong other (List.mem_cons_of_mem _ hother)
    exact ⟨segment :: segments, .cons hsegment hsegments⟩

end Segment

/-! ## Insertions -/

/-- Inserting a range at the end of what has been gathered. -/
structure Insertion where
  into : Gathering
  source : PieceTable
  first : Nat
  last : Nat

namespace Insertion

def result (insertion : Insertion) : Except BufferError Gathering :=
  insertion.into.gatherRange insertion.source insertion.first insertion.last

/-- The range is inserted.  If it completes a packet, cutting the packet off does not grow it, and
the bytes after the packet are no more than the source has. -/
def Succeeds (insertion : Insertion) : Prop :=
  ∃ content written, insertion.result = .ok content ∧
    (insertion.into.table .macHeader).insertRange insertion.into.size insertion.source
      insertion.first insertion.last = (content.table .macHeader, .ok written) ∧
    ∀ block, content.completeSize? = some block →
      (content.table .macHeader).resize block = .ok (Walk.handedOut content block) ∧
        block ≤ content.size ∧ content.size - block ≤ insertion.source.size

/-- A range that brings no byte a second time can be inserted. -/
theorem succeeds_of_nodup {insertion : Insertion} (hinto : insertion.into.Proper)
    (hopen : insertion.into.completeSize? = none) (hsource : insertion.source.Proper)
    (hrange : insertion.first ≤ insertion.last) (hlast : insertion.last ≤ insertion.source.size)
    (hnodup : (insertion.into.cells ++
      (insertion.source.cells.take insertion.last).drop insertion.first).Nodup) :
    insertion.Succeeds := by
  obtain ⟨content, hgather⟩ := Gathering.gatherRange_of_nodup hsource hrange hlast hnodup
  have htable := insertion.into.insertRange_table insertion.source insertion.first
    insertion.last .macHeader
  rw [hgather] at htable
  split at htable
  · rename_i table written hinsert
    cases htable
    refine ⟨content, written, hgather, hinsert, fun block hcomplete => ?_⟩
    obtain ⟨hcontent, hcells⟩ := Gathering.gatherRange_cells hinto hgather
    obtain ⟨-, hfits⟩ := Gathering.completeSize?_bounds hcomplete
    have hgrows := Gathering.size_lt_of_completes hinto hcontent hcells hopen hcomplete
    have hsize := Gathering.size_gatherRange hgather
    refine ⟨?_, hfits, by omega⟩
    rw [PieceTable.resize, Gathering.size_table, if_neg (Nat.not_lt.2 hfits)]
    rfl
  · cases htable

end Insertion

namespace Walk

/-- The insertion that a step at `entry` makes, with the given packet open. -/
def insertion? (pending : Option OpenPacket) (entry : Waiting) : Option Insertion :=
  let range (into : Gathering) (first last : Nat) : Insertion :=
    { into := into, source := entry.segment.payload, first := first, last := last }
  if entry.startsPacket && decide (entry.size ≤ entry.firstStart) then none
  else
    match pending with
    | none =>
      if entry.startsPacket && decide (entry.next < entry.size) then
        some (range .empty entry.next entry.size)
      else none
    | some packet =>
      if entry.startsPacket then some (range packet.content 0 entry.lead)
      else some (range packet.content entry.next entry.size)

theorem fault_openAt (walk : Walk) (answers : Nat → Answer) (entry : Waiting)
    (rest : List Waiting) :
    (walk.openAt answers entry rest).fault =
      if entry.startsPacket && decide (entry.next < entry.size) then
        faultOf (Gathering.empty.gatherRange entry.segment.payload entry.next entry.size)
      else none := by
  unfold openAt
  split
  · rename_i hparsed
    rw [decide_eq_false (Nat.not_lt.2 hparsed), Bool.and_false]
    split <;> rfl
  · rename_i hunparsed
    rw [decide_eq_true (Nat.not_le.1 hunparsed), Bool.and_true]
    cases entry.startsPacket with
    | false => rfl
    | true =>
      cases Gathering.empty.gatherRange entry.segment.payload entry.next entry.size with
      | error fault => rfl
      | ok content =>
        simp only [Bool.not_true, Bool.false_eq_true, if_false, if_true, faultOf]
        split <;> rfl

theorem fault_endAt (walk : Walk) (answers : Nat → Answer) (packet : OpenPacket)
    (entry : Waiting) (rest : List Waiting) :
    (walk.endAt answers packet entry rest).fault =
      faultOf (packet.content.gatherRange entry.segment.payload 0 entry.lead) := by
  unfold endAt
  cases packet.content.gatherRange entry.segment.payload 0 entry.lead with
  | error fault => rfl
  | ok content =>
    simp only [faultOf]
    split <;> rfl

theorem fault_continueAt (walk : Walk) (answers : Nat → Answer) (packet : OpenPacket)
    (entry : Waiting) (rest : List Waiting) :
    (walk.continueAt answers packet entry rest).fault =
      faultOf (packet.content.gatherRange entry.segment.payload entry.next entry.size) := by
  unfold continueAt
  cases packet.content.gatherRange entry.segment.payload entry.next entry.size with
  | error fault => rfl
  | ok content =>
    simp only [faultOf]
    split
    · split <;> rfl
    · rfl

/-- A step faults where its insertion is refused, and nowhere else. -/
theorem fault_visit (walk : Walk) (answers : Nat → Answer) (entry : Waiting)
    (rest : List Waiting) :
    (walk.visit answers entry rest).fault =
      (insertion? walk.pending (toFirstStart entry)).bind
        fun insertion => faultOf insertion.result := by
  have hstarts : (toFirstStart entry).startsPacket = entry.startsPacket := by
    rw [Waiting.startsPacket, segment_toFirstStart, Waiting.startsPacket]
  have hfirst : (toFirstStart entry).firstStart = entry.firstStart := by
    rw [Waiting.firstStart, segment_toFirstStart, Waiting.firstStart]
  unfold visit insertion?
  rw [hfirst, toFirstStart_size, hstarts]
  split
  · rfl
  · cases walk.pending with
    | none =>
      simp only [fault_openAt, hstarts, toFirstStart_size]
      split <;> rfl
    | some packet =>
      simp only [hstarts]
      split
      · exact fault_endAt _ _ _ _ _
      · rw [fault_continueAt, toFirstStart_size]
        rfl

def openContent : Option OpenPacket → Gathering
  | none => .empty
  | some packet => packet.content

section Insertions

variable {walk : Walk} {entry : Waiting} {rest : List Waiting} (hsteady : walk.Steady)
  (hahead : walk.ahead = entry :: rest)
  (hseparate : Segment.Separate (walk.held.map Waiting.segment))

include hsteady in
/-- What has been gathered waits to be completed. -/
theorem openContent_incomplete :
    (openContent walk.pending).Proper ∧ (openContent walk.pending).completeSize? = none := by
  cases hpending : walk.pending with
  | none => exact ⟨Gathering.proper_empty, Gathering.completeSize?_of_short (by decide)⟩
  | some packet =>
    have hpacket := hsteady.unfinished packet hpending
    exact ⟨hpacket.proper, hpacket.incomplete⟩

include hsteady in
/-- What has been gathered comes from the entries of the open packet. -/
theorem openContent_sublist :
    (openContent walk.pending).cells.Sublist
      ((openEntries walk.pending).flatMap fun other => other.segment.cells) := by
  cases hpending : walk.pending with
  | none => exact List.nil_sublist _
  | some packet =>
    rw [openContent, (hsteady.unfinished packet hpending).cells_eq, List.flatMap_map]
    refine List.Sublist.flatMap_right _ fun other _ => ?_
    rw [Waiting.cells_rest]
    exact List.drop_sublist _ _

include hsteady hahead hseparate

/-- The entry at hand brings no byte that has been gathered. -/
theorem nodup_openContent :
    ((openContent walk.pending).cells ++ entry.segment.cells).Nodup := by
  have hlooked : ((openEntries walk.pending ++ [entry]).map Waiting.segment).Subperm
      (walk.held.map Waiting.segment) :=
    ((List.sublist_append_right _ _).map Waiting.segment).subperm.trans
      ((held_perm hahead).map Waiting.segment).symm.subperm
  have hnodup := (hseparate.subperm hlooked).nodup
  rw [List.flatMap_map, List.flatMap_append, List.flatMap_singleton] at hnodup
  exact hnodup.sublist ((openContent_sublist hsteady).append_right _)

/-- The insertion of a step succeeds, if no byte is in two of the entries. -/
theorem succeeds_of_separate {insertion : Insertion}
    (hinsertion : insertion? walk.pending entry = some insertion) : insertion.Succeeds := by
  have hentry := hsteady.coherent_at hahead
  obtain ⟨hproper, hopen⟩ := openContent_incomplete hsteady
  have hnodup := nodup_openContent hsteady hahead hseparate
  have hsource : entry.segment.payload.Proper :=
    hseparate.proper _ (List.mem_map_of_mem (entry_mem_held hahead))
  have hrange {first last : Nat} (hfirst : first ≤ last) (hlast : last ≤ entry.size) :
      Insertion.Succeeds
        { into := openContent walk.pending, source := entry.segment.payload, first := first,
          last := last } := by
    refine Insertion.succeeds_of_nodup hproper hopen hsource hfirst hlast (hnodup.sublist ?_)
    exact ((List.drop_sublist _ _).trans (List.take_sublist _ _)).append_left _
  have hfresh := hsteady.fresh_at hahead
  unfold insertion? at hinsertion
  split at hinsertion
  · cases hinsertion
  · rename_i hinside
    rw [Bool.and_eq_true, decide_eq_true_eq, not_and, Nat.not_le] at hinside
    cases hpending : walk.pending with
    | none =>
      rw [hpending] at hinsertion hrange
      simp only [Option.ite_none_right_eq_some, Option.some.injEq] at hinsertion
      obtain ⟨hunparsed, rfl⟩ := hinsertion
      rw [Bool.and_eq_true, decide_eq_true_eq] at hunparsed
      exact hrange (Nat.le_of_lt hunparsed.2) (Nat.le_refl _)
    | some packet =>
      rw [hpending] at hinsertion hrange
      simp only at hinsertion
      split at hinsertion
      · rename_i hstarts
        cases hinsertion
        have hlead : entry.lead ≤ entry.firstStart := by
          rcases hentry.lead_eq with hzero | ⟨-, hfirst⟩ <;> omega
        exact hrange (Nat.zero_le _) (Nat.le_trans hlead (Nat.le_of_lt (hinside hstarts)))
      · rename_i hstarts
        cases hinsertion
        have hnext := hfresh packet hpending (by simpa using hstarts)
        exact hrange (hnext ▸ Nat.zero_le _) (Nat.le_refl _)

end Insertions

/-- A visit leaves segments that there were. -/
theorem segments_subperm {walk : Walk} {entry : Waiting} {rest stays back : List Waiting}
    {outcome : WalkOutcome} {later : Option OpenPacket} (hahead : walk.ahead = entry :: rest)
    (hmakes : Makes walk entry rest outcome stays later back) :
    (outcome.walk.held.map Waiting.segment).Subperm (walk.held.map Waiting.segment) := by
  obtain ⟨recycled, dropped, -, -, hperm⟩ := disposes_of_makes hahead hmakes
  have hsegments := hperm.map Prod.fst
  simp only [List.map_append, List.map_map, Function.comp_def, Waiting.label] at hsegments
  exact (List.sublist_append_left _ _).subperm.trans hsegments.subperm

end Walk

def WalkStep.insertion? (step : WalkStep) : Option Insertion :=
  step.before.ahead.head?.bind fun entry =>
    Walk.insertion? step.before.pending (Walk.toFirstStart entry)

/-- All insertions of a tour of separate segments succeed, and it does not fault. -/
theorem Tour.succeeds_of_separate {tour : Tour} (hrun : ∀ entry ∈ tour.run, entry.IsSteady)
    (hseparate : Segment.Separate (tour.run.map Waiting.segment)) :
    (∀ step ∈ tour.steps, ∀ insertion, step.insertion? = some insertion → insertion.Succeeds) ∧
      tour.outcome.fault = none := by
  obtain ⟨hsteps, -⟩ := Tour.steps_keep hrun
    (fun _ walk => Segment.Separate (walk.held.map Waiting.segment)) [] hseparate
    fun _ _ _ _ hbefore _ _ _ _ _ hahead hmakes =>
      hbefore.subperm (Walk.segments_subperm hahead hmakes)
  have hinsertions : ∀ step ∈ tour.steps, ∀ insertion,
      step.insertion? = some insertion → insertion.Succeeds := by
    intro step hstep insertion hinsertion
    obtain ⟨hsteady, _, hbefore⟩ := hsteps step hstep
    obtain ⟨entry, rest, hahead, -⟩ := tour.first.exists_visit_of_mem_trail _ step hstep
    rw [WalkStep.insertion?, hahead, List.head?_cons, Option.bind_some,
      Walk.toFirstStart_eq (hsteady.coherent_at hahead)] at hinsertion
    exact Walk.succeeds_of_separate hsteady hahead hbefore hinsertion
  refine ⟨hinsertions, ?_⟩
  cases hfault : tour.outcome.fault with
  | none => rfl
  | some fault =>
    exfalso
    obtain ⟨step, hstep, hfaulty⟩ := tour.first.exists_fault_of_finish _ hfault
    obtain ⟨entry, rest, hahead, hvisit⟩ := tour.first.exists_visit_of_mem_trail _ step hstep
    rw [← hvisit, Walk.fault_visit] at hfaulty
    obtain ⟨insertion, hinsertion, hrefused⟩ := Option.bind_eq_some_iff.1 hfaulty
    obtain ⟨content, -, hresult, -⟩ := hinsertions step hstep insertion
      (by rw [WalkStep.insertion?, hahead, List.head?_cons, Option.bind_some, hinsertion])
    rw [hresult, faultOf] at hrefused
    cases hrefused

/-! ## Runs -/

/-- Entries as they are between calls, all of segments that have arrived. -/
structure Admitted (arrived : List Segment) (entries : List Waiting) : Prop where
  steady : ∀ entry ∈ entries, entry.IsSteady
  segments : (entries.map Waiting.segment).Subperm arrived

namespace Admitted

variable {arrived : List Segment} {entries others : List Waiting}

theorem subperm (hadmitted : Admitted arrived entries) (hsubperm : others.Subperm entries) :
    Admitted arrived others where
  steady entry hentry := hadmitted.steady entry (hsubperm.subset hentry)
  segments := by
    obtain ⟨same, hperm, hsublist⟩ := hsubperm
    exact ((hperm.map _).symm.subperm.trans (hsublist.map _).subperm).trans hadmitted.segments

theorem lasting : Lasting fun arrived _ entries => Admitted arrived entries where
  leaves _ _ _ _ hadmitted hsubperm := hadmitted.subperm hsubperm
  reports _ _ _ _ hadmitted _ := hadmitted
  arrives _ _ _ _ _ _ hadmitted :=
    { steady := List.forall_mem_append.2 ⟨hadmitted.steady,
        List.forall_mem_singleton.2 ⟨.arriving _ _ _, .arriving _ _ _⟩⟩
      segments := by
        rw [List.map_append]
        exact hadmitted.segments.append (List.Subperm.refl _) }

theorem keeps (tour : Tour) : tour.Keeps fun arrived _ entries => Admitted arrived entries := by
  intro arrived _ aside hadmitted
  have hrun : ∀ entry ∈ tour.run, entry.IsSteady := fun entry hentry =>
    hadmitted.steady entry (List.mem_append_right _ hentry)
  have hsegments : (tour.outcome.walk.held.map Waiting.segment).Subperm
      (tour.run.map Waiting.segment) :=
    (Tour.steps_keep hrun
      (fun _ walk => (walk.held.map Waiting.segment).Subperm (tour.run.map Waiting.segment)) []
      (List.Subperm.refl _) fun _ _ _ _ hbefore _ _ _ _ _ hahead hmakes =>
        (Walk.segments_subperm hahead hmakes).trans hbefore).2
  constructor
  · exact List.forall_mem_append.2
      ⟨fun entry hentry => hadmitted.steady entry (List.mem_append_left _ hentry),
        Tour.isSteady_outcome hrun⟩
  · have hall := hadmitted.segments
    rw [List.map_append] at hall ⊢
    exact ((List.Subperm.refl _).append hsegments).trans hall

end Admitted

namespace Reassembler

/-- Walking a run of a window whose segments share no bytes succeeds, and leaves entries as they are
between calls. -/
theorem walkRun_admitted (reassembler : Reassembler) (answers : Nat → Answer) {anchor : Anchor}
    (delivered : Nat) {arrived : List Segment} (hseparate : Segment.Separate arrived)
    (hadmitted : Admitted arrived anchor.entries) :
    (∀ entry ∈ anchor.cut.1, entry.IsSteady) ∧
      (reassembler.tourOf answers anchor delivered).outcome.fault = none ∧
      Admitted arrived (reassembler.walkRun answers anchor delivered).state.window := by
  have hcut := hadmitted.subperm anchor.cut_perm.subperm
  have hrun := hcut.subperm (List.sublist_append_right _ _).subperm
  have hfault : (reassembler.tourOf answers anchor delivered).outcome.fault = none :=
    (Tour.succeeds_of_separate hrun.steady (hseparate.subperm hrun.segments)).2
  have hwalked := (reassembler.explains_walkRun answers anchor delivered).keeps _
    Admitted.lasting (fun tour _ => Admitted.keeps tour) arrived [] hadmitted
  exact ⟨hrun.steady, hfault, hwalked.2⟩

/-- What a walk leaves is put into the gap of its run. -/
theorem window_walkRun (reassembler : Reassembler) (answers : Nat → Answer) (anchor : Anchor)
    (delivered : Nat) :
    (reassembler.walkRun answers anchor delivered).state.window =
      anchor.cut.2.fill (reassembler.tourOf answers anchor delivered).outcome.walk.remaining := rfl

/-- Every tour of a run whose segments share no bytes succeeds. -/
theorem succeeds_of_mem_tours (settings : ReassemblerSettings) {calls : List ReassemblerCall}
    (hseparate : Segment.Separate (ReassemblerCall.segments calls)) :
    ∀ tour ∈ (start settings).tours calls,
      (∀ step ∈ tour.steps, ∀ insertion, step.insertion? = some insertion → insertion.Succeeds) ∧
        tour.outcome.fault = none := by
  intro tour htour
  have hstart : Admitted [] (start settings).window := ⟨List.forall_mem_nil _, List.Subperm.refl _⟩
  obtain ⟨arrived, _, aside, hearlier, hadmitted⟩ := (run_keeps Admitted.lasting (start settings)
    calls (fun tour _ => Admitted.keeps tour) [] [] hstart).1 tour htour
  have hrun := hadmitted.subperm (List.sublist_append_right aside tour.run).subperm
  exact Tour.succeeds_of_separate hrun.steady
    (hseparate.subperm (hrun.segments.trans hearlier.sublist.subperm))

/-- Input from the wire cannot make a reassembler fail.  Any frames that are long enough can be read
as segments, whatever their bytes are; and whatever calls bring these segments, with any settings,
every insertion of every walk succeeds and every call returns the number of packets it has
delivered. -/
theorem run_succeedsOnWire (frames : List (Nat × List UInt8))
    (hids : (frames.map Prod.fst).Nodup)
    (hlong : ∀ frame ∈ frames, SegmentHeader.wireSize ≤ frame.2.length) :
    ∃ segments, Segment.ReadFrom frames segments ∧
      ∀ (settings : ReassemblerSettings) (calls : List ReassemblerCall),
        ReassemblerCall.segments calls = segments →
          (∀ result, .delivered result ∈ ((start settings).run calls).value →
            ∃ count, result = .ok count) ∧
          ∀ tour ∈ (start settings).tours calls, ∀ step ∈ tour.steps, ∀ insertion,
            step.insertion? = some insertion → insertion.Succeeds := by
  obtain ⟨segments, hread⟩ := Segment.exists_readFrom hlong
  refine ⟨segments, hread, fun settings calls hcalls => ?_⟩
  have hseparate : Segment.Separate (ReassemblerCall.segments calls) :=
    hcalls ▸ hread.separate hids
  have htours := succeeds_of_mem_tours settings hseparate
  refine ⟨fun result hresult => ?_, fun tour htour => (htours tour htour).1⟩
  cases result with
  | ok count => exact ⟨count, rfl⟩
  | error fault =>
    obtain ⟨tour, htour, hfault⟩ := exists_fault_of_run (start settings) calls hresult
    rw [(htours tour htour).2] at hfault
    cases hfault

/-- A packet that comes twice, and a segment whose packet start is past its content. -/
theorem run_succeedsOnWire_malformed :
    let packet : List UInt8 := [128, 0, 0, 0, 0, 0, 0, 0, 0, 0, 0, 1, 7]
    let frames := [(0, packet), (1, packet), (2, List.replicate 10 255)]
    let arrives (segment : Segment) : ReassemblerCall :=
      .process (some segment) .zero { request := .accepted, packet := fun _ => .accepted }
    (frames.map Prod.fst).Nodup ∧
      (∀ frame ∈ frames, SegmentHeader.wireSize ≤ frame.2.length) ∧
      ∃ segments, Segment.ReadFrom frames segments ∧ segments.length = 3 ∧
        ∀ result, .delivered result ∈
            ((start ReassemblerSettings.standard).run (segments.map arrives)).value →
          ∃ count, result = .ok count := by
  intro packet frames arrives
  have hids : (frames.map Prod.fst).Nodup := by decide
  have hlong : ∀ frame ∈ frames, SegmentHeader.wireSize ≤ frame.2.length := by decide
  obtain ⟨segments, hread, hruns⟩ := run_succeedsOnWire frames hids hlong
  have hcalls : ReassemblerCall.segments (segments.map arrives) = segments := by
    rw [ReassemblerCall.segments, List.filterMap_map]
    exact List.filterMap_some
  exact ⟨hids, hlong, segments, hread, hread.length_eq.symm, (hruns _ _ hcalls).1⟩

end Reassembler

end Ccf
