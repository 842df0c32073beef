import Ccf.Proofs.Reassembly.Leftovers
import Ccf.Proofs.Reassembly.WindowOrder

/-!
# Cursors between calls

During a walk an entry may be used up and still be at hand, and the entry that has just arrived may
have its packet start past its end.  Neither is left when the walk is over: what a walk passes or
keeps open has something to give (`Waiting.InShape`), however the entries of the run were before.
The entries beside the run are not touched.  So every entry is in shape between calls, in a window
that is ordered by number and whose entries have arrived one after another.

This is for segments from the wire, which share no bytes.  A walk that is refused bytes would stop
with the rest of its run as it was, and with it an arrival whose packet start is past its end.
-/

namespace Ccf

/-- The cursors of an entry between calls.  Without a packet start, nothing has been taken from the
entry.  With one, the packet start is inside, what is owed is all that comes before it or nothing,
the cursor is between it and the end, and some bytes are owed or unparsed. -/
structure Waiting.InShape (entry : Waiting) : Prop where
  untouched : entry.startsPacket = false → entry.lead = 0 ∧ entry.next = 0
  start_inside : entry.startsPacket = true → entry.firstStart < entry.size
  lead_eq : entry.startsPacket = true → entry.lead = 0 ∨ entry.lead = entry.firstStart
  start_le : entry.startsPacket = true → entry.firstStart ≤ entry.next
  next_le : entry.startsPacket = true → entry.next ≤ entry.size
  not_used : entry.startsPacket = true → ¬ (entry.lead = 0 ∧ entry.next = entry.size)

namespace Waiting

variable {entry : Waiting}

/-- A steady entry is in shape, if its packet start is inside and some bytes are owed or
unparsed. -/
theorem IsSteady.inShape (hsteady : entry.IsSteady)
    (hleft : entry.startsPacket = true →
      entry.firstStart < entry.size ∧ (0 < entry.lead ∨ entry.next < entry.size)) :
    entry.InShape := by
  obtain ⟨hcoherent, hfresh⟩ := hsteady
  constructor
  case untouched =>
    intro hnone
    refine ⟨?_, hfresh hnone⟩
    rcases hcoherent.lead_eq with hzero | ⟨hstarts, -⟩
    · exact hzero
    · exact absurd (hnone.symm.trans hstarts) (by decide)
  case start_inside => exact fun hstarts => (hleft hstarts).1
  case lead_eq => exact fun _ => hcoherent.lead_eq.imp_right And.right
  case start_le => exact hcoherent.start_le
  case next_le => exact fun hstarts => hcoherent.next_le hstarts (hleft hstarts).1
  case not_used =>
    rintro hstarts ⟨hlead, hnext⟩
    have hbytes := (hleft hstarts).2
    omega

theorem InShape.isSteady (hshape : entry.InShape) : entry.IsSteady := by
  refine ⟨⟨hshape.start_le, ?_, fun hnone => Or.inl (hshape.untouched hnone).2,
    fun hstarts _ => hshape.next_le hstarts⟩, fun hnone => (hshape.untouched hnone).2⟩
  cases hstarts : entry.startsPacket with
  | false => exact Or.inl (hshape.untouched hstarts).1
  | true => exact (hshape.lead_eq hstarts).imp_right fun hlead => ⟨rfl, hlead⟩

/-- What stays when its bytes have been looked at is in shape. -/
theorem StaysFilled.inShape (hstays : entry.StaysFilled) (hsteady : entry.IsSteady) :
    entry.InShape := by
  apply hsteady.inShape
  intro hstarts
  rcases hstays.1 with hnone | ⟨-, hinside, -, howes⟩
  · exact absurd (hnone.symm.trans hstarts) (by decide)
  · exact ⟨hinside, Or.inl howes⟩

end Waiting

/-- A walk that comes to its end leaves entries in shape. -/
theorem Tour.inShape_outcome {tour : Tour} (hrun : ∀ entry ∈ tour.run, entry.IsSteady)
    (hfault : tour.outcome.fault = none) :
    ∀ entry ∈ tour.outcome.walk.held, entry.InShape := by
  have hheld := Tour.isSteady_outcome hrun
  obtain ⟨hsteady, hkept⟩ := Tour.staysFilled_kept hrun
  have hended : tour.outcome.walk.ahead = [] := tour.first.finish_ahead tour.answers hfault
  intro entry hentry
  have hentry_steady := hheld entry hentry
  rw [Walk.held, hended, List.append_nil] at hentry
  rcases List.mem_append.1 hentry with hpassed | hopen
  · exact (hkept entry hpassed).inShape hentry_steady
  · -- An entry of the open packet has been passed with its bytes unparsed.
    apply hentry_steady.inShape
    intro hstarts
    have hunparsed := Walk.next_lt_of_unfinished hsteady.unfinished entry hopen hstarts
    exact ⟨Nat.lt_of_le_of_lt (hentry_steady.1.start_le hstarts) hunparsed, Or.inr hunparsed⟩

namespace Reassembler

/-- The entries of the window are in shape, and of segments that have arrived. -/
structure Rests (arrived : List Segment) (reassembler : Reassembler) : Prop where
  inShape : ∀ entry ∈ reassembler.window, entry.InShape
  segments : (reassembler.window.map Waiting.segment).Subperm arrived

variable {arrived : List Segment} {reassembler : Reassembler}

theorem Rests.admitted (hrests : reassembler.Rests arrived) :
    Admitted arrived reassembler.window where
  steady entry hentry := (hrests.inShape entry hentry).isSteady
  segments := hrests.segments

theorem Rests.sublist (hrests : reassembler.Rests arrived) {other : Reassembler}
    (hwindow : other.window.Sublist reassembler.window) : other.Rests arrived where
  inShape entry hentry := hrests.inShape entry (hwindow.subset hentry)
  segments := (hwindow.map Waiting.segment).subperm.trans hrests.segments

variable (reassembler) in
/-- The walk of a run leaves a window in shape, if everything but the anchor was. -/
theorem walkRun_rests (answers : Nat → Answer) {anchor : Anchor} (delivered : Nat)
    (hseparate : Segment.Separate arrived) (hadmitted : Admitted arrived anchor.entries)
    (hothers : ∀ entry ∈ anchor.before.reverse ++ anchor.after, entry.InShape) :
    (reassembler.walkRun answers anchor delivered).state.Rests arrived := by
  obtain ⟨hsteady, hfault, hwalked⟩ :=
    walkRun_admitted reassembler answers delivered hseparate hadmitted
  refine ⟨fun entry hentry => ?_, hwalked.segments⟩
  rw [window_walkRun] at hentry
  rcases List.mem_append.1 ((Gap.fill_perm _ _).subset hentry) with hbeside | hleft
  · exact hothers entry (anchor.others_sublist.subset hbeside)
  · exact Tour.inShape_outcome hsteady hfault entry ((Walk.remaining_perm _).subset hleft)

theorem Rests.walkHeads (hrests : reassembler.Rests arrived) (answers : Nat → Answer)
    (heads : List SequenceNumber) (delivered : Nat) (hseparate : Segment.Separate arrived) :
    (walkHeads answers heads reassembler delivered).state.Rests arrived := by
  refine walkHeads_keeps (motive := Rests arrived) answers
    (fun walked head anchor delivered hanchor hwalked => ?_) heads delivered hrests
  have hentries : anchor.entries = walked.window := Window.entries_anchorAt? hanchor
  have hothers : ∀ entry ∈ anchor.before.reverse ++ anchor.after, entry.InShape := by
    intro entry hentry
    apply hwalked.inShape
    rw [← hentries]
    exact ((List.sublist_cons_self _ _).append_left _).subset hentry
  exact walkRun_rests walked answers delivered hseparate (hentries ▸ hwalked.admitted) hothers

/-- Taking a segment in, whatever its packet start is. -/
theorem Rests.receive (hrests : reassembler.Rests arrived) {segment : Segment}
    (hseparate : Segment.Separate (arrived ++ [segment])) (now : Instant)
    (answers : ReassemblerAnswers) :
    (reassembler.receive segment now answers).state.Rests (arrived ++ [segment]) := by
  obtain ⟨refused, front, hreport, -⟩ := reassembler.report_eq segment.header answers.request
  obtain ⟨entry, hentry⟩ : ∃ entry, entry = reassembler.arriving segment now := ⟨_, rfl⟩
  have hinformed : ({ reassembler with refusals := refused } : Reassembler).arriving segment now =
      entry := hentry.symm
  obtain ⟨-, hwindow⟩ := Window.anchorFor_eq entry reassembler.window
  have hentered : Admitted (arrived ++ [segment]) (reassembler.window ++ [entry]) := by
    rw [hentry]
    exact Admitted.lasting.arrives arrived [] reassembler.window segment reassembler now
      hrests.admitted
  have hadmitted := hentered.subperm ((Window.entries_anchorFor_perm entry reassembler.window).trans
    (List.perm_append_singleton _ _).symm).subperm
  have hothers := hrests.inShape
  rw [← hwindow] at hothers
  simp only [Reassembler.receive, hreport, hinformed, Outcome.after]
  exact walkRun_rests _ _ _ hseparate hadmitted hothers

/-- Every call leaves the entries of the window in shape. -/
theorem Rests.perform (hrests : reassembler.Rests arrived) (call : ReassemblerCall)
    (hseparate : Segment.Separate (arrived ++ call.segment?.toList)) :
    (reassembler.perform call).state.Rests (arrived ++ call.segment?.toList) := by
  have hnothing {other : Reassembler} (hother : other.Rests arrived) :
      other.Rests (arrived ++ (none : Option Segment).toList) := by
    rwa [Option.toList_none, List.append_nil]
  cases call with
  | process arriving now answers =>
    have hwalked : (reassembler.walkFor arriving now answers).state.Rests
        (arrived ++ arriving.toList) := by
      cases arriving with
      | some segment => exact hrests.receive hseparate now answers
      | none =>
        have harrived := hseparate.subperm (List.sublist_append_left _ _).subperm
        exact hnothing (hrests.walkHeads answers.packet _ 0 harrived)
    simp only [Reassembler.perform, answering, process_eq]
    split
    · exact hwalked
    · exact hwalked.sublist (evict_sublist _ now)
  | evict now => exact hnothing (hrests.sublist (reassembler.evict_sublist now))
  | clear => exact hnothing (hrests.sublist (List.nil_sublist _))
  | setMultiplier multiplier =>
    obtain ⟨-, hwindow, -⟩ := reassembler.perform_setMultiplier multiplier
    exact hnothing (hrests.sublist (hwindow ▸ List.Sublist.refl _))

theorem Rests.run (hrests : reassembler.Rests arrived) (calls : List ReassemblerCall)
    (hseparate : Segment.Separate (arrived ++ ReassemblerCall.segments calls)) :
    (reassembler.run calls).state.Rests (arrived ++ ReassemblerCall.segments calls) := by
  induction calls generalizing reassembler arrived with
  | nil =>
    rw [ReassemblerCall.segments, List.filterMap_nil, List.append_nil]
    exact hrests
  | cons call later ih =>
    rw [ReassemblerCall.segments_cons, ← List.append_assoc] at hseparate ⊢
    have hfirst := hseparate.subperm (List.sublist_append_left _ _).subperm
    exact ih (hrests.perform call hfirst) hseparate

theorem arrivals_run (reassembler : Reassembler) (calls : List ReassemblerCall) :
    (reassembler.run calls).state.arrivals =
      reassembler.arrivals + (ReassemblerCall.segments calls).length := by
  induction calls generalizing reassembler with
  | nil => rfl
  | cons call later ih =>
    rw [ReassemblerCall.segments_cons, List.length_append, ← Nat.add_assoc,
      ← (reassembler.perform_disposes call).2]
    exact ih _

/-- No entry has a place of arrival that has not been given out. -/
theorem arrival_le_arrivals (settings : ReassemblerSettings) (calls : List ReassemblerCall) :
    ∀ entry ∈ ((start settings).run calls).state.window,
      entry.arrival ≤ ((start settings).run calls).state.arrivals := by
  have hplaces := ((start settings).run_disposes calls).arrivals_subperm.subset
  rw [start, List.map_nil, List.nil_append, List.zipIdx_map_snd, List.map_map] at hplaces
  intro entry hentry
  have hplace := List.mem_range'_1.1 (hplaces (List.mem_map_of_mem hentry))
  rw [arrivals_run, start]
  simp only [Function.comp_def, Waiting.label] at hplace
  omega

/-! ## The window between calls -/

/-- After any calls that bring segments from the wire, each read from a frame of its own, the window
is ordered by number, its entries have arrived one after another, and each of them is in shape. -/
theorem run_restsInShape (settings : ReassemblerSettings) (frames : List (Nat × List UInt8))
    (calls : List ReassemblerCall) (hids : (frames.map Prod.fst).Nodup)
    (hread : Segment.ReadFrom frames (ReassemblerCall.segments calls)) :
    let reassembler := ((start settings).run calls).state
    Window.Sorted reassembler.window ∧
      (reassembler.window.map Waiting.arrival).Nodup ∧
      ∀ entry ∈ reassembler.window,
        entry.arrival ≤ reassembler.arrivals ∧ entry.InShape := by
  intro reassembler
  have hstart : (start settings).Rests [] := ⟨List.forall_mem_nil _, List.Subperm.refl _⟩
  have hrests := hstart.run calls (hread.separate hids)
  exact ⟨sorted_run calls List.Pairwise.nil, arrivals_nodup settings calls, fun entry hentry =>
    ⟨arrival_le_arrivals settings calls entry hentry, hrests.inShape entry hentry⟩⟩

/-- An opened packet whose next segment is missing, a segment without a packet start, the lead bytes
of one whose packet has been delivered, and one whose packet start is past its end, which does not
stay. -/
theorem run_restsInShape_waiting :
    let opening : List UInt8 := [128, 0, 0, 0, 0, 0, 0, 0, 0, 0, 0, 5, 7]
    let between : List UInt8 := [0, 0, 0, 16, 0, 0, 0, 0, 8, 9]
    let closing : List UInt8 := [128, 2, 0, 24, 0, 0, 0, 0, 1, 2, 0, 1, 0, 1, 7]
    let beyond : List UInt8 := [128, 9, 0, 32, 0, 0, 0, 0, 6]
    let frames := [(0, opening), (1, between), (2, closing), (3, beyond)]
    let answers : ReassemblerAnswers := { request := .accepted, packet := fun _ => .accepted }
    let arrives (id : Nat) (frame : List UInt8) : ReassemblerCall :=
      .process (Segment.ofWire id frame).toOption .zero answers
    let calls := [arrives 0 opening, arrives 1 between, arrives 2 closing, arrives 3 beyond]
    let reassembler := ((start .standard).run calls).state
    (frames.map Prod.fst).Nodup ∧
      Segment.ReadFrom frames (ReassemblerCall.segments calls) ∧
      Window.sequences reassembler.window = [⟨0⟩, ⟨2⟩, ⟨3⟩] ∧
      reassembler.window.map Waiting.lead = [0, 0, 2] ∧
      reassembler.window.map Waiting.next = [0, 0, 7] ∧
      Window.Sorted reassembler.window ∧
      (reassembler.window.map Waiting.arrival).Nodup ∧
      ∀ entry ∈ reassembler.window,
        entry.arrival ≤ reassembler.arrivals ∧ entry.InShape := by
  intro opening between closing beyond frames answers arrives calls reassembler
  have hids : (frames.map Prod.fst).Nodup := by decide
  have hread : Segment.ReadFrom frames (ReassemblerCall.segments calls) :=
    .cons rfl (.cons rfl (.cons rfl (.cons rfl .nil)))
  have hsequences : Window.sequences ((start .standard).run calls).state.window =
      [⟨0⟩, ⟨2⟩, ⟨3⟩] := by cbv
  have hleads : ((start .standard).run calls).state.window.map Waiting.lead = [0, 0, 2] := by cbv
  have hnexts : ((start .standard).run calls).state.window.map Waiting.next = [0, 0, 7] := by cbv
  exact ⟨hids, hread, hsequences, hleads, hnexts,
    run_restsInShape .standard frames calls hids hread⟩

end Reassembler

end Ccf
