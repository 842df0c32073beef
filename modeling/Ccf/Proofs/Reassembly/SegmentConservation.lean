import Ccf.Proofs.Reassembly.Evictions
import Ccf.Proofs.Reassembly.Runs

/-!
# Conservation of segments

Every segment that a reassembler is given is in its window, or has been recycled, or has been
dropped, and only one of these.  This holds after any calls with any segments, whether the calls
fail or not.
-/

namespace Ccf

namespace Reassembler

/-- What the walk of one run of the window keeps, the walk of several runs keeps, also when a run
fails and the later ones are left. -/
theorem walkHeads_keeps {motive : Reassembler → Prop} (answers : Nat → Answer)
    (hrun : ∀ (reassembler : Reassembler) (head : SequenceNumber) (anchor : Anchor)
      (delivered : Nat), Window.anchorAt? head reassembler.window = some anchor →
      motive reassembler → motive (reassembler.walkRun answers anchor delivered).state)
    (heads : List SequenceNumber) {reassembler : Reassembler} (delivered : Nat)
    (hstart : motive reassembler) :
    motive (walkHeads answers heads reassembler delivered).state := by
  induction heads generalizing reassembler delivered with
  | nil => exact hstart
  | cons head later ih =>
    rw [walkHeads]
    cases hanchor : Window.anchorAt? head reassembler.window with
    | none => exact ih delivered hstart
    | some anchor =>
      have hwalked := hrun reassembler head anchor delivered hanchor hstart
      simp only
      split
      · exact hwalked
      · exact ih _ hwalked

/-- The walk of a run leaves each segment in the window or lets it go. -/
theorem walkRun_disposes (reassembler : Reassembler) (answers : Nat → Answer) (anchor : Anchor)
    (delivered : Nat) :
    Disposes ((anchor.before.reverse ++ anchor.entry :: anchor.after).map Waiting.label)
      (reassembler.walkRun answers anchor delivered).reports
      ((reassembler.walkRun answers anchor delivered).state.window.map Waiting.label) := by
  obtain ⟨hwalk, -⟩ := (Walk.begin anchor.cut.1 delivered reassembler.refusals).disposes_finish
    answers (fun _ hpacket => by cases hpacket)
  have hrun : (Walk.begin anchor.cut.1 delivered reassembler.refusals).held = anchor.cut.1 := rfl
  rw [hrun] at hwalk
  have hboth := hwalk.frame (anchor.cut.2.window.map Waiting.label)
  rw [← List.map_append, ← List.map_append] at hboth
  refine hboth.congr (anchor.cut_perm.map _) ((List.Perm.symm ?_).map _)
  exact (Gap.fill_perm _ _).trans ((Walk.remaining_perm _).append_left _)

theorem walkHeads_disposes (answers : Nat → Answer) (heads : List SequenceNumber)
    (reassembler : Reassembler) (delivered : Nat) :
    Disposes (reassembler.window.map Waiting.label)
        (walkHeads answers heads reassembler delivered).reports
        ((walkHeads answers heads reassembler delivered).state.window.map Waiting.label) := by
  induction heads generalizing reassembler delivered with
  | nil => exact .refl _
  | cons head later ih =>
    rw [walkHeads]
    split
    · exact ih reassembler delivered
    · rename_i anchor hanchor
      have hwalked := reassembler.walkRun_disposes answers anchor delivered
      rw [Window.anchorAt?_eq hanchor] at hwalked
      simp only
      split
      · exact hwalked
      · exact hwalked.trans (ih _ _)

/-- Taking a segment in puts it into the window or lets it go. -/
theorem receive_disposes (reassembler : Reassembler) (segment : Segment) (now : Instant)
    (answers : ReassemblerAnswers) :
    Disposes (reassembler.window.map Waiting.label ++ [(segment, reassembler.arrivals + 1)])
      (reassembler.receive segment now answers).reports
      ((reassembler.receive segment now answers).state.window.map Waiting.label) := by
  obtain ⟨refused, front, hreport, hfront⟩ :=
    reassembler.report_eq segment.header answers.request
  obtain ⟨entry, hentry⟩ : ∃ entry, entry =
      ({ reassembler with refusals := refused } : Reassembler).arriving segment now := ⟨_, rfl⟩
  have hlabel : entry.label = (segment, reassembler.arrivals + 1) := by
    rw [hentry]
    rfl
  obtain ⟨hanchor, hwindow⟩ := Window.anchorFor_eq entry reassembler.window
  simp only [receive, hreport, ← hentry]
  refine (Disposes.silent _ (recycledSegments_of_requests hfront)
    (droppedSegments_of_requests hfront)).trans ((walkRun_disposes _ _ _ _).congr ?_ (.refl _))
  rw [hanchor, ← hlabel, ← List.map_singleton, ← List.map_append]
  refine List.Perm.map _ (List.perm_middle.trans ?_)
  rw [hwindow]
  exact (List.perm_append_singleton entry reassembler.window).symm

/-! ## Calls -/

/-- How many segments have arrived is counted by the calls that bring them. -/
@[simp]
theorem arrivals_walkRun (reassembler : Reassembler) (answers : Nat → Answer) (anchor : Anchor)
    (delivered : Nat) :
    (reassembler.walkRun answers anchor delivered).state.arrivals = reassembler.arrivals := rfl

theorem arrivals_walkHeads (answers : Nat → Answer) (heads : List SequenceNumber)
    (reassembler : Reassembler) (delivered : Nat) :
    (walkHeads answers heads reassembler delivered).state.arrivals = reassembler.arrivals :=
  walkHeads_keeps (motive := fun walked => walked.arrivals = reassembler.arrivals) answers
    (fun walked _ anchor delivered _ hsame =>
      (walked.arrivals_walkRun answers anchor delivered).trans hsame) heads delivered rfl

theorem arrivals_receive (reassembler : Reassembler) (segment : Segment) (now : Instant)
    (answers : ReassemblerAnswers) :
    (reassembler.receive segment now answers).state.arrivals = reassembler.arrivals + 1 := by
  obtain ⟨refused, front, hreport, -⟩ := reassembler.report_eq segment.header answers.request
  simp only [receive, hreport, Outcome.after, arrivals_walkRun]

theorem walkFor_disposes (reassembler : Reassembler) (arriving : Option Segment) (now : Instant)
    (answers : ReassemblerAnswers) :
    Disposes (reassembler.window.map Waiting.label ++
          arriving.toList.zipIdx (reassembler.arrivals + 1))
        (reassembler.walkFor arriving now answers).reports
        ((reassembler.walkFor arriving now answers).state.window.map Waiting.label) ∧
      (reassembler.walkFor arriving now answers).state.arrivals =
        reassembler.arrivals + arriving.toList.length := by
  cases arriving with
  | some segment =>
    exact ⟨reassembler.receive_disposes segment now answers,
      reassembler.arrivals_receive segment now answers⟩
  | none =>
    rw [Option.toList_none, List.zipIdx_nil, List.append_nil]
    exact ⟨walkHeads_disposes _ _ _ _, arrivals_walkHeads _ _ _ _⟩

/-- Taking a segment in or walking every run leaves each segment in the window or lets it go, also
when it fails. -/
theorem process_disposes (reassembler : Reassembler) (arriving : Option Segment) (now : Instant)
    (answers : ReassemblerAnswers) :
    Disposes (reassembler.window.map Waiting.label ++
          arriving.toList.zipIdx (reassembler.arrivals + 1))
        (reassembler.process arriving now answers).reports
        ((reassembler.process arriving now answers).state.window.map Waiting.label) ∧
      (reassembler.process arriving now answers).state.arrivals =
        reassembler.arrivals + arriving.toList.length := by
  obtain ⟨hdisposes, harrivals⟩ := reassembler.walkFor_disposes arriving now answers
  rw [process_eq]
  split
  · exact ⟨hdisposes, harrivals⟩
  · exact ⟨hdisposes.trans (evict_disposes _ now), harrivals⟩

/-- Every call leaves each segment in the window or lets it go. -/
theorem perform_disposes (reassembler : Reassembler) (call : ReassemblerCall) :
    Disposes (reassembler.window.map Waiting.label ++
          call.segment?.toList.zipIdx (reassembler.arrivals + 1))
        (reassembler.perform call).reports
        ((reassembler.perform call).state.window.map Waiting.label) ∧
      (reassembler.perform call).state.arrivals =
        reassembler.arrivals + call.segment?.toList.length := by
  have hnothing {reports : List ReassemblerReport} {after : List (Segment × Nat)}
      (hdisposes : Disposes (reassembler.window.map Waiting.label) reports after) :
      Disposes (reassembler.window.map Waiting.label ++
        (none : Option Segment).toList.zipIdx (reassembler.arrivals + 1)) reports after := by
    rwa [Option.toList_none, List.zipIdx_nil, List.append_nil]
  cases call with
  | process arriving now answers => exact reassembler.process_disposes arriving now answers
  | evict now => exact ⟨hnothing (reassembler.evict_disposes now), rfl⟩
  | clear => exact ⟨hnothing (.release .drop reassembler.window), rfl⟩
  | setMultiplier multiplier =>
    obtain ⟨hreports, hwindow, harrivals⟩ := reassembler.perform_setMultiplier multiplier
    rw [hreports, hwindow]
    exact ⟨hnothing (.refl _), harrivals⟩

/-- Calls leave each segment in the window or let it go. -/
theorem run_disposes (reassembler : Reassembler) (calls : List ReassemblerCall) :
    Disposes (reassembler.window.map Waiting.label ++
        (ReassemblerCall.segments calls).zipIdx (reassembler.arrivals + 1))
      (reassembler.run calls).reports
      ((reassembler.run calls).state.window.map Waiting.label) := by
  induction calls generalizing reassembler with
  | nil =>
    rw [ReassemblerCall.segments, List.filterMap_nil, List.zipIdx_nil, List.append_nil]
    exact .refl _
  | cons call later ih =>
    obtain ⟨hfirst, harrivals⟩ := reassembler.perform_disposes call
    have hlater := ih (reassembler.perform call).state
    rw [ReassemblerCall.segments_cons, List.zipIdx_append, ← List.append_assoc,
      Nat.add_right_comm, ← harrivals]
    exact (hfirst.frame_right _).trans hlater

/-- The segments in the window have arrived one after another. -/
theorem arrivals_nodup (settings : ReassemblerSettings) (calls : List ReassemblerCall) :
    (((start settings).run calls).state.window.map Waiting.arrival).Nodup := by
  have hsubperm := ((start settings).run_disposes calls).arrivals_subperm
  have hplaces : (((start settings).window.map Waiting.label ++
      (ReassemblerCall.segments calls).zipIdx ((start settings).arrivals + 1)).map
        Prod.snd).Nodup := by
    rw [start, List.map_nil, List.nil_append, List.zipIdx_map_snd]
    exact List.nodup_range'
  rw [List.map_map] at hsubperm
  obtain ⟨others, hperm, hsublist⟩ := hsubperm
  exact hperm.nodup_iff.1 (hplaces.sublist hsublist)

/-- Conservation of segments.  After any calls, every segment that has been given to the
reassembler, known by its place in the order of arrival, is in the window, or has been recycled, or
has been dropped, in one of these places and once, and it is as it was when it arrived. -/
theorem run_conservesSegments (settings : ReassemblerSettings) (calls : List ReassemblerCall) :
    let outcome := (start settings).run calls
    ∃ recycled dropped : List (Segment × Nat),
      recycledSegments outcome.reports = recycled.map Prod.fst ∧
      droppedSegments outcome.reports = dropped.map Prod.fst ∧
      (outcome.state.window.map Waiting.label ++ (recycled ++ dropped)).Perm
        ((ReassemblerCall.segments calls).zipIdx 1) ∧
      (outcome.state.window.map Waiting.label ++ (recycled ++ dropped)).Nodup := by
  intro outcome
  obtain ⟨recycled, dropped, hrecycled, hdropped, hperm⟩ := (start settings).run_disposes calls
  have hstart : (start settings).window.map Waiting.label ++
      (ReassemblerCall.segments calls).zipIdx ((start settings).arrivals + 1) =
        (ReassemblerCall.segments calls).zipIdx 1 := rfl
  rw [hstart] at hperm
  have hnodup : ((ReassemblerCall.segments calls).zipIdx 1).Nodup := by
    apply List.Nodup.of_map Prod.snd
    rw [List.zipIdx_map_snd]
    exact List.nodup_range'
  exact ⟨recycled, dropped, hrecycled, hdropped, hperm, hperm.nodup_iff.2 hnodup⟩

end Reassembler

end Ccf
