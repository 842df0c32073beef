import Ccf.Proofs.Reassembly.SegmentConservation
import Ccf.Proofs.Reassembly.Tracing

/-!
# Where delivered packets come from

Whatever segments a reassembler is given and whichever of its calls fail, each packet it hands out
is a well-formed MAC packet that is put together from parts of segments whose numbers follow one
another, and no byte of a segment is handed out twice.
-/

namespace Ccf

/-- Every part of a packet is one of a labelled segment. -/
theorem label_mem_of_forall₂ {labels : List (Segment × Nat)} {tables : List PieceTable}
    {origins : List (List Part)}
    (hmade : List.Forall₂ (PieceTable.MadeOf labels) tables origins) :
    ∀ part ∈ origins.flatten, part.label ∈ labels := by
  induction hmade with
  | nil => exact List.forall_mem_nil _
  | cons hfirst _ ih =>
    rw [List.flatten_cons]
    exact List.forall_mem_append.2 ⟨hfirst.labelled, ih⟩

/-- A segment that arrives has not been handed out. -/
theorem Traced.arriving {labels : List (Segment × Nat)} {tables : List PieceTable}
    {reassembler : Reassembler} (htraced : Traced labels reassembler.window tables)
    (harrived : ∀ label ∈ labels, label.2 ≤ reassembler.arrivals) (segment : Segment)
    (now : Instant) :
    Traced (labels ++ [(segment, reassembler.arrivals + 1)])
      (reassembler.arriving segment now :: reassembler.window) tables where
  nodup := by
    refine List.nodup_cons.2 ⟨fun hmem => ?_, htraced.nodup⟩
    obtain ⟨entry, hentry, harrival⟩ := List.mem_map.1 hmem
    have hle := harrived entry.label (htraced.labelled entry hentry)
    simp only [Waiting.label, harrival, Reassembler.arriving] at hle
    omega
  labelled := by
    refine List.forall_mem_cons.2 ⟨?_, fun entry hentry => ?_⟩
    · exact List.mem_append_right _ (List.mem_singleton_self _)
    · exact List.mem_append_left _ (htraced.labelled entry hentry)
  coherent := List.forall_mem_cons.2 ⟨.arriving _ _ _, htraced.coherent⟩
  origins := by
    obtain ⟨origins, hmade, hguards⟩ := htraced.origins
    refine ⟨origins, hmade.imp fun _ _ htable => htable.mono (List.subset_append_left _ _),
      hguards.nodup, List.forall_mem_cons.2 ⟨fun position hplace => ?_, hguards.bounded⟩⟩
    obtain ⟨part, hpart, hpartPlace⟩ := List.mem_flatMap.1 hplace
    have hle := harrived part.label (label_mem_of_forall₂ hmade part hpart)
    have harrival := (Part.mem_places.1 hpartPlace).1
    simp only [Part.label, Reassembler.arriving] at hle harrival
    omega

namespace Reassembler

/-- The window and what has been handed out so far are traced to the labelled segments. -/
structure Traces (labels : List (Segment × Nat)) (reports : List ReassemblerReport)
    (reassembler : Reassembler) : Prop where
  traced : Traced labels reassembler.window (deliveredTables reports)
  fresh : ∀ entry ∈ reassembler.window, entry.Fresh
  arrived : ∀ label ∈ labels, label.2 ≤ reassembler.arrivals

variable {labels : List (Segment × Nat)} {reports : List ReassemblerReport}

/-- The walk of a run leaves the window traced. -/
theorem walkRun_traced (reassembler : Reassembler) (answers : Nat → Answer) {anchor : Anchor}
    (delivered : Nat)
    (hring : Traced labels (anchor.before.reverse ++ anchor.entry :: anchor.after)
      (deliveredTables reports))
    (hfresh : ∀ entry ∈ anchor.before.reverse ++ anchor.entry :: anchor.after, entry.Fresh) :
    Traced labels (reassembler.walkRun answers anchor delivered).state.window
        (deliveredTables
          (reports ++ (reassembler.walkRun answers anchor delivered).reports)) ∧
      ∀ entry ∈ (reassembler.walkRun answers anchor delivered).state.window, entry.Fresh := by
  obtain ⟨earlier, later, between, hcut⟩ := anchor.cut_cutsRun
  have hparts := anchor.cut_perm
  have hbegin : Walk.Traces labels anchor.cut.2.window reports
      (Walk.begin anchor.cut.1 delivered reassembler.refusals) :=
    { traced := hring.subperm hparts.subperm
      fresh := Walk.keepsFresh_begin
        (fun entry hentry => hfresh entry (hparts.subset (List.mem_append_right _ hentry))) _ _
      chained := hcut.chained
      unfinished := fun _ hpacket => by cases hpacket }
  obtain ⟨htraced, hwalked⟩ := hbegin.finish answers
  have hperm : (reassembler.walkRun answers anchor delivered).state.window.Perm
      (anchor.cut.2.window ++
        ((Walk.begin anchor.cut.1 delivered reassembler.refusals).finish answers).walk.held) :=
    (Gap.fill_perm _ _).trans ((Walk.remaining_perm _).append_left _)
  refine ⟨htraced.subperm hperm.subperm, fun entry hentry => ?_⟩
  rcases List.mem_append.1 (hperm.subset hentry) with haside | hheld
  · exact hfresh entry (hparts.subset (List.mem_append_left _ haside))
  · exact hwalked entry hheld

variable {reassembler : Reassembler}

theorem Traces.walkHeads (answers : Nat → Answer) (heads : List SequenceNumber)
    (delivered : Nat) (htraces : reassembler.Traces labels reports) :
    (Reassembler.walkHeads answers heads reassembler delivered).state.Traces labels
      (reports ++ (Reassembler.walkHeads answers heads reassembler delivered).reports) := by
  induction heads generalizing reassembler reports delivered with
  | nil =>
    rw [Reassembler.walkHeads, List.append_nil]
    exact htraces
  | cons head later ih =>
    rw [Reassembler.walkHeads]
    split
    · exact ih delivered htraces
    · rename_i anchor hanchor
      have hwindow := Window.anchorAt?_eq hanchor
      have hring := htraces.traced
      have hfresh := htraces.fresh
      rw [← hwindow] at hring hfresh
      obtain ⟨htraced, hfresh'⟩ := reassembler.walkRun_traced answers delivered hring hfresh
      have hwalked : (reassembler.walkRun answers anchor delivered).state.Traces labels
          (reports ++ (reassembler.walkRun answers anchor delivered).reports) :=
        ⟨htraced, hfresh', htraces.arrived⟩
      simp only
      split
      · exact hwalked
      · rename_i total htotal
        have hrest := ih total hwalked
        rwa [List.append_assoc] at hrest

/-- Taking a segment in leaves the window traced, to the new segment too. -/
theorem Traces.receive (htraces : reassembler.Traces labels reports) (segment : Segment)
    (now : Instant) (answers : ReassemblerAnswers) :
    (reassembler.receive segment now answers).state.Traces
      (labels ++ [(segment, reassembler.arrivals + 1)])
      (reports ++ (reassembler.receive segment now answers).reports) := by
  obtain ⟨refused, front, hreport, hfront⟩ :=
    reassembler.report_eq segment.header answers.request
  have htraced := htraces.traced.arriving htraces.arrived segment now
  have hfresh : ∀ entry ∈ reassembler.arriving segment now :: reassembler.window, entry.Fresh :=
    List.forall_mem_cons.2 ⟨.arriving _ _ _, htraces.fresh⟩
  obtain ⟨entry, hentry⟩ : ∃ entry, entry = reassembler.arriving segment now := ⟨_, rfl⟩
  have hinformed : ({ reassembler with refusals := refused } : Reassembler).arriving segment now =
      entry := hentry.symm
  rw [← hentry] at htraced hfresh
  obtain ⟨hanchor, hwindow⟩ := Window.anchorFor_eq entry reassembler.window
  have hring : ((Window.anchorFor entry reassembler.window).before.reverse ++
      (Window.anchorFor entry reassembler.window).entry ::
        (Window.anchorFor entry reassembler.window).after).Perm
      (entry :: reassembler.window) := by
    rw [hanchor]
    refine List.perm_middle.trans ?_
    rw [hwindow]
  have htables : deliveredTables (reports ++ front) = deliveredTables reports := by
    rw [deliveredTables_append, deliveredTables_of_requests hfront, List.append_nil]
  rw [← htables] at htraced
  obtain ⟨hwalked, hfresh'⟩ := walkRun_traced
    { reassembler with refusals := refused, arrivals := reassembler.arrivals + 1 }
    answers.packet 0 (htraced.subperm hring.subperm)
    (fun other hother => hfresh other (hring.subset hother))
  simp only [Reassembler.receive, hreport, hinformed, Outcome.after, ← List.append_assoc]
  refine ⟨hwalked, hfresh', List.forall_mem_append.2 ⟨fun label hlabel => ?_, ?_⟩⟩
  · exact Nat.le_succ_of_le (htraces.arrived label hlabel)
  · exact List.forall_mem_singleton.2 (Nat.le_refl _)

/-! ## Calls -/

/-- Giving up leaves the window traced. -/
theorem Traces.evict (htraces : reassembler.Traces labels reports) (now : Instant) :
    (reassembler.evict now).state.Traces labels
      (reports ++ (reassembler.evict now).reports) := by
  have hsublist := reassembler.evict_sublist now
  constructor
  · rw [deliveredTables_append, deliveredTables_evict, List.append_nil]
    exact htraces.traced.subperm hsublist.subperm
  · exact fun entry hentry => htraces.fresh entry (hsublist.subset hentry)
  · exact htraces.arrived

/-- Taking a segment in or walking every run leaves the window traced, also when it fails. -/
theorem Traces.process (htraces : reassembler.Traces labels reports)
    (arriving : Option Segment) (now : Instant) (answers : ReassemblerAnswers) :
    (reassembler.process arriving now answers).state.Traces
      (labels ++ arriving.toList.zipIdx (reassembler.arrivals + 1))
      (reports ++ (reassembler.process arriving now answers).reports) := by
  have hwalked : (reassembler.walkFor arriving now answers).state.Traces
      (labels ++ arriving.toList.zipIdx (reassembler.arrivals + 1))
      (reports ++ (reassembler.walkFor arriving now answers).reports) := by
    cases arriving with
    | some segment => exact htraces.receive segment now answers
    | none =>
      rw [Option.toList_none, List.zipIdx_nil, List.append_nil]
      exact htraces.walkHeads answers.packet _ 0
  rw [process_eq]
  split
  · exact hwalked
  · rw [← List.append_assoc]
    exact hwalked.evict now

/-- Every call leaves the window traced. -/
theorem Traces.perform (htraces : reassembler.Traces labels reports) (call : ReassemblerCall) :
    (reassembler.perform call).state.Traces
      (labels ++ call.segment?.toList.zipIdx (reassembler.arrivals + 1))
      (reports ++ (reassembler.perform call).reports) := by
  have hnothing {reports' : List ReassemblerReport} {reassembler' : Reassembler}
      (htraces' : reassembler'.Traces labels reports') :
      reassembler'.Traces
        (labels ++ (none : Option Segment).toList.zipIdx (reassembler.arrivals + 1)) reports' := by
    rwa [Option.toList_none, List.zipIdx_nil, List.append_nil]
  cases call with
  | process arriving now answers => exact htraces.process arriving now answers
  | evict now => exact hnothing (htraces.evict now)
  | clear =>
    refine hnothing ⟨?_, List.forall_mem_nil _, htraces.arrived⟩
    have hdropped : deliveredTables reassembler.clear.reports = [] :=
      deliveredTables_release .drop reassembler.window
    rw [Reassembler.perform, answering, deliveredTables_append, hdropped, List.append_nil]
    exact htraces.traced.subperm (List.nil_sublist _).subperm
  | setMultiplier multiplier =>
    obtain ⟨hreports, hwindow, harrivals⟩ := reassembler.perform_setMultiplier multiplier
    refine hnothing ⟨?_, ?_, ?_⟩
    · rw [hreports, hwindow, List.append_nil]
      exact htraces.traced
    · rw [hwindow]
      exact htraces.fresh
    · rw [harrivals]
      exact htraces.arrived

theorem Traces.run (htraces : reassembler.Traces labels reports)
    (calls : List ReassemblerCall) :
    (reassembler.run calls).state.Traces
      (labels ++ (ReassemblerCall.segments calls).zipIdx (reassembler.arrivals + 1))
      (reports ++ (reassembler.run calls).reports) := by
  induction calls generalizing reassembler labels reports with
  | nil =>
    rw [ReassemblerCall.segments, List.filterMap_nil, List.zipIdx_nil, List.append_nil,
      Reassembler.run, List.append_nil]
    exact htraces
  | cons call later ih =>
    have hlater := ih (htraces.perform call)
    rw [(reassembler.perform_disposes call).2] at hlater
    rw [ReassemblerCall.segments_cons, List.zipIdx_append, Nat.add_right_comm,
      ← List.append_assoc, Reassembler.run, ← List.append_assoc]
    exact hlater

/-- At the start there is nothing to trace. -/
theorem traces_start (settings : ReassemblerSettings) : (start settings).Traces [] [] where
  traced := ⟨List.nodup_nil, List.forall_mem_nil _, List.forall_mem_nil _,
    [], .nil, List.nodup_nil, List.forall_mem_nil _⟩
  fresh := List.forall_mem_nil _
  arrived := List.forall_mem_nil _

/-- Where delivered packets come from.  After any calls, every packet that has been handed out is a
well-formed MAC packet put together from parts of segments that have arrived, as `Part.Laid` says,
and no byte position of any arrival has been handed out twice. -/
theorem run_deliversParts (settings : ReassemblerSettings) (calls : List ReassemblerCall) :
    ∃ origins : List (List Part),
      List.Forall₂ (PieceTable.MadeOf ((ReassemblerCall.segments calls).zipIdx 1))
        (deliveredTables ((start settings).run calls).reports) origins ∧
      (origins.flatten.flatMap Part.places).Nodup := by
  obtain ⟨origins, hmade, hguards⟩ := ((traces_start settings).run calls).traced.origins
  exact ⟨origins, hmade, hguards.nodup⟩

end Reassembler

end Ccf
