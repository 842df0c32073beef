import Ccf.Proofs.Reassembly.SegmentConservation

/-!
# The walks of a run

A call on a reassembler walks one run of the window, or several one after another.  Each of these
walks is a *tour*: the entries it begins with, and the steps it then makes up to its end or a fault.
A call fails with the fault of one of its steps, and only steps deliver and recycle.

Segments enter the window by arriving; otherwise its entries change by tours only, or leave it.
What tours keep therefore holds wherever a tour begins, and at the end of the run (`run_keeps`).
-/

namespace Ccf

/-- A step of a walk, with the walk ahead of it. -/
structure WalkStep where
  before : Walk
  outcome : WalkOutcome

namespace Walk

/-! ## The steps of a walk -/

/-- The steps of a walk to its end, or up to a fault. -/
def trail (walk : Walk) (answers : Nat → Answer) : List WalkStep :=
  match _hstep : walk.step answers with
  | none => []
  | some outcome =>
    { before := walk, outcome := outcome } ::
      match _hfault : outcome.fault with
      | some _ => []
      | none => outcome.walk.trail answers
termination_by walk.measure
decreasing_by exact step_smaller _hstep _hfault

variable {walk : Walk} {answers : Nat → Answer} {outcome : WalkOutcome}

theorem trail_of_end (hend : walk.step answers = none) : walk.trail answers = [] := by
  rw [trail]
  split
  · rfl
  · rename_i hmade
    rw [hend] at hmade
    cases hmade

theorem trail_of_step (hmade : walk.step answers = some outcome) (hfault : outcome.fault = none) :
    walk.trail answers =
      { before := walk, outcome := outcome } :: outcome.walk.trail answers := by
  rw [trail]
  split
  · rename_i hend
    rw [hmade] at hend
    cases hend
  · rename_i other hother
    rw [hmade, Option.some.injEq] at hother
    subst hother
    split
    · rename_i fault hfaulty
      rw [hfault] at hfaulty
      cases hfaulty
    · rfl

theorem trail_of_fault (hmade : walk.step answers = some outcome) {fault : BufferError}
    (hfault : outcome.fault = some fault) :
    walk.trail answers = [{ before := walk, outcome := outcome }] := by
  rw [trail]
  split
  · rename_i hend
    rw [hmade] at hend
    cases hend
  · rename_i other hother
    rw [hmade, Option.some.injEq] at hother
    subst hother
    split
    · rfl
    · rename_i hnone
      rw [hfault] at hnone
      cases hnone

variable (walk answers)

/-- A walk faults where one of its steps does. -/
theorem exists_fault_of_finish {fault : BufferError}
    (hfault : (walk.finish answers).fault = some fault) :
    ∃ step ∈ walk.trail answers, step.outcome.fault = some fault := by
  induction walk using finish.induct answers with
  | case1 walk hend =>
    rw [finish_of_end hend] at hfault
    cases hfault
  | case2 walk outcome hmade other hother =>
    rw [finish_of_fault hmade hother] at hfault
    rw [trail_of_fault hmade hother]
    exact ⟨_, List.mem_cons_self, hfault⟩
  | case3 walk outcome hmade hnone ih =>
    rw [finish_of_step hmade hnone] at hfault
    obtain ⟨step, hstep, hfaulty⟩ := ih hfault
    rw [trail_of_step hmade hnone]
    exact ⟨step, List.mem_cons_of_mem _ hstep, hfaulty⟩

/-- A step of a walk visits the first of the entries ahead. -/
theorem exists_visit_of_mem_trail :
    ∀ step ∈ walk.trail answers, ∃ entry rest, step.before.ahead = entry :: rest ∧
      step.before.visit answers entry rest = step.outcome := by
  induction walk using finish.induct answers with
  | case1 walk hend =>
    rw [trail_of_end hend]
    exact List.forall_mem_nil _
  | case2 walk outcome hmade fault hfault =>
    rw [trail_of_fault hmade hfault]
    exact List.forall_mem_singleton.2 (exists_visit hmade)
  | case3 walk outcome hmade hnone ih =>
    rw [trail_of_step hmade hnone]
    exact List.forall_mem_cons.2 ⟨exists_visit hmade, ih⟩

/-- What every step keeps holds ahead of every step, and where the walk ends. -/
theorem trail_keeps (invariant : List ReassemblerReport → Walk → Prop)
    (hkeeps : ∀ step ∈ walk.trail answers, ∀ earlier,
      invariant earlier step.before → invariant (earlier ++ step.outcome.reports) step.outcome.walk)
    {reports : List ReassemblerReport} (hwalk : invariant reports walk) :
    (∀ step ∈ walk.trail answers, ∃ earlier, invariant earlier step.before) ∧
      invariant (reports ++ (walk.finish answers).reports) (walk.finish answers).walk := by
  induction walk using finish.induct answers generalizing reports with
  | case1 walk hend =>
    rw [trail_of_end hend, finish_of_end hend, List.append_nil]
    exact ⟨List.forall_mem_nil _, hwalk⟩
  | case2 walk outcome hmade fault hfault =>
    rw [trail_of_fault hmade hfault] at hkeeps ⊢
    rw [finish_of_fault hmade hfault]
    exact ⟨List.forall_mem_singleton.2 ⟨reports, hwalk⟩, hkeeps _ List.mem_cons_self _ hwalk⟩
  | case3 walk outcome hmade hnone ih =>
    rw [trail_of_step hmade hnone] at hkeeps ⊢
    rw [finish_of_step hmade hnone]
    obtain ⟨hlater, hended⟩ := ih (fun step hstep => hkeeps step (List.mem_cons_of_mem _ hstep))
      (hkeeps _ List.mem_cons_self _ hwalk)
    rw [List.append_assoc] at hended
    exact ⟨List.forall_mem_cons.2 ⟨⟨reports, hwalk⟩, hlater⟩, hended⟩

end Walk

/-- A walk of a call, as it begins. -/
structure Tour where
  run : List Waiting
  delivered : Nat
  refused : Nat
  answers : Nat → Answer

namespace Tour

def first (tour : Tour) : Walk := .begin tour.run tour.delivered tour.refused

def steps (tour : Tour) : List WalkStep := tour.first.trail tour.answers

def outcome (tour : Tour) : WalkOutcome := tour.first.finish tour.answers

/-- A tour leaves labels of its run, in their order, and lets the segments of the others go. -/
theorem disposes (tour : Tour) :
    Disposes (tour.run.map Waiting.label) tour.outcome.reports
        (tour.outcome.walk.held.map Waiting.label) ∧
      (tour.outcome.walk.remaining.map Waiting.label).Sublist (tour.run.map Waiting.label) :=
  tour.first.disposes_finish tour.answers fun _ hpacket => by cases hpacket

end Tour

/-- The reports neither deliver nor recycle. -/
def Idle (reports : List ReassemblerReport) : Prop :=
  deliveredTables reports = [] ∧ recycledSegments reports = []

/-- A property of the segments that have arrived, of the reports so far and of the entries, that
does not mind what calls do besides walking. -/
structure Lasting
    (invariant : List Segment → List ReassemblerReport → List Waiting → Prop) : Prop where
  /-- Entries leave, or are put into another order. -/
  leaves : ∀ arrived reports entries others, invariant arrived reports entries →
    others.Subperm entries → invariant arrived reports others
  reports : ∀ arrived reports more entries, invariant arrived reports entries → Idle more →
    invariant arrived (reports ++ more) entries
  arrives : ∀ arrived reports entries segment (reassembler : Reassembler) now,
    invariant arrived reports entries →
      invariant (arrived ++ [segment]) reports (entries ++ [reassembler.arriving segment now])

def Tour.Keeps (tour : Tour)
    (invariant : List Segment → List ReassemblerReport → List Waiting → Prop) : Prop :=
  ∀ arrived reports aside, invariant arrived reports (aside ++ tour.run) →
    invariant arrived (reports ++ tour.outcome.reports) (aside ++ tour.outcome.walk.held)

/-- The fault is one of the tours, and what the tours keep of the entries `before` holds at the
beginning of each, and of the reports and the entries `after`. -/
structure Explains (before : List Waiting) (tours : List Tour) (reports : List ReassemblerReport)
    (fault : Option BufferError) (after : List Waiting) : Prop where
  faults : ∀ reason, fault = some reason → ∃ tour ∈ tours, tour.outcome.fault = some reason
  keeps : ∀ invariant, Lasting invariant → (∀ tour ∈ tours, tour.Keeps invariant) →
    ∀ arrived earlier, invariant arrived earlier before →
      (∀ tour ∈ tours, ∃ earlier aside, invariant arrived earlier (aside ++ tour.run)) ∧
        invariant arrived (earlier ++ reports) after

namespace Explains

variable {before middle after : List Waiting} {tours others : List Tour}
  {reports later : List ReassemblerReport} {fault : Option BufferError}

/-- Without a tour, entries stay or leave. -/
theorem idle (hsubperm : after.Subperm before) (hreports : Idle reports) :
    Explains before [] reports none after where
  faults reason hreason := by cases hreason
  keeps invariant hlasting _ arrived earlier hbefore :=
    ⟨List.forall_mem_nil _,
      hlasting.reports _ _ _ _ (hlasting.leaves _ _ _ _ hbefore hsubperm) hreports⟩

theorem trans (hfirst : Explains before tours reports none middle)
    (hsecond : Explains middle others later fault after) :
    Explains before (tours ++ others) (reports ++ later) fault after where
  faults reason hreason := by
    obtain ⟨tour, htour, hfaulty⟩ := hsecond.faults reason hreason
    exact ⟨tour, List.mem_append_right _ htour, hfaulty⟩
  keeps invariant hlasting htours arrived earlier hbefore := by
    obtain ⟨hbegun, hmiddle⟩ := hfirst.keeps invariant hlasting
      (fun tour htour => htours tour (List.mem_append_left _ htour)) arrived earlier hbefore
    obtain ⟨hbegun', hafter⟩ := hsecond.keeps invariant hlasting
      (fun tour htour => htours tour (List.mem_append_right _ htour)) arrived _ hmiddle
    rw [List.append_assoc] at hafter
    exact ⟨List.forall_mem_append.2 ⟨hbegun, hbegun'⟩, hafter⟩

/-- One tour of some of the entries. -/
theorem tour {aside : List Waiting} (tour : Tour)
    (hbefore : before.Perm (aside ++ tour.run))
    (hafter : after.Perm (aside ++ tour.outcome.walk.held)) :
    Explains before [tour] tour.outcome.reports tour.outcome.fault after where
  faults reason hreason := ⟨tour, List.mem_cons_self, hreason⟩
  keeps invariant hlasting htours arrived earlier hinvariant := by
    have hbegun := hlasting.leaves _ _ _ _ hinvariant hbefore.symm.subperm
    have hended := htours tour List.mem_cons_self arrived earlier aside hbegun
    exact ⟨List.forall_mem_singleton.2 ⟨earlier, aside, hbegun⟩,
      hlasting.leaves _ _ _ _ hended hafter.subperm⟩

end Explains

namespace Reassembler

/-! ## The tours of a call -/

/-- The walk of the run through an anchor. -/
def tourOf (reassembler : Reassembler) (answers : Nat → Answer) (anchor : Anchor)
    (delivered : Nat) : Tour where
  run := anchor.cut.1
  delivered := delivered
  refused := reassembler.refusals
  answers := answers

/-- The walks of the runs with the given first numbers, as far as they do not fault. -/
def headTours (answers : Nat → Answer) : List SequenceNumber → Reassembler → Nat → List Tour
  | [], _, _ => []
  | head :: later, reassembler, delivered =>
    match Window.anchorAt? head reassembler.window with
    | none => headTours answers later reassembler delivered
    | some anchor =>
      let walked := reassembler.walkRun answers anchor delivered
      reassembler.tourOf answers anchor delivered ::
        match walked.value with
        | .error _ => []
        | .ok total => headTours answers later walked.state total

/-- The walks of a call that takes in a segment, if there is one, or walks every run. -/
def processTours (reassembler : Reassembler) (arriving : Option Segment) (now : Instant)
    (answers : ReassemblerAnswers) : List Tour :=
  match arriving with
  | some segment =>
    let informed := (reassembler.report segment.header answers.request).1
    [informed.tourOf answers.packet
      (Window.anchorFor (informed.arriving segment now) informed.window) 0]
  | none =>
    headTours answers.packet (Window.runHeads reassembler.window) reassembler 0

def callTours (reassembler : Reassembler) : ReassemblerCall → List Tour
  | .process arriving now answers => reassembler.processTours arriving now answers
  | _ => []

def tours (reassembler : Reassembler) : List ReassemblerCall → List Tour
  | [] => []
  | call :: later => reassembler.callTours call ++ (reassembler.perform call).state.tours later

/-- The entries that a call adds to the window before it walks. -/
def newcomers (reassembler : Reassembler) : ReassemblerCall → List Waiting
  | .process arriving now _ => arriving.toList.map fun segment => reassembler.arriving segment now
  | .evict _ | .clear | .setMultiplier _ => []

theorem explains_walkRun (reassembler : Reassembler) (answers : Nat → Answer) (anchor : Anchor)
    (delivered : Nat) :
    Explains (anchor.before.reverse ++ anchor.entry :: anchor.after)
      [reassembler.tourOf answers anchor delivered]
      (reassembler.walkRun answers anchor delivered).reports
      (faultOf (reassembler.walkRun answers anchor delivered).value)
      (reassembler.walkRun answers anchor delivered).state.window := by
  have hfault : faultOf (reassembler.walkRun answers anchor delivered).value =
      (reassembler.tourOf answers anchor delivered).outcome.fault := by
    simp only [walkRun, Tour.outcome, Tour.first, tourOf]
    split
    · rename_i fault hfault
      rw [hfault, faultOf]
    · rename_i hnone
      rw [hnone, faultOf]
  rw [hfault]
  exact .tour (reassembler.tourOf answers anchor delivered) anchor.cut_perm.symm
    ((Gap.fill_perm _ _).trans ((Walk.remaining_perm _).append_left _))

theorem explains_walkHeads (answers : Nat → Answer) (heads : List SequenceNumber)
    (reassembler : Reassembler) (delivered : Nat) :
    Explains reassembler.window (headTours answers heads reassembler delivered)
      (walkHeads answers heads reassembler delivered).reports
      (faultOf (walkHeads answers heads reassembler delivered).value)
      (walkHeads answers heads reassembler delivered).state.window := by
  induction heads generalizing reassembler delivered with
  | nil => exact .idle (List.Subperm.refl _) ⟨rfl, rfl⟩
  | cons head later ih =>
    rw [walkHeads, headTours]
    cases hanchor : Window.anchorAt? head reassembler.window with
    | none => exact ih reassembler delivered
    | some anchor =>
      have hwalked := reassembler.explains_walkRun answers anchor delivered
      rw [Window.anchorAt?_eq hanchor] at hwalked
      simp only
      cases hvalue : (reassembler.walkRun answers anchor delivered).value with
      | error fault => exact hwalked
      | ok total =>
        rw [hvalue] at hwalked
        exact hwalked.trans (ih _ _)

theorem explains_receive (reassembler : Reassembler) (segment : Segment) (now : Instant)
    (answers : ReassemblerAnswers) :
    Explains (reassembler.window ++ [reassembler.arriving segment now])
      (reassembler.processTours (some segment) now answers)
      (reassembler.receive segment now answers).reports
      (faultOf (reassembler.receive segment now answers).value)
      (reassembler.receive segment now answers).state.window := by
  obtain ⟨refused, front, hreport, hfront⟩ :=
    reassembler.report_eq segment.header answers.request
  obtain ⟨entry, hentry⟩ : ∃ entry, entry = reassembler.arriving segment now := ⟨_, rfl⟩
  have hinformed : ({ reassembler with refusals := refused } : Reassembler).arriving segment now =
      entry := hentry.symm
  obtain ⟨hanchor, hwindow⟩ := Window.anchorFor_eq entry reassembler.window
  have hring : ((Window.anchorFor entry reassembler.window).before.reverse ++
      (Window.anchorFor entry reassembler.window).entry ::
        (Window.anchorFor entry reassembler.window).after).Subperm
      (reassembler.window ++ [entry]) := by
    rw [hanchor]
    refine (List.perm_middle.trans ?_).subperm
    rw [hwindow]
    exact (List.perm_append_singleton entry reassembler.window).symm
  simp only [receive, processTours, hreport, hinformed, ← hentry]
  exact (Explains.idle hring ⟨deliveredTables_of_requests hfront,
    recycledSegments_of_requests hfront⟩).trans (explains_walkRun _ _ _ _)

theorem explains_evict (reassembler : Reassembler) (now : Instant) :
    Explains reassembler.window [] (reassembler.evict now).reports none
      (reassembler.evict now).state.window := by
  refine .idle (reassembler.evict_sublist now).subperm
    ⟨reassembler.deliveredTables_evict now, ?_⟩
  simp [evict, recycledSegments, List.filterMap_map]

theorem explains_process (reassembler : Reassembler) (arriving : Option Segment) (now : Instant)
    (answers : ReassemblerAnswers) :
    Explains (reassembler.window ++ reassembler.newcomers (.process arriving now answers))
      (reassembler.processTours arriving now answers)
      (reassembler.process arriving now answers).reports
      (faultOf (reassembler.process arriving now answers).value)
      (reassembler.process arriving now answers).state.window := by
  have hwalked : Explains
      (reassembler.window ++ reassembler.newcomers (.process arriving now answers))
      (reassembler.processTours arriving now answers)
      (reassembler.walkFor arriving now answers).reports
      (faultOf (reassembler.walkFor arriving now answers).value)
      (reassembler.walkFor arriving now answers).state.window := by
    cases arriving with
    | some segment => exact reassembler.explains_receive segment now answers
    | none =>
      rw [newcomers, Option.toList_none, List.map_nil, List.append_nil]
      exact explains_walkHeads _ _ _ _
  rw [process_eq]
  cases hvalue : (reassembler.walkFor arriving now answers).value with
  | error fault =>
    rw [hvalue] at hwalked
    simpa only [hvalue] using hwalked
  | ok delivered =>
    rw [hvalue] at hwalked
    have hboth := hwalked.trans (explains_evict _ now)
    rwa [List.append_nil] at hboth

/-- The fault that a call returns. -/
def faultIn : ReassemblerAnswer → Option BufferError
  | .delivered result => faultOf result
  | _ => none

/-- What a call does is what its tours do. -/
theorem explains_perform (reassembler : Reassembler) (call : ReassemblerCall) :
    Explains (reassembler.window ++ reassembler.newcomers call) (reassembler.callTours call)
      (reassembler.perform call).reports (faultIn (reassembler.perform call).value)
      (reassembler.perform call).state.window := by
  cases call with
  | process arriving now answers => exact reassembler.explains_process arriving now answers
  | evict now =>
    rw [newcomers, List.append_nil]
    exact reassembler.explains_evict now
  | clear =>
    refine .idle (List.nil_sublist _).subperm
      ⟨deliveredTables_release .drop reassembler.window, ?_⟩
    simp [perform, answering, clear, recycledSegments, List.filterMap_map]
  | setMultiplier multiplier =>
    obtain ⟨hreports, hwindow, -⟩ := reassembler.perform_setMultiplier multiplier
    have hfault : faultIn (reassembler.perform (.setMultiplier multiplier)).value = none := by
      simp only [perform]
      split <;> rfl
    rw [newcomers, List.append_nil, hreports, hwindow, hfault]
    exact .idle (List.Subperm.refl _) ⟨rfl, rfl⟩

/-- A call fails where one of its tours faults. -/
theorem exists_fault_of_run (reassembler : Reassembler) (calls : List ReassemblerCall)
    {fault : BufferError}
    (hfault : .delivered (.error fault) ∈ (reassembler.run calls).value) :
    ∃ tour ∈ reassembler.tours calls, tour.outcome.fault = some fault := by
  induction calls generalizing reassembler with
  | nil => cases hfault
  | cons call later ih =>
    rcases List.mem_cons.1 hfault with hfirst | hlater
    · obtain ⟨tour, htour, hfaulty⟩ := (reassembler.explains_perform call).faults fault
        (by rw [← hfirst, faultIn, faultOf])
      exact ⟨tour, List.mem_append_left _ htour, hfaulty⟩
    · obtain ⟨tour, htour, hfaulty⟩ := ih _ hlater
      exact ⟨tour, List.mem_append_right _ htour, hfaulty⟩

/-- What tours keep holds wherever a tour begins, and at the end. -/
theorem run_keeps {invariant : List Segment → List ReassemblerReport → List Waiting → Prop}
    (hlasting : Lasting invariant) (reassembler : Reassembler) (calls : List ReassemblerCall)
    (htours : ∀ tour ∈ reassembler.tours calls, tour.Keeps invariant)
    (arrived : List Segment) (earlier : List ReassemblerReport)
    (hwindow : invariant arrived earlier reassembler.window) :
    (∀ tour ∈ reassembler.tours calls, ∃ before reports aside,
        before <+: arrived ++ ReassemblerCall.segments calls ∧
          invariant before reports (aside ++ tour.run)) ∧
      invariant (arrived ++ ReassemblerCall.segments calls)
        (earlier ++ (reassembler.run calls).reports) (reassembler.run calls).state.window := by
  induction calls generalizing reassembler arrived earlier with
  | nil =>
    rw [ReassemblerCall.segments, List.filterMap_nil, List.append_nil, run, List.append_nil]
    exact ⟨List.forall_mem_nil _, hwindow⟩
  | cons call later ih =>
    have hentered : invariant (arrived ++ call.segment?.toList) earlier
        (reassembler.window ++ reassembler.newcomers call) := by
      cases call with
      | process arriving now answers =>
        cases arriving with
        | some segment => exact hlasting.arrives _ _ _ segment reassembler now hwindow
        | none => simpa [ReassemblerCall.segment?, newcomers] using hwindow
      | evict now => simpa [ReassemblerCall.segment?, newcomers] using hwindow
      | clear => simpa [ReassemblerCall.segment?, newcomers] using hwindow
      | setMultiplier multiplier => simpa [ReassemblerCall.segment?, newcomers] using hwindow
    obtain ⟨hbegun, hafter⟩ := (reassembler.explains_perform call).keeps invariant hlasting
      (fun tour htour => htours tour (List.mem_append_left _ htour)) _ _ hentered
    obtain ⟨hbegun', hended⟩ :=
      ih _ (fun tour htour => htours tour (List.mem_append_right _ htour)) _ _ hafter
    rw [List.append_assoc] at hended hbegun'
    rw [List.append_assoc] at hended
    rw [ReassemblerCall.segments_cons, run]
    refine ⟨List.forall_mem_append.2 ⟨fun tour htour => ?_, hbegun'⟩, hended⟩
    obtain ⟨reports, aside, haside⟩ := hbegun tour htour
    refine ⟨_, reports, aside, ?_, haside⟩
    rw [← List.append_assoc]
    exact List.prefix_append _ _

end Reassembler

end Ccf
