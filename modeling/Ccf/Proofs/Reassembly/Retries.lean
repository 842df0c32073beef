import Ccf.Proofs.Reassembly.Stretches

/-!
# Retrying

Between calls, every run of the window is what some walk has left, so a call without a segment
delivers nothing.  Giving up may leave empty segments behind that belong to no packet; the next walk
recycles them.  As long as nothing has been given up there are none, and such a call changes nothing
at all.

This needs windows whose segments have different numbers and are fewer than there are numbers.  In
others two segments with one number, or the two ends of a run around the whole ring, may meet.
-/

namespace Ccf

namespace Reassembler

/-- How many segments a call gives up because they have waited for too long or are too many. -/
def evictions (reassembler : Reassembler) : ReassemblerCall → Nat
  | .process arriving now answers =>
    match (reassembler.walkFor arriving now answers).value with
    | .error _ => 0
    | .ok _ => ((reassembler.walkFor arriving now answers).state.evict now).value
  | .evict now => (reassembler.evict now).value
  | .clear | .setMultiplier _ => 0

/-- How many segments calls give up in this way, one after another. -/
def evicted (reassembler : Reassembler) : List ReassemblerCall → Nat
  | [] => 0
  | call :: later => reassembler.evictions call + (reassembler.perform call).state.evicted later

theorem evicted_append (reassembler : Reassembler) (calls later : List ReassemblerCall) :
    reassembler.evicted (calls ++ later) =
      reassembler.evicted calls + (reassembler.run calls).state.evicted later := by
  induction calls generalizing reassembler with
  | nil => exact (Nat.zero_add _).symm
  | cons call others ih =>
    calc reassembler.evicted (call :: others ++ later)
        = reassembler.evictions call +
            (reassembler.perform call).state.evicted (others ++ later) := rfl
      _ = reassembler.evicted (call :: others) +
            (reassembler.run (call :: others)).state.evicted later := by
          rw [ih, ← Nat.add_assoc]
          rfl

/-- Where nothing is given up, nothing happens. -/
theorem evict_of_value {reassembler : Reassembler} {now : Instant}
    (hvalue : (reassembler.evict now).value = 0) :
    (reassembler.evict now).state = reassembler ∧ (reassembler.evict now).reports = [] := by
  obtain ⟨stale, fresh, hdivide⟩ : ∃ stale fresh,
      divideStale reassembler.settings now reassembler.window = (stale, fresh) := ⟨_, _, rfl⟩
  obtain ⟨surplus, left, htake⟩ : ∃ surplus left,
      takeOldest (fresh.length - reassembler.settings.windowBound) fresh = (surplus, left) :=
    ⟨_, _, rfl⟩
  have hfresh := divideStale_sublist reassembler.settings now reassembler.window
  have hleft := takeOldest_sublist (fresh.length - reassembler.settings.windowBound) fresh
  have hstale := (divideStale_perm reassembler.settings now reassembler.window).length_eq
  have hsurplus :=
    (takeOldest_perm (fresh.length - reassembler.settings.windowBound) fresh).length_eq
  simp only [evict, hdivide, htake] at hvalue ⊢
  rw [hdivide, List.length_append] at hstale
  rw [htake, List.length_append] at hsurplus
  rw [hdivide] at hfresh
  rw [htake] at hleft
  have hsame : left = reassembler.window :=
    (hleft.trans hfresh).eq_of_length (by simp only at *; omega)
  have hnone : stale ++ surplus = [] := by
    rw [← List.length_eq_zero_iff, List.length_append]
    exact hvalue
  rw [hsame, hnone]
  exact ⟨rfl, rfl⟩

/-! ## Windows at rest -/

/-- A window as it is between calls: its segments have arrived, they are in the order of their
numbers, which are different and not all of them, and walks have left them.  Nothing is asked of
empty segments once something has been given up. -/
structure AtRest (arrived : List Segment) (evicted : Nat) (reassembler : Reassembler) : Prop where
  admitted : Admitted arrived reassembler.window
  sorted : Window.Sorted reassembler.window
  nodup : (Window.sequences reassembler.window).Nodup
  length_lt : reassembler.window.length < sequenceSpace
  still : Window.Still reassembler.window
  firm : evicted = 0 → Window.Firm reassembler.window

variable {arrived : List Segment} {evicted : Nat} {reassembler : Reassembler}

theorem atRest_of_empty (hempty : reassembler.window = []) :
    reassembler.AtRest arrived evicted := by
  have hnone (stretch : List Waiting) (hstretch : Window.Stretch [] stretch)
      (stays : Waiting → Prop) : Leftover stays stretch := by
    rw [List.subset_nil.1 hstretch.subset]
    exact .nil
  constructor
  all_goals rw [hempty]
  case admitted => exact ⟨List.forall_mem_nil _, List.nil_subperm⟩
  case sorted => exact List.Pairwise.nil
  case nodup => exact List.nodup_nil
  case length_lt => decide
  case still => exact fun stretch hstretch => hnone stretch hstretch _
  case firm => exact fun _ stretch hstretch _ => hnone stretch hstretch _

/-- A window at rest stays so when something is given up. -/
theorem AtRest.evict (hrest : reassembler.AtRest arrived evicted) (now : Instant) :
    (reassembler.evict now).state.AtRest arrived (evicted + (reassembler.evict now).value) := by
  have hsublist := reassembler.evict_sublist now
  constructor
  case admitted => exact hrest.admitted.subperm hsublist.subperm
  case sorted => exact hrest.sorted.sublist hsublist
  case nodup => exact hrest.nodup.sublist (hsublist.map Waiting.sequence)
  case length_lt => exact Nat.lt_of_le_of_lt hsublist.length_le hrest.length_lt
  case still => exact hrest.still.mono hsublist.subset
  case firm =>
    intro hnone
    obtain ⟨hbefore, hnow⟩ := Nat.add_eq_zero_iff.1 hnone
    rw [(evict_of_value hnow).1]
    exact hrest.firm hbefore

section WalkRun

variable {old : List Waiting} {anchor : Anchor} (reassembler) (answers : Nat → Answer)
  (delivered : Nat)

/-- A walk without a fault counts what it delivers. -/
theorem value_walkRun
    (hfault : (reassembler.tourOf answers anchor delivered).outcome.fault = none) :
    (reassembler.walkRun answers anchor delivered).value =
      .ok (delivered +
        (deliveredTables (reassembler.walkRun answers anchor delivered).reports).length) := by
  have hcount := (Walk.begin anchor.cut.1 delivered reassembler.refusals).delivered_finish answers
  simp only [Tour.outcome, Tour.first, tourOf] at hfault
  simp only [walkRun, hfault, hcount]
  rfl

/-- A walk of a run leaves a window at rest, if one was there before or the anchor has just
arrived. -/
theorem walkRun_atRest (hseparate : Segment.Separate arrived)
    (hadmitted : Admitted arrived anchor.entries) (hanchor : anchor.Distinct)
    (hroom : anchor.entries.length < sequenceSpace) (hgap : anchor.cut.2.window ⊆ old)
    (hold : old ⊆ anchor.cut.2.window ++ anchor.cut.1) (hstill : Window.Still old)
    (hfirm : evicted = 0 → Window.Firm old) :
    (reassembler.walkRun answers anchor delivered).value =
        .ok (delivered +
          (deliveredTables (reassembler.walkRun answers anchor delivered).reports).length) ∧
      (reassembler.walkRun answers anchor delivered).state.AtRest arrived evicted := by
  obtain ⟨hsteady, hfault, hwalked⟩ :=
    walkRun_admitted reassembler answers delivered hseparate hadmitted
  refine ⟨value_walkRun reassembler answers delivered hfault, ?_⟩
  have hwindow := window_walkRun reassembler answers anchor delivered
  have hleftover : Leftover Waiting.StaysFilled
      (reassembler.tourOf answers anchor delivered).outcome.walk.remaining :=
    Tour.leftover hsteady hanchor.run_stretch.consecutive hfault
  have hsequences : (Window.sequences
      (reassembler.tourOf answers anchor delivered).outcome.walk.remaining).Sublist
        (Window.sequences anchor.cut.1) := by
    have hmapped := (reassembler.tourOf answers anchor delivered).disposes.2.map
      fun label => label.1.sequence
    rw [List.map_map, List.map_map] at hmapped
    exact hmapped
  generalize (reassembler.tourOf answers anchor delivered).outcome.walk.remaining = left
    at hwindow hleftover hsequences
  have hperm := Gap.fill_perm anchor.cut.2 left
  constructor
  case admitted => exact hwalked
  all_goals rw [hwindow]
  case sorted => exact Gap.fill_sorted (hanchor.sorted.sublist anchor.others_sublist) _
  case nodup =>
    have hcutNodup := hanchor.cut_nodup
    rw [Window.sequences, List.map_append] at hcutNodup
    apply (hperm.map Waiting.sequence).nodup_iff.2
    rw [List.map_append]
    exact hcutNodup.sublist ((List.Sublist.refl _).append hsequences)
  case length_lt =>
    have hlength := hsequences.length_le
    rw [Window.sequences, Window.sequences, List.length_map, List.length_map] at hlength
    calc (anchor.cut.2.fill left).length
        = anchor.cut.2.window.length + left.length := by
          rw [hperm.length_eq, List.length_append]
      _ ≤ anchor.cut.2.window.length + (anchor.cut.1).length :=
          Nat.add_le_add_left hlength _
      _ = anchor.entries.length := by
          rw [← List.length_append]
          exact anchor.cut_perm.length_eq
      _ < sequenceSpace := hroom
  case still => exact hanchor.still_fill hroom hsequences hleftover hgap hstill
  case firm =>
    exact fun hnone => hanchor.firm_fill hroom hsequences hleftover hgap hold (hfirm hnone)

variable {reassembler}

/-- Walking a run of a window at rest delivers nothing.  If nothing has been given up, it changes
nothing. -/
theorem AtRest.walkRun (hrest : reassembler.AtRest arrived evicted)
    (hseparate : Segment.Separate arrived) (hanchor : anchor.entries = reassembler.window) :
    (reassembler.walkRun answers anchor delivered).value = .ok delivered ∧
      deliveredTables (reassembler.walkRun answers anchor delivered).reports = [] ∧
      (reassembler.walkRun answers anchor delivered).state.AtRest arrived evicted ∧
      (evicted = 0 → (reassembler.walkRun answers anchor delivered).reports = [] ∧
        (reassembler.walkRun answers anchor delivered).state = reassembler) := by
  have hsorted := hrest.sorted
  have hadmitted := hrest.admitted
  have hroom := hrest.length_lt
  have hnodup := hrest.nodup
  rw [← hanchor] at hsorted hadmitted hroom hnodup
  have hdistinct := Anchor.distinct_of_sorted hsorted hnodup
  have hperm := anchor.cut_perm
  rw [← Anchor.entries, hanchor] at hperm
  obtain ⟨hvalue, hstate⟩ := walkRun_atRest reassembler answers delivered hseparate hadmitted
    hdistinct hroom (fun entry hentry => hperm.subset (List.mem_append_left _ hentry))
    hperm.symm.subset hrest.still hrest.firm
  have hstretch := hdistinct.run_stretch
  have hforemost := hdistinct.run_foremost hroom
  rw [hanchor] at hstretch hforemost
  have hsteady : ∀ entry ∈ (reassembler.tourOf answers anchor delivered).run, entry.IsSteady :=
    fun entry hentry => hrest.admitted.steady entry (hstretch.subset hentry)
  obtain ⟨hnone, -⟩ := Tour.outcome_of_leftover hsteady (fun _ hstays => hstays)
    (hrest.still _ hstretch)
  refine ⟨?_, hnone, hstate, fun hzero => ?_⟩
  · rw [hvalue]
    exact congrArg (fun tables => Except.ok (delivered + List.length tables)) hnone
  · obtain ⟨-, hstands⟩ := Tour.outcome_of_leftover hsteady (fun _ hstays => hstays.1)
      (hrest.firm hzero _ hstretch hforemost)
    obtain ⟨hsilent, hremaining⟩ := hstands fun _ hstays => hstays.2
    refine ⟨hsilent, ?_⟩
    have hrefused := ((Walk.begin anchor.cut.1 delivered reassembler.refusals).finish_heeds
      reassembler.refusals answers answers).refused_eq
    simp only [Tour.outcome, Tour.first, tourOf] at hsilent hremaining
    rw [hsilent, List.countP_nil, Nat.add_zero] at hrefused
    calc (reassembler.walkRun answers anchor delivered).state
        = { reassembler with
            window := anchor.cut.2.fill anchor.cut.1
            refusals := reassembler.refusals } := by
          simp only [Reassembler.walkRun, hremaining, hrefused]
          rfl
      _ = reassembler := by rw [hdistinct.fill_cut hsorted, hanchor]

/-- So does walking several runs. -/
theorem AtRest.walkHeads (hrest : reassembler.AtRest arrived evicted)
    (hseparate : Segment.Separate arrived) (heads : List SequenceNumber) :
    (walkHeads answers heads reassembler delivered).value = .ok delivered ∧
      deliveredTables (walkHeads answers heads reassembler delivered).reports = [] ∧
      (walkHeads answers heads reassembler delivered).state.AtRest arrived evicted ∧
      (evicted = 0 → (walkHeads answers heads reassembler delivered).reports = [] ∧
        (walkHeads answers heads reassembler delivered).state = reassembler) := by
  induction heads generalizing reassembler with
  | nil => exact ⟨rfl, rfl, hrest, fun _ => ⟨rfl, rfl⟩⟩
  | cons head later ih =>
    rw [Reassembler.walkHeads]
    cases hanchor : Window.anchorAt? head reassembler.window with
    | none => exact ih hrest
    | some anchor =>
      obtain ⟨hvalue, hnone, hstate, hsame⟩ :=
        hrest.walkRun answers delivered hseparate (Window.anchorAt?_eq hanchor)
      obtain ⟨hvalue', hnone', hstate', hsame'⟩ := ih hstate
      simp only [hvalue]
      refine ⟨hvalue', ?_, hstate', fun hzero => ?_⟩
      · unfold Outcome.after
        rw [deliveredTables_append, hnone, hnone']
        rfl
      · obtain ⟨hsilent, hstands⟩ := hsame hzero
        obtain ⟨hsilent', hstands'⟩ := hsame' hzero
        unfold Outcome.after
        rw [hsilent, hsilent', hstands']
        exact ⟨rfl, hstands⟩

end WalkRun

/-- The segment is the only one with its number in the window, and they all leave a number over. -/
def HasRoomFor (reassembler : Reassembler) (segment : Segment) : Prop :=
  segment.sequence ∉ Window.sequences reassembler.window ∧
    reassembler.window.length + 1 < sequenceSpace

/-- Taking a segment in. -/
theorem AtRest.receive (hrest : reassembler.AtRest arrived evicted) {segment : Segment}
    (hseparate : Segment.Separate (arrived ++ [segment])) (hroom : reassembler.HasRoomFor segment)
    (now : Instant) (answers : ReassemblerAnswers) :
    (∃ count, (reassembler.receive segment now answers).value = .ok count) ∧
      (reassembler.receive segment now answers).state.AtRest (arrived ++ [segment]) evicted := by
  obtain ⟨refused, front, hreport, -⟩ := reassembler.report_eq segment.header answers.request
  obtain ⟨entry, hentry⟩ : ∃ entry, entry = reassembler.arriving segment now := ⟨_, rfl⟩
  have hinformed : ({ reassembler with refusals := refused } : Reassembler).arriving segment now =
      entry := hentry.symm
  obtain ⟨hanchor, hwindow⟩ := Window.anchorFor_eq entry reassembler.window
  obtain ⟨hbefore, hafter⟩ := Window.anchorFor_spec entry hrest.sorted
  have hperm := Window.cut_perm entry reassembler.window
  have haround : (Window.anchorFor entry reassembler.window).entries.Perm
      (entry :: reassembler.window) := by
    rw [Anchor.entries, hanchor]
    exact List.perm_middle.trans (List.Perm.of_eq (by rw [hwindow]))
  have hsequence : entry.sequence = segment.sequence := by rw [hentry, Waiting.sequence, arriving]
  have hdistinct : (Window.anchorFor entry reassembler.window).Distinct := by
    constructor
    case sorted =>
      rw [hwindow]
      exact hrest.sorted
    case before_le =>
      rw [hanchor]
      exact hbefore
    case after_gt =>
      rw [hanchor]
      exact hafter
    case nodup =>
      rw [hanchor, hwindow, Window.sequences, List.map_cons, hsequence]
      exact List.nodup_cons.2 ⟨hroom.1, hrest.nodup⟩
  have hadmitted : Admitted (arrived ++ [segment])
      (Window.anchorFor entry reassembler.window).entries := by
    have harrives := Admitted.lasting.arrives arrived [] reassembler.window segment reassembler now
      hrest.admitted
    rw [← hentry] at harrives
    exact harrives.subperm (haround.trans (List.perm_append_singleton _ _).symm).subperm
  have hlength : (Window.anchorFor entry reassembler.window).entries.length < sequenceSpace := by
    rw [haround.length_eq]
    exact hroom.2
  have hwalked := walkRun_atRest
    { reassembler with arrivals := reassembler.arrivals + 1, refusals := refused }
    answers.packet 0 hseparate hadmitted hdistinct hlength
    (Window.gap_sublist entry reassembler.window).subset
    (fun other hother => hperm.symm.subset (List.mem_cons_of_mem _ hother)) hrest.still hrest.firm
  simp only [Reassembler.receive, hreport, hinformed]
  exact ⟨⟨_, hwalked.1⟩, hwalked.2⟩

/-- Walking every run of a window at rest. -/
theorem AtRest.walkAll (hrest : reassembler.AtRest arrived evicted)
    (hseparate : Segment.Separate arrived) (answers : Nat → Answer) :
    (reassembler.walkAll answers).value = .ok 0 ∧
      deliveredTables (reassembler.walkAll answers).reports = [] ∧
      (reassembler.walkAll answers).state.AtRest arrived evicted ∧
      (evicted = 0 → (reassembler.walkAll answers).reports = [] ∧
        (reassembler.walkAll answers).state = reassembler) :=
  hrest.walkHeads answers 0 hseparate (Window.runHeads reassembler.window)

/-- A call leaves a window at rest. -/
theorem AtRest.perform (hrest : reassembler.AtRest arrived evicted) (call : ReassemblerCall)
    (hseparate : Segment.Separate (arrived ++ call.segment?.toList))
    (hroom : ∀ segment, call.segment? = some segment → reassembler.HasRoomFor segment) :
    (reassembler.perform call).state.AtRest (arrived ++ call.segment?.toList)
      (evicted + reassembler.evictions call) := by
  cases call with
  | process arriving now answers =>
    have hwalked : (∃ count, (reassembler.walkFor arriving now answers).value = .ok count) ∧
        (reassembler.walkFor arriving now answers).state.AtRest (arrived ++ arriving.toList)
          evicted := by
      cases arriving with
      | none =>
        rw [Option.toList_none, List.append_nil]
        obtain ⟨hvalue, -, hstate, -⟩ := hrest.walkAll
          (hseparate.subperm (List.sublist_append_left _ _).subperm) answers.packet
        exact ⟨⟨0, hvalue⟩, hstate⟩
      | some segment => exact hrest.receive hseparate (hroom segment rfl) now answers
    obtain ⟨⟨count, hvalue⟩, hstate⟩ := hwalked
    simp only [Reassembler.perform, answering, process_eq, evictions, hvalue]
    exact hstate.evict now
  | evict now =>
    have hnone : arrived ++ (ReassemblerCall.evict now).segment?.toList = arrived :=
      List.append_nil _
    rw [hnone]
    exact hrest.evict now
  | clear => exact atRest_of_empty rfl
  | setMultiplier multiplier =>
    obtain ⟨-, hwindow, -⟩ := reassembler.perform_setMultiplier multiplier
    have hnone : arrived ++ (ReassemblerCall.setMultiplier multiplier).segment?.toList = arrived :=
      List.append_nil _
    rw [hnone]
    constructor
    all_goals rw [hwindow]
    case admitted => exact hrest.admitted
    case sorted => exact hrest.sorted
    case nodup => exact hrest.nodup
    case length_lt => exact hrest.length_lt
    case still => exact hrest.still
    case firm => exact hrest.firm

/-- Every segment that calls bring has a number of its own when it arrives, and then there are fewer
segments than numbers. -/
def HasRoomThroughout (reassembler : Reassembler) (calls : List ReassemblerCall) : Prop :=
  ∀ (made : Nat) (call : ReassemblerCall) (segment : Segment), calls[made]? = some call →
    call.segment? = some segment →
      (reassembler.run (calls.take made)).state.HasRoomFor segment

theorem HasRoomThroughout.take {calls : List ReassemblerCall}
    (hroom : reassembler.HasRoomThroughout calls) (count : Nat) :
    reassembler.HasRoomThroughout (calls.take count) := by
  intro made call segment hcall hsegment
  rw [List.getElem?_take] at hcall
  split at hcall
  · rename_i hmade
    rw [List.take_take, Nat.min_eq_left (Nat.le_of_lt hmade)]
    exact hroom made call segment hcall hsegment
  · cases hcall

/-- Calls leave a window at rest. -/
theorem AtRest.run (hrest : reassembler.AtRest arrived evicted) (calls : List ReassemblerCall)
    (hseparate : Segment.Separate (arrived ++ ReassemblerCall.segments calls))
    (hroom : reassembler.HasRoomThroughout calls) :
    (reassembler.run calls).state.AtRest (arrived ++ ReassemblerCall.segments calls)
      (evicted + reassembler.evicted calls) := by
  induction calls generalizing reassembler arrived evicted with
  | nil =>
    rw [ReassemblerCall.segments, List.filterMap_nil, List.append_nil]
    exact hrest
  | cons call later ih =>
    rw [ReassemblerCall.segments_cons, ← List.append_assoc] at hseparate ⊢
    rw [Reassembler.evicted, ← Nat.add_assoc]
    have hfirst := hrest.perform call
      (hseparate.subperm (List.sublist_append_left _ _).subperm) (hroom 0 call · rfl)
    exact ih hfirst hseparate fun made other segment hother =>
      hroom (made + 1) other segment hother

/-! ## The retry -/

/-- Retrying is idle.  Between any two calls of a run on segments from the wire, a call without a
segment delivers no packet; and if no segment has been given up by then and none would be now, it
reports nothing and leaves everything as it is. -/
theorem run_retriesIdly (settings : ReassemblerSettings) (frames : List (Nat × List UInt8))
    (calls : List ReassemblerCall) (hids : (frames.map Prod.fst).Nodup)
    (hread : Segment.ReadFrom frames (ReassemblerCall.segments calls))
    (hroom : (start settings).HasRoomThroughout calls) (made : Nat) (now : Instant)
    (answers : ReassemblerAnswers) :
    let reassembler := ((start settings).run (calls.take made)).state
    let retry := reassembler.process none now answers
    retry.value = .ok 0 ∧ deliveredTables retry.reports = [] ∧
      ((start settings).evicted (calls.take made ++ [.process none now answers]) = 0 →
        retry.reports = [] ∧ retry.state = reassembler) := by
  intro reassembler retry
  have hseparate : Segment.Separate (ReassemblerCall.segments (calls.take made)) :=
    (hread.separate hids).subperm ((List.take_sublist made calls).filterMap _).subperm
  have hstart : (start settings).AtRest [] 0 := atRest_of_empty rfl
  have hrest := hstart.run (calls.take made) hseparate (hroom.take made)
  rw [List.nil_append, Nat.zero_add] at hrest
  obtain ⟨hvalue, hnone, -, hsame⟩ := hrest.walkAll hseparate answers.packet
  have hwalked : reassembler.walkFor none now answers = reassembler.walkAll answers.packet := rfl
  have hretry : retry =
      { state := ((reassembler.walkAll answers.packet).state.evict now).state
        reports := (reassembler.walkAll answers.packet).reports ++
          ((reassembler.walkAll answers.packet).state.evict now).reports
        value := .ok 0 } := by
    simp only [retry, process_eq, hwalked, reassembler, hvalue]
  rw [hretry]
  refine ⟨rfl, ?_, fun hevicted => ?_⟩
  · rw [deliveredTables_append, deliveredTables_evict, List.append_nil]
    exact hnone
  · rw [evicted_append, Nat.add_eq_zero_iff] at hevicted
    obtain ⟨hbefore, hnow⟩ := hevicted
    obtain ⟨hsilent, hstands⟩ := hsame hbefore
    have hgone : ((reassembler.walkAll answers.packet).state.evict now).value = 0 := by
      simp only [evicted, evictions, Nat.add_zero] at hnow
      rw [show (((start settings).run (calls.take made)).state.walkFor none now answers).value =
        .ok 0 from hvalue] at hnow
      exact hnow
    obtain ⟨hstate, hquiet⟩ := evict_of_value hgone
    exact ⟨by rw [hsilent, hquiet]; rfl, hstate.trans hstands⟩

/-- An opened packet whose next segment is missing, and after the gap a segment without a packet
start and the lead bytes of one whose packet has been delivered.  All three wait, and go on waiting
when the call is repeated. -/
theorem run_retriesIdly_waiting :
    let opening : List UInt8 := [128, 0, 0, 0, 0, 0, 0, 0, 0, 0, 0, 5, 7]
    let between : List UInt8 := [0, 0, 0, 16, 0, 0, 0, 0, 8, 9]
    let closing : List UInt8 := [128, 2, 0, 24, 0, 0, 0, 0, 1, 2, 0, 1, 0, 1, 7]
    let frames := [(0, opening), (1, between), (2, closing)]
    let answers : ReassemblerAnswers := { request := .accepted, packet := fun _ => .accepted }
    let arrives (id : Nat) (frame : List UInt8) : ReassemblerCall :=
      .process (Segment.ofWire id frame).toOption .zero answers
    let calls := [arrives 0 opening, arrives 1 between, arrives 2 closing]
    let reassembler := ((start .standard).run (calls.take 3)).state
    let retry := reassembler.process none .zero answers
    (frames.map Prod.fst).Nodup ∧
      Segment.ReadFrom frames (ReassemblerCall.segments calls) ∧
      (start .standard).HasRoomThroughout calls ∧
      (start .standard).evicted (calls.take 3 ++ [.process none .zero answers]) = 0 ∧
      reassembler.window.map Waiting.sequence = [⟨0⟩, ⟨2⟩, ⟨3⟩] ∧
      retry.value = .ok 0 ∧ retry.reports = [] ∧ retry.state = reassembler := by
  intro opening between closing frames answers arrives calls reassembler retry
  have hids : (frames.map Prod.fst).Nodup := by decide
  have hread : Segment.ReadFrom frames (ReassemblerCall.segments calls) :=
    .cons rfl (.cons rfl (.cons rfl .nil))
  have hfirst : Window.sequences ((start .standard).run (calls.take 1)).state.window = [⟨0⟩] := by
    cbv
  have hsecond : Window.sequences ((start .standard).run (calls.take 2)).state.window =
      [⟨0⟩, ⟨2⟩] := by cbv
  have hthird : Window.sequences ((start .standard).run (calls.take 3)).state.window =
      [⟨0⟩, ⟨2⟩, ⟨3⟩] := by cbv
  have hroom : (start .standard).HasRoomThroughout calls := by
    have hfits {made : Nat} {segment : Segment} {numbers : List SequenceNumber}
        (hwindow : Window.sequences ((start .standard).run (calls.take made)).state.window =
          numbers)
        (hnew : segment.sequence ∉ numbers) (hfew : numbers.length + 1 < sequenceSpace) :
        ((start .standard).run (calls.take made)).state.HasRoomFor segment := by
      unfold HasRoomFor
      rw [hwindow]
      refine ⟨hnew, ?_⟩
      rw [← hwindow, Window.sequences, List.length_map] at hfew
      exact hfew
    intro made call segment hcall hsegment
    rcases made with _ | _ | _ | made
    · cases hcall
      cases hsegment
      exact hfits rfl (List.not_mem_nil) (by decide)
    · cases hcall
      cases hsegment
      exact hfits hfirst (by decide) (by decide)
    · cases hcall
      cases hsegment
      exact hfits hsecond (by decide) (by decide)
    · cases hcall
  have hevicted :
      (start .standard).evicted (calls.take 3 ++ [.process none .zero answers]) = 0 := by
    cbv
  obtain ⟨hvalue, -, hsame⟩ :=
    run_retriesIdly .standard frames calls hids hread hroom 3 .zero answers
  obtain ⟨hsilent, hstands⟩ := hsame hevicted
  exact ⟨hids, hread, hroom, hevicted, hthird, hvalue, hsilent, hstands⟩

end Reassembler

end Ccf
