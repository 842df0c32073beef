import Ccf.Proofs.Reassembly.SegmentConservation

/-!
# How many segments wait

Giving up brings the window down to its bound.  A call that fails gives nothing up, so the segment
it took in may wait beyond the bound; it does so until a later call gives up what has to be given
up.  The window is never longer than its bound and the segments of such calls together, and without
failing calls it stays within its bound.
-/

namespace Ccf

theorem Disposes.length_le {before after : List (Segment × Nat)}
    {reports : List ReassemblerReport} (hdisposes : Disposes before reports after) :
    after.length ≤ before.length := by
  obtain ⟨recycled, dropped, -, -, hperm⟩ := hdisposes
  calc after.length
      ≤ (after ++ (recycled ++ dropped)).length := (List.sublist_append_left _ _).length_le
    _ = before.length := hperm.length_eq

namespace ReassemblerCall

/-- How many segments may wait beyond the bound after a call, when `before` might ahead of it.  A
call that fails adds the segment that it took in; one that gives up leaves none. -/
def surplusAfter (before : Nat) : ReassemblerCall → ReassemblerAnswer → Nat
  | process arriving _ _, .delivered (.error _) => before + arriving.toList.length
  | setMultiplier _, _ => before
  | _, _ => 0

/-- How many segments may wait beyond the bound after calls with the given answers: those that
arrived in failing calls since a call last gave up what has to be given up. -/
def surplus (before : Nat) : List ReassemblerCall → List ReassemblerAnswer → Nat
  | call :: calls, answer :: answers => surplus (surplusAfter before call answer) calls answers
  | _, _ => before

theorem surplusAfter_of_success (call : ReassemblerCall) {answer : ReassemblerAnswer}
    (hanswer : ∀ fault, answer ≠ .delivered (.error fault)) : surplusAfter 0 call answer = 0 := by
  unfold surplusAfter
  split
  · exact absurd rfl (hanswer _)
  · rfl
  · rfl

/-- Calls that succeed leave none beyond the bound. -/
theorem surplus_of_success (calls : List ReassemblerCall) {answers : List ReassemblerAnswer}
    (hanswers : ∀ fault, .delivered (.error fault) ∉ answers) : surplus 0 calls answers = 0 := by
  induction calls generalizing answers with
  | nil => rfl
  | cons call later ih =>
    cases answers with
    | nil => rfl
    | cons answer others =>
      have hanswer : ∀ fault, answer ≠ .delivered (.error fault) := fun fault hfault =>
        hanswers fault (hfault ▸ List.mem_cons_self)
      rw [surplus, surplusAfter_of_success call hanswer]
      exact ih fun fault hfault => hanswers fault (List.mem_cons_of_mem _ hfault)

end ReassemblerCall

namespace Reassembler

/-- Taking out the earliest arrivals leaves that many entries less. -/
theorem length_takeOldest (count : Nat) (window : List Waiting) :
    (takeOldest count window).2.length = window.length - count := by
  induction count generalizing window with
  | zero => rfl
  | succ count ih =>
    rw [takeOldest]
    split
    · rename_i hnone
      have hempty : window = [] := List.map_eq_nil_iff.1 (List.min?_eq_none_iff.1 hnone)
      rw [hempty]
      exact (Nat.zero_sub _).symm
    · rename_i oldest holdest
      obtain ⟨entry, hentry, harrival⟩ := List.mem_map.1 (List.min?_mem holdest)
      have herased : (window.eraseP fun other => other.arrival == oldest).length =
          window.length - 1 :=
        List.length_eraseP_of_mem hentry (beq_iff_eq.2 harrival)
      simp only [ih, herased]
      omega

theorem evict_window_le (reassembler : Reassembler) (now : Instant) :
    (reassembler.evict now).state.window.length ≤ reassembler.settings.windowBound := by
  obtain ⟨fresh, hfresh⟩ :
      ∃ fresh, fresh = (divideStale reassembler.settings now reassembler.window).2 := ⟨_, rfl⟩
  calc (reassembler.evict now).state.window.length
      = (takeOldest (fresh.length - reassembler.settings.windowBound) fresh).2.length := by
        rw [hfresh]
        rfl
    _ = fresh.length - (fresh.length - reassembler.settings.windowBound) :=
        length_takeOldest _ _
    _ ≤ reassembler.settings.windowBound := by omega

theorem settings_walkHeads (answers : Nat → Answer) (heads : List SequenceNumber)
    (reassembler : Reassembler) (delivered : Nat) :
    (walkHeads answers heads reassembler delivered).state.settings = reassembler.settings :=
  walkHeads_keeps (motive := fun walked => walked.settings = reassembler.settings) answers
    (fun _ _ _ _ _ hsame => hsame) heads delivered rfl

theorem settings_walkFor (reassembler : Reassembler) (arriving : Option Segment) (now : Instant)
    (answers : ReassemblerAnswers) :
    (reassembler.walkFor arriving now answers).state.settings = reassembler.settings := by
  cases arriving with
  | some segment =>
    obtain ⟨refused, front, hreport, -⟩ := reassembler.report_eq segment.header answers.request
    simp only [walkFor, receive, hreport, Outcome.after, walkRun]
  | none => exact settings_walkHeads _ _ _ _

/-- No call changes the timeout or the bound. -/
theorem limits_perform (reassembler : Reassembler) (call : ReassemblerCall) :
    (reassembler.perform call).state.settings.stallTimeout = reassembler.settings.stallTimeout ∧
      (reassembler.perform call).state.settings.windowBound =
        reassembler.settings.windowBound := by
  cases call with
  | process arriving now answers =>
    have hwalked := reassembler.settings_walkFor arriving now answers
    simp only [perform, answering, process_eq]
    split
    · exact ⟨by rw [hwalked], by rw [hwalked]⟩
    · exact ⟨congrArg _ hwalked, congrArg _ hwalked⟩
  | evict now => exact ⟨rfl, rfl⟩
  | clear => exact ⟨rfl, rfl⟩
  | setMultiplier multiplier =>
    simp only [perform, setMultiplier]
    cases validateMultiplier multiplier with
    | error fault => exact ⟨rfl, rfl⟩
    | ok => exact ⟨rfl, rfl⟩

theorem limits_run (reassembler : Reassembler) (calls : List ReassemblerCall) :
    (reassembler.run calls).state.settings.stallTimeout = reassembler.settings.stallTimeout ∧
      (reassembler.run calls).state.settings.windowBound = reassembler.settings.windowBound := by
  induction calls generalizing reassembler with
  | nil => exact ⟨rfl, rfl⟩
  | cons call later ih =>
    obtain ⟨htimeout, hbound⟩ := reassembler.limits_perform call
    obtain ⟨htimeout', hbound'⟩ := ih (reassembler.perform call).state
    exact ⟨htimeout'.trans htimeout, hbound'.trans hbound⟩

/-! ## Calls -/

theorem process_window_le {reassembler : Reassembler} {before : Nat}
    (hwindow : reassembler.window.length ≤ reassembler.settings.windowBound + before)
    (arriving : Option Segment) (now : Instant) (answers : ReassemblerAnswers) :
    (reassembler.process arriving now answers).state.window.length ≤
      reassembler.settings.windowBound +
        ReassemblerCall.surplusAfter before (.process arriving now answers)
          (.delivered (reassembler.process arriving now answers).value) := by
  have hwalked := (reassembler.walkFor_disposes arriving now answers).1.length_le
  simp only [List.length_append, List.length_map, List.length_zipIdx] at hwalked
  rw [process_eq]
  cases hvalue : (reassembler.walkFor arriving now answers).value with
  | error fault =>
    simp only [hvalue, ReassemblerCall.surplusAfter]
    omega
  | ok delivered =>
    have hevicted := evict_window_le (reassembler.walkFor arriving now answers).state now
    rw [settings_walkFor] at hevicted
    exact Nat.le_trans hevicted (Nat.le_add_right _ _)

/-- After a call, no more segments wait than the bound and those of failing calls. -/
theorem perform_window_le {reassembler : Reassembler} {before : Nat}
    (hwindow : reassembler.window.length ≤ reassembler.settings.windowBound + before)
    (call : ReassemblerCall) :
    (reassembler.perform call).state.window.length ≤
      reassembler.settings.windowBound +
        ReassemblerCall.surplusAfter before call (reassembler.perform call).value := by
  cases call with
  | process arriving now answers => exact process_window_le hwindow arriving now answers
  | evict now => exact reassembler.evict_window_le now
  | clear => exact Nat.zero_le _
  | setMultiplier multiplier =>
    rw [(reassembler.perform_setMultiplier multiplier).2.1, ReassemblerCall.surplusAfter]
    exact hwindow

theorem run_window_le {reassembler : Reassembler} {before : Nat}
    (hwindow : reassembler.window.length ≤ reassembler.settings.windowBound + before)
    (calls : List ReassemblerCall) :
    (reassembler.run calls).state.window.length ≤
      reassembler.settings.windowBound +
        ReassemblerCall.surplus before calls (reassembler.run calls).value := by
  induction calls generalizing reassembler before with
  | nil => exact hwindow
  | cons call later ih =>
    have hfirst := perform_window_le hwindow call
    rw [← (reassembler.limits_perform call).2] at hfirst ⊢
    exact ih hfirst

/-- How many segments wait.  After any calls, the segments beyond the bound are no more than those
that arrived in failing calls since a call last gave up; a run without failing calls keeps the
bound. -/
theorem run_boundsWindow (settings : ReassemblerSettings) (calls : List ReassemblerCall) :
    let outcome := (start settings).run calls
    outcome.state.window.length ≤
        settings.windowBound + ReassemblerCall.surplus 0 calls outcome.value ∧
      ((∀ fault, .delivered (.error fault) ∉ outcome.value) →
        outcome.state.window.length ≤ settings.windowBound) := by
  intro outcome
  have hstart : (start settings).window.length ≤ (start settings).settings.windowBound + 0 :=
    Nat.zero_le _
  have hwindow : outcome.state.window.length ≤
      settings.windowBound + ReassemblerCall.surplus 0 calls outcome.value :=
    run_window_le hstart calls
  refine ⟨hwindow, fun hsucceeds => ?_⟩
  rwa [ReassemblerCall.surplus_of_success calls hsucceeds] at hwindow

/-- Two segments that wait for the one before them, with room for one: the earliest arrival is given
up, although the other one has the smaller number. -/
theorem run_boundsWindow_full :
    let settings : ReassemblerSettings := { ReassemblerSettings.standard with windowBound := 1 }
    let waits (number : UInt16) : ReassemblerCall :=
      .process (some (.ofContent number.toNat { SegmentHeader.blank with sequence := number } [7]))
        .zero { request := .accepted, packet := fun _ => .accepted }
    let outcome := (start settings).run [waits 30, waits 10]
    (∀ fault, .delivered (.error fault) ∉ outcome.value) ∧
      outcome.state.window.length ≤ settings.windowBound ∧
      (Window.sequences outcome.state.window).map SequenceNumber.value = [10] := by
  intro settings waits outcome
  have hanswers : ((start settings).run [waits 30, waits 10]).value =
      [.delivered (.ok 0), .delivered (.ok 0)] := by cbv
  have hleft : (Window.sequences ((start settings).run [waits 30, waits 10]).state.window).map
      SequenceNumber.value = [10] := by cbv
  have hsucceeds : ∀ fault, .delivered (.error fault) ∉ outcome.value := by
    simp [outcome, hanswers]
  exact ⟨hsucceeds, (run_boundsWindow settings [waits 30, waits 10]).2 hsucceeds, hleft⟩

/-- A segment that begins a packet, and one that brings the same bytes again: they cannot be put
together, and the second one waits beyond the bound. -/
theorem run_exceedsWindowBound :
    let settings : ReassemblerSettings := { ReassemblerSettings.standard with windowBound := 1 }
    let takesIn (header : SegmentHeader) : ReassemblerCall :=
      .process (some { header := header, payload := .ofPacket (.raw 0 [0, 0, 0, 100]) }) .zero
        { request := .accepted, packet := fun _ => .accepted }
    let outcome := (start settings).run [takesIn { SegmentHeader.blank with pfi := true },
      takesIn { SegmentHeader.blank with sequence := 1 }]
    settings.validate = .ok () ∧ outcome.state.window.length = 2 ∧
      ¬ outcome.state.window.length ≤ settings.windowBound := by
  intro settings takesIn outcome
  have hlength : ((start settings).run [takesIn { SegmentHeader.blank with pfi := true },
      takesIn { SegmentHeader.blank with sequence := 1 }]).state.window.length = 2 := by cbv
  have hwaits : outcome.state.window.length = 2 := hlength
  refine ⟨rfl, hwaits, ?_⟩
  rw [hwaits]
  decide

end Reassembler

end Ccf
