import Ccf.Proofs.Reassembly.Refusals
import Ccf.Proofs.Segmenter.Refusals

/-!
# Refusals are counted and change nothing else

Neither end lets the answers to what it hands out decide anything.  Two runs of the same calls, at
the same times, that get different answers agree in all that they report, return and keep, apart
from the answers themselves and the numbers that count them.
-/

namespace Ccf

open ReassemblerReport in
/-- What two runs of a reassembler have in common. -/
structure Reassembler.Agree
    (outcome other : Outcome Reassembler ReassemblerReport (List ReassemblerAnswer)) : Prop where
  /-- The same packets, requests and segments are reported, in the same order. -/
  reports_eq : outcome.reports.map unanswered = other.reports.map unanswered
  /-- Every call returns the same. -/
  value_eq : outcome.value = other.value
  window_eq : outcome.state.window = other.state.window
  arrivals_eq : outcome.state.arrivals = other.state.arrivals
  settings_eq : outcome.state.settings = other.state.settings
  /-- Each run has counted its own refusals. -/
  refusals_eq : outcome.state.refusals = outcome.reports.countP isRefused
  others_eq : other.state.refusals = other.reports.countP isRefused

open SegmenterReport in
/-- What two runs of a segmenter have in common. -/
structure Segmenter.Agree
    (outcome other : Outcome Segmenter SegmenterReport (List SegmenterAnswer)) : Prop where
  /-- The same segments are offered, and the same packets placed or given up, in the same order. -/
  reports_eq : outcome.reports.map unanswered = other.reports.map unanswered
  /-- The same calls fail, in the same way. -/
  value_eq : outcome.value.map SegmenterAnswer.uncounted =
    other.value.map SegmenterAnswer.uncounted
  queue_eq : outcome.state.queue = other.state.queue
  grants_eq : outcome.state.grants = other.state.grants
  piggyback_eq : outcome.state.piggyback = other.state.piggyback
  sequence_eq : outcome.state.sequence = other.state.sequence
  settings_eq : outcome.state.settings = other.state.settings
  /-- Each run has counted its own refusals. -/
  refusals_eq : outcome.state.refusals = outcome.reports.countP isRefused
  others_eq : other.state.refusals = other.reports.countP isRefused

theorem ReassemblerCall.SameButAnswers.symm {call other : ReassemblerCall}
    (hsame : call.SameButAnswers other) : other.SameButAnswers call := by
  cases hsame <;> constructor

theorem SegmenterCall.SameButAnswers.symm {call other : SegmenterCall}
    (hsame : call.SameButAnswers other) : other.SameButAnswers call := by
  cases hsame <;> constructor

/-- Runs of a reassembler under different answers agree. -/
theorem Reassembler.agree_run (settings : ReassemblerSettings) {calls others : List ReassemblerCall}
    (hsame : List.Forall₂ ReassemblerCall.SameButAnswers calls others) :
    Agree ((start settings).run calls) ((start settings).run others) := by
  have hheeds : Heeds 0 ((start settings).run calls) ((start settings).run others) :=
    run_heeds hsame (start settings) 0
  have hcounts : Heeds 0 ((start settings).run others) ((start settings).run calls) :=
    run_heeds (hsame.flip.imp fun _ _ hcall => hcall.symm) (start settings) 0
  have hstate := hheeds.state_eq
  constructor
  case reports_eq => exact hheeds.reports_eq
  case value_eq => exact hheeds.value_eq
  case window_eq => exact (congrArg Reassembler.window hstate :)
  case arrivals_eq => exact (congrArg Reassembler.arrivals hstate :)
  case settings_eq => exact (congrArg Reassembler.settings hstate :)
  case refusals_eq => exact hheeds.refusals_eq.trans (Nat.zero_add _)
  case others_eq => exact hcounts.refusals_eq.trans (Nat.zero_add _)

/-- Runs of a segmenter under different answers agree. -/
theorem Segmenter.agree_run (settings : SegmenterSettings) {calls others : List SegmenterCall}
    (hsame : List.Forall₂ SegmenterCall.SameButAnswers calls others) :
    Agree ((start settings).run calls) ((start settings).run others) := by
  have hheeds : Heeds (List.map SegmenterAnswer.uncounted) 0 ((start settings).run calls)
      ((start settings).run others) := run_heeds hsame (start settings) 0
  have hcounts : Heeds (List.map SegmenterAnswer.uncounted) 0 ((start settings).run others)
      ((start settings).run calls) :=
    run_heeds (hsame.flip.imp fun _ _ hcall => hcall.symm) (start settings) 0
  have hstate := hheeds.state_eq
  constructor
  case reports_eq => exact hheeds.reports_eq
  case value_eq => exact hheeds.value_eq
  case queue_eq => exact (congrArg Segmenter.queue hstate :)
  case grants_eq => exact (congrArg Segmenter.grants hstate :)
  case piggyback_eq => exact (congrArg Segmenter.piggyback hstate :)
  case sequence_eq => exact (congrArg Segmenter.sequence hstate :)
  case settings_eq => exact (congrArg Segmenter.settings hstate :)
  case refusals_eq => exact hheeds.refusals_eq.trans (Nat.zero_add _)
  case others_eq => exact hcounts.refusals_eq.trans (Nat.zero_add _)

/-- **Refusals are only counted.** Two runs of the same calls on a reassembler that differ in the
answers of its recipients agree after every call, and so do two runs on a segmenter that differ in
the answers of the scheduler.  Of the segments that a successful call offers, those that it does not
count as accepted were refused. -/
theorem run_countsRefusals :
    (∀ (settings : ReassemblerSettings) (calls others : List ReassemblerCall),
      List.Forall₂ ReassemblerCall.SameButAnswers calls others → ∀ made,
        Reassembler.Agree ((Reassembler.start settings).run (calls.take made))
          ((Reassembler.start settings).run (others.take made))) ∧
      (∀ (settings : SegmenterSettings) (calls others : List SegmenterCall),
        List.Forall₂ SegmenterCall.SameButAnswers calls others → ∀ made,
          Segmenter.Agree ((Segmenter.start settings).run (calls.take made))
            ((Segmenter.start settings).run (others.take made))) ∧
      ∀ (segmenter : Segmenter) (call : SegmenterCall) (accepted : Nat),
        (segmenter.perform call).value = .spent (.ok accepted) →
          (builtSegments (segmenter.perform call).reports).length =
            accepted + (segmenter.perform call).reports.countP SegmenterReport.isRefused := by
  refine ⟨?_, ?_, ?_⟩
  · intro settings calls others hsame made
    exact Reassembler.agree_run settings (List.forall₂_take made hsame)
  · intro settings calls others hsame made
    exact Segmenter.agree_run settings (List.forall₂_take made hsame)
  · intro segmenter call accepted hvalue
    exact segmenter.perform_counts call hvalue

/-- A segment with a request and a whole packet, whose recipients take both or neither, and two
grants within which a packet is sent, of which the scheduler refuses the second segment or none. -/
theorem run_countsRefusals_both :
    let segment := Segment.ofContent 1
      { SegmentHeader.blank with pfi := true, request := 3 } [0, 1, 0, 1, 9]
    let receives (answer : Answer) : List ReassemblerCall :=
      [.process (some segment) .zero { request := answer, packet := fun _ => answer }]
    let grant : Grant := { channel := 1, time := .zero, size := 10 }
    let sends (answers : Nat → Answer) : List SegmenterCall :=
      [.process (some (.raw 0 [1, 2, 3])) .zero answers, .addGrants [grant, grant] 0 .zero answers]
    let takes (_ : Nat) : Answer := .accepted
    let hesitates (offered : Nat) : Answer := if offered = 0 then .accepted else .refused .closed
    List.Forall₂ ReassemblerCall.SameButAnswers (receives .accepted)
        (receives (.refused .closed)) ∧
      Reassembler.Agree ((Reassembler.start .standard).run (receives .accepted))
        ((Reassembler.start .standard).run (receives (.refused .closed))) ∧
      ((Reassembler.start .standard).run (receives (.refused .closed))).state.refusals = 2 ∧
      List.Forall₂ SegmenterCall.SameButAnswers (sends takes) (sends hesitates) ∧
      Segmenter.Agree ((Segmenter.start .standard).run (sends takes))
        ((Segmenter.start .standard).run (sends hesitates)) ∧
      ((Segmenter.start .standard).run (sends hesitates)).value = [.spent (.ok 0), .spent (.ok 1)] ∧
      ((Segmenter.start .standard).run (sends hesitates)).state.refusals = 1 := by
  intro segment receives grant sends takes hesitates
  obtain ⟨hreceiving, hsending, -⟩ := run_countsRefusals
  have hreceives : List.Forall₂ ReassemblerCall.SameButAnswers (receives .accepted)
      (receives (.refused .closed)) :=
    .cons (.process (some segment) .zero _ _) .nil
  have hsends : List.Forall₂ SegmenterCall.SameButAnswers (sends takes) (sends hesitates) :=
    .cons (.process _ .zero _ _) (.cons (.addGrants _ _ .zero _ _) .nil)
  have hrefused :
      ((Reassembler.start .standard).run (receives (.refused .closed))).state.refusals = 2 := by
    simp only [receives, segment]
    cbv
  have haccepted : ((Segmenter.start .standard).run (sends hesitates)).value =
      [.spent (.ok 0), .spent (.ok 1)] := by
    simp only [sends, Segmenter.run, Segmenter.perform]
    rw [Segmenter.addGrants_of_sorted rfl (by decide)]
    rfl
  have hcounted : ((Segmenter.start .standard).run (sends hesitates)).state.refusals = 1 := by
    simp only [sends, Segmenter.run, Segmenter.perform]
    rw [Segmenter.addGrants_of_sorted rfl (by decide)]
    decide
  exact ⟨hreceives, hreceiving .standard _ _ hreceives 1, hrefused, hsends,
    hsending .standard _ _ hsends 2, haccepted, hcounted⟩

end Ccf
