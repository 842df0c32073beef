import Ccf.Proofs.Reassembly.Visits
import Mathlib.Data.List.Forall2

/-!
# What refusals change at the reassembling end

A recipient may refuse a packet or a request.  Two runs of the same calls that get different answers
make the same reports, return the same and leave the same in the window; they differ in the answers
that are noted in the reports and in the count of refusals, and that count is the number of refused
reports.

The comparison goes upwards from a step of a walk.  `WalkOutcome.Heeds` and `Reassembler.Heeds` say
of two outcomes that they differ in this way only, and that the first one has counted its refusals.
-/

namespace Ccf

namespace ReassemblerReport

def unanswered : ReassemblerReport → ReassemblerReport
  | .delivered packet _ => .delivered packet .accepted
  | .requested cluster bytes _ => .requested cluster bytes .accepted
  | .recycled segment => .recycled segment
  | .dropped segment => .dropped segment

def isRefused : ReassemblerReport → Bool
  | .delivered _ answer => !answer.isAccepted
  | .requested _ _ answer => !answer.isAccepted
  | _ => false

end ReassemblerReport

open ReassemblerReport

/-- Nobody is asked about segments that are let go. -/
theorem countP_isRefused_release (how : Release) (entries : List Waiting) :
    (entries.map fun entry => how.report entry.segment).countP isRefused = 0 := by
  apply List.countP_eq_zero.2
  intro report hreport
  obtain ⟨entry, -, rfl⟩ := List.mem_map.1 hreport
  cases how <;> exact Bool.false_ne_true

/-- Outcomes that differ in answers and their count only.  The first one comes from a walk with
`refused` refusals and has counted those of its reports. -/
structure WalkOutcome.Heeds (refused : Nat) (outcome other : WalkOutcome) : Prop where
  walk_eq : { outcome.walk with refused := other.walk.refused } = other.walk
  reports_eq : outcome.reports.map unanswered = other.reports.map unanswered
  fault_eq : outcome.fault = other.fault
  refused_eq : outcome.walk.refused = refused + outcome.reports.countP isRefused

namespace Walk

theorem countP_isRefused_closing (how : Release) (pending : Option OpenPacket) :
    (closing how pending).2.countP isRefused = 0 := by
  cases pending with
  | none => rfl
  | some packet =>
    rw [closing]
    cases packet.entries.reverse with
    | nil => rfl
    | cons oldest others =>
      rw [retire]
      split
      · exact countP_isRefused_release how others
      · exact countP_isRefused_release how (oldest :: others)

/-- The count after an answer. -/
theorem refused_deliver (walk : Walk) (answers : Nat → Answer) (content : Gathering)
    (block : Nat) :
    (walk.deliver answers content block).1.refused =
      walk.refused + [(walk.deliver answers content block).2].countP isRefused := by
  simp only [deliver]
  cases answers walk.delivered <;> rfl

section Steps

variable (walk : Walk) (refused : Nat) (answers others : Nat → Answer) (entry : Waiting)
  (rest : List Waiting)

theorem rejectEntry_heeds :
    (walk.rejectEntry entry rest).Heeds walk.refused
      (({ walk with refused := refused } : Walk).rejectEntry entry rest) := by
  unfold rejectEntry
  rw [closePending_eq, closePending_eq]
  refine ⟨rfl, rfl, rfl, ?_⟩
  rw [List.countP_append, countP_isRefused_closing]
  rfl

theorem openAt_heeds :
    (walk.openAt answers entry rest).Heeds walk.refused
      (({ walk with refused := refused } : Walk).openAt others entry rest) := by
  unfold openAt
  by_cases hparsed : entry.size ≤ entry.next
  · by_cases hlead : entry.lead = 0
    · simp only [if_pos hparsed, if_pos hlead]
      exact ⟨rfl, rfl, rfl, rfl⟩
    · simp only [if_pos hparsed, if_neg hlead]
      exact ⟨rfl, rfl, rfl, rfl⟩
  · simp only [if_neg hparsed]
    split
    · exact ⟨rfl, rfl, rfl, rfl⟩
    · cases Gathering.empty.gatherRange entry.segment.payload entry.next entry.size with
      | error fault => exact ⟨rfl, rfl, rfl, rfl⟩
      | ok content =>
        simp only
        cases content.completeSize? with
        | none => exact ⟨rfl, rfl, rfl, rfl⟩
        | some block =>
          have hrefused := walk.refused_deliver answers content block
          exact ⟨rfl, rfl, rfl, hrefused⟩

theorem endAt_heeds (packet : OpenPacket) :
    (walk.endAt answers packet entry rest).Heeds walk.refused
      (({ walk with refused := refused } : Walk).endAt others packet entry rest) := by
  unfold endAt
  cases packet.content.gatherRange entry.segment.payload 0 entry.lead with
  | error fault => exact ⟨rfl, rfl, rfl, rfl⟩
  | ok content =>
    simp only
    cases content.completeSize? with
    | none =>
      simp only [closePending_eq]
      refine ⟨rfl, rfl, rfl, ?_⟩
      rw [countP_isRefused_closing]
      rfl
    | some block =>
      have hrefused := walk.refused_deliver answers content block
      simp only [closePending_eq]
      refine ⟨rfl, rfl, rfl, ?_⟩
      rw [List.countP_cons, countP_isRefused_closing, Nat.zero_add, ← List.countP_singleton]
      exact hrefused

theorem continueAt_heeds (packet : OpenPacket) :
    (walk.continueAt answers packet entry rest).Heeds walk.refused
      (({ walk with refused := refused } : Walk).continueAt others packet entry rest) := by
  unfold continueAt
  cases packet.content.gatherRange entry.segment.payload entry.next entry.size with
  | error fault => exact ⟨rfl, rfl, rfl, rfl⟩
  | ok content =>
    simp only
    cases content.completeSize? with
    | none => exact ⟨rfl, rfl, rfl, rfl⟩
    | some block =>
      have hrefused := walk.refused_deliver answers content block
      simp only [closePending_eq]
      split
      · refine ⟨rfl, rfl, rfl, ?_⟩
        rw [List.countP_append, List.countP_cons, countP_isRefused_closing, Nat.zero_add,
          ← List.countP_singleton]
        exact hrefused
      · refine ⟨rfl, rfl, rfl, ?_⟩
        rw [List.countP_cons, countP_isRefused_closing, Nat.zero_add, ← List.countP_singleton]
        exact hrefused

/-- A visit does the same under other answers. -/
theorem visit_heeds :
    (walk.visit answers entry rest).Heeds walk.refused
      (({ walk with refused := refused } : Walk).visit others entry rest) := by
  unfold visit
  split
  · exact walk.rejectEntry_heeds refused entry rest
  · cases hpending : walk.pending with
    | none =>
      have hopen := walk.openAt_heeds refused answers others (toFirstStart entry) rest
      rw [hpending] at hopen
      exact hopen
    | some packet =>
      have hend := walk.endAt_heeds refused answers others (toFirstStart entry) rest packet
      have hcontinue := walk.continueAt_heeds refused answers others (toFirstStart entry) rest packet
      rw [hpending] at hend hcontinue
      simp only
      split
      · exact hend
      · exact hcontinue

end Steps

/-- A whole walk does the same under other answers. -/
theorem finish_heeds (walk : Walk) (refused : Nat) (answers others : Nat → Answer) :
    (walk.finish answers).Heeds walk.refused
      (({ walk with refused := refused } : Walk).finish others) := by
  induction walk using finish.induct answers generalizing refused with
  | case1 walk hend =>
    have hend' : ({ walk with refused := refused } : Walk).step others = none := by
      unfold step at hend ⊢
      cases hahead : walk.ahead with
      | nil => rfl
      | cons entry rest => simp [hahead] at hend
    rw [finish_of_end hend, finish_of_end hend']
    exact ⟨rfl, rfl, rfl, rfl⟩
  | case2 walk outcome hmade fault hfault =>
    obtain ⟨entry, rest, hahead, rfl⟩ := exists_visit hmade
    have hmade' : ({ walk with refused := refused } : Walk).step others =
        some (({ walk with refused := refused } : Walk).visit others entry rest) := by
      simp only [step, hahead]
    have hheeds := walk.visit_heeds refused answers others entry rest
    rw [finish_of_fault hmade hfault, finish_of_fault hmade' (hheeds.fault_eq ▸ hfault)]
    exact hheeds
  | case3 walk outcome hmade hfault ih =>
    obtain ⟨entry, rest, hahead, rfl⟩ := exists_visit hmade
    have hmade' : ({ walk with refused := refused } : Walk).step others =
        some (({ walk with refused := refused } : Walk).visit others entry rest) := by
      simp only [step, hahead]
    have hheeds := walk.visit_heeds refused answers others entry rest
    rw [finish_of_step hmade hfault, finish_of_step hmade' (hheeds.fault_eq ▸ hfault)]
    generalize ({ walk with refused := refused } : Walk).visit others entry rest = other at hheeds
    have hlater := ih other.walk.refused
    rw [hheeds.walk_eq] at hlater
    refine ⟨hlater.walk_eq, ?_, hlater.fault_eq, ?_⟩
    · rw [List.map_append, List.map_append, hheeds.reports_eq, hlater.reports_eq]
    · rw [List.countP_append, ← Nat.add_assoc, ← hheeds.refused_eq]
      exact hlater.refused_eq

end Walk

/-! ## Calls -/

/-- Outcomes that differ in answers and their count only.  The first one comes from a state with
`refusals` refusals and has counted those of its reports. -/
structure Reassembler.Heeds {Value : Type} (refusals : Nat)
    (outcome other : Outcome Reassembler ReassemblerReport Value) : Prop where
  state_eq : { outcome.state with refusals := other.state.refusals } = other.state
  reports_eq : outcome.reports.map unanswered = other.reports.map unanswered
  value_eq : outcome.value = other.value
  refusals_eq : outcome.state.refusals = refusals + outcome.reports.countP isRefused

/-- Reports that were made before. -/
theorem Reassembler.Heeds.after {Value : Type} {refusals : Nat}
    {outcome other : Outcome Reassembler ReassemblerReport Value}
    {earlier others : List ReassemblerReport}
    (hearlier : earlier.map unanswered = others.map unanswered)
    (hheeds : Reassembler.Heeds (refusals + earlier.countP isRefused) outcome other) :
    Reassembler.Heeds refusals (outcome.after earlier) (other.after others) where
  state_eq := hheeds.state_eq
  reports_eq := by
    unfold Outcome.after
    rw [List.map_append, List.map_append, hearlier, hheeds.reports_eq]
  value_eq := hheeds.value_eq
  refusals_eq := by
    unfold Outcome.after
    rw [List.countP_append, ← Nat.add_assoc]
    exact hheeds.refusals_eq

/-- Calls that differ in the answers that they get at most. -/
inductive ReassemblerCall.SameButAnswers : ReassemblerCall → ReassemblerCall → Prop where
  | process (arriving : Option Segment) (now : Instant) (answers others : ReassemblerAnswers) :
    SameButAnswers (.process arriving now answers) (.process arriving now others)
  | evict (now : Instant) : SameButAnswers (.evict now) (.evict now)
  | clear : SameButAnswers .clear .clear
  | setMultiplier (multiplier : Nat) :
    SameButAnswers (.setMultiplier multiplier) (.setMultiplier multiplier)

namespace Reassembler

section Calls

variable (reassembler : Reassembler) (refusals : Nat)

theorem walkRun_heeds (answers others : Nat → Answer) (anchor : Anchor) (delivered : Nat) :
    Heeds reassembler.refusals (reassembler.walkRun answers anchor delivered)
      (({ reassembler with refusals := refusals } : Reassembler).walkRun others anchor
        delivered) := by
  have hheeds : ((Walk.begin anchor.cut.1 delivered reassembler.refusals).finish answers).Heeds
      reassembler.refusals ((Walk.begin anchor.cut.1 delivered refusals).finish others) :=
    (Walk.begin anchor.cut.1 delivered reassembler.refusals).finish_heeds refusals answers others
  have hremaining := congrArg Walk.remaining hheeds.walk_eq
  have hdelivered := congrArg Walk.delivered hheeds.walk_eq
  constructor
  case state_eq => exact congrArg (fun remaining => ({ reassembler with
    window := anchor.cut.2.fill remaining, refusals := _ } : Reassembler)) hremaining
  case reports_eq => exact hheeds.reports_eq
  case value_eq =>
    simp only [walkRun]
    rw [hheeds.fault_eq, hdelivered]
  case refusals_eq => exact hheeds.refused_eq

theorem walkHeads_heeds (answers others : Nat → Answer) (heads : List SequenceNumber)
    (delivered : Nat) :
    Heeds reassembler.refusals (walkHeads answers heads reassembler delivered)
      (walkHeads others heads { reassembler with refusals := refusals } delivered) := by
  induction heads generalizing reassembler refusals delivered with
  | nil => exact ⟨rfl, rfl, rfl, rfl⟩
  | cons head later ih =>
    unfold walkHeads
    simp only
    cases Window.anchorAt? head reassembler.window with
    | none => exact ih reassembler refusals delivered
    | some anchor =>
      have hheeds := reassembler.walkRun_heeds refusals answers others anchor delivered
      simp only
      generalize ({ reassembler with refusals := refusals } : Reassembler).walkRun others anchor
        delivered = other at hheeds
      rw [← hheeds.value_eq]
      cases hvalue : (reassembler.walkRun answers anchor delivered).value with
      | error fault => exact hheeds
      | ok total =>
        have hlater := ih (reassembler.walkRun answers anchor delivered).state
          other.state.refusals total
        rw [hheeds.state_eq, hheeds.refusals_eq] at hlater
        exact hlater.after hheeds.reports_eq

/-- A request is reported alike, whatever is answered. -/
theorem report_heeds (header : SegmentHeader) (answer other : Answer) :
    ∃ count, ({ reassembler with refusals := refusals } : Reassembler).report header other =
        ({ (reassembler.report header answer).1 with refusals := count },
          (({ reassembler with refusals := refusals } : Reassembler).report header other).2) ∧
      (reassembler.report header answer).2.map unanswered =
        (({ reassembler with refusals := refusals } : Reassembler).report header other).2.map
          unanswered ∧
      (reassembler.report header answer).1.refusals =
        reassembler.refusals + (reassembler.report header answer).2.countP isRefused := by
  unfold report
  split
  · exact ⟨refusals, rfl, rfl, rfl⟩
  · refine ⟨(({ reassembler with refusals := refusals } : Reassembler).heed other).refusals,
      ?_, rfl, ?_⟩
    · cases answer <;> cases other <;> rfl
    · cases answer <;> rfl

theorem walkFor_heeds (arriving : Option Segment) (now : Instant)
    (answers others : ReassemblerAnswers) :
    Heeds reassembler.refusals (reassembler.walkFor arriving now answers)
      (({ reassembler with refusals := refusals } : Reassembler).walkFor arriving now
        others) := by
  cases arriving with
  | none => exact reassembler.walkHeads_heeds refusals answers.packet others.packet _ 0
  | some segment =>
    obtain ⟨count, hother, hreports, hcount⟩ :=
      reassembler.report_heeds refusals segment.header answers.request others.request
    simp only [walkFor, receive]
    rw [hother]
    apply Heeds.after hreports
    rw [← hcount]
    let informed := (reassembler.report segment.header answers.request).1
    exact walkRun_heeds { informed with arrivals := informed.arrivals + 1 } count answers.packet
      others.packet (Window.anchorFor (informed.arriving segment now) informed.window) 0

theorem evict_heeds (now : Instant) :
    Heeds reassembler.refusals (reassembler.evict now)
      (({ reassembler with refusals := refusals } : Reassembler).evict now) := by
  refine ⟨rfl, rfl, rfl, ?_⟩
  unfold evict
  exact congrArg (reassembler.refusals + ·) (countP_isRefused_release .drop _).symm

theorem process_heeds (arriving : Option Segment) (now : Instant)
    (answers others : ReassemblerAnswers) :
    Heeds reassembler.refusals (reassembler.process arriving now answers)
      (({ reassembler with refusals := refusals } : Reassembler).process arriving now
        others) := by
  have hheeds := reassembler.walkFor_heeds refusals arriving now answers others
  rw [process_eq, process_eq]
  generalize ({ reassembler with refusals := refusals } : Reassembler).walkFor arriving now
    others = other at hheeds
  rw [← hheeds.value_eq]
  cases hvalue : (reassembler.walkFor arriving now answers).value with
  | error fault => exact hheeds
  | ok delivered =>
    have hevict := (reassembler.walkFor arriving now answers).state.evict_heeds
      other.state.refusals now
    rw [hheeds.state_eq, hheeds.refusals_eq] at hevict
    have hafter := hevict.after hheeds.reports_eq
    simp only
    exact ⟨hafter.state_eq, hafter.reports_eq, rfl, hafter.refusals_eq⟩

theorem perform_heeds {call other : ReassemblerCall} (hsame : call.SameButAnswers other) :
    Heeds reassembler.refusals (reassembler.perform call)
      (({ reassembler with refusals := refusals } : Reassembler).perform other) := by
  cases hsame with
  | process arriving now answers others =>
    have hheeds := reassembler.process_heeds refusals arriving now answers others
    exact ⟨hheeds.state_eq, hheeds.reports_eq, congrArg ReassemblerAnswer.delivered hheeds.value_eq,
      hheeds.refusals_eq⟩
  | evict now =>
    have hheeds := reassembler.evict_heeds refusals now
    exact ⟨hheeds.state_eq, hheeds.reports_eq, congrArg ReassemblerAnswer.evicted hheeds.value_eq,
      hheeds.refusals_eq⟩
  | clear =>
    refine ⟨rfl, rfl, rfl, ?_⟩
    exact congrArg (reassembler.refusals + ·) (countP_isRefused_release .drop _).symm
  | setMultiplier multiplier =>
    simp only [perform, setMultiplier]
    cases validateMultiplier multiplier <;> exact ⟨rfl, rfl, rfl, rfl⟩

end Calls

/-- A run does the same under other answers. -/
theorem run_heeds {calls others : List ReassemblerCall}
    (hsame : List.Forall₂ ReassemblerCall.SameButAnswers calls others)
    (reassembler : Reassembler) (refusals : Nat) :
    Heeds reassembler.refusals (reassembler.run calls)
      (({ reassembler with refusals := refusals } : Reassembler).run others) := by
  induction hsame generalizing reassembler refusals with
  | nil => exact ⟨rfl, rfl, rfl, rfl⟩
  | @cons call other later others hfirst _ ih =>
    have hheeds := reassembler.perform_heeds refusals hfirst
    simp only [run]
    generalize ({ reassembler with refusals := refusals } : Reassembler).perform other = next
      at hheeds
    have hlater := ih (reassembler.perform call).state next.state.refusals
    rw [hheeds.state_eq, hheeds.refusals_eq] at hlater
    have hafter := hlater.after hheeds.reports_eq
    refine ⟨hafter.state_eq, hafter.reports_eq, ?_, hafter.refusals_eq⟩
    rw [hheeds.value_eq, hlater.value_eq]

end Reassembler

end Ccf
