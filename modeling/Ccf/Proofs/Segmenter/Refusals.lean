import Ccf.Proofs.Segmenter.Calls
import Mathlib.Data.List.Forall2

/-!
# What refusals change at the segmenting end

The scheduler may refuse a segment.  Two runs of the same calls that get different answers offer the
same segments, place and give up the same packets and leave the same state; they differ in the
answers, in the numbers of accepted segments that calls return, and in the count of refusals.  A
call that succeeds returns the number of segments it has offered less those that were refused.
-/

namespace Ccf

namespace SegmenterReport

def unanswered : SegmenterReport → SegmenterReport
  | .offered transmission _ => .offered transmission .accepted
  | .recycled packet => .recycled packet
  | .dropped packet => .dropped packet

def isRefused : SegmenterReport → Bool
  | .offered _ answer => !answer.isAccepted
  | _ => false

end SegmenterReport

open SegmenterReport

/-- What a call returns without the number of accepted segments. -/
def SegmenterAnswer.uncounted : SegmenterAnswer → SegmenterAnswer
  | .spent result => .spent (result.map fun _ => 0)
  | .set result => .set result
  | .done => .done

/-- Calls that differ in the answers that they get at most. -/
inductive SegmenterCall.SameButAnswers : SegmenterCall → SegmenterCall → Prop where
  | process (packet : Option Packet) (now : Instant) (answers others : Nat → Answer) :
    SameButAnswers (.process packet now answers) (.process packet now others)
  | addGrants (grants : List Grant) (piggyback : Nat) (now : Instant)
      (answers others : Nat → Answer) :
    SameButAnswers (.addGrants grants piggyback now answers)
      (.addGrants grants piggyback now others)
  | addPiggyback (bytes : Nat) : SameButAnswers (.addPiggyback bytes) (.addPiggyback bytes)
  | setMultiplier (multiplier : Nat) :
    SameButAnswers (.setMultiplier multiplier) (.setMultiplier multiplier)
  | clear : SameButAnswers .clear .clear

namespace Segmenter

/-- Outcomes that differ in answers and their count, and in what `plain` leaves out of their values,
only.  The first one comes from a state with `refusals` refusals and has counted those of its
reports. -/
structure Heeds {Value : Type} (plain : Value → Value) (refusals : Nat)
    (outcome other : Outcome Segmenter SegmenterReport Value) : Prop where
  state_eq : { outcome.state with refusals := other.state.refusals } = other.state
  reports_eq : outcome.reports.map unanswered = other.reports.map unanswered
  value_eq : plain outcome.value = plain other.value
  refusals_eq : outcome.state.refusals = refusals + outcome.reports.countP isRefused

/-- Reports that were made before. -/
theorem Heeds.after {Value : Type} {plain : Value → Value} {refusals : Nat}
    {outcome other : Outcome Segmenter SegmenterReport Value}
    {earlier others : List SegmenterReport}
    (hearlier : earlier.map unanswered = others.map unanswered)
    (hheeds : Heeds plain (refusals + earlier.countP isRefused) outcome other) :
    Heeds plain refusals (outcome.after earlier) (other.after others) where
  state_eq := hheeds.state_eq
  reports_eq := by
    unfold Outcome.after
    rw [List.map_append, List.map_append, hearlier, hheeds.reports_eq]
  value_eq := hheeds.value_eq
  refusals_eq := by
    unfold Outcome.after
    rw [List.countP_append, ← Nat.add_assoc]
    exact hheeds.refusals_eq

theorem countP_isRefused_recycled (packets : List Packet) :
    (packets.map SegmenterReport.recycled).countP isRefused = 0 := by
  apply List.countP_eq_zero.2
  intro report hreport
  obtain ⟨packet, -, rfl⟩ := List.mem_map.1 hreport
  exact Bool.false_ne_true

section Calls

variable (segmenter : Segmenter) (refusals : Nat)

/-- Building a segment asks nobody. -/
theorem build_refusals (grant : Grant) :
    ({ segmenter with refusals := refusals } : Segmenter).build grant =
        { segmenter.build grant with
          state := { (segmenter.build grant).state with refusals := refusals } } ∧
      (segmenter.build grant).state.refusals = segmenter.refusals ∧
      ∃ placed : List Packet, (segmenter.build grant).reports = placed.map .recycled := by
  unfold build
  split
  · exact ⟨rfl, rfl, [], rfl⟩
  · simp only
    split
    · exact ⟨rfl, rfl, _, rfl⟩
    · split
      · exact ⟨rfl, rfl, _, rfl⟩
      · exact ⟨rfl, rfl, _, rfl⟩

/-- An answer changes the count only. -/
theorem heed_refusals (answer other : Answer) (transmission : Transmission) :
    ({ segmenter with refusals := refusals } : Segmenter).heed other =
        { segmenter.heed answer with
          refusals := (({ segmenter with refusals := refusals } : Segmenter).heed other).refusals } ∧
      (segmenter.heed answer).refusals =
        segmenter.refusals + [SegmenterReport.offered transmission answer].countP isRefused := by
  cases answer <;> cases other <;> exact ⟨rfl, rfl⟩

/-- Spending grants does the same under other answers. -/
theorem spend_heeds (now : Instant) (answers others : Nat → Answer) (grants : List Grant)
    (offered accepted accepted' : Nat) :
    Heeds (Except.map fun _ => 0) segmenter.refusals
      (spend now answers grants segmenter offered accepted)
      (spend now others grants { segmenter with refusals := refusals } offered accepted') := by
  induction grants generalizing segmenter refusals offered accepted accepted' with
  | nil => exact ⟨rfl, rfl, rfl, rfl⟩
  | cons grant later ih =>
    obtain ⟨hbuild, hrefusals, placed, hreports⟩ := segmenter.build_refusals refusals grant
    have hplaced := countP_isRefused_recycled placed
    rw [← hreports] at hplaced
    simp only [spend]
    split
    · exact ih segmenter refusals offered accepted accepted'
    · split
      · exact ⟨rfl, rfl, rfl, rfl⟩
      · rw [hbuild]
        simp only
        rcases hvalue : (segmenter.build grant).value with fault | segment
        · refine ⟨rfl, rfl, rfl, ?_⟩
          simp only [hplaced, hrefusals, Nat.add_zero]
        · cases segment with
          | none =>
            apply Heeds.after rfl
            rw [hplaced, Nat.add_zero, ← hrefusals]
            exact ih (segmenter.build grant).state refusals offered accepted accepted'
          | some segment =>
            let transmission : Transmission :=
              { time := grant.time, occasion := .sendTimer, segment := segment,
                channel := grant.channel }
            obtain ⟨hheed, hcount⟩ := (segmenter.build grant).state.heed_refusals refusals
              (answers offered) (others offered) transmission
            simp only
            rw [hheed]
            apply Heeds.after
            · rw [List.map_append, List.map_append]
              rfl
            · rw [List.countP_append, hplaced, Nat.zero_add, ← hrefusals, ← hcount]
              exact ih _ _ (offered + 1) _ _

/-- Every segment that is offered is accepted or refused. -/
theorem spend_counts (now : Instant) (answers : Nat → Answer) (grants : List Grant)
    (offered accepted : Nat) {total : Nat}
    (hvalue : (spend now answers grants segmenter offered accepted).value = .ok total) :
    accepted + (builtSegments (spend now answers grants segmenter offered accepted).reports).length =
      total + (spend now answers grants segmenter offered accepted).reports.countP isRefused := by
  induction grants generalizing segmenter offered accepted with
  | nil =>
    cases hvalue
    rfl
  | cons grant later ih =>
    obtain ⟨-, -, placed, hreports⟩ := segmenter.build_refusals 0 grant
    have hplaced := countP_isRefused_recycled placed
    simp only [spend] at hvalue ⊢
    split at hvalue
    · rename_i hexpired
      rw [if_pos hexpired]
      exact ih segmenter offered accepted hvalue
    · rename_i hdue
      rw [if_neg hdue]
      split at hvalue
      · rename_i hqueue
        cases hvalue
        rw [if_pos hqueue]
        rfl
      · rename_i hqueue
        rw [if_neg hqueue]
        rcases hbuilt : (segmenter.build grant).value with fault | segment
        · simp only [hbuilt] at hvalue
          cases hvalue
        · cases segment with
          | none =>
            simp only [hbuilt, Outcome.after, hreports, builtSegments_append,
              builtSegments_recycled, List.nil_append, List.countP_append, hplaced,
              Nat.zero_add] at hvalue ⊢
            exact ih _ offered accepted hvalue
          | some segment =>
            have hcounts (transmission : Transmission) :
                (if (answers offered).isAccepted then accepted + 1 else accepted) +
                  [SegmenterReport.offered transmission (answers offered)].countP isRefused =
                    accepted + (builtSegments
                      [SegmenterReport.offered transmission (answers offered)]).length := by
              cases answers offered <;> rfl
            specialize hcounts
              { time := grant.time, occasion := .sendTimer, segment := segment,
                channel := grant.channel }
            simp only [hbuilt, Outcome.after, hreports, builtSegments_append,
              builtSegments_recycled, List.nil_append, List.countP_append, hplaced,
              Nat.zero_add, List.length_append] at hvalue ⊢
            have hlater := ih _ (offered + 1) _ hvalue
            omega

theorem resume_heeds (now : Instant) (answers others : Nat → Answer) :
    Heeds (Except.map fun _ => 0) segmenter.refusals (segmenter.resume now answers)
      (({ segmenter with refusals := refusals } : Segmenter).resume now others) :=
  segmenter.spend_heeds refusals now answers others segmenter.grants 0 0 0

theorem enqueue_heeds (packet : Packet) (now : Instant) (answers others : Nat → Answer) :
    Heeds (Except.map fun _ => 0) segmenter.refusals (segmenter.enqueue packet now answers)
      (({ segmenter with refusals := refusals } : Segmenter).enqueue packet now others) := by
  let queued : Segmenter :=
    { segmenter with queue := segmenter.queue ++ [{ packet := packet, placed := 0 }] }
  unfold enqueue
  split
  · apply Heeds.after rfl
    exact segmenter.resume_heeds refusals now answers others
  · exact queued.resume_heeds refusals now answers others

/-- What spending grants returns, as the answer of a call. -/
theorem Heeds.answering {refusals : Nat}
    {outcome other : Outcome Segmenter SegmenterReport (Except BufferError Nat)}
    (hheeds : Heeds (Except.map fun _ => 0) refusals outcome other) :
    Heeds SegmenterAnswer.uncounted refusals (answering outcome .spent) (answering other .spent) :=
  ⟨hheeds.state_eq, hheeds.reports_eq, congrArg SegmenterAnswer.spent hheeds.value_eq,
    hheeds.refusals_eq⟩

theorem perform_heeds {call other : SegmenterCall} (hsame : call.SameButAnswers other) :
    Heeds SegmenterAnswer.uncounted segmenter.refusals (segmenter.perform call)
      (({ segmenter with refusals := refusals } : Segmenter).perform other) := by
  cases hsame with
  | process packet now answers others =>
    cases packet with
    | none => exact (segmenter.resume_heeds refusals now answers others).answering
    | some packet => exact (segmenter.enqueue_heeds refusals packet now answers others).answering
  | addGrants grants piggyback now answers others =>
    let scheduled : Segmenter :=
      { segmenter.addPiggyback piggyback with grants := Grant.schedule segmenter.grants grants }
    exact (scheduled.resume_heeds refusals now answers others).answering
  | addPiggyback bytes => exact ⟨rfl, rfl, rfl, rfl⟩
  | setMultiplier multiplier =>
    simp only [perform, setMultiplier]
    cases validateMultiplier multiplier <;> exact ⟨rfl, rfl, rfl, rfl⟩
  | clear =>
    refine ⟨rfl, rfl, rfl, ?_⟩
    have hdropped : segmenter.clear.reports.countP isRefused = 0 := by
      apply List.countP_eq_zero.2
      intro report hreport
      obtain ⟨entry, -, rfl⟩ := List.mem_map.1 hreport
      exact Bool.false_ne_true
    exact congrArg (segmenter.refusals + ·) hdropped.symm

/-- A call that succeeds returns the number of segments that were accepted. -/
theorem perform_counts (call : SegmenterCall) {total : Nat}
    (hvalue : (segmenter.perform call).value = .spent (.ok total)) :
    (builtSegments (segmenter.perform call).reports).length =
      total + (segmenter.perform call).reports.countP isRefused := by
  have hresume (state : Segmenter) (now : Instant) (answers : Nat → Answer)
      (hvalue : (state.resume now answers).value = .ok total) :
      (builtSegments (state.resume now answers).reports).length =
        total + (state.resume now answers).reports.countP isRefused := by
    have hcounts := spend_counts state now answers state.grants 0 0 hvalue
    rwa [Nat.zero_add] at hcounts
  cases call with
  | process packet now answers =>
    cases packet with
    | none => exact hresume segmenter now answers (SegmenterAnswer.spent.inj hvalue)
    | some packet =>
      replace hvalue := SegmenterAnswer.spent.inj hvalue
      simp only [perform, answering, enqueue] at hvalue ⊢
      split at hvalue
      · rename_i hempty
        rw [if_pos hempty]
        exact hresume segmenter now answers hvalue
      · rename_i hbytes
        rw [if_neg hbytes]
        exact hresume _ now answers hvalue
  | addGrants grants piggyback now answers =>
    exact hresume _ now answers (SegmenterAnswer.spent.inj hvalue)
  | addPiggyback bytes => cases hvalue
  | setMultiplier multiplier =>
    simp only [perform] at hvalue
    split at hvalue <;> cases hvalue
  | clear => cases hvalue

end Calls

/-- A run does the same under other answers. -/
theorem run_heeds {calls others : List SegmenterCall}
    (hsame : List.Forall₂ SegmenterCall.SameButAnswers calls others) (segmenter : Segmenter)
    (refusals : Nat) :
    Heeds (List.map SegmenterAnswer.uncounted) segmenter.refusals (segmenter.run calls)
      (({ segmenter with refusals := refusals } : Segmenter).run others) := by
  induction hsame generalizing segmenter refusals with
  | nil => exact ⟨rfl, rfl, rfl, rfl⟩
  | @cons call other later others hfirst _ ih =>
    have hheeds := segmenter.perform_heeds refusals hfirst
    simp only [run]
    generalize ({ segmenter with refusals := refusals } : Segmenter).perform other = next at hheeds
    have hlater := ih (segmenter.perform call).state next.state.refusals
    rw [hheeds.state_eq, hheeds.refusals_eq] at hlater
    have hafter := hlater.after hheeds.reports_eq
    refine ⟨hafter.state_eq, hafter.reports_eq, ?_, hafter.refusals_eq⟩
    rw [List.map_cons, List.map_cons, hheeds.value_eq, hlater.value_eq]

end Segmenter

end Ccf
