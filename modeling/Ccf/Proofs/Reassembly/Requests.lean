import Ccf.Proofs.Reassembly.WindowBound

/-!
# The requests that a reassembler reports

A segment's request is reported when the segment arrives, ahead of everything else that the call
reports, and no walk and no eviction reports one.  What a run reports are therefore the requests of
the segments that arrive, in the order of their arrival, whatever becomes of the segments.
-/

namespace Ccf

def ReassemblerReport.request? : ReassemblerReport → Option (UInt8 × Nat)
  | .requested cluster bytes _ => some (cluster, bytes)
  | _ => none

def reportedRequests (reports : List ReassemblerReport) : List (UInt8 × Nat) :=
  reports.filterMap ReassemblerReport.request?

@[simp]
theorem reportedRequests_append (reports later : List ReassemblerReport) :
    reportedRequests (reports ++ later) = reportedRequests reports ++ reportedRequests later :=
  List.filterMap_append

/-- Letting segments go passes no request on. -/
@[simp]
theorem reportedRequests_release (how : Release) (entries : List Waiting) :
    reportedRequests (entries.map fun entry => how.report entry.segment) = [] := by
  apply List.filterMap_eq_nil_iff.2
  intro report hreport
  obtain ⟨entry, -, rfl⟩ := List.mem_map.1 hreport
  cases how <;> rfl

@[simp]
theorem reportedRequests_cons_delivered (table : PieceTable) (answer : Answer)
    (reports : List ReassemblerReport) :
    reportedRequests (.delivered table answer :: reports) = reportedRequests reports := rfl

@[simp]
theorem reportedRequests_dropped (segment : Segment) : reportedRequests [.dropped segment] = [] :=
  rfl

namespace Walk

@[simp]
theorem reportedRequests_closing (how : Release) (pending : Option OpenPacket) :
    reportedRequests (closing how pending).2 = [] := by
  cases pending with
  | none => rfl
  | some packet =>
    rw [closing]
    cases packet.entries.reverse with
    | nil => rfl
    | cons oldest others =>
      rw [retire]
      split
      · exact reportedRequests_release how others
      · exact reportedRequests_release how (oldest :: others)

theorem reportedRequests_of_visits {entry : Waiting} {pending later : Option OpenPacket}
    {stays back : List Waiting} {reports : List ReassemblerReport}
    (hvisits : Visits entry pending stays later back reports) : reportedRequests reports = [] := by
  cases hvisits with
  | letGo => rfl
  | owe => rfl
  | await => rfl
  | «begin» => rfl
  | «continue» => rfl
  | reject => simp
  | parse => simp [reportedRequests, ReassemblerReport.request?]
  | finish => simp
  | abandon => simp
  | complete => simp
  | overrun => simp

/-- A walk reports no request. -/
theorem reportedRequests_finish (walk : Walk) (answers : Nat → Answer)
    (hproper : ∀ packet, walk.pending = some packet → packet.content.Proper) :
    reportedRequests (walk.finish answers).reports = [] := by
  have hvisit (walk : Walk) (entry : Waiting) (rest : List Waiting)
      (hproper : ∀ packet, walk.pending = some packet → packet.content.Proper) :
      reportedRequests (walk.visit answers entry rest).reports = [] := by
    rcases visit_cases answers entry rest hproper with ⟨fault, -, hstopped⟩ |
      ⟨stays, later, back, hmakes⟩
    · rw [hstopped]
      rfl
    · exact reportedRequests_of_visits hmakes.visits
  apply finish_induction
    (fun reports walk => reportedRequests reports = [] ∧
      ∀ packet, walk.pending = some packet → packet.content.Proper)
    (fun _ reports _ => reportedRequests reports = []) answers _ _ _ walk [] ⟨rfl, hproper⟩
  · exact fun _ _ hwalk _ => hwalk.1
  · intro reports walk entry rest hwalk _ _ _
    rw [reportedRequests_append, hwalk.1, hvisit walk entry rest hwalk.2, List.append_nil]
  · intro reports walk entry rest hwalk hahead _
    refine ⟨?_, (disposes_visit answers hahead hwalk.2).1⟩
    rw [reportedRequests_append, hwalk.1, hvisit walk entry rest hwalk.2, List.append_nil]

end Walk

namespace Reassembler

theorem reportedRequests_walkRun (reassembler : Reassembler) (answers : Nat → Answer)
    (anchor : Anchor) (delivered : Nat) :
    reportedRequests (reassembler.walkRun answers anchor delivered).reports = [] :=
  Walk.reportedRequests_finish _ answers nofun

theorem reportedRequests_walkHeads (answers : Nat → Answer) (heads : List SequenceNumber)
    (reassembler : Reassembler) (delivered : Nat) :
    reportedRequests (walkHeads answers heads reassembler delivered).reports = [] := by
  induction heads generalizing reassembler delivered with
  | nil => rfl
  | cons head later ih =>
    rw [walkHeads]
    split
    · exact ih reassembler delivered
    · rename_i anchor _
      have hwalked := reassembler.reportedRequests_walkRun answers anchor delivered
      simp only
      split
      · exact hwalked
      · rw [Outcome.after, reportedRequests_append, hwalked, ih, List.append_nil]

theorem reportedRequests_evict (reassembler : Reassembler) (now : Instant) :
    reportedRequests (reassembler.evict now).reports = [] :=
  reportedRequests_release .drop _

end Reassembler

/-- The request that a header makes, in units of `multiplier` bytes. -/
def SegmentHeader.request? (header : SegmentHeader) (multiplier : Nat) : Option (UInt8 × Nat) :=
  if header.request = 0 then none
  else some (header.sc, wrapAmount (header.request.toNat * multiplier))

/-- A request that fits is reported as it is. -/
theorem SegmentHeader.request?_of_le {header : SegmentHeader} {multiplier : Nat}
    (hfits : header.request.toNat * multiplier ≤ amountMax) :
    header.request? multiplier =
      if header.request = 0 then none
      else some (header.sc, header.request.toNat * multiplier) := by
  rw [request?, wrapAmount, Nat.mod_eq_of_lt (Nat.lt_succ_of_le hfits)]

namespace ReassemblerCall

/-- What a call reports ahead of everything else: the request of the segment that arrives. -/
def announcement (multiplier : Nat) : ReassemblerCall → List ReassemblerReport
  | process (some segment) _ answers =>
    ((segment.header.request? multiplier).map fun request =>
      .requested request.1 request.2 answers.request).toList
  | _ => []

def keepsMultiplier (multiplier : Nat) : ReassemblerCall → Bool
  | setMultiplier other => other == multiplier || other == 0
  | _ => true

theorem announcement_of_le {segment : Segment} {multiplier : Nat}
    (hfits : segment.header.request.toNat * multiplier ≤ amountMax) (now : Instant)
    (answers : ReassemblerAnswers) :
    (process (some segment) now answers).announcement multiplier =
      if segment.header.request = 0 then []
      else [.requested segment.header.sc (segment.header.request.toNat * multiplier)
        answers.request] := by
  rw [announcement, SegmentHeader.request?_of_le hfits]
  split <;> rfl

/-- An announcement passes the request of the segment on. -/
theorem reportedRequests_announcement (call : ReassemblerCall) (multiplier : Nat) :
    reportedRequests (call.announcement multiplier) =
      call.segment?.toList.filterMap fun segment => segment.header.request? multiplier := by
  cases call with
  | process arriving now answers =>
    cases arriving with
    | none => rfl
    | some segment =>
      simp only [announcement, segment?]
      cases hrequest : segment.header.request? multiplier <;>
        simp [reportedRequests, ReassemblerReport.request?, hrequest]
  | _ => rfl

end ReassemblerCall

namespace Reassembler

/-- Taking a segment in reports its request first, and no other one. -/
theorem receive_announces (reassembler : Reassembler) (segment : Segment) (now : Instant)
    (answers : ReassemblerAnswers) :
    ∃ rest, (reassembler.receive segment now answers).reports =
        (ReassemblerCall.process (some segment) now answers).announcement
          reassembler.settings.multiplier ++ rest ∧
      reportedRequests rest = [] := by
  have hreport : (reassembler.report segment.header answers.request).2 =
      (ReassemblerCall.process (some segment) now answers).announcement
        reassembler.settings.multiplier := by
    simp only [report, ReassemblerCall.announcement, SegmentHeader.request?]
    split <;> rfl
  refine ⟨_, congrArg (· ++ _) hreport, ?_⟩
  exact reportedRequests_walkRun _ _ _ _

/-- A call reports the request of the segment that arrives first, and no other one. -/
theorem perform_announces (reassembler : Reassembler) (call : ReassemblerCall) :
    ∃ rest, (reassembler.perform call).reports =
        call.announcement reassembler.settings.multiplier ++ rest ∧
      reportedRequests rest = [] := by
  cases call with
  | process arriving now answers =>
    have hwalked : ∃ rest, (reassembler.walkFor arriving now answers).reports =
        (ReassemblerCall.process arriving now answers).announcement
          reassembler.settings.multiplier ++ rest ∧ reportedRequests rest = [] := by
      cases arriving with
      | some segment => exact reassembler.receive_announces segment now answers
      | none => exact ⟨_, rfl, reportedRequests_walkHeads _ _ _ _⟩
    obtain ⟨rest, hreports, hrest⟩ := hwalked
    simp only [perform, answering, process_eq]
    split
    · exact ⟨rest, hreports, hrest⟩
    · refine ⟨_, (congrArg (· ++ _) hreports).trans (List.append_assoc _ _ _), ?_⟩
      rw [reportedRequests_append, hrest, reportedRequests_evict, List.append_nil]
  | evict now => exact ⟨_, rfl, reassembler.reportedRequests_evict now⟩
  | clear => exact ⟨_, rfl, reportedRequests_release .drop reassembler.window⟩
  | setMultiplier multiplier =>
    exact ⟨[], (reassembler.perform_setMultiplier multiplier).1, rfl⟩

theorem multiplier_perform {reassembler : Reassembler} {call : ReassemblerCall}
    (hkept : call.keepsMultiplier reassembler.settings.multiplier = true) :
    (reassembler.perform call).state.settings.multiplier = reassembler.settings.multiplier := by
  cases call with
  | process arriving now answers =>
    have hwalked := reassembler.settings_walkFor arriving now answers
    simp only [perform, answering, process_eq]
    split
    · rw [hwalked]
    · exact congrArg _ hwalked
  | evict now => rfl
  | clear => rfl
  | setMultiplier other =>
    have hother : other = reassembler.settings.multiplier ∨ other = 0 := by
      simpa [ReassemblerCall.keepsMultiplier] using hkept
    simp only [perform, setMultiplier]
    rcases hother with rfl | rfl
    · cases validateMultiplier reassembler.settings.multiplier <;> rfl
    · rfl

/-- A run reports the requests of the segments that arrive, in order, each when it arrives. -/
theorem run_announces (multiplier : Nat) {calls : List ReassemblerCall} {reassembler : Reassembler}
    (hmultiplier : reassembler.settings.multiplier = multiplier)
    (hkept : ∀ call ∈ calls, call.keepsMultiplier multiplier = true) :
    reportedRequests (reassembler.run calls).reports =
        (ReassemblerCall.segments calls).filterMap
          (fun segment => segment.header.request? multiplier) ∧
      ∀ earlier call, earlier ++ [call] <+: calls →
        ∃ rest, ((reassembler.run earlier).state.perform call).reports =
            call.announcement multiplier ++ rest ∧ reportedRequests rest = [] := by
  induction calls generalizing reassembler with
  | nil =>
    refine ⟨rfl, fun earlier call hcall => ?_⟩
    have hlength := hcall.length_le
    simp at hlength
  | cons call later ih =>
    subst hmultiplier
    obtain ⟨hcall, hothers⟩ := List.forall_mem_cons.1 hkept
    obtain ⟨rest, hreports, hrest⟩ := reassembler.perform_announces call
    obtain ⟨hlater, hprefixes⟩ := ih (multiplier_perform hcall) hothers
    constructor
    · rw [run, reportedRequests_append, hreports, reportedRequests_append, hrest, List.append_nil,
        hlater, ReassemblerCall.segments_cons, List.filterMap_append,
        ReassemblerCall.reportedRequests_announcement]
    · intro earlier other hother
      cases earlier with
      | nil =>
        obtain ⟨rfl, -⟩ := List.cons_prefix_cons.1 hother
        exact ⟨rest, hreports, hrest⟩
      | cons first others =>
        obtain ⟨rfl, hothers⟩ := List.cons_prefix_cons.1 hother
        exact hprefixes others other hothers

end Reassembler

end Ccf
