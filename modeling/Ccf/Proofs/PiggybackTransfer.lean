import Mathlib.Algebra.BigOperators.Group.List.Basic
import Mathlib.Algebra.GroupWithZero.Nat
import Mathlib.Data.List.Forall2
import Ccf.Proofs.Reassembly.Deliveries
import Ccf.Proofs.Reassembly.Requests
import Ccf.Proofs.Segmenter.Piggyback

/-!
# Piggyback bytes from one end to the other

The bytes supplied to the segmenting end are asked for by its segments, apart from those pending.
The segments that the scheduler takes may reach the reassembling end in any order, as they are or as
bytes, and some may be lost.  Each one that arrives has its request reported once, so the bytes
reported, those of the segments that did not arrive and those pending are the bytes supplied.
-/

namespace Ccf

def acceptedSegments (reports : List SegmenterReport) : List Segment :=
  reports.filterMap fun report =>
    match report with
    | .offered transmission .accepted => some transmission.segment
    | _ => none

def refusedSegments (reports : List SegmenterReport) : List Segment :=
  reports.filterMap fun report =>
    match report with
    | .offered transmission (.refused _) => some transmission.segment
    | _ => none

/-- A segment that is built is taken or refused. -/
theorem acceptedSegments_append_refusedSegments_perm (reports : List SegmenterReport) :
    (acceptedSegments reports ++ refusedSegments reports).Perm (builtSegments reports) := by
  induction reports with
  | nil => exact .nil
  | cons report later ih =>
    cases report with
    | offered transmission answer =>
      cases answer with
      | accepted => exact ih.cons transmission.segment
      | refused => exact List.perm_middle.trans (ih.cons transmission.segment)
    | recycled => exact ih
    | dropped => exact ih

/-- The bytes that segments ask for, in units of `multiplier` bytes. -/
def requestedTotal (multiplier : Nat) (segments : List Segment) : Nat :=
  (segments.map fun segment => segment.asked multiplier).sum

theorem requestedTotal_append (multiplier : Nat) (segments later : List Segment) :
    requestedTotal multiplier (segments ++ later) =
      requestedTotal multiplier segments + requestedTotal multiplier later := by
  rw [requestedTotal, List.map_append, List.sum_append]
  rfl

theorem requestedTotal_perm (multiplier : Nat) {segments others : List Segment}
    (hperm : segments.Perm others) :
    requestedTotal multiplier segments = requestedTotal multiplier others :=
  (hperm.map _).sum_eq

/-- Segments that were built are delivered, or taken and not delivered, or refused. -/
theorem perm_builtSegments {reports : List SegmenterReport} {delivered undelivered : List Segment}
    (haccepted : (delivered ++ undelivered).Perm (acceptedSegments reports)) :
    (delivered ++ undelivered ++ refusedSegments reports).Perm (builtSegments reports) :=
  (haccepted.append_right _).trans (acceptedSegments_append_refusedSegments_perm reports)

/-- If the units of request stay the same, the looks ask for what their segments ask for. -/
theorem askedBytes_eq_requestedTotal {looks : List Look} {multiplier : Nat}
    (hmultiplier : ∀ look ∈ looks, look.segmenter.settings.multiplier = multiplier) :
    askedBytes looks = requestedTotal multiplier (looks.filterMap Look.segment?) := by
  induction looks with
  | nil => rfl
  | cons look later ih =>
    obtain ⟨hlook, hlater⟩ := List.forall_mem_cons.1 hmultiplier
    have hrest := ih hlater
    rw [askedBytes, List.map_cons, List.sum_cons, ← askedBytes, hrest]
    cases hsegment : look.segment? with
    | none =>
      rw [List.filterMap_cons_none hsegment, Look.asked, hsegment]
      exact Nat.zero_add _
    | some segment =>
      rw [List.filterMap_cons_some hsegment, Look.asked_of_segment? hsegment, hlook]
      exact List.sum_cons.symm

def Segment.ArrivesAs (original arriving : Segment) : Prop :=
  ∃ frame : Frame, frame.Conveys original ∧ frame.read = .ok arriving

/-- The counterpart of an element of a list. -/
theorem exists_getElem?_of_concat {α β : Type} {related : α → β → Prop} {list : List α}
    {others earlier : List β} {other : β} (hrelated : List.Forall₂ related list others)
    (hother : earlier ++ [other] <+: others) :
    ∃ element, list[earlier.length]? = some element ∧ related element other := by
  obtain ⟨later, rfl⟩ := hother
  have hlt : earlier.length < (earlier ++ [other] ++ later).length := by simp
  have hlist : earlier.length < list.length := hrelated.length_eq ▸ hlt
  refine ⟨list[earlier.length], List.getElem?_eq_getElem hlist, ?_⟩
  simpa using hrelated.get hlist hlt

/-- What arrives has the header that was sent, if that fits the wire. -/
theorem Segment.ArrivesAs.header_eq {original arriving : Segment}
    (harrives : original.ArrivesAs arriving) (hvalid : original.header.validate = .ok ()) :
    arriving.header = original.header := by
  obtain ⟨frame, hconveys, hread⟩ := harrives
  cases frame with
  | direct segment =>
    obtain rfl : segment = original := hconveys
    cases hread
    rfl
  | wire id bytes =>
    have hwire := ofWire_toWire hvalid id hconveys
    rw [show ofWire id bytes = .ok arriving from hread] at hwire
    cases hwire
    rfl

/-- The requests that are reported when segments arrive that make requests which fit. -/
theorem filterMap_request?_eq {multiplier : Nat} {originals arriving : List Segment}
    (hheaders : List.Forall₂ (fun original arriving => arriving.header = original.header) originals
      arriving)
    (hfits : ∀ original ∈ originals, original.asked multiplier ≤ amountMax) :
    arriving.filterMap (fun segment => segment.header.request? multiplier) =
      (originals.filter fun original => original.header.request != 0).map fun original =>
        (original.header.sc, original.asked multiplier) := by
  induction hheaders with
  | nil => rfl
  | @cons original segment originals arriving hheader _ ih =>
    obtain ⟨hfirst, hothers⟩ := List.forall_mem_cons.1 hfits
    have hfitting := SegmentHeader.request?_of_le hfirst
    by_cases hrequest : original.header.request = 0
    · have hnone : segment.header.request? multiplier = none := by
        rw [hheader, hfitting, if_pos hrequest]
      rw [List.filter_cons_of_neg (by simpa using hrequest), ← ih hothers]
      simp only [List.filterMap_cons, hnone]
    · have hsome : segment.header.request? multiplier =
          some (original.header.sc, original.asked multiplier) := by
        rw [hheader, hfitting, if_neg hrequest, Segment.asked]
      rw [List.filter_cons_of_pos (by simpa using hrequest), List.map_cons, ← ih hothers]
      simp only [List.filterMap_cons, hsome]

/-- The reported bytes are those asked for: a segment without a request asks for none. -/
theorem sum_map_filter_request (multiplier : Nat) (segments : List Segment) :
    (((segments.filter fun segment => segment.header.request != 0).map fun segment =>
      (segment.header.sc, segment.asked multiplier)).map Prod.snd).sum =
        requestedTotal multiplier segments := by
  induction segments with
  | nil => rfl
  | cons segment later ih =>
    rw [requestedTotal, List.map_cons, List.sum_cons, ← requestedTotal, ← ih]
    by_cases hrequest : segment.header.request = 0
    · rw [List.filter_cons_of_neg (by simpa using hrequest), Segment.asked, hrequest]
      simp
    · rw [List.filter_cons_of_pos (by simpa using hrequest), List.map_cons, List.map_cons,
        List.sum_cons]

namespace Segmenter

/-- The headers of the segments that a run builds fit the wire. -/
theorem validate_eq_ok_of_mem_builtSegments {settings : SegmenterSettings} {segmenter : Segmenter}
    (hstart : start? settings = .ok segmenter) {calls : List SegmenterCall} {segment : Segment}
    (hsegment : segment ∈ builtSegments (segmenter.run calls).reports) :
    segment.header.validate = .ok () := by
  obtain ⟨rfl, hcluster⟩ := eq_of_start? hstart
  rw [builtSegments_run, List.mem_filterMap] at hsegment
  obtain ⟨look, hlook, hbuilt⟩ := hsegment
  obtain ⟨header, content, hbuilds⟩ := look.exists_builds hbuilt
  exact hbuilds.validate_eq_ok (primed_of_mem_lookAll settings calls hlook) hcluster

/-- The units of request stay those of the settings. -/
theorem multiplier_of_mem_lookAll {settings : SegmenterSettings} {segmenter : Segmenter}
    (hstart : start? settings = .ok segmenter) {calls : List SegmenterCall}
    (hkept : ∀ call ∈ calls, call.keepsMultiplier settings.multiplier = true) :
    ∀ look ∈ segmenter.lookAll calls,
      look.segmenter.settings.multiplier = settings.multiplier := by
  obtain ⟨rfl, -⟩ := eq_of_start? hstart
  exact ((upheld_multiplier hkept).run rfl).1

namespace AsksForSupplies

variable {segmenter : Segmenter} {calls : List SegmenterCall} {multiplier : Nat}

/-- No segment asks for more than fits. -/
theorem asked_le (hasks : AsksForSupplies segmenter calls)
    (hmultiplier : ∀ look ∈ segmenter.lookAll calls,
      look.segmenter.settings.multiplier = multiplier)
    {segment : Segment} (hsegment : segment ∈ builtSegments (segmenter.run calls).reports) :
    segment.asked multiplier ≤ amountMax := by
  rw [hasks.built_eq calls (List.prefix_refl calls), List.mem_filterMap] at hsegment
  obtain ⟨look, hlook, hbuilt⟩ := hsegment
  have hlooked := hasks.asks look hlook segment hbuilt
  rw [← hmultiplier look hlook]
  exact Nat.le_trans hlooked.asked_le hlooked.piggyback_le

/-- What is supplied is asked for by the segments or pending. -/
theorem suppliedBytes_eq (hasks : AsksForSupplies segmenter calls)
    (hmultiplier : ∀ look ∈ segmenter.lookAll calls,
      look.segmenter.settings.multiplier = multiplier) :
    SegmenterCall.suppliedBytes calls =
      requestedTotal multiplier (builtSegments (segmenter.run calls).reports) +
        (segmenter.run calls).state.piggyback := by
  rw [hasks.supplied_eq calls (List.prefix_refl calls), askedBytes_eq_requestedTotal hmultiplier,
    hasks.built_eq calls (List.prefix_refl calls)]

end AsksForSupplies

end Segmenter

/-- What a reassembler reports when `originals` reach it in that order. -/
structure Reassembler.ReportsRequests (reassembler : Reassembler)
    (receiving : List ReassemblerCall) (multiplier : Nat) (originals : List Segment) : Prop where
  /-- Every request other than 0 is reported once, for its cluster. -/
  requests_eq : reportedRequests (reassembler.run receiving).reports =
    (originals.filter fun original => original.header.request != 0).map fun original =>
      (original.header.sc, original.asked multiplier)
  /-- None is too large to be reported. -/
  asked_le : ∀ original ∈ originals, original.asked multiplier ≤ amountMax
  /-- It is what the call that takes the segment in reports first, and nothing else. -/
  arrival : ∀ earlier arriving now answers,
    earlier ++ [.process (some arriving) now answers] <+: receiving →
      ∃ original rest, originals[(ReassemblerCall.segments earlier).length]? = some original ∧
        ((reassembler.run earlier).state.perform (.process (some arriving) now answers)).reports =
          (if original.header.request = 0 then []
            else [.requested original.header.sc (original.asked multiplier) answers.request]) ++
            rest ∧
        reportedRequests rest = []

/-- A reassembler reports the requests of segments that were built, whatever becomes of their
contents. -/
theorem Reassembler.reportsRequests {reassembler : Reassembler}
    {receiving : List ReassemblerCall} {originals : List Segment}
    (hkept : ∀ call ∈ receiving,
      call.keepsMultiplier reassembler.settings.multiplier = true)
    (harrives : List.Forall₂ Segment.ArrivesAs originals (ReassemblerCall.segments receiving))
    (hvalid : ∀ original ∈ originals, original.header.validate = .ok ())
    (hasked : ∀ original ∈ originals,
      original.asked reassembler.settings.multiplier ≤ amountMax) :
    reassembler.ReportsRequests receiving reassembler.settings.multiplier originals := by
  obtain ⟨hrequests, hannounces⟩ := run_announces _ rfl hkept
  have hheaders : List.Forall₂ (fun original arriving => arriving.header = original.header)
      originals (ReassemblerCall.segments receiving) := by
    apply ((List.forall₂_and_left originals _).2 ⟨hvalid, harrives⟩).imp
    intro original arriving hboth
    exact hboth.2.header_eq hboth.1
  constructor
  case requests_eq => rw [hrequests, filterMap_request?_eq hheaders hasked]
  case asked_le => exact hasked
  case arrival =>
    intro earlier arriving now answers hcall
    obtain ⟨rest, hreports, hrest⟩ := hannounces _ _ hcall
    have hsegments : ReassemblerCall.segments earlier ++ [arriving] <+:
        ReassemblerCall.segments receiving := by
      have hprefixed := hcall.filterMap ReassemblerCall.segment?
      rwa [List.filterMap_append] at hprefixed
    obtain ⟨original, horiginal, hheader⟩ := exists_getElem?_of_concat hheaders hsegments
    refine ⟨original, rest, horiginal, ?_, hrest⟩
    have hfitting : arriving.header.request.toNat * reassembler.settings.multiplier ≤
        amountMax := by
      rw [hheader]
      exact hasked original (List.mem_of_getElem? horiginal)
    rw [hreports, ReassemblerCall.announcement_of_le hfitting, hheader, Segment.asked]

namespace Segmenter

/-- **Conservation of piggyback bytes.** What is supplied to a segmenter, all of it fitting a word,
is asked for by its segments, apart from what is pending.  With units of the same size at both ends,
a reassembler that takes in segments taken by the scheduler, each once and in any order, reports the
request of each when it arrives; with those of the other segments that is what was supplied. -/
theorem run_conservesPiggyback {settings : SegmenterSettings} {segmenter : Segmenter}
    (hstart : start? settings = .ok segmenter) {calls : List SegmenterCall}
    (hsupplied : SegmenterCall.suppliedBytes calls ≤ amountMax) :
    AsksForSupplies segmenter calls ∧
      ((∀ call ∈ calls, call.keepsMultiplier settings.multiplier = true) →
        ∀ (reassembler : Reassembler) (receiving : List ReassemblerCall)
          (originals undelivered : List Segment),
          reassembler.settings.multiplier = settings.multiplier →
          (∀ call ∈ receiving, call.keepsMultiplier settings.multiplier = true) →
          (originals ++ undelivered).Perm (acceptedSegments (segmenter.run calls).reports) →
          List.Forall₂ Segment.ArrivesAs originals (ReassemblerCall.segments receiving) →
          reassembler.ReportsRequests receiving settings.multiplier originals ∧
            SegmenterCall.suppliedBytes calls =
              ((reportedRequests (reassembler.run receiving).reports).map Prod.snd).sum +
                requestedTotal settings.multiplier undelivered +
                requestedTotal settings.multiplier
                  (refusedSegments (segmenter.run calls).reports) +
                (segmenter.run calls).state.piggyback) := by
  have hasks := run_asksForSupplies hstart hsupplied
  refine ⟨hasks, ?_⟩
  intro hkept reassembler receiving originals undelivered hsame hreceiving haccepted harrives
  have hmultiplier := multiplier_of_mem_lookAll hstart hkept
  have hbuilt := perm_builtSegments haccepted
  have hmem : ∀ original ∈ originals, original ∈ builtSegments (segmenter.run calls).reports :=
    fun original horiginal =>
      hbuilt.mem_iff.1 (List.mem_append_left _ (List.mem_append_left _ horiginal))
  have hreports : reassembler.ReportsRequests receiving settings.multiplier originals := by
    rw [← hsame] at hreceiving hmultiplier ⊢
    exact Reassembler.reportsRequests hreceiving harrives
      (fun original horiginal =>
        validate_eq_ok_of_mem_builtSegments hstart (hmem original horiginal))
      fun original horiginal => hasks.asked_le hmultiplier (hmem original horiginal)
  refine ⟨hreports, ?_⟩
  rw [hasks.suppliedBytes_eq hmultiplier, ← requestedTotal_perm _ hbuilt, requestedTotal_append,
    requestedTotal_append, hreports.requests_eq, sum_map_filter_request]

/-- Three segments ask for 24, 16 and 8 of 53 bytes.  The first is lost, the second is refused, and
the last one arrives as bytes. -/
theorem run_conservesPiggyback_lost :
    let packet (id : Nat) := Packet.raw id [1, 2]
    let grant : Grant := { channel := 1, time := .zero, size := 10 }
    let accept : Nat → Answer := fun _ => .accepted
    let refuse : Nat → Answer := fun _ => .refused .closed
    let calls : List SegmenterCall :=
      [.addGrants [grant, grant, grant] 30 .zero accept, .process (some (packet 0)) .zero accept,
        .addPiggyback 10, .process (some (packet 1)) .zero refuse, .addPiggyback 13,
        .process (some (packet 2)) .zero accept]
    let outcome := (start .standard).run calls
    let bytes : List UInt8 := [0x80, 0, 0, 16, 0, 1, 0, 0, 1, 2]
    let arriving := Segment.ofContent 9 { SegmentHeader.blank with
      pfi := true, sequence := 2, request := 1 } [1, 2]
    let answers : ReassemblerAnswers := { request := .accepted, packet := fun _ => .accepted }
    let receiving : List ReassemblerCall := [.process (some arriving) .zero answers]
    let taken (sequence request : UInt16) (id : Nat) : Segment :=
      { header := { SegmentHeader.blank with pfi := true, sequence := sequence, request := request }
        payload :=
          { pieces := [{ owner := packet id, offset := 0, length := 2 }], format := .delegate } }
    acceptedSegments outcome.reports = [taken 0 3 0, taken 2 1 2] ∧
      refusedSegments outcome.reports = [taken 1 2 1] ∧ outcome.state.piggyback = 5 ∧
      AsksForSupplies (start .standard) calls ∧
      (taken 2 1 2).toWire = .ok bytes ∧ Segment.ofWire 9 bytes = .ok arriving ∧
      (Reassembler.start .standard).ReportsRequests receiving 8 [taken 2 1 2] ∧
      reportedRequests ((Reassembler.start .standard).run receiving).reports = [(0, 8)] := by
  intro packet grant accept refuse calls outcome bytes arriving answers receiving taken
  have hstart : start? .standard = .ok (start .standard) := rfl
  obtain ⟨hasks, hreceives⟩ := run_conservesPiggyback hstart
    (show SegmenterCall.suppliedBytes calls ≤ amountMax by decide)
  have hrun : acceptedSegments outcome.reports = [taken 0 3 0, taken 2 1 2] ∧
      refusedSegments outcome.reports = [taken 1 2 1] ∧ outcome.state.piggyback = 5 := by
    rw [show outcome = (start .standard).run calls from rfl]
    simp only [calls, run, perform]
    rw [addGrants_of_sorted rfl (by decide)]
    decide
  have hwire : (taken 2 1 2).toWire = .ok bytes := by decide
  have harrives : (taken 2 1 2).ArrivesAs arriving := ⟨.wire 9 bytes, hwire, rfl⟩
  have hperm : ([taken 2 1 2] ++ [taken 0 3 0]).Perm (acceptedSegments outcome.reports) := by
    rw [hrun.1]
    exact .swap _ _ []
  obtain ⟨hreports, -⟩ := hreceives (by decide) (Reassembler.start .standard) receiving
    [taken 2 1 2] [taken 0 3 0] rfl (by decide) hperm (.cons harrives .nil)
  exact ⟨hrun.1, hrun.2.1, hrun.2.2, hasks, hwire, rfl, hreports, hreports.requests_eq⟩

end Segmenter

end Ccf
