import Ccf.Proofs.Reassembly.Refusals
import Ccf.Proofs.Simulation.Crossing
import Mathlib.Algebra.Order.BigOperators.Group.List

/-!
# What the receiver of a simulation notes

The receiving end of a simulation takes everything that it is offered, so no report of a call is
about something refused, and the receiver's notes are an account of all reports: the packets that
were handed out, the bytes of request and the segments given up.  The bytes of request are those
that the segments ask for, in whatever order they arrive.
-/

namespace Ccf

open ReassemblerReport

namespace Walk

variable {answers : Nat → Answer} (haccepts : ∀ place, answers place = .accepted)
include haccepts

theorem isRefused_deliver (walk : Walk) (content : Gathering) (block : Nat) :
    (walk.deliver answers content block).2.isRefused = false := by
  simp [deliver, isRefused, haccepts, Answer.isAccepted]

theorem countP_isRefused_openAt (walk : Walk) (entry : Waiting) (rest : List Waiting) :
    (walk.openAt answers entry rest).reports.countP isRefused = 0 := by
  unfold openAt
  split
  · split <;> rfl
  · split
    · rfl
    · cases Gathering.empty.gatherRange entry.segment.payload entry.next entry.size with
      | error fault => rfl
      | ok content =>
        simp only
        split
        · simp [isRefused_deliver haccepts]
        · rfl

theorem countP_isRefused_endAt (walk : Walk) (packet : OpenPacket) (entry : Waiting)
    (rest : List Waiting) :
    (walk.endAt answers packet entry rest).reports.countP isRefused = 0 := by
  unfold endAt
  cases packet.content.gatherRange entry.segment.payload 0 entry.lead with
  | error fault => rfl
  | ok content =>
    simp only [closePending_eq]
    split
    · rw [List.countP_cons, isRefused_deliver haccepts, countP_isRefused_closing]
      rfl
    · exact countP_isRefused_closing .drop walk.pending

theorem countP_isRefused_continueAt (walk : Walk) (packet : OpenPacket) (entry : Waiting)
    (rest : List Waiting) :
    (walk.continueAt answers packet entry rest).reports.countP isRefused = 0 := by
  unfold continueAt
  cases packet.content.gatherRange entry.segment.payload entry.next entry.size with
  | error fault => rfl
  | ok content =>
    simp only [closePending_eq]
    split
    · rename_i block _
      have hclosed : ((walk.deliver answers content block).2 ::
          (closing .recycle (walk.deliver answers content block).1.pending).2).countP
            isRefused = 0 := by
        rw [List.countP_cons, isRefused_deliver haccepts, countP_isRefused_closing]
        rfl
      split
      · rw [List.countP_append, hclosed]
        rfl
      · exact hclosed
    · rfl

/-- A visit reports nothing that is refused. -/
theorem countP_isRefused_visit (walk : Walk) (entry : Waiting) (rest : List Waiting) :
    (walk.visit answers entry rest).reports.countP isRefused = 0 := by
  unfold visit
  split
  · rw [rejectEntry, closePending_eq, List.countP_append, countP_isRefused_closing]
    rfl
  · cases walk.pending with
    | none => exact countP_isRefused_openAt haccepts walk (toFirstStart entry) rest
    | some packet =>
      simp only
      split
      · exact countP_isRefused_endAt haccepts walk packet (toFirstStart entry) rest
      · exact countP_isRefused_continueAt haccepts walk packet (toFirstStart entry) rest

/-- Neither does a walk. -/
theorem countP_isRefused_finish (walk : Walk) :
    (walk.finish answers).reports.countP isRefused = 0 := by
  apply finish_induction (fun reports _ => reports.countP isRefused = 0)
    (fun _ reports _ => reports.countP isRefused = 0) answers _ _ _ walk [] rfl
  · intro reports walk hnone _
    exact hnone
  · intro reports walk entry rest hnone _ _ _
    rw [List.countP_append, hnone, countP_isRefused_visit haccepts]
  · intro reports walk entry rest hnone _ _
    rw [List.countP_append, hnone, countP_isRefused_visit haccepts]

end Walk

theorem Reassembler.countP_isRefused_evict (reassembler : Reassembler) (now : Instant) :
    (reassembler.evict now).reports.countP isRefused = 0 := by
  unfold evict
  exact countP_isRefused_release .drop _

/-- A call with a segment reports nothing that is refused. -/
theorem Reassembler.countP_isRefused_process (reassembler : Reassembler) (segment : Segment)
    (now : Instant) :
    (reassembler.process (some segment) now Simulation.accepting).reports.countP isRefused = 0 := by
  have hreport : (reassembler.report segment.header .accepted).2.countP isRefused = 0 := by
    unfold report
    split <;> rfl
  have hwalked : (reassembler.walkFor (some segment) now Simulation.accepting).reports.countP
      isRefused = 0 := by
    simp only [walkFor, receive]
    unfold Outcome.after
    rw [List.countP_append, Simulation.accepting, hreport, Nat.zero_add]
    exact Walk.countP_isRefused_finish (fun _ => rfl) _
  rw [process_eq]
  cases (reassembler.walkFor (some segment) now Simulation.accepting).value with
  | error fault => exact hwalked
  | ok delivered =>
    simp only [List.countP_append, hwalked, countP_isRefused_evict]

namespace Simulation

/-! ## Notes -/

/-- A receiver has noted reports. -/
structure Receiver.Notes (receiver : Receiver) (reports : List ReassemblerReport) : Prop where
  packets_eq : receiver.packets.reverse = (deliveredTables reports).map PieceTable.bytes
  piggyback_eq : receiver.piggyback = wrapAmount ((reportedRequests reports).map Prod.snd).sum
  dropped_eq : receiver.dropped = (droppedSegments reports).length

theorem Receiver.reassembler_foldl_note (receiver : Receiver) (reports : List ReassemblerReport) :
    (reports.foldl Receiver.note receiver).reassembler = receiver.reassembler := by
  induction reports generalizing receiver with
  | nil => rfl
  | cons report later ih =>
    rw [List.foldl_cons, ih]
    unfold Receiver.note
    split <;> rfl

/-- One more report. -/
theorem Receiver.Notes.note {receiver : Receiver} {reports : List ReassemblerReport}
    (hnotes : receiver.Notes reports) {report : ReassemblerReport}
    (hreport : report.isRefused = false) : (receiver.note report).Notes (reports ++ [report]) := by
  obtain ⟨hpackets, hpiggyback, hdropped⟩ := hnotes
  cases report with
  | delivered packet answer =>
    cases answer with
    | refused why => cases hreport
    | accepted =>
      constructor
      · simp [Receiver.note, hpackets]
      · rw [reportedRequests_append, reportedRequests_cons_delivered]
        simpa [Receiver.note, reportedRequests] using hpiggyback
      · simp [Receiver.note, hdropped, droppedSegments]
  | requested cluster bytes answer =>
    cases answer with
    | refused why => cases hreport
    | accepted =>
      constructor
      · simp [Receiver.note, hpackets, deliveredTables]
      · simp [Receiver.note, hpiggyback, wrapAmount, reportedRequests, request?]
      · simp [Receiver.note, hdropped, droppedSegments]
  | recycled segment =>
    constructor
    · simp [Receiver.note, hpackets, deliveredTables]
    · have hnone : reportedRequests [.recycled segment] = [] := rfl
      rw [reportedRequests_append, hnone, List.append_nil]
      exact hpiggyback
    · simp [Receiver.note, hdropped, droppedSegments]
  | dropped segment =>
    constructor
    · simp [Receiver.note, hpackets]
    · simp [Receiver.note, hpiggyback]
    · simp [Receiver.note, hdropped, droppedSegments]

theorem Receiver.Notes.foldl {receiver : Receiver} {earlier : List ReassemblerReport}
    (hnotes : receiver.Notes earlier) {reports : List ReassemblerReport}
    (hreports : reports.countP isRefused = 0) :
    (reports.foldl Receiver.note receiver).Notes (earlier ++ reports) := by
  induction reports generalizing receiver earlier with
  | nil => rwa [List.append_nil]
  | cons report later ih =>
    obtain ⟨hreport, hlater⟩ := List.forall_mem_cons.1 (List.countP_eq_zero.1 hreports)
    have hnoted := ih (hnotes.note (Bool.eq_false_iff.2 hreport)) (List.countP_eq_zero.2 hlater)
    rwa [List.append_assoc] at hnoted

/-! ## Taking segments in -/

section Taking

variable {wire : List (List UInt8)} {receiver : Receiver} {earlier : List ReassemblerReport}

def arrivalOf (wire : List (List UInt8)) (entry : Nat × Nat) : List UInt8 × Nat :=
  (wire.getD entry.1 [], entry.2)

/-- Taking in what can be read is a call without refusals, at time zero. -/
theorem deliver_comingIn (reassembler : Reassembler) {entry : Nat × Nat} {segment : Segment}
    (hread : Segment.ofWire (arrivalOf wire entry).2 (arrivalOf wire entry).1 = .ok segment) :
    reassembler.deliver (comingIn wire entry) =
      { state := (reassembler.process (some segment) .zero accepting).state
        reports := (reassembler.process (some segment) .zero accepting).reports
        value := (reassembler.process (some segment) .zero accepting).value.mapError .buffer } :=
  Reassembler.deliver_eq_process hread

/-- A delivery that succeeds is taken in, and its reports are noted. -/
theorem Receiver.Notes.take (hnotes : receiver.Notes earlier) {entry : Nat × Nat} {count : Nat}
    (hvalue : (receiver.reassembler.deliver (comingIn wire entry)).value = .ok count) :
    ∃ later, receiver.take (arrivalOf wire entry) = .ok later ∧
      later.reassembler = (receiver.reassembler.deliver (comingIn wire entry)).state ∧
      later.Notes (earlier ++ (receiver.reassembler.deliver (comingIn wire entry)).reports) := by
  have hframe : (comingIn wire entry).frame.read =
      Segment.ofWire (arrivalOf wire entry).2 (arrivalOf wire entry).1 := rfl
  cases hread : Segment.ofWire (arrivalOf wire entry).2 (arrivalOf wire entry).1 with
  | error fault =>
    rw [Reassembler.deliver, hframe, hread] at hvalue
    cases hvalue
  | ok segment =>
    rw [deliver_comingIn receiver.reassembler hread] at hvalue ⊢
    have hunrefused := receiver.reassembler.countP_isRefused_process segment .zero
    rw [Receiver.take, hread]
    simp only at hvalue ⊢
    generalize receiver.reassembler.process (some segment) .zero accepting = outcome
      at hvalue hunrefused
    cases hresult : outcome.value with
    | error fault =>
      rw [hresult] at hvalue
      cases hvalue
    | ok delivered =>
      let informed : Receiver := { receiver with reassembler := outcome.state }
      have hinformed : informed.Notes earlier :=
        ⟨hnotes.packets_eq, hnotes.piggyback_eq, hnotes.dropped_eq⟩
      exact ⟨outcome.reports.foldl Receiver.note informed, rfl,
        informed.reassembler_foldl_note outcome.reports, hinformed.foldl hunrefused⟩

/-- Deliveries that succeed are taken in one after another. -/
theorem Receiver.Notes.takeAll (hnotes : receiver.Notes earlier) {entries : List (Nat × Nat)}
    (hvalues : ∀ value ∈ (receiver.reassembler.deliverAll (entries.map (comingIn wire))).value,
      ∃ count, value = .ok count) :
    ∃ last, (entries.map (arrivalOf wire)).foldlM Receiver.take receiver = .ok last ∧
      last.reassembler =
        (receiver.reassembler.deliverAll (entries.map (comingIn wire))).state ∧
      last.Notes
        (earlier ++ (receiver.reassembler.deliverAll (entries.map (comingIn wire))).reports) := by
  induction entries generalizing receiver earlier with
  | nil =>
    simp only [List.map_nil, Reassembler.deliverAll, List.append_nil]
    exact ⟨receiver, rfl, rfl, hnotes⟩
  | cons entry others ih =>
    simp only [List.map_cons, Reassembler.deliverAll] at hvalues ⊢
    obtain ⟨⟨count, hcount⟩, hothers⟩ := List.forall_mem_cons.1 hvalues
    obtain ⟨later, htake, hstate, hnoted⟩ := hnotes.take hcount
    rw [← hstate] at hothers ⊢
    obtain ⟨last, hfold, hlast, hall⟩ := ih hnoted hothers
    rw [List.append_assoc] at hall
    refine ⟨last, ?_, hlast, hall⟩
    rw [List.foldlM_cons, htake]
    exact hfold

/-- Segments whose deliveries succeed are received. -/
theorem exists_receive {settings : ReassemblerSettings} (hvalid : settings.validate = .ok ())
    {order : List Nat}
    (hvalues : ∀ value ∈ ((Reassembler.start settings).deliverAll (deliveriesOf wire order)).value,
      ∃ count, value = .ok count) :
    ∃ last, receive settings (order.map fun index => wire.getD index []) = .ok last ∧
      last.reassembler =
        ((Reassembler.start settings).deliverAll (deliveriesOf wire order)).state ∧
      last.Notes ((Reassembler.start settings).deliverAll (deliveriesOf wire order)).reports := by
  let first : Receiver :=
    { reassembler := .start settings, packets := [], piggyback := 0, dropped := 0 }
  have hnotes : first.Notes [] := ⟨rfl, rfl, rfl⟩
  have hplaces : (order.map fun index => wire.getD index []).zipIdx =
      order.zipIdx.map (arrivalOf wire) := List.zipIdx_map
  rw [receive, Reassembler.start?, hvalid]
  simp only [hplaces]
  exact hnotes.takeAll hvalues

end Taking

end Simulation

/-- The call that takes a frame in, if it can be read. -/
def Delivery.call? (delivery : Delivery) : Option ReassemblerCall :=
  delivery.frame.read.toOption.map fun segment =>
    .process (some segment) delivery.now delivery.answers

/-- Deliveries are calls with the segments that can be read. -/
theorem Reassembler.reports_deliverAll (reassembler : Reassembler) (deliveries : List Delivery) :
    (reassembler.deliverAll deliveries).reports =
      (reassembler.run (deliveries.filterMap Delivery.call?)).reports := by
  induction deliveries generalizing reassembler with
  | nil => rfl
  | cons delivery later ih =>
    rw [List.filterMap_cons, Delivery.call?]
    simp only [deliverAll, ih]
    cases hread : delivery.frame.read with
    | error fault =>
      rw [deliver, hread]
      rfl
    | ok segment =>
      rw [deliver_eq_process hread]
      rfl

/-- Frames that convey segments bring them. -/
theorem ReassemblerCall.arriveAs_segments {originals : List Segment} {deliveries : List Delivery}
    (hvalid : ∀ original ∈ originals, original.header.validate = .ok ())
    (hconvey : List.Forall₂ (fun original delivery => delivery.frame.Conveys original) originals
      deliveries) :
    List.Forall₂ Segment.ArrivesAs originals (segments (deliveries.filterMap Delivery.call?)) := by
  induction hconvey with
  | nil => exact .nil
  | @cons original delivery originals deliveries hfirst _ ih =>
    obtain ⟨hheader, hothers⟩ := List.forall_mem_cons.1 hvalid
    obtain ⟨arriving, hread⟩ : ∃ arriving, delivery.frame.read = .ok arriving := by
      cases hframe : delivery.frame with
      | direct segment => exact ⟨segment, rfl⟩
      | wire id bytes =>
        rw [hframe] at hfirst
        exact ⟨_, Segment.ofWire_toWire hheader id hfirst⟩
    have hcall : delivery.call? =
        some (.process (some arriving) delivery.now delivery.answers) := by
      rw [Delivery.call?, hread]
      rfl
    rw [List.filterMap_cons_some hcall, segments_cons]
    exact .cons ⟨delivery.frame, hfirst, hread⟩ (ih hothers)

/-- No segment asks for more than all do. -/
theorem Segment.asked_le_requestedTotal (multiplier : Nat) {segments : List Segment}
    {segment : Segment} (hsegment : segment ∈ segments) :
    segment.asked multiplier ≤ requestedTotal multiplier segments :=
  List.le_sum_of_mem (List.mem_map_of_mem hsegment)

/-- A receiver has all of a stream, and nothing else. -/
structure Simulation.Receiver.HasAll (receiver : Simulation.Receiver)
    (settings : ReassemblerSettings) (stream : Stream) : Prop where
  packets_perm : receiver.packets.Perm (stream.packets.map Packet.byteList)
  dropped_eq : receiver.dropped = 0
  window_eq : receiver.reassembler.window = []
  piggyback_eq : receiver.piggyback = requestedTotal settings.multiplier stream.segments

namespace Simulation.Crossing

variable {stream : Stream} {wire : List (List UInt8)} {depth : Nat} {order : List Nat}
  (hcrossing : Crossing stream wire depth order)
include hcrossing

/-- The bytes of request that are reported are those that the segments ask for. -/
theorem sum_reportedRequests {settings : ReassemblerSettings}
    (hfits : requestedTotal settings.multiplier stream.segments ≤ amountMax) :
    ((reportedRequests ((Reassembler.start settings).deliverAll
        (deliveriesOf wire order)).reports).map Prod.snd).sum =
      requestedTotal settings.multiplier stream.segments := by
  let originals : List Segment :=
    (deliveriesOf wire order).map fun delivery => stream.segments.getD delivery.index default
  have hconvey : List.Forall₂ (fun original delivery => delivery.frame.Conveys original) originals
      (deliveriesOf wire order) := by
    rw [List.forall₂_map_left_iff, List.forall₂_same]
    intro delivery hdelivery
    obtain ⟨original, horiginal, hconveys⟩ := hcrossing.faithful delivery hdelivery
    rwa [List.getD_eq_getElem?_getD, horiginal]
  have hperm : originals.Perm stream.segments := by
    have hindices : (deliveriesOf wire order).map Delivery.index = order := map_index_deliveriesOf
    have hlength : order.length = stream.segments.length :=
      hcrossing.length_eq.trans (List.Forall₂.length_eq hcrossing.conveyed).symm
    have horder : originals = order.map fun index => stream.segments.getD index default := by
      rw [← hindices, List.map_map]
      rfl
    have hall := hcrossing.mixed.perm.map fun index => stream.segments.getD index default
    rwa [← horder, hlength, map_getD_range'] at hall
  have hvalid : ∀ original ∈ originals, original.header.validate = .ok () := by
    intro original horiginal
    obtain ⟨number, hemitted⟩ := stream.emitted.exists_emitted (hperm.mem_iff.1 horiginal)
    exact hemitted.validate_eq_ok stream.cluster_le
  have hasked : ∀ original ∈ originals, original.asked settings.multiplier ≤ amountMax := by
    intro original horiginal
    exact Nat.le_trans (Segment.asked_le_requestedTotal _ (hperm.mem_iff.1 horiginal)) hfits
  have hkept : ∀ call ∈ (deliveriesOf wire order).filterMap Delivery.call?,
      call.keepsMultiplier settings.multiplier = true := by
    intro call hcall
    obtain ⟨delivery, -, hsome⟩ := List.mem_filterMap.1 hcall
    obtain ⟨segment, -, rfl⟩ := Option.map_eq_some_iff.1 hsome
    rfl
  have hreports : (Reassembler.start settings).ReportsRequests _ settings.multiplier originals :=
    Reassembler.reportsRequests hkept (ReassemblerCall.arriveAs_segments hvalid hconvey) hvalid
      hasked
  calc ((reportedRequests ((Reassembler.start settings).deliverAll
        (deliveriesOf wire order)).reports).map Prod.snd).sum
      = requestedTotal settings.multiplier originals := by
        rw [Reassembler.reports_deliverAll, hreports.requests_eq]
        exact sum_map_filter_request _ _
    _ = requestedTotal settings.multiplier stream.segments := requestedTotal_perm _ hperm

/-- **The other end.** Everything that has been emitted is received: the packets are those of the
stream, and the bytes of request are those that its segments ask for. -/
theorem exists_receiver {capacity width : Nat} (htight : stream.Tight capacity)
    (hcapacity : 0 < capacity) (hwidth : ∀ packet ∈ stream.packets, packet.size ≤ width)
    (hspread : width ⌈/⌉ capacity + 1 + depth ≤ 8191) {settings : ReassemblerSettings}
    (hvalid : settings.validate = .ok ()) (hpatient : settings.stallTimeout = none)
    (hbound : 8191 ≤ settings.windowBound)
    (hfits : requestedTotal settings.multiplier stream.segments ≤ amountMax) :
    ∃ receiver, receive settings (order.map fun index => wire.getD index []) = .ok receiver ∧
      receiver.HasAll settings stream := by
  obtain ⟨hvalues, hdelivered, hkept, hwindow⟩ :=
    hcrossing.deliverAll htight hcapacity hwidth hspread hpatient hbound
  obtain ⟨receiver, hreceiver, hstate, hnotes⟩ := exists_receive hvalid hvalues
  refine ⟨receiver, hreceiver, ?_⟩
  constructor
  case packets_perm =>
    apply receiver.packets.reverse_perm.symm.trans
    rw [hnotes.packets_eq]
    exact hdelivered
  case dropped_eq =>
    rw [hnotes.dropped_eq, List.length_eq_zero_iff, droppedSegments, List.filterMap_eq_nil_iff]
    intro report hreport
    cases report with
    | dropped segment => exact absurd hreport (hkept segment)
    | _ => rfl
  case window_eq => rw [hstate, hwindow]
  case piggyback_eq =>
    rw [hnotes.piggyback_eq, hcrossing.sum_reportedRequests hfits, wrapAmount]
    exact Nat.mod_eq_of_lt (Nat.lt_succ_of_le hfits)

end Simulation.Crossing

end Ccf
