import Ccf.Reassembly.Basic

/-!
# Runs of the reassembling end

The calls that a program can make on a reassembler, and what a sequence of them leaves behind.
Nothing is asked of the segments that arrive: they may be malformed, have any number, and come
again.  A call that fails is a call like any other, and the run goes on after it.
-/

namespace Ccf

inductive ReassemblerCall where
  /-- Take in a segment, if there is one, or walk every run. -/
  | process (arriving : Option Segment) (now : Instant) (answers : ReassemblerAnswers)
  | evict (now : Instant)
  | clear
  | setMultiplier (multiplier : Nat)

namespace ReassemblerCall

def segment? : ReassemblerCall → Option Segment
  | process arriving _ _ => arriving
  | _ => none

def segments (calls : List ReassemblerCall) : List Segment := calls.filterMap segment?

end ReassemblerCall

inductive ReassemblerAnswer where
  | delivered (result : Except BufferError Nat)
  | evicted (count : Nat)
  | set (result : Except SettingsError Unit)
  | done
deriving Repr

namespace Reassembler

/-- The state after an outcome with a value of another kind. -/
def answering {Value : Type} (outcome : Outcome Reassembler ReassemblerReport Value)
    (answer : Value → ReassemblerAnswer) :
    Outcome Reassembler ReassemblerReport ReassemblerAnswer where
  state := outcome.state
  reports := outcome.reports
  value := answer outcome.value

def perform (reassembler : Reassembler) :
    ReassemblerCall → Outcome Reassembler ReassemblerReport ReassemblerAnswer
  | .process arriving now answers =>
    answering (reassembler.process arriving now answers) .delivered
  | .evict now => answering (reassembler.evict now) .evicted
  | .clear => answering reassembler.clear fun _ => .done
  | .setMultiplier multiplier =>
    match reassembler.setMultiplier multiplier with
    | .error fault => { state := reassembler, reports := [], value := .set (.error fault) }
    | .ok changed => { state := changed, reports := [], value := .set (.ok ()) }

/-- Changing the multiplier leaves the segments where they are. -/
theorem perform_setMultiplier (reassembler : Reassembler) (multiplier : Nat) :
    (reassembler.perform (.setMultiplier multiplier)).reports = [] ∧
      (reassembler.perform (.setMultiplier multiplier)).state.window = reassembler.window ∧
      (reassembler.perform (.setMultiplier multiplier)).state.arrivals =
        reassembler.arrivals := by
  simp only [perform, setMultiplier]
  cases validateMultiplier multiplier with
  | error fault => exact ⟨rfl, rfl, rfl⟩
  | ok => exact ⟨rfl, rfl, rfl⟩

def run (reassembler : Reassembler) :
    List ReassemblerCall → Outcome Reassembler ReassemblerReport (List ReassemblerAnswer)
  | [] => { state := reassembler, reports := [], value := [] }
  | call :: later =>
    let first := reassembler.perform call
    let others := first.state.run later
    { state := others.state
      reports := first.reports ++ others.reports
      value := first.value :: others.value }

end Reassembler

/-- The part of a call that comes before anything is given up. -/
def Reassembler.walkFor (reassembler : Reassembler) (arriving : Option Segment) (now : Instant)
    (answers : ReassemblerAnswers) :
    Outcome Reassembler ReassemblerReport (Except BufferError Nat) :=
  match arriving with
  | some segment => reassembler.receive segment now answers
  | none => reassembler.walkAll answers.packet

theorem Reassembler.process_eq (reassembler : Reassembler) (arriving : Option Segment)
    (now : Instant) (answers : ReassemblerAnswers) :
    reassembler.process arriving now answers =
      match (reassembler.walkFor arriving now answers).value with
      | .error _ => reassembler.walkFor arriving now answers
      | .ok delivered =>
        { state := ((reassembler.walkFor arriving now answers).state.evict now).state
          reports := (reassembler.walkFor arriving now answers).reports ++
            ((reassembler.walkFor arriving now answers).state.evict now).reports
          value := .ok delivered } := rfl

/-- Reporting a request changes the count of refusals at most. -/
theorem Reassembler.report_eq (reassembler : Reassembler) (header : SegmentHeader)
    (answer : Answer) :
    ∃ refused front, reassembler.report header answer =
        ({ reassembler with refusals := refused }, front) ∧
      ∀ report ∈ front, ∃ cluster bytes answer, report = .requested cluster bytes answer := by
  unfold report
  split
  · exact ⟨reassembler.refusals, [], rfl, List.forall_mem_nil _⟩
  · cases answer with
    | accepted => exact ⟨reassembler.refusals, _, rfl, by simp⟩
    | refused why => exact ⟨reassembler.refusals + 1, _, rfl, by simp⟩

theorem ReassemblerCall.segments_cons (call : ReassemblerCall) (later : List ReassemblerCall) :
    segments (call :: later) = call.segment?.toList ++ segments later := by
  rw [segments, List.filterMap_cons]
  cases call.segment? <;> rfl

def deliveredTables (reports : List ReassemblerReport) : List PieceTable :=
  reports.filterMap fun report =>
    match report with
    | .delivered table _ => some table
    | _ => none

def recycledSegments (reports : List ReassemblerReport) : List Segment :=
  reports.filterMap fun report =>
    match report with
    | .recycled segment => some segment
    | _ => none

def droppedSegments (reports : List ReassemblerReport) : List Segment :=
  reports.filterMap fun report =>
    match report with
    | .dropped segment => some segment
    | _ => none

@[simp]
theorem deliveredTables_nil : deliveredTables [] = [] := rfl

@[simp]
theorem deliveredTables_append (reports later : List ReassemblerReport) :
    deliveredTables (reports ++ later) = deliveredTables reports ++ deliveredTables later :=
  List.filterMap_append

@[simp]
theorem deliveredTables_dropped (segment : Segment) : deliveredTables [.dropped segment] = [] :=
  rfl

@[simp]
theorem deliveredTables_cons_delivered (table : PieceTable) (answer : Answer)
    (reports : List ReassemblerReport) :
    deliveredTables (.delivered table answer :: reports) = table :: deliveredTables reports :=
  rfl

@[simp]
theorem recycledSegments_append (reports later : List ReassemblerReport) :
    recycledSegments (reports ++ later) = recycledSegments reports ++ recycledSegments later :=
  List.filterMap_append

@[simp]
theorem droppedSegments_append (reports later : List ReassemblerReport) :
    droppedSegments (reports ++ later) = droppedSegments reports ++ droppedSegments later :=
  List.filterMap_append

section Requests

variable {reports : List ReassemblerReport}
  (hrequests : ∀ report ∈ reports, ∃ cluster bytes answer,
    report = .requested cluster bytes answer)
include hrequests

theorem deliveredTables_of_requests : deliveredTables reports = [] := by
  refine List.filterMap_eq_nil_iff.2 fun report hreport => ?_
  obtain ⟨cluster, bytes, answer, rfl⟩ := hrequests report hreport
  rfl

theorem recycledSegments_of_requests : recycledSegments reports = [] := by
  refine List.filterMap_eq_nil_iff.2 fun report hreport => ?_
  obtain ⟨cluster, bytes, answer, rfl⟩ := hrequests report hreport
  rfl

theorem droppedSegments_of_requests : droppedSegments reports = [] := by
  refine List.filterMap_eq_nil_iff.2 fun report hreport => ?_
  obtain ⟨cluster, bytes, answer, rfl⟩ := hrequests report hreport
  rfl

end Requests

/-- Letting segments go hands nothing out. -/
@[simp]
theorem deliveredTables_release (how : Release) (entries : List Waiting) :
    deliveredTables (entries.map fun entry => how.report entry.segment) = [] := by
  cases how <;> simp [deliveredTables, List.filterMap_map, Release.report]

end Ccf
