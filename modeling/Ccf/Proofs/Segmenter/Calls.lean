import Ccf.Segmenter.Basic

/-!
# Runs of the segmenting end

The calls that a program can make on a segmenter, and what a sequence of them leaves behind.  The
segments that a run builds are those it offers, whether the scheduler takes them or not.
-/

namespace Ccf

inductive SegmenterCall where
  /-- Queue a packet, if there is one, and spend what can be spent. -/
  | process (packet : Option Packet) (now : Instant) (answers : Nat → Answer)
  | addGrants (grants : List Grant) (piggyback : Nat) (now : Instant) (answers : Nat → Answer)
  | addPiggyback (bytes : Nat)
  | setMultiplier (multiplier : Nat)
  | clear

namespace SegmenterCall

def packet? : SegmenterCall → Option Packet
  | process packet _ _ => packet
  | _ => none

def isClear : SegmenterCall → Bool
  | clear => true
  | _ => false

def packets (calls : List SegmenterCall) : List Packet := calls.filterMap packet?

theorem packets_cons (call : SegmenterCall) (calls : List SegmenterCall) :
    packets (call :: calls) = call.packet?.toList ++ packets calls := by
  cases hcall : call.packet? <;> simp [packets, hcall]

end SegmenterCall

inductive SegmenterAnswer where
  | spent (result : Except BufferError Nat)
  | set (result : Except SettingsError Unit)
  | done
deriving Repr

def SegmenterReport.segment? : SegmenterReport → Option Segment
  | .offered transmission _ => some transmission.segment
  | _ => none

def builtSegments (reports : List SegmenterReport) : List Segment :=
  reports.filterMap SegmenterReport.segment?

@[simp]
theorem builtSegments_append (reports later : List SegmenterReport) :
    builtSegments (reports ++ later) = builtSegments reports ++ builtSegments later :=
  List.filterMap_append

@[simp]
theorem builtSegments_recycled (packets : List Packet) :
    builtSegments (packets.map .recycled) = [] := by
  simp [builtSegments, List.filterMap_map, Function.comp_def, SegmenterReport.segment?]

namespace Segmenter

/-- The state after an outcome with a value of another kind. -/
def answering {Value : Type} (outcome : Outcome Segmenter SegmenterReport Value)
    (answer : Value → SegmenterAnswer) : Outcome Segmenter SegmenterReport SegmenterAnswer where
  state := outcome.state
  reports := outcome.reports
  value := answer outcome.value

def perform (segmenter : Segmenter) :
    SegmenterCall → Outcome Segmenter SegmenterReport SegmenterAnswer
  | .process none now answers => answering (segmenter.resume now answers) .spent
  | .process (some packet) now answers => answering (segmenter.enqueue packet now answers) .spent
  | .addGrants grants piggyback now answers =>
    answering (segmenter.addGrants grants piggyback now answers) .spent
  | .addPiggyback bytes =>
    { state := segmenter.addPiggyback bytes, reports := [], value := .done }
  | .setMultiplier multiplier =>
    match segmenter.setMultiplier multiplier with
    | .error fault => { state := segmenter, reports := [], value := .set (.error fault) }
    | .ok changed => { state := changed, reports := [], value := .set (.ok ()) }
  | .clear => answering segmenter.clear fun _ => .done

def run (segmenter : Segmenter) :
    List SegmenterCall → Outcome Segmenter SegmenterReport (List SegmenterAnswer)
  | [] => { state := segmenter, reports := [], value := [] }
  | call :: later =>
    let first := segmenter.perform call
    let others := first.state.run later
    { state := others.state
      reports := first.reports ++ others.reports
      value := first.value :: others.value }

/-- Packets that are handed over one at a time before there are any grants are queued. -/
theorem run_process {segmenter : Segmenter} (hgrants : segmenter.grants = []) (now : Instant)
    (answers : Nat → Answer) (packets : List Packet) :
    (segmenter.run (packets.map fun packet => .process (some packet) now answers)).state =
        (segmenter.enqueueAll packets).state ∧
      (segmenter.run (packets.map fun packet => .process (some packet) now answers)).reports =
        (segmenter.enqueueAll packets).reports := by
  induction packets generalizing segmenter with
  | nil => simp [run, enqueueAll]
  | cons packet rest ih =>
    have hkept : (segmenter.enqueue packet now answers).state.grants = [] := by
      unfold enqueue
      split <;> simp [resume_of_no_grants, hgrants, Outcome.after]
    obtain ⟨hstate, hreports⟩ := ih hkept
    rw [enqueueAll_cons hgrants packet rest now answers]
    exact ⟨hstate, congrArg _ hreports⟩

/-- Grants in order are spent in that order if there were none before. -/
theorem addGrants_of_sorted {segmenter : Segmenter} (hnone : segmenter.grants = [])
    {grants : List Grant} (hsorted : grants.Pairwise fun grant other => grant.notAfter other)
    (piggyback : Nat) (now : Instant) (answers : Nat → Answer) :
    segmenter.addGrants grants piggyback now answers =
      ({ segmenter.addPiggyback piggyback with grants := grants } : Segmenter).resume now
        answers := by
  rw [addGrants, hnone, Grant.schedule, List.nil_append, List.mergeSort_of_pairwise hsorted]

end Segmenter

end Ccf
