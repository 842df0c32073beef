import Ccf.Reassembly.Finish
import Ccf.Settings

/-!
# The reassembling end

A reassembler keeps received segments in its window and walks runs of them.  A call with a segment
reports the segment's request, puts it into the window and walks the run it joins; a call without
one walks every run.  Afterwards segments that have waited too long are given up, then the oldest
ones beyond the bound.  A walk that faults ends the call: what it left goes back into the window,
and nothing is given up.
-/

namespace Ccf

structure Reassembler where
  settings : ReassemblerSettings
  window : List Waiting
  arrivals : Nat
  refusals : Nat
deriving DecidableEq, Repr

/-- The answers that a reassembling call will get. -/
structure ReassemblerAnswers where
  /-- The answer to the request of the segment that arrives. -/
  request : Answer
  /-- The answers to the packets that the call delivers. -/
  packet : Nat → Answer

namespace Reassembler

def start (settings : ReassemblerSettings) : Reassembler where
  settings := settings
  window := []
  arrivals := 0
  refusals := 0

/-- A reassembler with the given settings, if they can be used. -/
def start? (settings : ReassemblerSettings) : Except SettingsError Reassembler :=
  match settings.validate with
  | .error fault => .error fault
  | .ok () => .ok (start settings)

def setMultiplier (reassembler : Reassembler) (multiplier : Nat) :
    Except SettingsError Reassembler :=
  match validateMultiplier multiplier with
  | .error fault => .error fault
  | .ok () =>
    .ok { reassembler with settings := { reassembler.settings with multiplier := multiplier } }

/-! ## Walking -/

/-- Walk the run through an anchor; what the walk leaves goes back into the window.  The result is
the number of packets that the call has delivered so far, `delivered` of them before this walk. -/
def walkRun (reassembler : Reassembler) (answers : Nat → Answer) (anchor : Anchor)
    (delivered : Nat) : Outcome Reassembler ReassemblerReport (Except BufferError Nat) :=
  let (run, gap) := anchor.cut
  let outcome := (Walk.begin run delivered reassembler.refusals).finish answers
  { state :=
      { reassembler with
        window := gap.fill outcome.walk.remaining
        refusals := outcome.walk.refused }
    reports := outcome.reports
    value :=
      match outcome.fault with
      | some fault => .error fault
      | none => .ok outcome.walk.delivered }

/-- Walk the runs with the given first numbers, as far as the numbers are still in the window. -/
def walkHeads (answers : Nat → Answer) :
    List SequenceNumber → Reassembler → Nat →
      Outcome Reassembler ReassemblerReport (Except BufferError Nat)
  | [], reassembler, delivered => { state := reassembler, reports := [], value := .ok delivered }
  | head :: later, reassembler, delivered =>
    match Window.anchorAt? head reassembler.window with
    | none => walkHeads answers later reassembler delivered
    | some anchor =>
      let walked := reassembler.walkRun answers anchor delivered
      match walked.value with
      | .error _ => walked
      | .ok total => (walkHeads answers later walked.state total).after walked.reports

def walkAll (reassembler : Reassembler) (answers : Nat → Answer) :
    Outcome Reassembler ReassemblerReport (Except BufferError Nat) :=
  walkHeads answers (Window.runHeads reassembler.window) reassembler 0

def heed (reassembler : Reassembler) : Answer → Reassembler
  | .accepted => reassembler
  | .refused _ => { reassembler with refusals := reassembler.refusals + 1 }

/-- The bytes that a header asks for, in the arithmetic of 64-bit words. -/
def requestedBytes (reassembler : Reassembler) (header : SegmentHeader) : Nat :=
  wrapAmount (header.request.toNat * reassembler.settings.multiplier)

/-- Report the request of a header, if it makes one. -/
def report (reassembler : Reassembler) (header : SegmentHeader) (answer : Answer) :
    Reassembler × List ReassemblerReport :=
  if header.request = 0 then
    (reassembler, [])
  else
    (reassembler.heed answer,
      [.requested header.sc (reassembler.requestedBytes header) answer])

/-- A segment as it enters the window: the bytes before its packet start are owed to an earlier
packet. -/
def arriving (reassembler : Reassembler) (segment : Segment) (now : Instant) : Waiting :=
  let start := if segment.header.pfi then segment.header.offmac.toNat else 0
  { arrival := reassembler.arrivals + 1
    segment := segment
    lead := start
    next := start
    arrivedAt := now }

/-- Take a segment in and walk the run it joins. -/
def receive (reassembler : Reassembler) (segment : Segment) (now : Instant)
    (answers : ReassemblerAnswers) :
    Outcome Reassembler ReassemblerReport (Except BufferError Nat) :=
  let (informed, reports) := reassembler.report segment.header answers.request
  let anchor := Window.anchorFor (informed.arriving segment now) informed.window
  let received : Reassembler := { informed with arrivals := informed.arrivals + 1 }
  (received.walkRun answers.packet anchor 0).after reports

/-! ## Eviction -/

/-- The entries of a window that have waited for longer than the settings allow, and the others. -/
def divideStale (settings : ReassemblerSettings) (now : Instant) (window : List Waiting) :
    List Waiting × List Waiting :=
  match settings.stallTimeout with
  | none => ([], window)
  | some timeout => window.partition fun entry => (entry.arrivedAt.add timeout).before now

/-- Take the `count` earliest arrivals out of a window.  The result is what was taken out, in order
of arrival, and what is left. -/
def takeOldest : Nat → List Waiting → List Waiting × List Waiting
  | 0, window => ([], window)
  | count + 1, window =>
    match (window.map Waiting.arrival).min? with
    | none => ([], window)
    | some oldest =>
      let (taken, left) := takeOldest count (window.eraseP fun entry => entry.arrival == oldest)
      ((window.find? fun entry => entry.arrival == oldest).toList ++ taken, left)

/-- Give up the segments that have waited for too long, then the earliest arrivals beyond the bound.
The result is the number of segments given up. -/
def evict (reassembler : Reassembler) (now : Instant) :
    Outcome Reassembler ReassemblerReport Nat :=
  let (stale, fresh) := divideStale reassembler.settings now reassembler.window
  let (surplus, left) := takeOldest (fresh.length - reassembler.settings.windowBound) fresh
  { state := { reassembler with window := left }
    reports := (stale ++ surplus).map fun entry => .dropped entry.segment
    value := stale.length + surplus.length }

/-- Take in a segment, if there is one, or walk every run; then give up what has to be given
up.  The result is the number of delivered packets. -/
def process (reassembler : Reassembler) (arriving : Option Segment) (now : Instant)
    (answers : ReassemblerAnswers) :
    Outcome Reassembler ReassemblerReport (Except BufferError Nat) :=
  let walked := match arriving with
    | some segment => reassembler.receive segment now answers
    | none => reassembler.walkAll answers.packet
  match walked.value with
  | .error _ => walked
  | .ok delivered =>
    let evicted := walked.state.evict now
    { state := evicted.state
      reports := walked.reports ++ evicted.reports
      value := .ok delivered }

def clear (reassembler : Reassembler) : Outcome Reassembler ReassemblerReport Unit where
  state := { reassembler with window := [] }
  reports := reassembler.window.map fun entry => .dropped entry.segment
  value := ()

end Reassembler

end Ccf
