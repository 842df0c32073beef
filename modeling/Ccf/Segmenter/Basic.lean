import Ccf.Collaborator
import Ccf.Segmenter.Filling
import Ccf.Segmenter.Grant
import Ccf.Settings

/-!
# The segmenting end

A segmenter has a queue of packets, a schedule of grants, the piggyback bytes not yet asked for and
the number of its next segment.  Every call spends the grants it can: an expired grant is forgotten,
and a grant that is due takes one segment's worth of bytes from the queue.  Spending stops at the
first grant that is not expired once the queue is empty.

A grant that has been looked at is never looked at again, even if building its segment fails.  The
recipient's answers to the segments offered have no influence on anything but the number of accepted
segments and the count of refusals.
-/

namespace Ccf

structure Transmission where
  time : Instant
  occasion : TimerEvent
  segment : Segment
  channel : Int
deriving DecidableEq, Repr

inductive SegmenterReport where
  | offered (transmission : Transmission) (answer : Answer)
  /-- All bytes of the packet have been taken off the queue. -/
  | recycled (packet : Packet)
  | dropped (packet : Packet)
deriving DecidableEq, Repr

structure Segmenter where
  settings : SegmenterSettings
  queue : List QueuedPacket
  grants : List Grant
  /-- Piggyback bytes that no segment has asked for yet. -/
  piggyback : Nat
  sequence : SequenceNumber
  refusals : Nat
deriving DecidableEq, Repr

namespace Segmenter

def start (settings : SegmenterSettings) : Segmenter where
  settings := settings
  queue := []
  grants := []
  piggyback := 0
  sequence := .first
  refusals := 0

/-- A segmenter with the given settings, if they can be used. -/
def start? (settings : SegmenterSettings) : Except SettingsError Segmenter :=
  match settings.validate with
  | .error fault => .error fault
  | .ok () => .ok (start settings)

def setMultiplier (segmenter : Segmenter) (multiplier : Nat) : Except SettingsError Segmenter :=
  match validateMultiplier multiplier with
  | .error fault => .error fault
  | .ok () =>
    .ok { segmenter with settings := { segmenter.settings with multiplier := multiplier } }

/-- Add bytes to those that segments ask for; the amount stays at its largest value once there. -/
def addPiggyback (segmenter : Segmenter) (bytes : Nat) : Segmenter :=
  { segmenter with piggyback := min (segmenter.piggyback + bytes) amountMax }

/-- The units of request that the next segment carries. -/
def requestUnits (segmenter : Segmenter) : Nat :=
  min (segmenter.piggyback / segmenter.settings.multiplier) 65535

/-- Put the request and the number into a header; the rest of the piggyback waits. -/
def stamp (segmenter : Segmenter) (header : SegmentHeader) : Segmenter × SegmentHeader :=
  let units := segmenter.requestUnits
  ({ segmenter with
      piggyback := segmenter.piggyback - units * segmenter.settings.multiplier
      sequence := segmenter.sequence.next },
    { header with request := UInt16.ofNat units, sequence := segmenter.sequence.toWord })

/-- Build one segment within a grant, or none if the grant has no room for content. -/
def build (segmenter : Segmenter) (grant : Grant) :
    Outcome Segmenter SegmenterReport (Except BufferError (Option Segment)) :=
  if grant.capacity = 0 then
    { state := segmenter, reports := [], value := .ok none }
  else
    let filling := Filling.place grant.capacity segmenter.queue
      { SegmentHeader.blank with sc := segmenter.settings.cluster } .empty
    let filled := { segmenter with queue := filling.queue }
    let reports := filling.finished.map SegmenterReport.recycled
    match filling.result with
    | .error fault => { state := filled, reports := reports, value := .error fault }
    | .ok (header, payload) =>
      if payload.size = 0 then
        { state := filled, reports := reports, value := .ok none }
      else
        let (stamped, complete) := filled.stamp header
        { state := stamped
          reports := reports
          value := .ok (some { header := complete, payload := payload.table .delegate }) }

def heed (segmenter : Segmenter) : Answer → Segmenter
  | .accepted => segmenter
  | .refused _ => { segmenter with refusals := segmenter.refusals + 1 }

/-- Spend grants in order.  `offered` segments have been offered and `accepted` of them taken before
in the same call. -/
def spend (now : Instant) (answers : Nat → Answer) :
    List Grant → Segmenter → Nat → Nat →
      Outcome Segmenter SegmenterReport (Except BufferError Nat)
  | [], segmenter, _, accepted =>
    { state := { segmenter with grants := [] }, reports := [], value := .ok accepted }
  | grant :: later, segmenter, offered, accepted =>
    if grant.isExpired now then
      spend now answers later segmenter offered accepted
    else if segmenter.queue.isEmpty then
      { state := { segmenter with grants := grant :: later }, reports := [], value := .ok accepted }
    else
      let built := segmenter.build grant
      match built.value with
      | .error fault =>
        { state := { built.state with grants := later }
          reports := built.reports
          value := .error fault }
      | .ok none => (spend now answers later built.state offered accepted).after built.reports
      | .ok (some segment) =>
        let transmission : Transmission :=
          { time := grant.time
            occasion := .sendTimer
            segment := segment
            channel := grant.channel }
        let answer := answers offered
        (spend now answers later (built.state.heed answer) (offered + 1)
          (if answer.isAccepted then accepted + 1 else accepted)).after
            (built.reports ++ [.offered transmission answer])

/-- Spend what can be spent at the time `now`; the result is the number of accepted segments. -/
def resume (segmenter : Segmenter) (now : Instant) (answers : Nat → Answer) :
    Outcome Segmenter SegmenterReport (Except BufferError Nat) :=
  spend now answers segmenter.grants segmenter 0 0

/-- Queue a packet and spend what can be spent.  A packet without bytes is given up at once. -/
def enqueue (segmenter : Segmenter) (packet : Packet) (now : Instant) (answers : Nat → Answer) :
    Outcome Segmenter SegmenterReport (Except BufferError Nat) :=
  if packet.isEmpty then
    (segmenter.resume now answers).after [.dropped packet]
  else
    let queued : Segmenter :=
      { segmenter with queue := segmenter.queue ++ [{ packet := packet, placed := 0 }] }
    queued.resume now answers

/-- Queue packets before there are any grants, when nothing can be spent.  Packets without bytes are
given up. -/
def enqueueAll (segmenter : Segmenter) (packets : List Packet) :
    Outcome Segmenter SegmenterReport Unit where
  state :=
    { segmenter with
      queue := segmenter.queue ++ (packets.filter fun packet => !packet.isEmpty).map fun packet =>
        { packet := packet, placed := 0 } }
  reports := (packets.filter Packet.isEmpty).map .dropped
  value := ()

/-- Schedule grants, add piggyback bytes and spend what can be spent. -/
def addGrants (segmenter : Segmenter) (grants : List Grant) (piggyback : Nat) (now : Instant)
    (answers : Nat → Answer) :
    Outcome Segmenter SegmenterReport (Except BufferError Nat) :=
  let scheduled : Segmenter :=
    { segmenter.addPiggyback piggyback with grants := Grant.schedule segmenter.grants grants }
  scheduled.resume now answers

def clear (segmenter : Segmenter) : Outcome Segmenter SegmenterReport Unit where
  state := { segmenter with queue := [], grants := [] }
  reports := segmenter.queue.map fun entry => .dropped entry.packet
  value := ()

theorem resume_of_no_grants {segmenter : Segmenter} (hgrants : segmenter.grants = [])
    (now : Instant) (answers : Nat → Answer) :
    segmenter.resume now answers = { state := segmenter, reports := [], value := .ok 0 } := by
  cases segmenter
  simp_all [resume, spend]

/-- Queueing packets together is queueing the first of them and then the others. -/
theorem enqueueAll_cons {segmenter : Segmenter} (hgrants : segmenter.grants = [])
    (packet : Packet) (packets : List Packet) (now : Instant) (answers : Nat → Answer) :
    segmenter.enqueueAll (packet :: packets) =
      ((segmenter.enqueue packet now answers).state.enqueueAll packets).after
        (segmenter.enqueue packet now answers).reports := by
  cases hempty : packet.isEmpty <;>
    simp [enqueueAll, enqueue, Outcome.after, resume_of_no_grants, hgrants, hempty]

end Segmenter

end Ccf
