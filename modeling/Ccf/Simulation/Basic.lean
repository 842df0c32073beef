import Ccf.Reassembly.Basic
import Ccf.Segmenter.Basic
import Ccf.Settings
import Ccf.Simulation.Chance
import Ccf.Simulation.Matching

/-!
# Simulating a link

A simulation sends packets through both ends and checks that they arrive.  Grants of one size are
handed in one at a time until every packet is in a segment; the segments are written to bytes, may
change their order within chunks, and are read back at the other end.  All recipients take whatever
they are offered, and both clocks stand still.

The simulation is confirmed if the packets that arrived are those that were sent, all bytes that
were requested arrived as requests, and no segment was given up or is left over.
-/

namespace Ccf.Simulation

structure Plan where
  packets : Nat
  maxSize : Nat
  /-- The size of every grant, segment header included. -/
  grantSize : Nat
  piggyback : Nat
  /-- The number of segments that are reordered together; without it none is reordered. -/
  reorderDepth : Option Nat
  settings : LinkSettings
deriving DecidableEq, Repr

/-- Why a simulation does not come to an end. -/
inductive Fault where
  /-- The packet with the given place cannot be built. -/
  | packet (place : Nat) (fault : WireError)
  | segmenterSettings (fault : SettingsError)
  | grant (fault : BufferError)
  | encode (fault : TransferError)
  | reassemblerSettings (fault : SettingsError)
  | decode (fault : TransferError)
  | reassemble (fault : BufferError)
deriving DecidableEq, Repr

/-! ## Sending -/

/-- The packets with the given contents, numbered by their places. -/
def buildPackets (contents : List (List UInt8)) : Except Fault (List Packet) :=
  contents.zipIdx.mapM fun (content, place) =>
    match Packet.mac place (UInt16.ofNat place) content with
    | .ok packet => .ok packet
    | .error fault => .error (.packet place fault)

def acceptedSegments (reports : List SegmenterReport) : List Segment :=
  reports.filterMap fun
    | .offered transmission .accepted => some transmission.segment
    | _ => none

structure Sender where
  segmenter : Segmenter
  /-- The segments sent so far, the latest one first. -/
  sent : List Segment
deriving Repr

/-- The number of bytes in the queue that are not placed yet. -/
def Sender.remaining (sender : Sender) : Nat :=
  (sender.segmenter.queue.flatMap QueuedPacket.rest).length

def Sender.after (sender : Sender)
    (outcome : Outcome Segmenter SegmenterReport (Except BufferError Nat)) :
    Except BufferError Sender :=
  match outcome.value with
  | .error fault => .error fault
  | .ok _ =>
    .ok
      { segmenter := outcome.state
        sent := (acceptedSegments outcome.reports).reverse ++ sender.sent }

/-- Hand in one grant after the other until the queue is empty.  Every grant takes at least one byte
from the queue, so there are never more grants than bytes. -/
def Sender.grantAll (size : Nat) : (grants time : Nat) → Sender → Except Fault Sender
  | 0, _, sender => .ok sender
  | grants + 1, time, sender =>
    if sender.segmenter.queue.isEmpty then
      .ok sender
    else
      let grant : Grant := { channel := 0, time := .ofNat time, size := size }
      match sender.after (sender.segmenter.addGrants [grant] 0 .zero fun _ => .accepted) with
      | .error fault => .error (.grant fault)
      | .ok later => later.grantAll size grants (time + 1)

/-- Send packets in grants of one size, with a request of the given number of bytes. -/
def send (settings : SegmenterSettings) (packets : List Packet) (size piggyback : Nat) :
    Except Fault Sender :=
  match Segmenter.start? settings with
  | .error fault => .error (.segmenterSettings fault)
  | .ok segmenter =>
    let sender : Sender :=
      { segmenter := (segmenter.enqueueAll packets).state.addPiggyback piggyback, sent := [] }
    sender.grantAll size sender.remaining 1

def encodeAll (segments : List Segment) : Except Fault (List (List UInt8)) :=
  segments.mapM fun segment =>
    match segment.toWire with
    | .ok bytes => .ok bytes
    | .error fault => .error (.encode fault)

/-- A list cut into chunks of one size, of which the last may be shorter. -/
def chunks {α : Type} (size : Nat) : List α → List (List α)
  | [] => []
  | first :: rest => (first :: rest.take (size - 1)) :: chunks size (rest.drop (size - 1))
termination_by items => items.length
decreasing_by
  simp only [List.length_drop, List.length_cons]
  omega

/-- The largest number of segments that are reordered together.  Segments of one chunk have different
numbers; those that wait from earlier chunks may share a number with them. -/
def reorderMax : Nat := sequenceSpace / 2

def arrivals (chance : Chance) (depth : Option Nat) (segments : List (List UInt8)) :
    List (List UInt8) :=
  match depth with
  | none => segments
  | some depth =>
    ((chunks (min depth reorderMax) segments).mapIdx chance.arrange).flatten

/-! ## Receiving -/

structure Receiver where
  reassembler : Reassembler
  /-- The packets that arrived, the latest one first. -/
  packets : List (List UInt8)
  /-- Bytes of request, in the arithmetic of 64-bit words. -/
  piggyback : Nat
  dropped : Nat

def Receiver.note (receiver : Receiver) : ReassemblerReport → Receiver
  | .delivered packet .accepted =>
    { receiver with packets := packet.bytes :: receiver.packets }
  | .requested _ bytes .accepted =>
    { receiver with piggyback := wrapAmount (receiver.piggyback + bytes) }
  | .dropped _ => { receiver with dropped := receiver.dropped + 1 }
  | _ => receiver

/-- All items are taken. -/
def accepting : ReassemblerAnswers := { request := .accepted, packet := fun _ => .accepted }

/-- Take in the bytes of the segment that arrives at the given place. -/
def Receiver.take (receiver : Receiver) (arrival : List UInt8 × Nat) : Except Fault Receiver :=
  match Segment.ofWire arrival.2 arrival.1 with
  | .error fault => .error (.decode fault)
  | .ok segment =>
    let outcome := receiver.reassembler.process (some segment) .zero accepting
    match outcome.value with
    | .error fault => .error (.reassemble fault)
    | .ok _ =>
      .ok (outcome.reports.foldl Receiver.note { receiver with reassembler := outcome.state })

/-- Receive segments in the order of their arrival. -/
def receive (settings : ReassemblerSettings) (segments : List (List UInt8)) :
    Except Fault Receiver :=
  match Reassembler.start? settings with
  | .error fault => .error (.reassemblerSettings fault)
  | .ok reassembler =>
    segments.zipIdx.foldlM Receiver.take
      { reassembler := reassembler, packets := [], piggyback := 0, dropped := 0 }

structure Summary where
  packetsSent : Nat
  packetsReceived : Nat
  packetsMatched : Nat
  payloadBytes : Nat
  segments : Nat
  wireBytes : Nat
  segmentsDropped : Nat
  /-- Segments that still wait at the end. -/
  windowLeft : Nat
  piggybackRequested : Nat
  /-- The bytes of request that segments carried. -/
  piggybackExpected : Nat
  piggybackReceived : Nat
  shuffled : Bool
deriving DecidableEq, Repr

def Summary.isConfirmed (summary : Summary) : Bool :=
  summary.packetsMatched == summary.packetsSent && summary.packetsReceived == summary.packetsSent &&
    summary.piggybackReceived == summary.piggybackExpected && summary.segmentsDropped == 0 &&
    summary.windowLeft == 0

def run (plan : Plan) (chance : Chance) : Except Fault Summary := do
  let packets ← buildPackets (chance.contents plan.packets plan.maxSize)
  let sender ← send plan.settings.segmenter packets plan.grantSize plan.piggyback
  let wire ← encodeAll sender.sent.reverse
  let receiver ←
    receive plan.settings.reassembler (arrivals chance plan.reorderDepth wire)
  return {
    packetsSent := packets.length
    packetsReceived := receiver.packets.length
    packetsMatched := Matching.count (packets.map Packet.byteList) receiver.packets
    payloadBytes := (packets.flatMap Packet.byteList).length
    segments := wire.length
    wireBytes := wire.flatten.length
    segmentsDropped := receiver.dropped
    windowLeft := receiver.reassembler.window.length
    piggybackRequested := plan.piggyback
    piggybackExpected := plan.piggyback - sender.segmenter.piggyback
    piggybackReceived := receiver.piggyback
    shuffled := plan.reorderDepth.isSome }

end Ccf.Simulation
