import Ccf.Buffer.Gathering
import Ccf.Collaborator
import Ccf.Reassembly.Window

/-!
# Walking a run

A walk goes through the entries of a run and puts packets together.  Between steps at most one
packet is open: its bytes so far and the entries they come from.  `Walk.step` does one of the
following to the entry at hand.

* An entry whose packet start lies at or past its end is dropped, and with it the open packet.
* Without an open packet, an entry that has been parsed to its end is let go, one in which no packet
  starts is left in place, and otherwise its unparsed bytes open a packet.
* With an open packet, an entry in which a packet starts contributes its lead bytes, which must
  complete the packet; another entry contributes all its unparsed bytes.

A completed packet is handed out and the entries before the one at hand are let go.  The first of
them stays if its lead bytes are still owed to an earlier packet.  Every step moves past the entry
at hand, closes the open packet, or consumes bytes of the entry; this is the measure on which
`Walk.finish` recurs.
-/

namespace Ccf

inductive ReassemblerReport where
  | delivered (packet : PieceTable) (answer : Answer)
  /-- A segment asks for bandwidth. -/
  | requested (cluster : UInt8) (bytes : Nat) (answer : Answer)
  /-- Nothing is left to take from the segment. -/
  | recycled (segment : Segment)
  | dropped (segment : Segment)
deriving DecidableEq, Repr

structure OpenPacket where
  /-- The entries that the bytes come from, newest first. -/
  entries : List Waiting
  content : Gathering
deriving DecidableEq, Repr

structure Walk where
  /-- Entries that stay in the window, newest first. -/
  kept : List Waiting
  pending : Option OpenPacket
  /-- The entry at hand and those after it. -/
  ahead : List Waiting
  /-- How many packets the call has delivered. -/
  delivered : Nat
  /-- How many items of the call have been refused. -/
  refused : Nat
deriving DecidableEq, Repr

/-- How a segment leaves the window. -/
inductive Release where
  | recycle
  | drop
deriving DecidableEq, Repr

def Release.report : Release → Segment → ReassemblerReport
  | .recycle => .recycled
  | .drop => .dropped

/-- What a step or a walk leaves behind; `fault` ends the walk. -/
structure WalkOutcome where
  walk : Walk
  reports : List ReassemblerReport
  fault : Option BufferError
deriving DecidableEq, Repr

namespace Walk

def begin (run : List Waiting) (delivered refused : Nat) : Walk where
  kept := []
  pending := none
  ahead := run
  delivered := delivered
  refused := refused

/-- The entries that the walk leaves in the window, in run order. -/
def remaining (walk : Walk) : List Waiting :=
  walk.kept.reverseAux <|
    match walk.pending with
    | none => walk.ahead
    | some packet => packet.entries.reverseAux walk.ahead

/-- Let entries go, oldest first.  The first stays, parsed to its end, if it still owes lead
bytes. -/
def retire (how : Release) : List Waiting → List Waiting × List ReassemblerReport
  | [] => ([], [])
  | first :: others =>
    if 0 < first.lead then
      ([{ first with next := first.size }], others.map fun entry => how.report entry.segment)
    else
      ([], (first :: others).map fun entry => how.report entry.segment)

/-- Close the open packet by letting its entries go. -/
def closePending (walk : Walk) (how : Release) : Walk × List ReassemblerReport :=
  match walk.pending with
  | none => (walk, [])
  | some packet =>
    let (stays, reports) := retire how packet.entries.reverse
    ({ walk with kept := stays ++ walk.kept, pending := none }, reports)

/-- Hand out the first `block` bytes of `content` as a packet. -/
def deliver (walk : Walk) (answers : Nat → Answer) (content : Gathering) (block : Nat) :
    Walk × ReassemblerReport :=
  let answer := answers walk.delivered
  ({ walk with
      delivered := walk.delivered + 1
      refused := if answer.isAccepted then walk.refused else walk.refused + 1 },
    .delivered ((content.table .macHeader).truncate block) answer)

/-- An entry with its cursor moved to the packet start, if it is before it. -/
def toFirstStart (entry : Waiting) : Waiting :=
  if entry.startsPacket then { entry with next := max entry.next entry.firstStart } else entry

/-- The entry parsed up to where the packet of `block` bytes ends, when `content` ends with all of
the entry's unparsed bytes. -/
def parsedTo (entry : Waiting) (content : Gathering) (block : Nat) : Waiting :=
  { entry with next := entry.size - (content.size - block) }

/-- A step at an entry whose packet start lies at or past its end. -/
def rejectEntry (walk : Walk) (entry : Waiting) (rest : List Waiting) : WalkOutcome :=
  let (closed, reports) := walk.closePending .drop
  { walk := { closed with ahead := rest }
    reports := reports ++ [.dropped entry.segment]
    fault := none }

def keep (walk : Walk) (entry : Waiting) (rest : List Waiting) : WalkOutcome where
  walk := { walk with kept := entry :: walk.kept, ahead := rest }
  reports := []
  fault := none

/-- A step at an entry when no packet is open. -/
def openAt (walk : Walk) (answers : Nat → Answer) (entry : Waiting) (rest : List Waiting) :
    WalkOutcome :=
  if entry.size ≤ entry.next then
    if entry.lead = 0 then
      { walk := { walk with ahead := rest }, reports := [.recycled entry.segment], fault := none }
    else
      walk.keep entry rest
  else if !entry.startsPacket then
    walk.keep entry rest
  else
    match Gathering.empty.gatherRange entry.segment.payload entry.next entry.size with
    | .error fault =>
      { walk := { walk with ahead := entry :: rest }, reports := [], fault := some fault }
    | .ok content =>
      match content.completeSize? with
      | some block =>
        let (after, report) := walk.deliver answers content block
        { walk := { after with ahead := parsedTo entry content block :: rest }
          reports := [report]
          fault := none }
      | none =>
        { walk := { walk with
            pending := some { entries := [entry], content := content }
            ahead := rest }
          reports := []
          fault := none }

/-- A step at an entry in which a packet starts, when one is open: the lead bytes end it. -/
def endAt (walk : Walk) (answers : Nat → Answer) (packet : OpenPacket) (entry : Waiting)
    (rest : List Waiting) : WalkOutcome :=
  match packet.content.gatherRange entry.segment.payload 0 entry.lead with
  | .error fault =>
    { walk := { walk with ahead := entry :: rest }, reports := [], fault := some fault }
  | .ok content =>
    let settled := { entry with lead := 0 }
    match content.completeSize? with
    | some block =>
      let (after, report) := walk.deliver answers content block
      let (closed, reports) := after.closePending .recycle
      { walk := { closed with ahead := settled :: rest }
        reports := report :: reports
        fault := none }
    | none =>
      let (closed, reports) := walk.closePending .drop
      { walk := { closed with ahead := settled :: rest }, reports := reports, fault := none }

/-- A step at an entry in which no packet starts, when one is open: all its bytes continue it.  If
the packet ends inside the entry, nothing accounts for the bytes after it and the entry is
dropped. -/
def continueAt (walk : Walk) (answers : Nat → Answer) (packet : OpenPacket) (entry : Waiting)
    (rest : List Waiting) : WalkOutcome :=
  match packet.content.gatherRange entry.segment.payload entry.next entry.size with
  | .error fault =>
    { walk := { walk with ahead := entry :: rest }, reports := [], fault := some fault }
  | .ok content =>
    match content.completeSize? with
    | some block =>
      let (after, report) := walk.deliver answers content block
      let (closed, reports) := after.closePending .recycle
      let parsed := parsedTo entry content block
      if parsed.next < parsed.size then
        { walk := { closed with ahead := rest }
          reports := report :: reports ++ [.dropped parsed.segment]
          fault := none }
      else
        { walk := { closed with ahead := parsed :: rest }
          reports := report :: reports
          fault := none }
    | none =>
      { walk := { walk with
          pending := some { entries := entry :: packet.entries, content := content }
          ahead := rest }
        reports := []
        fault := none }

/-- What the walk does to the entry at hand. -/
def visit (walk : Walk) (answers : Nat → Answer) (entry : Waiting) (rest : List Waiting) :
    WalkOutcome :=
  if entry.startsPacket && decide (entry.size ≤ entry.firstStart) then
    walk.rejectEntry entry rest
  else
    let current := toFirstStart entry
    match walk.pending with
    | none => walk.openAt answers current rest
    | some packet =>
      if current.startsPacket then walk.endAt answers packet current rest
      else walk.continueAt answers packet current rest

/-- One step of a walk; `none` at its end. -/
def step (walk : Walk) (answers : Nat → Answer) : Option WalkOutcome :=
  match walk.ahead with
  | [] => none
  | entry :: rest => some (walk.visit answers entry rest)

end Walk

end Ccf
