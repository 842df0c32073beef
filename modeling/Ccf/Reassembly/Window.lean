import Ccf.Segment
import Ccf.Time.Instant

/-!
# The reassembly window

Received segments wait in a list ordered by sequence number; segments with equal numbers stay in the
order in which they were put in.  Because numbers wrap, the list is looked at as a ring: its last
entry comes before its first.

A *run* is a stretch of the ring in which every entry follows the one before it.  `Anchor.cut` takes
the longest run through an entry out of the window.  It extends the run backwards first, so if the
whole ring is one run it starts right after the entry.  `Gap.fill` puts back what is left of a run.
-/

namespace Ccf

structure Waiting where
  /-- The position of the segment in the order of arrival. -/
  arrival : Nat
  segment : Segment
  /-- How many bytes at the front are still owed to a packet that started in an earlier segment. -/
  lead : Nat
  /-- The first byte that no packet has been given. -/
  next : Nat
  arrivedAt : Instant
deriving DecidableEq, Repr, Inhabited

namespace Waiting

def sequence (entry : Waiting) : SequenceNumber := entry.segment.sequence

def size (entry : Waiting) : Nat := entry.segment.size

def startsPacket (entry : Waiting) : Bool := entry.segment.header.pfi

def firstStart (entry : Waiting) : Nat := entry.segment.header.offmac.toNat

/-- Whether the entry may come right after `previous` in a run. -/
def follows (entry previous : Waiting) : Bool := entry.sequence.follows previous.sequence

/-- Whether the entry's number is at most `other`'s. -/
def notAfter (entry other : Waiting) : Bool :=
  decide (entry.sequence.value ≤ other.sequence.value)

end Waiting

/-- An entry of a window with what is before and after it. -/
structure Anchor where
  /-- The entries before, the nearest one first. -/
  before : List Waiting
  entry : Waiting
  after : List Waiting
deriving DecidableEq, Repr

/-- A window out of which a run has been taken. -/
structure Gap where
  /-- The entries before the gap, the nearest one first. -/
  before : List Waiting
  after : List Waiting
deriving DecidableEq, Repr

namespace Window

/-- Whether no entry has a smaller number than the one before it. -/
def isOrdered : List Waiting → Bool
  | entry :: next :: rest => entry.notAfter next && isOrdered (next :: rest)
  | _ => true

end Window

namespace Gap

def window (gap : Gap) : List Waiting := gap.before.reverseAux gap.after

/-- Whether entries have their place in the gap. -/
def fits (gap : Gap) (entries : List Waiting) : Bool :=
  Window.isOrdered (gap.before.head?.toList ++ entries) &&
    (entries.getLast?.all fun last => gap.after.head?.all last.notAfter)

/-- The window with entries of the run put back.  Entries that do not fit into the gap come from
both ends of the window, and each goes after those with a number that is not greater. -/
def fill (gap : Gap) (entries : List Waiting) : List Waiting :=
  if gap.fits entries then
    gap.before.reverseAux (entries ++ gap.after)
  else
    gap.window.merge (entries.mergeSort Waiting.notAfter) Waiting.notAfter

end Gap

namespace Anchor

/-- Move entries from the front of a list onto a chain, as long as each is adjacent to the one that
was moved before it.  The result is the chain and the entries that are left. -/
def extend (adjacent : Waiting → Waiting → Bool) :
    (chain entries : List Waiting) → List Waiting × List Waiting
  | last :: chain, entry :: rest =>
    if adjacent last entry then extend adjacent (entry :: last :: chain) rest
    else (last :: chain, entry :: rest)
  | chain, entries => (chain, entries)

/-- Extend a chain by the entries at one side and, if these are used up, by those that the ring has
behind them: the entries at the other side, read from their far end. -/
def extendAround (adjacent : Waiting → Waiting → Bool) (chain side other : List Waiting) :
    List Waiting × List Waiting × List Waiting :=
  match extend adjacent chain side with
  | (longer, []) =>
    if longer.head?.any fun last => other.getLast?.any (adjacent last) then
      let (whole, left) := extend adjacent longer other.reverse
      (whole, [], left.reverse)
    else
      (longer, [], other)
  | (longer, left) => (longer, left, other)

/-- The longest run through the anchor, and the gap that it leaves. -/
def cut (anchor : Anchor) : List Waiting × Gap :=
  let (run, before, after) :=
    extendAround (fun first entry => first.follows entry) [anchor.entry] anchor.before anchor.after
  let (backwards, after, before) :=
    extendAround (fun last entry => entry.follows last) run.reverse after before
  (backwards.reverse, { before := before, after := after })

end Anchor

namespace Window

def sequences (window : List Waiting) : List SequenceNumber := window.map Waiting.sequence

/-- Move entries from the front of a window onto those passed before, the nearest one first, as long
as they are to be passed. -/
def pass (toPass : Waiting → Bool) : (passed window : List Waiting) → List Waiting × List Waiting
  | passed, [] => (passed, [])
  | passed, entry :: rest =>
    if toPass entry then pass toPass (entry :: passed) rest else (passed, entry :: rest)

/-- Where an entry is put into a window: after all entries whose number is not greater. -/
def anchorFor (entry : Waiting) (window : List Waiting) : Anchor :=
  let (before, after) := pass (fun other => other.notAfter entry) [] window
  { before := before, entry := entry, after := after }

def anchorAt? (sequence : SequenceNumber) (window : List Waiting) : Option Anchor :=
  match pass (fun other => decide (other.sequence.value < sequence.value)) [] window with
  | (_, []) => none
  | (before, entry :: after) =>
    if entry.sequence = sequence then
      some { before := before, entry := entry, after := after }
    else
      none

/-- The numbers of the entries that do not follow the one before them. -/
def headsAfter (previous : Waiting) : List Waiting → List SequenceNumber
  | [] => []
  | entry :: rest =>
    if entry.follows previous then headsAfter entry rest
    else entry.sequence :: headsAfter entry rest

/-- The first number of every run, in window order.  A ring that is one run has no head; it is
walked from its first number. -/
def runHeads : List Waiting → List SequenceNumber
  | [] => []
  | first :: rest =>
    match headsAfter (rest.getLastD first) (first :: rest) with
    | [] => [first.sequence]
    | heads => heads

end Window

end Ccf
