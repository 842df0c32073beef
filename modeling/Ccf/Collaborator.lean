/-!
# What the two ends exchange with their surroundings

The segmenting and the reassembling end never wait for anything.  A call reports, in order, what it
hands out; for some of the reports the recipient answers whether it takes the item.  A call is a
function of the answers it will get: the answer to the report that comes after `n` others of its
kind in the same call is the answer at `n`.
-/

namespace Ccf

/-- Why a recipient does not take an item. -/
inductive Refusal where
  | rejected (reason : String)
  | closed
deriving DecidableEq, Repr

def Refusal.message : Refusal → String
  | .rejected reason => "rejected: " ++ reason
  | .closed => "collaborator closed"

inductive Answer where
  | accepted
  | refused (why : Refusal)
deriving DecidableEq, Repr, Inhabited

def Answer.isAccepted : Answer → Bool
  | .accepted => true
  | .refused _ => false

/-- The occasions that a scheduler knows. -/
inductive TimerEvent where
  /-- A list of grants arrived. -/
  | map
  /-- A packet arrived. -/
  | packet
  /-- A finished segment is due. -/
  | sendTimer
  /-- A request for bandwidth is due. -/
  | requestTimer
deriving DecidableEq, Repr

namespace TimerEvent

def all : List TimerEvent := [.map, .packet, .sendTimer, .requestTimer]

/-- The number by which a scheduler knows an occasion. -/
def code : TimerEvent → Nat
  | .map => 1
  | .packet => 2
  | .sendTimer => 3
  | .requestTimer => 4

def name : TimerEvent → String
  | .map => "map"
  | .packet => "packet"
  | .sendTimer => "send_timer"
  | .requestTimer => "request_timer"

end TimerEvent

/-- What a call leaves behind: the new state, the reports in order, and its result. -/
structure Outcome (State Report Value : Type) where
  state : State
  reports : List Report
  value : Value
deriving DecidableEq, Repr

/-- The outcome with earlier reports in front of its own. -/
def Outcome.after {State Report Value : Type} (earlier : List Report)
    (outcome : Outcome State Report Value) : Outcome State Report Value :=
  { outcome with reports := earlier ++ outcome.reports }

/-- The largest size or amount that the two ends keep: that of a word of 64 bits. -/
def amountMax : Nat := 0xffffffffffffffff

def wrapAmount (amount : Nat) : Nat := amount % (amountMax + 1)

end Ccf
