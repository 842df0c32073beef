import Ccf.Collaborator
import Ccf.Json.Reader
import Ccf.Time.Instant

/-!
# Records and numbers in JSON documents

A record is an object with the fields by name, or an array with the fields in order from the first
on.  A field may be absent; giving one twice, giving an array too many items, or giving an object a
key that is no text makes the record unreadable.  Other fields are ignored unless the record is a
closed one.

A number is read as a double in the way that is usual for streaming readers: as many digits as fit
into 64 bits make the significand, which is then multiplied or divided by one power of ten.  The
result is the nearest double whenever the significand and the power are exact.
-/

namespace Ccf

namespace Numeral

/-- Digits taken into a significand as long as it stays within 64 bits, and how many were left. -/
def gather : List Nat → Nat → Nat × Nat
  | [], significand => (significand, 0)
  | digit :: rest, significand =>
    if significand * 10 + digit ≤ amountMax then gather rest (significand * 10 + digit)
    else (significand, rest.length + 1)

/-- The double nearest to a significand of 64 bits. -/
def significandFloat (significand : Nat) : Float := (UInt64.ofNat significand).toFloat

def powerOfTen (exponent : Nat) : Float := Float.ofScientific 1 false exponent

/-- A double divided by a power of ten, in steps of at most `10 ^ 308`. -/
def scaleDown (value : Float) (exponent : Nat) : Float :=
  if exponent ≤ 308 then
    value / powerOfTen exponent
  else if value == 0 then
    value
  else
    scaleDown (value / powerOfTen 308) (exponent - 308)
termination_by exponent

/-- A double times a power of ten; `none` if it is too large for a double. -/
def scale (value : Float) (exponent : Int) : Option Float :=
  if exponent < 0 then
    some (scaleDown value (-exponent).toNat)
  else if exponent ≤ 308 then
    let product := value * powerOfTen exponent.toNat
    if product.isInf then none else some product
  else if value == 0 then
    some value
  else
    none

/-- The largest exponent that is counted. -/
def exponentMax : Nat := 0x7fffffff

/-- The absolute value of a numeral as a double; `none` if it is too large for one. -/
def absoluteFloat (numeral : Numeral) : Option Float :=
  let (whole, dropped) := gather numeral.whole 0
  let digits := numeral.fraction.getD []
  let (significand, left) := gather digits whole
  let start : Int := (dropped : Int) - ((digits.length : Int) - left)
  match numeral.exponent with
  | none => scale (significandFloat significand) start
  | some (negative, exponentDigits) =>
    match ofDigits? exponentMax exponentDigits with
    | none => if significand ≠ 0 ∧ !negative then none else some 0
    | some exponent =>
      let total := if negative then start - exponent else start + exponent
      scale (significandFloat significand)
        (max (-(exponentMax : Int) - 1) (min (exponentMax : Int) total))

/-- The value of a numeral as a double; `none` if it is too large for one. -/
def instant? (numeral : Numeral) : Option Instant :=
  numeral.absoluteFloat.map fun value => .ofFloat (if numeral.negative then -value else value)

end Numeral

namespace Json

def natural? (greatest : Nat) : Json → Option Nat
  | .number numeral => (numeral.within? 0 greatest).map Int.toNat
  | _ => none

def amount? (value : Json) : Option Nat := value.natural? amountMax

def integer? (least greatest : Int) : Json → Option Int
  | .number numeral => numeral.within? least greatest
  | _ => none

def instant? : Json → Option Instant
  | .number numeral => numeral.instant?
  | _ => none

def nullable? {α : Type} (read : Json → Option α) : Json → Option (Option α)
  | .null => some none
  | value => (read value).map some

/-- The value of a field that may be absent. -/
def orElse? {α : Type} (read : Json → Option α) (standard : α) : Option Json → Option α
  | none => some standard
  | some value => read value

/-- The value of a field that may not be absent. -/
def required? {α : Type} (read : Json → Option α) : Option Json → Option α
  | none => none
  | some value => read value

/-- The value of one field of an object; it may be given once at most. -/
def memberNamed? (members : List (Option String × Json)) (name : String) : Option (Option Json) :=
  match members.filter fun member => member.1 == some name with
  | [] => some none
  | [member] => some (some member.2)
  | _ => none

/-- The values of the named fields of a record, absent ones as `none`. -/
def fields? (names : List String) : Json → Option (List (Option Json))
  | .array items =>
    if items.length ≤ names.length then
      some (names.mapIdx fun index _ => items[index]?)
    else
      none
  | .object members =>
    if members.any fun member => member.1.isNone then none
    else names.mapM (memberNamed? members)
  | _ => none

/-- The values of the named fields of a record that has no others. -/
def closedFields? (names : List String) (value : Json) : Option (List (Option Json)) :=
  match value with
  | .object members =>
    if members.all fun member => names.any fun name => member.1 == some name then
      value.fields? names
    else
      none
  | _ => value.fields? names

end Json

end Ccf
