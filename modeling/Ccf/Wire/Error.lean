/-!
# Faults of the wire codecs

A codec can fail in two ways: the bytes at hand end before the fixed part of a format does, or a
record holds a value that its field on the wire is too narrow for.  The wording of a fault is in
`WireError.message` and nowhere else.
-/

namespace Ccf

/-- The fields on the wire that are narrower than the values a record can hold. -/
inductive WireField where
  | offmac
  | sequence
  | cluster
  | length
deriving DecidableEq, Repr

def WireField.name : WireField → String
  | .offmac => "offmac"
  | .sequence => "sequence"
  | .cluster => "sc"
  | .length => "length"

/-- Why a header or a packet cannot be written or read. -/
inductive WireError where
  /-- Fewer bytes are available than the fixed part of the format needs. -/
  | truncated (needed available : Nat)
  /-- A value exceeds the largest one that its field can carry. -/
  | fieldOverflow (field : WireField) (value limit : Nat)
deriving DecidableEq, Repr

def WireError.message : WireError → String
  | .truncated needed available =>
    s!"buffer too short ({available} bytes, need {needed})"
  | .fieldOverflow field value limit =>
    field.name ++ s!" out of range ({value}, max {limit})"

end Ccf
