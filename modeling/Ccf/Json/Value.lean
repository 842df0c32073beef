/-!
# JSON values

A value keeps what the text says rather than what it means to somebody: a number is its digits,
and a string whose escapes do not form Unicode text is a string without text.  Readers that ignore
a value therefore need not care, and readers that use one decide themselves.
-/

namespace Ccf

structure Numeral where
  negative : Bool
  whole : List Nat
  fraction : Option (List Nat)
  exponent : Option (Bool × List Nat)
deriving DecidableEq, Repr

inductive Json where
  | null
  | bool (value : Bool)
  | number (numeral : Numeral)
  /-- A string; without text if its escapes hold an unpaired surrogate. -/
  | string (text : Option String)
  | array (items : List Json)
  | object (members : List (Option String × Json))
deriving Repr

namespace Numeral

/-- The number that decimal digits spell, if it is at most `greatest`.  No digits are read after
those that exceed it. -/
def ofDigits? (greatest : Nat) (digits : List Nat) : Option Nat :=
  digits.foldlM
    (fun value digit =>
      if value * 10 + digit ≤ greatest then some (value * 10 + digit) else none) 0

/-- The value of a numeral that is written as an integer in the given range.  Negative zero is not
an integer. -/
def within? (numeral : Numeral) (least greatest : Int) : Option Int :=
  match numeral.fraction, numeral.exponent with
  | none, none =>
    match ofDigits? (max least.natAbs greatest.natAbs) numeral.whole with
    | none => none
    | some absolute =>
      if numeral.negative ∧ absolute = 0 then
        none
      else
        let value : Int := if numeral.negative then -absolute else absolute
        if least ≤ value ∧ value ≤ greatest then some value else none
  | _, _ => none

end Numeral

end Ccf
