/-!
# Points in time

Times are IEEE 754 double-precision numbers.  They are kept as bit patterns, so that one comes out
exactly as it went in, whatever its sign and payload.  Two orders are used: the numeric one, in
which the two zeros are equal and a pattern that is not a number compares with nothing, and a total
one, which ranks every pattern: it orders numbers by value, negative zero before positive zero, and
places the patterns that are no numbers at the two ends according to their sign.
-/

namespace Ccf

/-- A double-precision number by its bit pattern. -/
structure Instant where
  bits : UInt64
deriving DecidableEq, Repr, Inhabited

namespace Instant

def signBit : Nat := 0x8000000000000000

def isNegative (time : Instant) : Bool := decide (signBit ≤ time.bits.toNat)

/-- The bit pattern without the sign, which grows with the absolute value. -/
def magnitude (time : Instant) : Nat := time.bits.toNat % signBit

/-- The magnitude of the infinities. -/
def infinityMagnitude : Nat := 0x7ff0000000000000

/-- The number of patterns that share sign and exponent. -/
def binadeSize : Nat := 0x10000000000000

def isNaN (time : Instant) : Bool := decide (infinityMagnitude < time.magnitude)

/-- Whether the pattern is a number other than an infinity. -/
def isFinite (time : Instant) : Bool := decide (time.magnitude < infinityMagnitude)

/-- A place on the integer line that orders numbers by value. -/
def place (time : Instant) : Int :=
  if time.isNegative then -time.magnitude else time.magnitude

/-- A place on the integer line that orders all patterns. -/
def rank (time : Instant) : Int :=
  if time.isNegative then -time.magnitude - 1 else time.magnitude

def before (time other : Instant) : Bool :=
  !time.isNaN && !other.isNaN && decide (time.place < other.place)

/-- The total order. -/
def notAfter (time other : Instant) : Bool := decide (time.rank ≤ other.rank)

def isPositive (time : Instant) : Bool := !time.isNaN && decide (0 < time.place)

def zero : Instant := ⟨0⟩

def toFloat (time : Instant) : Float := Float.ofBits time.bits

def ofFloat (value : Float) : Instant := ⟨value.toBits⟩

/-- The sum of two numbers, rounded to the nearest double. -/
def add (time duration : Instant) : Instant := ofFloat (time.toFloat + duration.toFloat)

/-- The whole number `count`, exact up to 53 binary digits; longer ones lose their low digits. -/
def ofNat (count : Nat) : Instant :=
  if count = 0 then
    zero
  else
    let exponent := count.log2
    let significand :=
      if exponent ≤ 52 then count <<< (52 - exponent) else count >>> (exponent - 52)
    ⟨UInt64.ofNat ((1023 + exponent) * binadeSize + significand % binadeSize)⟩

theorem notAfter_total (time other : Instant) :
    (time.notAfter other || other.notAfter time) = true := by
  simp only [notAfter, Bool.or_eq_true, decide_eq_true_eq]
  omega

theorem notAfter_trans {first second third : Instant} (hfirst : first.notAfter second = true)
    (hsecond : second.notAfter third = true) : first.notAfter third = true := by
  simp only [notAfter, decide_eq_true_eq] at *
  omega

end Instant

end Ccf
