/-!
# Blank characters

Two classes of blanks are told apart: the blanks of Unicode, which may surround an argument, and
those of ASCII, which may also stand inside it.
-/

namespace Ccf.Text

/-- The code points of Unicode's white space, as ranges. -/
def blankRanges : List (Nat × Nat) :=
  [(0x09, 0x0D), (0x20, 0x20), (0x85, 0x85), (0xA0, 0xA0), (0x1680, 0x1680), (0x2000, 0x200A),
    (0x2028, 0x2029), (0x202F, 0x202F), (0x205F, 0x205F), (0x3000, 0x3000)]

/-- Whether a character is white space in the sense of Unicode. -/
def isBlank (char : Char) : Bool :=
  blankRanges.any fun range => decide (range.1 ≤ char.toNat) && decide (char.toNat ≤ range.2)

/-- Whether a byte is a blank of ASCII: space, tab, line feed, form feed or carriage return. -/
def isAsciiBlank (byte : UInt8) : Bool :=
  byte == 0x20 || byte == 0x09 || byte == 0x0A || byte == 0x0C || byte == 0x0D

/-- A text without the blanks around it. -/
def trim (chars : List Char) : List Char :=
  (((chars.dropWhile isBlank).reverse).dropWhile isBlank).reverse

end Ccf.Text
