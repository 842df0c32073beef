import Ccf.Text.Hex

/-!
# A byte in quotes

A byte is shown as the character of the same number, in single quotes.  Characters that have no
picture of their own are written as escapes: by letter if there is one, else by number.
-/

namespace Ccf.Text

/-- The digits of a number below 256 in hexadecimal, without a leading zero. -/
def shortHex (value : Nat) : List Char :=
  if value < 16 then [Hex.digit value] else [Hex.digit (value / 16), Hex.digit (value % 16)]

/-- Whether the character of a number below 256 has a picture of its own. -/
def isPicture (value : Nat) : Bool :=
  (decide (0x20 ≤ value) && decide (value < 0x7F)) ||
    (decide (0xA0 < value) && value != 0xAD)

/-- What stands for a byte between the quotes. -/
def quotedByte (byte : UInt8) : List Char :=
  match byte.toNat with
  | 0x00 => ['\\', '0']
  | 0x09 => ['\\', 't']
  | 0x0A => ['\\', 'n']
  | 0x0D => ['\\', 'r']
  | 0x27 => ['\\', '\'']
  | 0x5C => ['\\', '\\']
  | value =>
    if isPicture value then [Char.ofNat value]
    else ['\\', 'u', '\x7b'] ++ shortHex value ++ ['\x7d']

/-- A byte as a character in single quotes. -/
def quoteByte (byte : UInt8) : String :=
  String.ofList (['\''] ++ quotedByte byte ++ ['\''])

end Ccf.Text
