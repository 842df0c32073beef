import Ccf.Text.Blank

/-!
# Bytes in hexadecimal

`Hex.render` writes two lower-case digits for every byte.  `Hex.parse` reads digits of either case:
blanks around the whole are ignored, then one `0x` or `0X` in front, then ASCII blanks and colons
anywhere, even between the two digits of a byte.  What is left must be an even number of bytes, each
of them a digit; the number is checked first.
-/

namespace Ccf.Hex

/-- Why a text is not the hexadecimal form of bytes. -/
inductive ParseError where
  | oddDigits
  | badDigit (byte : UInt8)
deriving DecidableEq, Repr

/-- The lower-case digit of a value below 16. -/
def digit (value : Nat) : Char :=
  if value < 10 then Char.ofNat (48 + value) else Char.ofNat (87 + value)

def digitsOf (byte : UInt8) : List Char :=
  [digit (byte.toNat / 16), digit (byte.toNat % 16)]

def render (bytes : List UInt8) : String := String.ofList (bytes.flatMap digitsOf)

/-- The digits of at most `limit` bytes, with dots if there are more. -/
def preview (bytes : List UInt8) (limit : Nat) : String :=
  render (bytes.take limit) ++ (if limit < bytes.length then "..." else "")

def nibble (byte : UInt8) : Except ParseError UInt8 :=
  if 0x30 ≤ byte ∧ byte ≤ 0x39 then .ok (byte - 0x30)
  else if 0x61 ≤ byte ∧ byte ≤ 0x66 then .ok (byte - 0x61 + 10)
  else if 0x41 ≤ byte ∧ byte ≤ 0x46 then .ok (byte - 0x41 + 10)
  else .error (.badDigit byte)

/-- The bytes that pairs of digits spell. -/
def pairs : List UInt8 → Except ParseError (List UInt8)
  | high :: low :: rest =>
    match nibble high with
    | .error fault => .error fault
    | .ok high =>
      match nibble low with
      | .error fault => .error fault
      | .ok low =>
        match pairs rest with
        | .error fault => .error fault
        | .ok bytes => .ok ((high * 16 + low) :: bytes)
  | _ => .ok []

/-- A text without the mark of hexadecimal numbers in front. -/
def withoutMark : List Char → List Char
  | '0' :: 'x' :: rest => rest
  | '0' :: 'X' :: rest => rest
  | chars => chars

/-- Whether a byte may stand between digits. -/
def isSeparator (byte : UInt8) : Bool := Text.isAsciiBlank byte || byte == 0x3A

/-- The bytes of a text that are not separators. -/
def digitBytes (text : String) : List UInt8 :=
  ((withoutMark (Text.trim text.toList)).flatMap String.utf8EncodeChar).filter
    fun byte => !isSeparator byte

/-- The bytes that a text spells. -/
def parse (text : String) : Except ParseError (List UInt8) :=
  let digits := digitBytes text
  if digits.length % 2 ≠ 0 then .error .oddDigits else pairs digits

end Ccf.Hex
