import Ccf.Json.Value

/-!
# JSON tokens

The lexical level of JSON: blanks, punctuation, the three words, numbers and strings.  A number has
no superfluous leading zero, and digits on both sides of its point and after its exponent mark.  A
string holds no raw control character; an escape by code is a UTF-16 code unit, and two units that
form a surrogate pair are one character.
-/

namespace Ccf.Json

inductive Token where
  | openArray
  | closeArray
  | openObject
  | closeObject
  | comma
  | colon
  | null
  | bool (value : Bool)
  | number (numeral : Numeral)
  | string (text : Option String)
deriving DecidableEq, Repr

/-- A part of a string: a character, or a UTF-16 code unit given by its code. -/
inductive TextPart where
  | char (value : Char)
  | unit (code : Nat)
deriving DecidableEq, Repr

def hexDigit? (char : Char) : Option Nat :=
  if '0' ≤ char ∧ char ≤ '9' then some (char.toNat - 48)
  else if 'a' ≤ char ∧ char ≤ 'f' then some (char.toNat - 87)
  else if 'A' ≤ char ∧ char ≤ 'F' then some (char.toNat - 55)
  else none

/-- The code that four hexadecimal digits spell. -/
def codeUnit? (a b c d : Char) : Option Nat :=
  match hexDigit? a, hexDigit? b, hexDigit? c, hexDigit? d with
  | some a, some b, some c, some d => some (((a * 16 + b) * 16 + c) * 16 + d)
  | _, _, _, _ => none

/-- The character that a one-letter escape stands for. -/
def escaped? : Char → Option Char
  | '"' => some '"'
  | '\\' => some '\\'
  | '/' => some '/'
  | 'b' => some '\x08'
  | 'f' => some '\x0c'
  | 'n' => some '\n'
  | 'r' => some '\r'
  | 't' => some '\t'
  | _ => none

/-- The parts of a string up to its closing quote, and what follows the quote. -/
def scanText : List Char → Option (List TextPart × List Char)
  | [] => none
  | '"' :: rest => some ([], rest)
  | '\\' :: 'u' :: a :: b :: c :: d :: rest =>
    match codeUnit? a b c d, scanText rest with
    | some code, some (parts, after) => some (.unit code :: parts, after)
    | _, _ => none
  | '\\' :: mark :: rest =>
    match escaped? mark, scanText rest with
    | some char, some (parts, after) => some (.char char :: parts, after)
    | _, _ => none
  | char :: rest =>
    if char.toNat < 0x20 ∨ char = '\\' then
      none
    else
      match scanText rest with
      | some (parts, after) => some (.char char :: parts, after)
      | none => none

/-- The characters of a string, unless a surrogate has no partner. -/
def joinText : List TextPart → Option (List Char)
  | [] => some []
  | .char value :: rest => (joinText rest).map (value :: ·)
  | [.unit code] => if 0xD800 ≤ code ∧ code ≤ 0xDFFF then none else some [Char.ofNat code]
  | .unit code :: next :: rest =>
    if code < 0xD800 ∨ 0xDFFF < code then
      (joinText (next :: rest)).map (Char.ofNat code :: ·)
    else
      match next with
      | .char _ => none
      | .unit low =>
        if code ≤ 0xDBFF ∧ 0xDC00 ≤ low ∧ low ≤ 0xDFFF then
          (joinText rest).map
            (Char.ofNat (0x10000 + (code - 0xD800) * 0x400 + (low - 0xDC00)) :: ·)
        else
          none

def textOf (parts : List TextPart) : Option String := (joinText parts).map String.ofList

def scanDigits (source : List Char) : List Nat × List Char :=
  ((source.takeWhile Char.isDigit).map fun char => char.toNat - 48, source.dropWhile Char.isDigit)

/-- The digits before the point: a zero alone, or digits that do not start with one. -/
def scanWhole (source : List Char) : Option (List Nat × List Char) :=
  match source with
  | '0' :: rest => some ([0], rest)
  | _ =>
    match scanDigits source with
    | ([], _) => none
    | (digits, rest) => some (digits, rest)

/-- The point and the digits after it, if there is a point. -/
def scanFraction (source : List Char) : Option (Option (List Nat) × List Char) :=
  match source with
  | '.' :: rest =>
    match scanDigits rest with
    | ([], _) => none
    | (digits, after) => some (some digits, after)
  | _ => some (none, source)

/-- The sign of an exponent and what follows it. -/
def scanSign : List Char → Bool × List Char
  | '-' :: rest => (true, rest)
  | '+' :: rest => (false, rest)
  | source => (false, source)

/-- The exponent, if there is one. -/
def scanExponent (source : List Char) : Option (Option (Bool × List Nat) × List Char) :=
  match source with
  | mark :: rest =>
    if mark = 'e' ∨ mark = 'E' then
      let (negative, digits) := scanSign rest
      match scanDigits digits with
      | ([], _) => none
      | (digits, after) => some (some (negative, digits), after)
    else
      some (none, source)
  | [] => some (none, [])

/-- A number without its sign, and what follows it. -/
def scanNumeral (negative : Bool) (source : List Char) : Option (Numeral × List Char) :=
  match scanWhole source with
  | none => none
  | some (whole, afterWhole) =>
    match scanFraction afterWhole with
    | none => none
    | some (fraction, afterFraction) =>
      match scanExponent afterFraction with
      | none => none
      | some (exponent, rest) =>
        some ({ negative := negative, whole := whole, fraction := fraction, exponent := exponent },
          rest)

/-- Whether a character may stand between tokens. -/
def isBlank (char : Char) : Bool :=
  char == ' ' || char == '\n' || char == '\t' || char == '\r'

/-- What follows a word, if the text starts with it. -/
def afterWord (word source : List Char) : Option (List Char) :=
  if word.isPrefixOf source then some (source.drop word.length) else none

/-- The token at the front of a text that does not start with a blank, and what follows it. -/
def nextToken : List Char → Option (Token × List Char)
  | '[' :: rest => some (.openArray, rest)
  | ']' :: rest => some (.closeArray, rest)
  | '\x7b' :: rest => some (.openObject, rest)
  | '\x7d' :: rest => some (.closeObject, rest)
  | ',' :: rest => some (.comma, rest)
  | ':' :: rest => some (.colon, rest)
  | '"' :: rest => (scanText rest).map fun (parts, after) => (.string (textOf parts), after)
  | 'n' :: rest => (afterWord ['u', 'l', 'l'] rest).map fun after => (.null, after)
  | 't' :: rest => (afterWord ['r', 'u', 'e'] rest).map fun after => (.bool true, after)
  | 'f' :: rest => (afterWord ['a', 'l', 's', 'e'] rest).map fun after => (.bool false, after)
  | '-' :: rest => (scanNumeral true rest).map fun (numeral, after) => (.number numeral, after)
  | source => (scanNumeral false source).map fun (numeral, after) => (.number numeral, after)

/-- The tokens of a text; every token takes at least one of the `fuel` characters. -/
def tokensWithin : Nat → List Char → Option (List Token)
  | 0, source => if (source.dropWhile isBlank).isEmpty then some [] else none
  | fuel + 1, source =>
    match source.dropWhile isBlank with
    | [] => some []
    | rest =>
      match nextToken rest with
      | none => none
      | some (token, after) => (tokensWithin fuel after).map (token :: ·)

def tokens (source : String) : Option (List Token) :=
  tokensWithin source.length source.toList

end Ccf.Json
