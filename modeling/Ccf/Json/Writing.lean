/-!
# Writing JSON

Reports are written without blanks.  Every function takes texts that are JSON already and puts them
together; `text` is the one that takes any string.
-/

namespace Ccf.Json.Writing

def hexDigit (value : Nat) : Char :=
  if value < 10 then Char.ofNat (48 + value) else Char.ofNat (87 + value)

/-- What stands for a character in a string. -/
def escape (char : Char) : List Char :=
  match char with
  | '"' => ['\\', '"']
  | '\\' => ['\\', '\\']
  | '\x08' => ['\\', 'b']
  | '\x0c' => ['\\', 'f']
  | '\n' => ['\\', 'n']
  | '\r' => ['\\', 'r']
  | '\t' => ['\\', 't']
  | _ =>
    if char.toNat < 0x20 then
      ['\\', 'u', '0', '0', hexDigit (char.toNat / 16), hexDigit (char.toNat % 16)]
    else
      [char]

def text (value : String) : String :=
  String.ofList (['"'] ++ value.toList.flatMap escape ++ ['"'])

def count (value : Nat) : String := toString value

def flag (value : Bool) : String := if value then "true" else "false"

def array (items : List String) : String := "[" ++ ",".intercalate items ++ "]"

def object (members : List (String × String)) : String :=
  "\x7b" ++ ",".intercalate (members.map fun member => text member.1 ++ ":" ++ member.2) ++ "\x7d"

end Ccf.Json.Writing
