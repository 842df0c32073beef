import Ccf.Segment
import Ccf.Settings
import Ccf.Text.Quoted

/-!
# How a command ends

A command ends with a code and, if it fails, with a message.  Misused arguments end it before it
starts and have a code of their own.
-/

namespace Ccf.CommandLine

inductive ExitCode where
  | success
  | failure
  /-- The arguments do not form a command. -/
  | misuse
  | dataInvalid
  | usage
  | internal
deriving DecidableEq, Repr

def ExitCode.number : ExitCode → Nat
  | .success => 0
  | .failure => 1
  | .misuse => 2
  | .dataInvalid => 60
  | .usage => 64
  | .internal => 125

structure CommandError where
  code : ExitCode
  message : String
deriving DecidableEq, Repr

namespace CommandError

/-- A fault of the arguments' values. -/
def usage (message : String) : CommandError := { code := .usage, message := message }

/-- A text put after what the command was about to do. -/
def within (context message : String) : String := context ++ ": " ++ message

/-- Bytes that cannot be written or read. -/
def ofWire (context : String) (fault : WireError) : CommandError :=
  { code := .dataInvalid, message := within context fault.message }

/-- A buffer operation that should not have been refused. -/
def ofBuffer (context : String) (fault : BufferError) : CommandError :=
  { code := .internal, message := within context fault.message }

/-- A segment that cannot be transferred. -/
def ofTransfer (context : String) : TransferError → CommandError
  | .wire fault => ofWire context fault
  | .buffer fault => ofBuffer context fault

/-- Settings that cannot be used. -/
def ofSettings (context : String) (fault : SettingsError) : CommandError :=
  usage (within context fault.message)

/-- A text that is not the hexadecimal form of bytes. -/
def ofHex : Hex.ParseError → CommandError
  | .oddDigits => usage "hex input has an odd number of digits"
  | .badDigit byte => usage ("invalid hex digit " ++ Text.quoteByte byte)

end CommandError

/-- Why a file cannot be read as text. -/
inductive ReadFault where
  | notFound
  | permissionDenied
  | isDirectory
  | notDirectory
  | nameTooLong
  | notText
  | other (message : String)
deriving DecidableEq, Repr

namespace ReadFault

def message : ReadFault → String
  | .notFound => "No such file or directory (os error 2)"
  | .permissionDenied => "Permission denied (os error 13)"
  | .isDirectory => "Is a directory (os error 21)"
  | .notDirectory => "Not a directory (os error 20)"
  | .nameTooLong => "File name too long (os error 36)"
  | .notText => "stream did not contain valid UTF-8"
  | .other message => message

/-- How a command ends that needs the file. -/
def code : ReadFault → ExitCode
  | .notFound => .usage
  | .permissionDenied => .usage
  | .notText => .dataInvalid
  | .isDirectory => .failure
  | .notDirectory => .failure
  | .nameTooLong => .failure
  | .other _ => .failure

end ReadFault

structure Ending where
  code : ExitCode
  output : List String
  message : Option String
deriving DecidableEq, Repr

namespace Ending

def success (output : List String) : Ending :=
  { code := .success, output := output, message := none }

def ofError (error : CommandError) : Ending :=
  { code := error.code, output := [], message := some error.message }

end Ending

end Ccf.CommandLine
