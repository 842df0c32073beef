import Ccf.CommandLine.Run

/-!
# The program

Reads the environment and the settings file, runs the command, prints its lines and its message, and
ends with its code.
-/

namespace Ccf

open CommandLine

def readText (path : String) : IO (Except ReadFault String) := do
  match ← (IO.FS.readBinFile path).toBaseIO with
  | .ok bytes =>
    match String.fromUTF8? bytes with
    | some text => return .ok text
    | none => return .error .notText
  | .error (.noFileOrDirectory ..) => return .error .notFound
  | .error (.permissionDenied ..) => return .error .permissionDenied
  | .error (.inappropriateType _ 21 _) => return .error .isDirectory
  | .error (.inappropriateType ..) => return .error .notDirectory
  | .error (.invalidArgument _ code details) =>
    return .error (if code = 36 ∨ code + 36 = 0 then .nameTooLong else .other details)
  | .error fault => return .error (.other (toString fault))

/-- Print what a command has to say. -/
def conclude (ending : Ending) : IO UInt32 := do
  for line in ending.output do
    IO.println line
  if let some message := ending.message then
    IO.eprintln ("error: " ++ message)
  if ending.code = .misuse then
    for line in usageLines do
      IO.eprintln line
  return UInt32.ofNat ending.code.number

end Ccf

def main (arguments : List String) : IO UInt32 := do
  let seed ← IO.getEnv "CCFPRIMS_SEED"
  let request := Ccf.CommandLine.parse seed arguments
  let file ← match request.file? with
    | some path => Ccf.readText path
    | none => pure (.error .notFound)
  let terminal ← (← IO.getStdout).isTty
  let surroundings : Ccf.CommandLine.Surroundings :=
    { readFile := fun _ => file
      complaint := fun _ => "no settings of a link"
      chance := fun seed => .seeded (UInt64.ofNat seed)
      standardFormat := if terminal then .table else .json }
  Ccf.conclude (Ccf.CommandLine.respond surroundings request)
