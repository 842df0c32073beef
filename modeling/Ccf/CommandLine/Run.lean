import Ccf.CommandLine.Decode
import Ccf.CommandLine.Simulate

/-!
# Running a command

`respond` is the whole program: it maps what the arguments ask for to what is printed and how the
program ends.  What it takes from outside is in its `Surroundings`: the text of the settings file,
the words for a text that is none, the choices that a seed stands for, and the format of reports.
-/

namespace Ccf.CommandLine

/-- What a command finds outside. -/
structure Surroundings where
  readFile : String → Except ReadFault String
  /-- What keeps a text from being that of a settings file. -/
  complaint : String → String
  /-- The choices that a seed stands for. -/
  chance : Nat → Chance
  /-- The format of reports if none is asked for. -/
  standardFormat : ReportFormat

def programName : String := "ccfprims"

def programVersion : String := "0.1.0"

def versionLine : String := programName ++ " " ++ programVersion

def versionLines (extended : Bool) : List String :=
  if extended then
    ["name: " ++ programName, "version: " ++ programVersion,
      "sequence_space: " ++ toString sequenceSpace,
      "default_piggyback_multiplier: " ++ toString defaultMultiplier]
  else
    [versionLine]

def usageLines : List String :=
  ["Usage: " ++ programName ++ " [--format json|table|pretty] <command>",
    "",
    "Commands:",
    "  simulate  Segment packets, reorder the segments, reassemble and compare",
    "            [--packets N] [--max-size N] [--grant-size N] [--multiplier N]",
    "            [--piggyback N] [--seed N] [--no-shuffle] [--reorder-depth N]",
    "            [--config FILE]",
    "  decode    Show the segment that hexadecimal digits spell: decode HEX",
    "  version   Show the version: version [--extended]"]

def runCommand (surroundings : Surroundings) (format : ReportFormat) : Command → Ending
  | .simulate arguments =>
    simulate surroundings.readFile surroundings.complaint arguments format
      (surroundings.chance arguments.seed)
  | .decode hex => decode hex format
  | .version extended => .success (versionLines extended)

/-- The file that a request reads. -/
def Request.file? : Request → Option String
  | .run (.simulate arguments) _ => arguments.config
  | _ => none

/-- Do what is asked for. -/
def respond (surroundings : Surroundings) : Request → Ending
  | .run command format =>
    runCommand surroundings (format.getD surroundings.standardFormat) command
  | .help => .success usageLines
  | .version => .success [versionLine]
  | .misuse => { code := .misuse, output := [], message := none }

end Ccf.CommandLine
