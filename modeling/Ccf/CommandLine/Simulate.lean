import Ccf.CommandLine.Arguments
import Ccf.CommandLine.Exit
import Ccf.Json.Documents
import Ccf.Simulation.Basic

/-!
# The simulation as a command

The command checks its arguments, reads the settings file if there is one, and reports what the
simulation found.  A simulation that is not confirmed is reported all the same, and the command then
fails.
-/

namespace Ccf.CommandLine

/-- Whether a simulation can work with the arguments; the first that is out of bounds is named. -/
def SimulationArguments.validate (arguments : SimulationArguments) : Except CommandError Unit :=
  if arguments.maxSize = 0 ∨ MacHeader.contentMax < arguments.maxSize then
    .error (.usage ("--max-size must be between 1 and " ++ toString MacHeader.contentMax))
  else if arguments.grantSize ≤ SegmentHeader.wireSize then
    .error (.usage ("--grant-size must exceed the " ++ toString SegmentHeader.wireSize ++
      "-byte segment header"))
  else if arguments.reorderDepth = 0 then
    .error (.usage "--reorder-depth must be at least 1")
  else
    .ok ()

/-- The settings in a file.  `readFile` supplies the text of a file, and `complaint` says what keeps
a text from being that of a settings file. -/
def loadSettings (readFile : String → Except ReadFault String) (complaint : String → String) :
    Option String → Except CommandError LinkSettings
  | none => .ok .standard
  | some path =>
    match readFile path with
    | .error fault =>
      .error { code := fault.code, message := CommandError.within ("read " ++ path) fault.message }
    | .ok source =>
      match (Json.read source).bind LinkSettings.ofJson? with
      | some settings => .ok settings
      | none =>
        .error
          { code := .dataInvalid
            message := CommandError.within ("parse " ++ path) (complaint source) }

def SimulationArguments.plan (arguments : SimulationArguments) (settings : LinkSettings) :
    Simulation.Plan where
  packets := arguments.packets
  maxSize := arguments.maxSize
  grantSize := arguments.grantSize
  piggyback := arguments.piggyback
  reorderDepth := if arguments.shuffle then some arguments.reorderDepth else none
  settings :=
    match arguments.multiplier with
    | some multiplier => settings.withMultiplier multiplier
    | none => settings

/-- How a simulation that faults ends the command. -/
def CommandError.ofFault : Simulation.Fault → CommandError
  | .packet place fault =>
    { code := .internal, message := within ("build packet " ++ toString place) fault.message }
  | .segmenterSettings fault => ofSettings "packer" fault
  | .grant fault => ofBuffer "grant" fault
  | .encode fault => ofTransfer "encode" fault
  | .reassemblerSettings fault => ofSettings "unpacker" fault
  | .decode fault => ofTransfer "decode" fault
  | .reassemble fault => ofBuffer "reassemble" fault

/-- The identifier of the form that the simulation's JSON reports have. -/
def simulationSchema : String :=
  "https://schemas.3leaps.dev/ccfprims/cli/v1/simulate-report.schema.json"

def summaryEntries (seed : Nat) (summary : Simulation.Summary) : List (String × String) :=
  [("seed", Json.Writing.count seed),
    ("packets_sent", Json.Writing.count summary.packetsSent),
    ("packets_received", Json.Writing.count summary.packetsReceived),
    ("packets_matched", Json.Writing.count summary.packetsMatched),
    ("payload_bytes", Json.Writing.count summary.payloadBytes),
    ("segments", Json.Writing.count summary.segments),
    ("wire_bytes", Json.Writing.count summary.wireBytes),
    ("segments_dropped", Json.Writing.count summary.segmentsDropped),
    ("window_left", Json.Writing.count summary.windowLeft),
    ("piggyback_requested", Json.Writing.count summary.piggybackRequested),
    ("piggyback_expected", Json.Writing.count summary.piggybackExpected),
    ("piggyback_received", Json.Writing.count summary.piggybackReceived),
    ("shuffled", Json.Writing.flag summary.shuffled),
    ("ok", Json.Writing.flag summary.isConfirmed)]

def simulationReport (seed : Nat) (summary : Simulation.Summary) : Report where
  members :=
    ("schema_id", Json.Writing.text simulationSchema) :: summaryEntries seed summary
  rows := (summaryEntries seed summary).map fun (field, value) => { field := field, value := value }

def mismatchMessage (summary : Simulation.Summary) : String :=
  "reassembly mismatch: " ++ toString summary.packetsMatched ++ " of " ++
    toString summary.packetsSent ++ " packets matched, piggyback " ++
    toString summary.piggybackReceived ++ " of " ++ toString summary.piggybackExpected

/-- How a simulation ends the command. -/
def endingOf (seed : Nat) (format : ReportFormat) (summary : Simulation.Summary) : Ending :=
  let output := (simulationReport seed summary).print format
  if summary.isConfirmed then
    .success output
  else
    { code := .dataInvalid, output := output, message := some (mismatchMessage summary) }

/-- Simulate a link as the arguments say. -/
def simulate (readFile : String → Except ReadFault String) (complaint : String → String)
    (arguments : SimulationArguments) (format : ReportFormat) (chance : Chance) : Ending :=
  match arguments.validate with
  | .error error => .ofError error
  | .ok () =>
    match loadSettings readFile complaint arguments.config with
    | .error error => .ofError error
    | .ok settings =>
      match Simulation.run (arguments.plan settings) chance with
      | .error fault => .ofError (.ofFault fault)
      | .ok summary => endingOf arguments.seed format summary

end Ccf.CommandLine
