import Ccf.Collaborator
import Ccf.CommandLine.Report

/-!
# Arguments

The arguments name one command; options for all commands may stand before or after its name, and
the ones after it win.  An option is given as `--name value` or `--name=value`, at most once on
either side of the command's name; a value that follows its option does not start with a dash
unless it is a lone dash.  After `--` everything is an operand.

Arguments are gone through from left to right, and the first that is wrong, or that asks for help or
the version, decides the outcome.
-/

namespace Ccf.CommandLine

structure SimulationArguments where
  packets : Nat
  maxSize : Nat
  /-- The size of every grant, segment header included. -/
  grantSize : Nat
  /-- Bytes in a unit of request at both ends, if given. -/
  multiplier : Option Nat
  /-- Bytes of request handed in with the first grant. -/
  piggyback : Nat
  seed : Nat
  shuffle : Bool
  reorderDepth : Nat
  config : Option String
deriving DecidableEq, Repr

inductive Command where
  | simulate (arguments : SimulationArguments)
  | decode (hex : String)
  | version (extended : Bool)
deriving DecidableEq, Repr

inductive Request where
  | run (command : Command) (format : Option ReportFormat)
  | help
  | version
  | misuse
deriving DecidableEq, Repr

/-- A decimal number of 64 bits, possibly with a plus sign. -/
def amount? (text : String) : Option Nat :=
  let digits := match text.toList with
    | '+' :: rest => rest
    | chars => chars
  if digits.isEmpty || !digits.all Char.isDigit then
    none
  else
    let value := digits.foldl (fun value char => value * 10 + (char.toNat - 48)) 0
    if value ≤ amountMax then some value else none

/-- Whether an argument cannot be the value of the option before it. -/
def looksLikeOption (argument : String) : Bool :=
  match argument.toList with
  | '-' :: _ :: _ => true
  | _ => false

/-! ## Scanning -/

/-- An option of a command. -/
structure OptionRule where
  name : String
  takesValue : Bool
  /-- Whether a value can be used. -/
  accepts : String → Bool

/-- The options and operands that may stand at one place of the arguments. -/
structure Level where
  rules : List OptionRule
  operands : Nat
  /-- The names of commands of which one has to follow. -/
  commands : List String
  /-- Whether the version may be asked for. -/
  versioned : Bool

/-- What has been found at one place of the arguments. -/
structure Found where
  /-- The options by name, with their values. -/
  options : List (String × String)
  operands : List String
deriving DecidableEq, Repr

namespace Found

def nothing : Found := { options := [], operands := [] }

def value? (found : Found) (name : String) : Option String := found.options.lookup name

def has (found : Found) (name : String) : Bool := (found.value? name).isSome

def withOption (found : Found) (name value : String) : Found :=
  { found with options := (name, value) :: found.options }

def withOperand (found : Found) (operand : String) : Found :=
  { found with operands := found.operands ++ [operand] }

/-- The value of an option that is a number, or the standard value if it was not given. -/
def amountOr (found : Found) (name : String) (standard : Nat) : Nat :=
  ((found.value? name).bind amount?).getD standard

end Found

/-- Where going through the arguments of a level ends. -/
inductive Scan where
  | complete (found : Found)
  /-- A command's name, with the arguments after it. -/
  | command (name : String) (rest : List String) (found : Found)
  | help
  | version
  | misuse
deriving DecidableEq, Repr

inductive ArgumentShape where
  | separator
  | long (name : String) (attached : Option String)
  | short (letter : Char)
  | operand
deriving DecidableEq, Repr

def ArgumentShape.of (argument : String) : ArgumentShape :=
  match argument.toList with
  | ['-', '-'] => .separator
  | '-' :: '-' :: rest =>
    match rest.dropWhile (· ≠ '=') with
    | [] => .long (String.ofList rest) none
    | _ :: value =>
      .long (String.ofList (rest.takeWhile (· ≠ '='))) (some (String.ofList value))
  | '-' :: letter :: _ => .short letter
  | _ => .operand

def Level.rule? (level : Level) (name : String) : Option OptionRule :=
  level.rules.find? fun rule => rule.name == name

/-- Take the arguments after a separator as operands. -/
def Level.scanOperands (level : Level) (arguments : List String) (found : Found) : Scan :=
  if !level.commands.isEmpty then .misuse
  else if level.operands < found.operands.length + arguments.length then .misuse
  else .complete { found with operands := found.operands ++ arguments }

/-- Go through the arguments of a level. -/
def Level.scan (level : Level) : List String → Found → Scan
  | [], found => if level.commands.isEmpty then .complete found else .misuse
  | argument :: rest, found =>
    match ArgumentShape.of argument with
    | .separator => level.scanOperands rest found
    | .short 'h' => .help
    | .short 'V' => if level.versioned then .version else .misuse
    | .short _ => .misuse
    | .long "help" none => .help
    | .long "version" none => if level.versioned then .version else .misuse
    | .long name attached =>
      match level.rule? name with
      | none => .misuse
      | some rule =>
        if found.has name then
          .misuse
        else if rule.takesValue then
          match attached, rest with
          | some value, rest =>
            if rule.accepts value then level.scan rest (found.withOption name value) else .misuse
          | none, value :: later =>
            if looksLikeOption value || !rule.accepts value then .misuse
            else level.scan later (found.withOption name value)
          | none, [] => .misuse
        else if attached.isNone then
          level.scan rest (found.withOption name "")
        else
          .misuse
    | .operand =>
      if level.commands.isEmpty then
        if found.operands.length < level.operands then
          level.scan rest (found.withOperand argument)
        else
          .misuse
      else if level.commands.contains argument then
        .command argument rest found
      else
        .misuse

/-! ## The commands -/

def amountRule (name : String) : OptionRule :=
  { name := name, takesValue := true, accepts := fun value => (amount? value).isSome }

def choiceRule (name : String) (choices : List String) : OptionRule :=
  { name := name, takesValue := true, accepts := fun value => choices.contains value }

def pathRule (name : String) : OptionRule :=
  { name := name, takesValue := true, accepts := fun value => !value.isEmpty }

def flagRule (name : String) : OptionRule :=
  { name := name, takesValue := false, accepts := fun _ => true }

def sharedRules : List OptionRule :=
  [choiceRule "format" ["json", "table", "pretty"], choiceRule "log-format" ["text", "json"],
    choiceRule "log-level" ["off", "error", "warn", "info", "debug", "trace"]]

def commandNames : List String := ["simulate", "decode", "version"]

def topLevel : Level :=
  { rules := sharedRules, operands := 0, commands := "help" :: commandNames, versioned := true }

def simulateLevel : Level where
  rules := sharedRules ++ ["packets", "max-size", "grant-size", "multiplier", "piggyback", "seed",
    "reorder-depth"].map amountRule ++ [flagRule "no-shuffle", pathRule "config"]
  operands := 0
  commands := []
  versioned := false

def decodeLevel : Level :=
  { rules := sharedRules, operands := 1, commands := [], versioned := false }

def versionLevel : Level :=
  { rules := sharedRules ++ [flagRule "extended"], operands := 0, commands := [],
    versioned := false }

/-- The simulation that options describe.  A seed that is not given is taken from the environment,
if that has one; a seed there has to be a number. -/
def simulationOf? (environmentSeed : Option String) (found : Found) : Option Command :=
  let seed := match found.value? "seed", environmentSeed with
    | some text, _ => amount? text
    | none, some text => amount? text
    | none, none => some 1
  seed.map fun seed =>
    .simulate
      { packets := found.amountOr "packets" 100
        maxSize := found.amountOr "max-size" 1500
        grantSize := found.amountOr "grant-size" 256
        multiplier := (found.value? "multiplier").bind amount?
        piggyback := found.amountOr "piggyback" 0
        seed := seed
        shuffle := !found.has "no-shuffle"
        reorderDepth := found.amountOr "reorder-depth" 1024
        config := found.value? "config" }

/-- A command with the options for all commands, of which those after its name win. -/
def requestOf (before found : Found) : Option Command → Request
  | none => .misuse
  | some command =>
    let name := match found.value? "format" with
      | some name => some name
      | none => before.value? "format"
    .run command (name.bind ReportFormat.ofName?)

/-- The arguments after a command's name. -/
def scanCommand (environmentSeed : Option String) (name : String) (rest : List String)
    (before : Found) : Request :=
  let level := match name with
    | "simulate" => simulateLevel
    | "decode" => decodeLevel
    | _ => versionLevel
  match level.scan rest .nothing with
  | .complete found =>
    requestOf before found
      (match name with
      | "simulate" => simulationOf? environmentSeed found
      | "decode" => found.operands.head?.map Command.decode
      | _ => some (.version (found.has "extended")))
  | .help => .help
  | _ => .misuse

/-- Whether help is asked for about something that there is. -/
def isHelpTopic : List String → Bool
  | [] => true
  | [name] => ("help" :: commandNames).contains name
  | _ => false

/-- What the arguments ask for.  `environmentSeed` is the seed that the environment supplies. -/
def parse (environmentSeed : Option String) (arguments : List String) : Request :=
  match topLevel.scan arguments .nothing with
  | .command "help" rest _ => if isHelpTopic rest then .help else .misuse
  | .command name rest before => scanCommand environmentSeed name rest before
  | .help => .help
  | .version => .version
  | _ => .misuse

end Ccf.CommandLine
