import Ccf.Json.Writing
import Ccf.Text.Table

/-!
# Printing reports

A report is printed as one JSON document, as a table, or as assignments on one line.
-/

namespace Ccf.CommandLine

/-- The shapes in which reports are printed. -/
inductive ReportFormat where
  | json
  | table
  | pretty
deriving DecidableEq, Repr

def ReportFormat.ofName? : String → Option ReportFormat
  | "json" => some .json
  | "table" => some .table
  | "pretty" => some .pretty
  | _ => none

/-- What a command has to report: the members of a JSON document, and rows for the other shapes. -/
structure Report where
  members : List (String × String)
  rows : List Text.Row
deriving DecidableEq, Repr

def Report.print (report : Report) : ReportFormat → List String
  | .json => [Json.Writing.object report.members]
  | .table => Text.Table.lines report.rows
  | .pretty => [Text.Row.line report.rows]

end Ccf.CommandLine
