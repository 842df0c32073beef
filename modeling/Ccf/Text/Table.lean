/-!
# Tables of two columns

A table is drawn with box characters: a header over a double rule, a dotted rule between rows, and
every column as wide as its widest cell.  Cells hold single lines.
-/

namespace Ccf.Text

/-- A line of a report: what is reported and its value. -/
structure Row where
  field : String
  value : String
deriving DecidableEq, Repr

namespace Row

def header : Row := { field := "FIELD", value := "VALUE" }

/-- The row as an assignment. -/
def assignment (row : Row) : String := row.field ++ "=" ++ row.value

/-- All rows as assignments on one line. -/
def line (rows : List Row) : String := " ".intercalate (rows.map assignment)

end Row

namespace Table

def width (cells : List String) : Nat := (cells.map String.length).foldl max 0

/-- A cell with blanks on both sides, filled up to the width of its column. -/
def cell (width : Nat) (text : String) : String :=
  " " ++ text ++ String.ofList (List.replicate (width - text.length) ' ') ++ " "

def rowLine (fieldWidth valueWidth : Nat) (row : Row) : String :=
  "│" ++ cell fieldWidth row.field ++ "┆" ++ cell valueWidth row.value ++ "│"

/-- A level rule with the given ends, crossing and stroke. -/
def rule (fieldWidth valueWidth : Nat) (left crossing right : String) (stroke : Char) : String :=
  left ++ String.ofList (List.replicate (fieldWidth + 2) stroke) ++ crossing ++
    String.ofList (List.replicate (valueWidth + 2) stroke) ++ right

def lines (rows : List Row) : List String :=
  let fieldWidth := width ((Row.header :: rows).map Row.field)
  let valueWidth := width ((Row.header :: rows).map Row.value)
  let dotted := rule fieldWidth valueWidth "├" "┼" "┤" '╌'
  [rule fieldWidth valueWidth "┌" "┬" "┐" '─', rowLine fieldWidth valueWidth Row.header,
    rule fieldWidth valueWidth "╞" "╪" "╡" '═'] ++
    (rows.map (rowLine fieldWidth valueWidth)).intersperse dotted ++
    [rule fieldWidth valueWidth "└" "┴" "┘" '─']

end Table

end Ccf.Text
