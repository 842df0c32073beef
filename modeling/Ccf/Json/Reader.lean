import Ccf.Json.Token

/-!
# Reading a JSON document

The reader goes through the tokens once and keeps a stack of the arrays and objects that are open.
Between two tokens it either waits for something particular or has just completed a value; a
document is read when a value is complete, nothing is open and no token is left.
-/

namespace Ccf.Json

/-- An array or an object that is not closed yet, with what it holds so far, newest first. -/
inductive Frame where
  | array (items : List Json)
  | object (members : List (Option String × Json)) (key : Option String)
deriving Repr

/-- What the reader waits for; the stack has the innermost frame first. -/
inductive Progress where
  | value (stack : List Frame)
  /-- The first item of an array, or its end. -/
  | firstItem (stack : List Frame)
  /-- The first key of an object, or its end. -/
  | firstKey (stack : List Frame)
  /-- Another key of an object. -/
  | nextKey (members : List (Option String × Json)) (stack : List Frame)
  /-- The colon after a key. -/
  | colon (members : List (Option String × Json)) (key : Option String) (stack : List Frame)
  /-- What may follow a complete value. -/
  | complete (value : Json) (stack : List Frame)
deriving Repr

/-- The progress made by a token where a value may start. -/
def startValue (stack : List Frame) : Token → Option Progress
  | .null => some (.complete .null stack)
  | .bool value => some (.complete (.bool value) stack)
  | .number numeral => some (.complete (.number numeral) stack)
  | .string text => some (.complete (.string text) stack)
  | .openArray => some (.firstItem stack)
  | .openObject => some (.firstKey stack)
  | _ => none

def afterValue (value : Json) : List Frame → Token → Option Progress
  | .array items :: stack, .comma => some (.value (.array (value :: items) :: stack))
  | .array items :: stack, .closeArray => some (.complete (.array (value :: items).reverse) stack)
  | .object members key :: stack, .comma => some (.nextKey ((key, value) :: members) stack)
  | .object members key :: stack, .closeObject =>
    some (.complete (.object ((key, value) :: members).reverse) stack)
  | _, _ => none

def advance : Progress → Token → Option Progress
  | .value stack, token => startValue stack token
  | .firstItem stack, .closeArray => some (.complete (.array []) stack)
  | .firstItem stack, token => startValue (.array [] :: stack) token
  | .firstKey stack, .closeObject => some (.complete (.object []) stack)
  | .firstKey stack, .string key => some (.colon [] key stack)
  | .nextKey members stack, .string key => some (.colon members key stack)
  | .colon members key stack, .colon => some (.value (.object members key :: stack))
  | .complete value stack, token => afterValue value stack token
  | _, _ => none

def read (source : String) : Option Json :=
  match tokens source with
  | none => none
  | some list =>
    match list.foldlM advance (.value []) with
    | some (.complete value []) => some value
    | _ => none

end Ccf.Json
