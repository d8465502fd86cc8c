import ObjectQuery.Number.Layout
import ObjectQuery.Text.Quoted
import ObjectQuery.Value.Basic

/-!
# Structured values as text

The JSON text of a value, on one line, with a space after commas and colons. Strings are printable
ASCII. Infinity and what is not a number have names in it, which not every reader takes. There is no
notation for dates and moments; a value that holds one has no text.
-/

set_option autoImplicit false

namespace ObjectQuery.Value

/-- A number, by name if it has no digits. -/
def jsonNumber : Binary64 → String
  | .nan => "NaN"
  | .signed negative rank =>
    if rank.val < Binary64.infinite then (Binary64.signed negative rank).text
    else if negative then "-Infinity"
    else "Infinity"

def jsonParts (parts : List String) : String := String.intercalate ", " parts

mutual

def json? : Value → Option String
  | null => some "null"
  | bool b => some (if b then "true" else "false")
  | int n => some (toString n)
  | float x => some (jsonNumber x)
  | text s => some (Quoted.write s)
  | date _ => none
  | moment _ => none
  | list items => do return "[" ++ jsonParts (← jsonItems? items) ++ "]"
  | object entries => do return "\x7b" ++ jsonParts (← jsonEntries? entries) ++ "\x7d"

def jsonItems? : List Value → Option (List String)
  | [] => some []
  | x :: xs => do
    let first ← json? x
    return first :: (← jsonItems? xs)

def jsonEntries? : List (String × Value) → Option (List String)
  | [] => some []
  | (name, x) :: rest => do
    let first ← json? x
    return (Quoted.write name ++ ": " ++ first) :: (← jsonEntries? rest)

end

end ObjectQuery.Value
