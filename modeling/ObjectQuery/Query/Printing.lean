import ObjectQuery.Query.Parsing

/-!
# Writing a query

The canonical text: one call to a line, four spaces to a level, arguments after a comma and a space,
no empty parentheses or braces, and a newline at the end. Strings are escaped to printable ASCII and
numbers have no exponents.
-/

set_option autoImplicit false

namespace ObjectQuery

def Numeral.text : Numeral → String
  | whole n => toString n
  | fraction x => String.ofList (Layout.query.number x)

def Atom.text : Atom → String
  | name s => s
  | number n => n.text
  | string s => Quoted.write s
  | literal s => s

def Argument.text (a : Argument) : String :=
  match a.name with
  | none => a.value.text
  | some name => s!"{name}: {a.value.text}"

namespace Call

def indent (depth : Nat) (line : String) : String :=
  String.ofList (List.replicate (4 * depth) ' ') ++ line

/-- A call without its selections. -/
def headText (name : String) (arguments : List Argument) : String :=
  if arguments.isEmpty then name
  else s!"{name}({Value.joined (arguments.map Argument.text)})"

mutual

def lines (depth : Nat) : Call → List String
  | mk name arguments [] _ => [indent depth (headText name arguments)]
  | mk name arguments (c :: cs) _ =>
    indent depth (headText name arguments ++ " \x7b") ::
      (linesOf (depth + 1) (c :: cs) ++ [indent depth "\x7d"])

def linesOf (depth : Nat) : List Call → List String
  | [] => []
  | c :: cs => lines depth c ++ linesOf depth cs

end

end Call

def Query.print (q : Query) : String :=
  String.join ((Call.linesOf 0 q).map (· ++ "\n"))

def Query.pretty (text : String) : Except ParseError String :=
  Query.print <$> Query.parse text

end ObjectQuery
