import ObjectQuery.Schema.Kind
import ObjectQuery.Schema.Registry

/-!
# Tables for a schema

Every type whose records have an id is stored in a table of its name, with a column for each field
that is stored. A single value has a column of its scalar's type, a reference to a node the id that
it refers to, and everything that is part of the record itself is one value with a structure. A
connection is not stored: it is the other end of a reference. Built-in fields come last.

Tables have different names, and so have the columns of a table, all of which have one. The tables
of a valid schema are like that; for any other one it is checked while they are laid out.
-/

set_option autoImplicit false

namespace ObjectQuery

inductive ColumnType
  | varchar
  | text
  | integer
  | float
  | boolean
  | datetime
  | json
deriving DecidableEq, Repr

structure Column where
  name : String
  type : ColumnType
  /-- The key tells rows apart and is never missing. -/
  isKey : Bool := false
deriving DecidableEq, Repr

structure TableLayout where
  name : String
  columns : List Column
deriving DecidableEq, Repr

namespace ColumnType

def name : ColumnType → String
  | varchar => "VARCHAR"
  | text => "TEXT"
  | integer => "INTEGER"
  | float => "FLOAT"
  | boolean => "BOOLEAN"
  | datetime => "DATETIME"
  | json => "JSON"

def ofScalar : Scalar → ColumnType
  | .id => varchar
  | .string => text
  | .int => integer
  | .float => float
  | .boolean => boolean
  | .datetime => datetime

end ColumnType

/-- The column for a field of a kind, if it is stored. -/
def FieldKind.column? (name : String) : FieldKind → Option Column
  | scalar s => some ⟨name, .ofScalar s, name == idName⟩
  | reference _ isNode => some { name := name, type := if isNode then .varchar else .json }
  | connection .. => none
  | scalarList _ => some { name := name, type := .json }
  | objectList _ => some { name := name, type := .json }

def TableLayout.column? (l : TableLayout) (name : String) : Option Column :=
  l.columns.find? (·.name == name)

inductive LayoutError
  | kind (e : KindError)
  | unnamedColumn
  | repeatedColumn
  | repeatedTable

namespace TableLayout

def addColumn (l : TableLayout) (c : Column) : Except LayoutError TableLayout :=
  if c.name.isEmpty then .error .unnamedColumn
  else if (l.column? c.name).isSome then .error .repeatedColumn
  else .ok { l with columns := l.columns ++ [c] }

def ofColumns (name : String) (columns : List Column) : Except LayoutError TableLayout :=
  columns.foldlM addColumn ⟨name, []⟩

def addTo (tables : List TableLayout) (name : String) (columns : List Column) :
    Except LayoutError (List TableLayout) := do
  if tables.any (·.name == name) then throw .repeatedTable
  return tables ++ [← ofColumns name columns]

end TableLayout

namespace Schema

/-- The name of the column for a field. What is no name is no text either. -/
def columnName (f : Field) : String := if f.name.isNull then "" else f.name.inline

/-- The columns for the fields that a type declares. -/
def columns (s : Schema) (t : ObjectType) : Except KindError (List Column) := do
  let kinds ← (← t.members.entries.mapError .misuse).mapM fun m => do
    let f ← m.get.mapError KindError.misuse
    return (columnName f, ← s.kindOf f)
  return kinds.filterMap fun k => k.2.column? k.1

def builtInColumns (r : Registry) (t : ObjectType) : List Column :=
  (r.typeFields t.name).map fun f => { name := columnName f, type := .json }

/-- Adds the table for a type. -/
def addLayout (s : Schema) (r : Registry) (tables : List TableLayout) (t : ObjectType) :
    Except LayoutError (List TableLayout) := do
  let columns ← (s.columns t).mapError .kind
  TableLayout.addTo tables t.name.inline (columns ++ builtInColumns r t)

def layouts (s : Schema) (r : Registry) : Except LayoutError (List TableLayout) :=
  (s.types.filter ObjectType.isNode).foldlM (s.addLayout r) []

end Schema

end ObjectQuery
