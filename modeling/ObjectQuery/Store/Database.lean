import ObjectQuery.Schema.Validation
import ObjectQuery.Store.TableLayout

/-!
# Databases

The tables of a database, each with its columns and its rows. A row holds the values of some
columns; the others are null. Names of tables and columns that differ only in the case of letters
are taken for the same.

Statements write a name as it is if that has nothing in it but small letters, digits and the like,
and quote it otherwise. A newline that ends a name is not noticed there, and one that is not quoted
means nothing: the database knows the table or column by the name without it. Words of the language
of statements are quoted to be names, but for two that are not known for such, and for those that a
newline ends; a column cannot be made with them.

A statement that cannot be run has no result.
-/

set_option autoImplicit false

namespace ObjectQuery

abbrev Row : Type := List (String × Value)

structure Table where
  name : String
  columns : List Column
  /-- In order of insertion. -/
  rows : List Row

structure Database where
  tables : List Table

namespace Identifier

def isStart (c : Char) : Bool := c.isLower || c == '_'

def isPart (c : Char) : Bool := isStart c || c.isDigit || c == '$'

/-- Whether a name is written without quotes. -/
def isBare (name : String) : Bool :=
  match Validation.withoutFinalNewline name.toList with
  | [] => false
  | c :: cs => isStart c && cs.all isPart

end Identifier

/-- What the database calls a table or a column that was named in a statement. -/
def identifier (name : String) : String :=
  if Identifier.isBare name then String.ofList (Validation.withoutFinalNewline name.toList)
  else name

/-- Words that mean something of their own in a statement wherever they stand without quotes. -/
def languageWords : List String :=
  ["add", "all", "alter", "and", "as", "autoincrement", "between", "case", "check", "collate",
    "commit", "constraint", "create", "default", "deferrable", "delete", "distinct", "drop",
    "else", "escape", "except", "exists", "foreign", "from", "group", "having", "in", "index",
    "insert", "intersect", "into", "is", "isnull", "join", "limit", "not", "nothing", "notnull",
    "null", "on", "or", "order", "primary", "references", "returning", "select", "set", "table",
    "then", "to", "transaction", "union", "unique", "update", "using", "values", "when", "where"]

/-- Those of them that are not quoted. -/
def unquotedWords : List String := ["nothing", "returning"]

/-- Whether a name means something else once it is written in a statement. -/
def isMisread (name : String) : Bool :=
  if identifier name = name then unquotedWords.contains name
  else languageWords.contains (identifier name)

/-- A name without regard to case. -/
def foldCase (name : String) : String :=
  String.ofList ((identifier name).toList.map Char.toLower)

def sameName (a b : String) : Bool := foldCase a == foldCase b

namespace Table

def hasColumn (t : Table) (name : String) : Bool := t.columns.any (sameName ·.name name)

/-- Whether a table has all the columns. -/
def hasColumns (t : Table) (columns : List Column) : Bool := columns.all (t.hasColumn ·.name)

/-- How many columns a table can have. -/
def maxColumns : Nat := 2000

/-- Whether a table can be given one more column. -/
def accepts (t : Table) (c : Column) : Bool :=
  !t.hasColumn c.name && !isMisread c.name && t.columns.length < maxColumns

end Table

def Row.get (row : Row) (name : String) : Option Value :=
  (row.find? fun e => sameName e.1 name).map (·.2)

namespace Database

def empty : Database := ⟨[]⟩

def table? (d : Database) (name : String) : Option Table := d.tables.find? (sameName ·.name name)

@[simp] theorem table?_empty (name : String) : empty.table? name = none := rfl

/-- Applies a function to a table, which has to be there and to fit. -/
def onTable (d : Database) (name : String) (f : Table → Option Table) : Option Database := do
  let t ← d.table? name
  let new ← f t
  return ⟨d.tables.map fun u => if sameName u.name name then new else u⟩

/-- Names that begin like this are the database's own. -/
def reservedTableNames : String := "sqlite_"

def isReserved (name : String) : Bool :=
  reservedTableNames.toList.isPrefixOf (foldCase name).toList

def distinctNames : List String → Bool
  | [] => true
  | n :: ns => !ns.any (sameName n) && distinctNames ns

/-- Whether a table can have some columns and no others. -/
def canHave (columns : List Column) : Bool :=
  distinctNames (columns.map (·.name)) && columns.all (!isMisread ·.name) &&
    columns.length ≤ Table.maxColumns

def createTable (d : Database) (l : TableLayout) : Option Database :=
  if (d.table? l.name).isSome || isReserved l.name || !canHave l.columns then none
  else some ⟨d.tables ++ [⟨l.name, l.columns, []⟩]⟩

def dropTable (d : Database) (name : String) : Option Database :=
  if (d.table? name).isSome then some ⟨d.tables.filter (!sameName ·.name name)⟩ else none

/-- Adds a column that is null in all rows. -/
def addColumn (d : Database) (name : String) (c : Column) : Option Database :=
  d.onTable name fun t =>
    if t.accepts c then some { t with columns := t.columns ++ [c] } else none

def dropColumn (d : Database) (name column : String) : Option Database :=
  d.onTable name fun t =>
    if t.hasColumn column then
      some { t with
        columns := t.columns.filter (!sameName ·.name column)
        rows := t.rows.map fun row => row.filter (!sameName ·.1 column) }
    else none

end Database

/-- The tables as the database lists them, each with the names and the types of its columns. -/
def Database.catalog (d : Database) : List (String × List (String × ColumnType)) :=
  d.tables.map fun t => (identifier t.name, t.columns.map fun c => (identifier c.name, c.type))

/-- What changes the tables, if it can be run. -/
abbrev Statement : Type := Database → Option Database

/-- Runs statements one after the other up to the first that cannot be run, and says whether there
was none. -/
def Database.run (d : Database) : List Statement → Database × Bool
  | [] => (d, true)
  | statement :: rest =>
    match statement d with
    | some e => e.run rest
    | none => (d, false)

end ObjectQuery
