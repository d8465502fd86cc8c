import ObjectQuery.Schema.Snapshot
import ObjectQuery.Store.Basic
import ObjectQuery.Store.Cell
import ObjectQuery.Store.Database

/-!
# Stores in a database

A schema, its tables as they should be, and a database that may lack some of them. What is read from
the database has an entry for every column. Ids are texts, ordered by their characters.

Records are inserted all together or not at all; the keys of the first one decide which columns are
filled. A change of the schema takes several statements, and what one of them did stays if a later
one fails, but then the schema is as before.
-/

set_option autoImplicit false

namespace ObjectQuery

structure Relational where
  registry : Registry
  schema : Schema
  layouts : List TableLayout
  database : Database
  layouts_eq : schema.layouts registry = .ok layouts

namespace Relational

inductive SetupError
  | layout (e : LayoutError)
  | failed (f : Failure)

def withoutTables (r : Registry) (s : Schema) : Except SetupError Relational :=
  match h : s.layouts r with
  | .ok layouts => .ok ⟨r, s, layouts, Database.empty, h⟩
  | .error e => .error (.layout e)

def create (r : Registry) (s : Schema) : Except SetupError Relational := do
  let store ← withoutTables r s
  match store.layouts.foldlM Database.createTable store.database with
  | some d => return { store with database := d }
  | none => throw (.failed (.fault .notCreated))

def layout (r : Relational) (typeName : String) : Except Failure TableLayout :=
  match r.layouts.find? (·.name == typeName) with
  | some l => .ok l
  | none => .error (.fault (.noTable typeName))

/-- A column that has to be there. -/
def column (l : TableLayout) (name : String) : Except Failure Column :=
  match l.column? name with
  | some c => .ok c
  | none => .error (.misuse .missingEntry)

/-- What a column is to hold: a value, or nothing. -/
structure Condition where
  column : Column
  wanted : Value

/-- A condition that rows can be held against. -/
structure Test where
  column : Column
  wanted : Wanted

def Test.holds (t : Test) (row : Row) : Bool :=
  t.wanted.isHeld t.column.type (row.get t.column.name)

def Condition.test (c : Condition) : Except Unstorable Test := do
  return ⟨c.column, ← c.column.type.wanted c.wanted⟩

def conditions (l : TableLayout) (filters : Filters) : Except Failure (List Condition) :=
  filters.mapM fun f => do return ⟨← column l f.1, f.2⟩

/-- How a statement fails whose values cannot all be stored or compared. -/
def failureOf (otherwise : Fault) : Unstorable → Failure
  | .unreadable => .fault otherwise
  | .refused => .fault otherwise
  | .tooWide => .misuse .outOfRange

/-- The tests for some conditions. All values are read before the database gets the first one. -/
def tests (otherwise : Fault) (cs : List Condition) : Except Failure (List Test) :=
  if cs.any fun c => c.test matches .error .unreadable then .error (.fault otherwise)
  else cs.mapM fun c => c.test.mapError (failureOf otherwise)

/-- The rows of a table that meet conditions. -/
def matching (r : Relational) (l : TableLayout) (otherwise : Fault) (cs : List Condition) :
    Except Failure (List Row) :=
  match r.database.table? l.name with
  | none => .error (.fault otherwise)
  | some t =>
    if t.hasColumns (cs.map (·.column)) then do
      let tests ← tests otherwise cs
      return t.rows.filter fun row => tests.all (·.holds row)
    else .error (.fault otherwise)

def record (l : TableLayout) (row : Row) : Value :=
  .object (l.columns.map fun c => (c.name, (row.get c.name).getD .null))

def idOf (row : Row) : String :=
  match row.get idName with
  | some v => v.inline
  | none => ""

def count (r : Relational) (l : TableLayout) (cs : List Condition) : Except Failure Nat := do
  return (← r.matching l (.notCounted l.name) cs).length

/-- The rows that meet conditions, in order of their ids. -/
def rows (r : Relational) (l : TableLayout) (cs : List Condition) : Except Failure (List Row) := do
  if (r.database.table? l.name).any (·.hasColumns l.columns) then
    let found ← r.matching l .notQueried cs
    return found.mergeSort fun a b => decide (idOf a ≤ idOf b)
  else throw (.fault .notQueried)

/-- A page as a statement asks for it. -/
structure Slice where
  after : Option Value
  limit : Option Int

namespace Slice

/-- The number of rows that a value asks for. Fractions do not count. -/
def limitOf : Value → Except Misuse Int
  | .bool b => .ok (if b then 1 else 0)
  | .int n => .ok n
  | .float x =>
    if x = .nan then .error .notANumeral
    else
      match x.whole? with
      | some n => .ok n
      | none => .error .outOfRange
  | .text s =>
    match readInt? s with
    | some n => .ok n
    | none => .error .notANumeral
  | _ => .error .notANumber

/-- A cursor: anything but a truth value. -/
def cursorOf : Value → Except Misuse Value
  | .bool _ => .error .notABound
  | v => .ok v

def ofPage (page : Page) : Except Misuse Slice := do
  let after ← page.after.mapM cursorOf
  return ⟨after, ← page.first.mapM limitOf⟩

def rowsAfter (cursor : Value) (rows : List Row) : Except Failure (List Row) := do
  match ← (ColumnType.varchar.wanted cursor).mapError (failureOf .notQueried) with
  | .datum d => return rows.filter fun row => decide (d.asText < idOf row)
  | _ => return []

/-- The first rows, all of them if the number is negative. -/
def firstOf (count : Int) (rows : List Row) : Except Failure (List Row) :=
  if !Datum.fits count then .error (.misuse .outOfRange)
  else if count < 0 then .ok rows
  else .ok (rows.take count.natAbs)

def cut (s : Slice) (rows : List Row) : Except Failure (List Row) := do
  let rest ← s.after.elim (pure rows) (rowsAfter · rows)
  s.limit.elim (pure rest) (firstOf · rest)

end Slice

def fetch (r : Relational) (typeName : String) (filters : Filters) (page : Page) :
    Except Failure Fetched := do
  let l ← r.layout typeName
  let cs ← conditions l filters
  let total ← r.count l cs
  let _ ← column l idName
  let slice ← (Slice.ofPage page).mapError Failure.misuse
  let found ← slice.cut (← r.rows l cs)
  return ⟨found.map (record l), total⟩

def countMany (r : Relational) (typeName : String) (filters : Filters) : Except Failure Nat := do
  let l ← r.layout typeName
  r.count l (← conditions l filters)

def find (r : Relational) (typeName : String) (id : Value) : Except Failure (Option Value) := do
  let l ← r.layout typeName
  let c ← column l idName
  return (← r.rows l [⟨c, id⟩]).head?.map (record l)

/-- The columns that are filled: those that the first record has an entry for. -/
def filledColumns (l : TableLayout) (first : Value) : List Column :=
  l.columns.filter fun c => (first.required c.name).isOk

/-- The value for each of some columns. A record has to have all of them. -/
def valuesOf (columns : List Column) (record : Value) : Option (List (Column × Value)) :=
  columns.mapM fun c =>
    match record.required c.name with
    | .ok v => some (c, v)
    | .error _ => none

/-- The row for some values. What is null is left out. -/
def rowOf (values : List (Column × Value)) : Except Unstorable Row := do
  let cells ← values.mapM fun e => do return (e.1.name, ← e.1.type.cell e.2)
  return cells.filterMap fun e => e.2.map fun v => (e.1, v)

/-- Whether a column can make sense of each of some values. -/
def readable (values : List (Column × Value)) : Bool :=
  values.all fun e => !(e.1.type.cell e.2 matches .error .unreadable)

/-- Whether a row can be added: it has a key that no other row has. A table may have no key. -/
def admits (t : Table) (row : Row) : Bool :=
  match t.columns.find? (·.isKey) with
  | none => true
  | some key =>
    (row.get key.name).any fun v => !t.rows.any fun other => (other.get key.name).any (·.equal v)

def insertRow (otherwise : Fault) (t : Table) (row : Except Unstorable Row) :
    Except Failure Table := do
  let row ← row.mapError (failureOf otherwise)
  if admits t row then return { t with rows := t.rows ++ [row] } else throw (.fault otherwise)

/-- The table for a type after an insertion. -/
def insertInto (t : Table) (l : TableLayout) (records : List Value) (otherwise : Fault) :
    Except Failure Table := do
  let first := records.head?.getD (.object [])
  let columns := filledColumns l first
  let some values := records.mapM (valuesOf columns) | throw (.fault otherwise)
  if !t.hasColumns columns || !values.all readable then throw (.fault otherwise)
  let rows := if values.isEmpty then [.ok []] else values.map rowOf
  rows.foldlM (insertRow otherwise) t

def insert (r : Relational) (typeName : String) (records : Value) : Except Failure Relational := do
  let l ← r.layout typeName
  let records ← (Record.gatherAll records).mapError Failure.misuse
  let some t := r.database.table? l.name | throw (.fault (.notInserted typeName))
  let new ← insertInto t l records (.notInserted typeName)
  match r.database.onTable l.name fun _ => some new with
  | some d => return { r with database := d }
  | none => throw (.fault (.notInserted typeName))

def layout? (layouts : List TableLayout) (typeName : Value) : Option TableLayout :=
  layouts.find? (typeName.spells ·.name)

/-- Drops the column of a field, if there should be one. -/
def dropStored (layouts : List TableLayout) (spot : Spot) : List Statement :=
  match layout? layouts spot.typeName, spot.fieldName with
  | some l, .text name =>
    if (l.column? name).isSome then [(·.dropColumn l.name name)] else []
  | _, _ => []

/-- The statements for a change, given the tables as they should be before and after it and the
fields that refer to a deleted type. -/
def migration (before after : List TableLayout) (referring : List Spot) :
    SchemaChange → List Statement
  | .createType new =>
    match new.bind fun t => layout? after t.name with
    | some l => [(·.createTable l)]
    | none => []
  | .deleteType typeName =>
    referring.flatMap (dropStored before) ++
      match layout? before typeName with
      | some l => [(·.dropTable l.name)]
      | none => []
  | .addField typeName member =>
    match layout? after typeName, member.field?.bind (·.name.text?) with
    | some l, some name =>
      match l.column? name with
      | some c => [(·.addColumn l.name c)]
      | none => []
    | _, _ => []
  | .removeField typeName fieldName => dropStored before ⟨typeName, fieldName⟩

/-- The fields that refer to the type that a change deletes. -/
def referring (s : Schema) : SchemaChange → Except Misuse (List Spot)
  | .deleteType typeName => s.referring typeName
  | _ => .ok []

/-- The statements for a change, and the store that has the changed schema but not yet the tables
for it. There is none if the change leaves the schema invalid. -/
def prepare (r : Relational) (c : SchemaChange) :
    Except Failure (Option (Relational × List Statement)) := do
  match ← (r.schema.applyValidated ⟨r.registry, []⟩ c).mapError .misuse with
  | .error _ => return none
  | .ok s =>
    match h : s.layouts r.registry with
    | .error _ => throw (.fault .notChanged)
    | .ok layouts =>
      let spots ← (referring r.schema c).mapError Failure.misuse
      return some (⟨r.registry, s, layouts, r.database, h⟩, migration r.layouts layouts spots c)

/-- Asks without changing anything. -/
def ask {α : Type} (f : Relational → Except Failure α) : Access Relational α := do
  match f (← get) with
  | .ok a => return a
  | .error e => throw e

def insertRecords (typeName : String) (records : Value) : Access Relational Unit := do
  set (← ask (·.insert typeName records))

instance : Store Relational where
  fetchById typeName id := ask (·.find typeName id)
  fetchMany typeName filters page := ask (·.fetch typeName filters page)
  fetchRelated typeName fieldName owner page := ask (·.fetch typeName [(fieldName, owner)] page)
  countMany typeName filters := ask (·.countMany typeName filters)
  countRelated typeName fieldName owner := ask (·.countMany typeName [(fieldName, owner)])
  change c := do
    match ← ask (·.prepare c) with
    | none => return false
    | some (changed, statements) =>
      match changed.database.run statements with
      | (database, true) =>
        set { changed with database }
        return true
      | (database, false) =>
        modify fun r => { r with database }
        throw (.fault .notChanged)

end Relational

end ObjectQuery
