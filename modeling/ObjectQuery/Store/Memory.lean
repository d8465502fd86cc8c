import ObjectQuery.Schema.Snapshot
import ObjectQuery.Store.Basic
import ObjectQuery.Store.Sorting

/-!
# Stores in memory

The records of each type, in any order, and the schema. Whoever asks for records gets them by their
ids, which all have to be there; two ids that are compared have to be of a kind. A filter that wants
null is met by a record without the field.

Types of the schema may lack records, and there may be records of other types. A store that does not
accept changes makes none.
-/

set_option autoImplicit false

namespace ObjectQuery

structure Memory where
  schema : Schema
  records : List (String × List Value)
  acceptsChanges : Bool := true

namespace Memory

/-- The rules that changes of a stored schema are held to. -/
def rules : Validation.Rules := ⟨Registry.standard, []⟩

def recordsOf (m : Memory) (typeName : String) : List Value :=
  (m.records.lookup typeName).getD []

def withRecords (m : Memory) (typeName : String) (records : List Value) : Memory :=
  { m with records := (typeName, records) :: m.records.filter (·.1 != typeName) }

@[simp] theorem recordsOf_withRecords (m : Memory) (typeName : String) (records : List Value) :
    (m.withRecords typeName records).recordsOf typeName = records := by
  simp [recordsOf, withRecords]

def insert (m : Memory) (typeName : String) (record : Value) : Memory :=
  m.withRecords typeName (m.recordsOf typeName ++ [record])

/-- Whether the first of two values comes before the second. -/
def isBefore (v w : Value) : Except Misuse Bool :=
  match v.before? w with
  | some b => .ok b
  | none => .error .notOrdered

def sorted (records : List Value) : Except Misuse (List Value) := do
  let keyed ← records.mapM fun r => do return (← r.required idName, r)
  return (← Sorting.sort (fun a b => isBefore a.1 b.1) keyed).map (·.2)

def meets (filters : Filters) (record : Value) : Except Misuse Bool :=
  filters.allM fun f => do return (← record.entry f.1).equal f.2

def select (m : Memory) (typeName : String) (filters : Filters) : Except Misuse (List Value) := do
  (← sorted (m.recordsOf typeName)).filterM (meets filters)

/-- The number of records that a value asks for. -/
def countOf : Value → Except Misuse Int
  | .bool b => .ok (if b then 1 else 0)
  | .int n => .ok n
  | _ => .error .notANumber

/-- So many elements from the front of a list, or all but so many if the number is negative. -/
def firstOf {α : Type} (count : Int) (xs : List α) : List α :=
  match count with
  | .ofNat n => xs.take n
  | .negSucc n => xs.take (xs.length - (n + 1))

/-- The part of ordered records that a page shows. -/
def pageOf (page : Page) (records : List Value) : Except Misuse (List Value) := do
  let rest ←
    match page.after with
    | none => pure records
    | some cursor => records.filterM fun r => do isBefore cursor (← r.required idName)
  match page.first with
  | none => return rest
  | some count => return firstOf (← countOf count) rest

@[simp] theorem pageOf_whole (records : List Value) :
    pageOf ⟨none, none⟩ records = .ok records := rfl

def fetch (m : Memory) (typeName : String) (filters : Filters) (page : Page) :
    Except Misuse Fetched := do
  let found ← m.select typeName filters
  return ⟨← pageOf page found, found.length⟩

def find (m : Memory) (typeName : String) (id : Value) : Except Misuse (Option Value) := do
  let found ← (← sorted (m.recordsOf typeName)).filterM fun r => do
    return (← r.required idName).equal id
  return found.head?

/-- The records after a change: a new type has none yet, and those of a deleted type are dropped. -/
def recordsAfter (m : Memory) : SchemaChange → List (String × List Value)
  | .createType (some t) =>
    if (m.records.lookup t.name.inline).isSome then m.records
    else m.records ++ [(t.name.inline, [])]
  | .deleteType typeName => m.records.filter fun e => !typeName.spells e.1
  | _ => m.records

/-- The store after a change, if the change is accepted and keeps the schema valid. -/
def after (m : Memory) (c : SchemaChange) : Except Misuse (Option Memory) :=
  if !m.acceptsChanges then .ok none
  else do
    match ← m.schema.applyValidated rules c with
    | .ok s => return some { m with schema := s, records := m.recordsAfter c }
    | .error _ => return none

/-- Asks without changing anything. -/
def ask {α : Type} (f : Memory → Except Misuse α) : Access Memory α := do
  Access.ofExcept (f (← get))

instance : Store Memory where
  fetchById typeName id := ask (·.find typeName id)
  fetchMany typeName filters page := ask (·.fetch typeName filters page)
  fetchRelated typeName fieldName owner page := ask (·.fetch typeName [(fieldName, owner)] page)
  countMany typeName filters := ask fun m => return (← m.select typeName filters).length
  countRelated typeName fieldName owner :=
    ask fun m => return (← m.select typeName [(fieldName, owner)]).length
  change c := do
    match ← ask (·.after c) with
    | some m =>
      set m
      return true
    | none => return false

end Memory

end ObjectQuery
