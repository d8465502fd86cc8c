import ObjectQuery.Store.Basic

/-!
# Running a plan

The calls of a plan are run in order, and each is presented as its projection says: an object has an
entry for every output, in the same order. Records are asked for as outputs come to need them, depth
first.

A connection is presented from a record of its own, which holds the count, the records as nodes, and
the records with their cursors as edges.
-/

set_option autoImplicit false

namespace ObjectQuery

inductive Result
  | value (v : Value)
  | object (entries : List (String × Result))
  | list (items : List Result)
deriving Inhabited

namespace Result

def null : Result := value .null

end Result

def connectionRecord (records : List Value) (count : Nat) (cursors : List Value) : Value :=
  let edge (cursor record : Value) : Value := .object [("cursor", cursor), ("node", record)]
  .object [
    ("count", .int count),
    ("nodes", .list records),
    ("edges", .list (List.zipWith edge cursors records))]

/-- The cursors of elements of a list are their positions. -/
def positions (n : Nat) : List Value := (List.range n).map fun i => .text (toString i)

/-- The record for a list that is presented as a connection. What is false has no elements. -/
def listRecord (v : Value) : Except Misuse Value := do
  let elements ← if v.isTrue then v.parts else pure []
  return connectionRecord elements elements.length (positions elements.length)

/-- The record for a page of records, each by its id. -/
def fetchedRecord (f : Fetched) : Except Misuse Value := do
  let ids ← f.records.mapM (·.required idName)
  return connectionRecord f.records f.count ids

namespace Output

variable {σ : Type} [Store σ]

/-- Presents something that may be null. -/
def unlessNull (v : Value) (present : Value → Access σ Result) : Access σ Result :=
  match v with
  | .null => pure Result.null
  | v => present v

/-- The page of a relation, without its records if only the count is asked for. -/
def fetchRelated (outputs : List Output) (target reverse : String) (page : Page) (owner : Value) :
    Access σ Fetched :=
  if needsRecords outputs then Store.fetchRelated target reverse owner page
  else do return ⟨[], ← Store.countRelated target reverse owner⟩

mutual

def evaluate (record : Value) : Output → Access σ Result
  | .leaf _ (.field f) => do return .value (← Access.ofExcept (record.entry f))
  | .leaf _ (.typeName t) => return .value (.text t)
  | .nested _ source _ outputs =>
    match source with
    | .embedded field isList => do
      unlessNull (← Access.ofExcept (record.entry field)) fun v =>
        if isList then do
          let items ← Access.ofExcept v.parts
          return .list (← items.mapM fun item =>
            unlessNull item fun item => do return .object (← evaluateAll item outputs))
        else do return .object (← evaluateAll v outputs)
    | .listed field => do
      let v ← Access.ofExcept (record.entry field)
      return .object (← evaluateAll (← Access.ofExcept (listRecord v)) outputs)
    | .related field target => do
      unlessNull (← Access.ofExcept (record.entry field)) fun id => do
        match ← Store.fetchById target id with
        | none => return Result.null
        | some found => return .object (← evaluateAll found outputs)
    | .connection target reverse page => do
      let owner ← Access.ofExcept (record.required idName)
      let fetched ← fetchRelated outputs target reverse page owner
      return .object (← evaluateAll (← Access.ofExcept (fetchedRecord fetched)) outputs)

def evaluateAll (record : Value) : List Output → Access σ (List (String × Result))
  | [] => pure []
  | o :: os => do
    let shown ← evaluate record o
    return (o.name, shown) :: (← evaluateAll record os)

end

end Output

namespace Projection

variable {σ : Type} [Store σ]

def present (p : Projection) (record : Value) : Access σ Result := do
  return .object (← Output.evaluateAll record p.outputs)

/-- The page of records of a type, without them if only the count is asked for. -/
def fetch (p : Projection) (typeName : String) (filters : Filters) (page : Page) :
    Access σ Fetched :=
  if needsRecords p.outputs then Store.fetchMany typeName filters page
  else do return ⟨[], ← Store.countMany typeName filters⟩

end Projection

variable {σ : Type} [Store σ]

def CallPlan.run : CallPlan → Access σ Result
  | fetchNode typeName id p => do
    match ← Store.fetchById typeName (.text id) with
    | none => return Result.null
    | some found => p.present found
  | fetchNodes typeName filters page p => do
    p.present (← Access.ofExcept (fetchedRecord (← p.fetch typeName filters page)))
  | introspection record p => p.present record
  | mutation change success failure p => do
    p.present (if ← Store.change change then success else failure)

def Plan.run (p : Plan) : Access σ (List Result) := p.mapM CallPlan.run

end ObjectQuery
