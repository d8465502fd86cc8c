import ObjectQuery.Plan.Arena
import ObjectQuery.Store.Execution

/-!
# Presenting records out of an arena

Records are presented as the block at a path says, and what a step is projected to as the block at
the path of the step says. An arena may lack a block that is asked for, and it may lead around in
circles; both are failures of the same kind here, whatever that is, and the second is one after so
many blocks within each other.
-/

set_option autoImplicit false

namespace ObjectQuery

variable {σ : Type} [Store σ]

namespace Step

/-- The page of a relation, or only how many records it is of. -/
def fetchRelated (fetches : Bool) (target reverse : String) (page : Page) (owner : Value) :
    Access σ Fetched :=
  if fetches then Store.fetchRelated target reverse owner page
  else do return ⟨[], ← Store.countRelated target reverse owner⟩

/-- Presents what a step is of, given how what it is projected to is presented. -/
def evaluate (present : Path → Value → Access σ Result) (record : Value) :
    Step → Access σ Result
  | .leaf _ (.field f) => do return .value (← Access.ofExcept (record.entry f))
  | .leaf _ (.typeName t) => return .value (.text t)
  | .nested _ source fetches child =>
    match source with
    | .embedded field isList => do
      Output.unlessNull (← Access.ofExcept (record.entry field)) fun v =>
        if isList then do
          let items ← Access.ofExcept v.parts
          return .list (← items.mapM fun item => Output.unlessNull item (present child))
        else present child v
    | .listed field => do
      let v ← Access.ofExcept (record.entry field)
      present child (← Access.ofExcept (listRecord v))
    | .related field target => do
      Output.unlessNull (← Access.ofExcept (record.entry field)) fun id => do
        match ← Store.fetchById target id with
        | none => return Result.null
        | some found => present child found
    | .connection target reverse page => do
      let owner ← Access.ofExcept (record.required idName)
      let fetched ← fetchRelated fetches target reverse page owner
      present child (← Access.ofExcept (fetchedRecord fetched))

end Step

namespace Arena

/-- Presents a record as the block at a path says, with so many blocks within each other at most. -/
def present (arena : Arena) (absent : Failure) : Nat → Path → Value → Access σ Result
  | 0, _, _ => throw absent
  | height + 1, path, record =>
    match arena.lookup path with
    | none => throw absent
    | some block => do
      let entries ← block.steps.foldlM (fun entries step => do
        let shown ← step.evaluate (arena.present absent height) record
        return Dictionary.put entries step.name shown) []
      return .object entries

end Arena

/-- A call, given how what it gives is presented. -/
def CallPlan.runWith (present : Value → Access σ Result) : CallPlan → Access σ Result
  | fetchNode typeName id _ => do
    match ← Store.fetchById typeName (.text id) with
    | none => return Result.null
    | some found => present found
  | fetchNodes typeName filters page p => do
    present (← Access.ofExcept (fetchedRecord (← p.fetch typeName filters page)))
  | introspection record _ => present record
  | mutation change success failure _ => do
    present (if ← Store.change change then success else failure)

theorem CallPlan.run_eq_runWith (p : CallPlan) :
    (p.run : Access σ Result) = p.runWith p.projection.present := by
  cases p <;> rfl

/-- A call whose results are presented out of an arena. -/
def CallPlan.runIn (arena : Arena) (absent : Failure) (height : Nat) (p : CallPlan) :
    Access σ Result :=
  p.runWith (arena.present absent height [])

end ObjectQuery
