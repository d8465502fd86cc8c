import ObjectQuery.Schema.Change

/-!
# Plans

What a query comes to: for each call, the records to ask a store for and the objects to make of
them. A projection lists what an object of the result holds, in order, and within it are the
projections of the objects it holds in turn. A plan refers to no schema; it holds the names that it
needs.

The arena of a projection lists it and all the projections within, each at the path of names that
leads to it.
-/

set_option autoImplicit false

namespace ObjectQuery

/-- A page of records in order of their ids: the first ones, so many at most, of those after a
certain id. Queries ask for natural numbers and texts; what another value means is for the store to
say. -/
structure Page where
  first : Option Value := none
  after : Option Value := none

abbrev Filters : Type := List (String × Value)

inductive Leaf
  /-- What the record holds in a field. -/
  | field (name : String)
  | typeName (name : String)
deriving DecidableEq, Repr

/-- Where the object, the list or the connection that is projected comes from. -/
inductive Source
  | embedded (field : String) (isList : Bool)
  /-- A list within the record, presented as a connection. -/
  | listed (field : String)
  /-- The record of another type whose id a field holds. -/
  | related (field target : String)
  /-- The records of another type that hold the id of this one. -/
  | connection (target reverse : String) (page : Page)

inductive Output
  | leaf (name : String) (leaf : Leaf)
  | nested (name : String) (source : Source) (typeName : String) (outputs : List Output)

structure Projection where
  typeName : String
  outputs : List Output

namespace Output

def name : Output → String
  | leaf n _ => n
  | nested n _ _ _ => n

def isNested : Output → Bool
  | leaf .. => false
  | nested .. => true

@[simp] theorem name_leaf (n : String) (l : Leaf) : (leaf n l).name = n := rfl

@[simp] theorem name_nested (n : String) (s : Source) (t : String) (os : List Output) :
    (nested n s t os).name = n := rfl

end Output

/-- Whether a connection is projected to more than the number of its records. -/
def needsRecords (outputs : List Output) : Bool := outputs.any Output.isNested

theorem needsRecords_eq_false_iff (outputs : List Output) :
    needsRecords outputs = false ↔ ∀ o ∈ outputs, o.isNested = false := by
  simp [needsRecords]

abbrev Path : Type := List String

/-- The path to what an output at a path is projected to. -/
def Output.childPath? (path : Path) : Output → Option Path
  | leaf .. => none
  | nested n _ _ _ => some (path ++ [n])

namespace Projection

mutual

def arenaOf (path : Path) : Output → List (Path × Projection)
  | .leaf .. => []
  | .nested name _ typeName outputs =>
    (path ++ [name], ⟨typeName, outputs⟩) :: arenaOfAll (path ++ [name]) outputs

def arenaOfAll (path : Path) : List Output → List (Path × Projection)
  | [] => []
  | o :: os => arenaOf path o ++ arenaOfAll path os

end

def arena (p : Projection) : List (Path × Projection) := ([], p) :: arenaOfAll [] p.outputs

end Projection

inductive CallPlan
  | fetchNode (typeName id : String) (projection : Projection)
  | fetchNodes (typeName : String) (filters : Filters) (page : Page) (projection : Projection)
  /-- Metadata as it was when the query was compiled. -/
  | introspection (record : Value) (projection : Projection)
  /-- A change, and what is to be projected if it is made and if it is not. -/
  | mutation (change : SchemaChange) (success failure : Value) (projection : Projection)

def CallPlan.projection : CallPlan → Projection
  | fetchNode _ _ p => p
  | fetchNodes _ _ _ p => p
  | introspection _ p => p
  | mutation _ _ _ p => p

abbrev Plan : Type := List CallPlan

end ObjectQuery
