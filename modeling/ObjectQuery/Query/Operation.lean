/-!
# Operations

The calls that a query can make at its top, and the kind of result each one has.
-/

set_option autoImplicit false

namespace ObjectQuery

inductive Operation
  | schema
  | type
  | nodes
  | node
  | createType
  | deleteType
  | addField
  | removeField
deriving DecidableEq, Repr

namespace Operation

/-- In the order in which they are listed. -/
def all : List Operation :=
  [schema, type, nodes, node, createType, deleteType, addField, removeField]

def name : Operation → String
  | schema => "schema"
  | type => "type"
  | nodes => "nodes"
  | node => "node"
  | createType => "createType"
  | deleteType => "deleteType"
  | addField => "addField"
  | removeField => "removeField"

def returns : Operation → String
  | schema => "schema"
  | type => "type"
  | nodes => "connection"
  | node => "object"
  | createType | deleteType => "schemaResult"
  | addField | removeField => "mutationResult"

def isMutation : Operation → Bool
  | createType | deleteType | addField | removeField => true
  | _ => false

def ofName? (s : String) : Option Operation := all.find? fun operation => operation.name == s

@[simp] theorem ofName?_name (operation : Operation) : ofName? operation.name = some operation := by
  cases operation <;> rfl

theorem ofName?_eq_some_iff {s : String} {operation : Operation} :
    ofName? s = some operation ↔ s = operation.name := by
  constructor
  · intro h
    have found := List.find?_some h
    exact (beq_iff_eq.mp found).symm
  · rintro rfl
    exact ofName?_name operation

/-- The names, in the order of the alphabet. -/
def sortedNames : List String := (all.map name).mergeSort fun a b => decide (a ≤ b)

end Operation

end ObjectQuery
