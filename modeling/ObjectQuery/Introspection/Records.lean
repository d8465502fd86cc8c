import ObjectQuery.Introspection.Types
import ObjectQuery.Query.Operation
import ObjectQuery.Schema.Record

/-!
# Metadata as records

Types and schemas as records of the types that describe them, and the results of schema changes. A
type is described with its plural, whether it declares one or not.
-/

set_option autoImplicit false

namespace ObjectQuery

def ObjectType.toRecord (t : ObjectType) : Value :=
  .object [
    ("name", t.name),
    ("pluralName", t.plural),
    ("kind", t.kind),
    ("description", t.description),
    ("isNode", .bool t.isNode),
    ("interfaces", t.interfaces),
    ("fields", t.members.toValue)]

def Operation.toRecord (operation : Operation) : Value :=
  .object [("name", .text operation.name), ("returns", .text operation.returns)]

/-- The types of a schema, and after them the ones that describe schemas. -/
def Schema.toRecord (s : Schema) : Value :=
  .object [
    ("calls", .list (Operation.all.map Operation.toRecord)),
    ("types", .list ((s.types ++ Metadata.types).map ObjectType.toRecord))]

/-- A type before and after a change. It is created if it was not there before, and deleted if it is
not there after. -/
structure TypeChange where
  old : Option ObjectType
  new : Option ObjectType

namespace TypeChange

def toRecord (c : TypeChange) : Value :=
  .object [
    ("oldValue", c.old.elim .null ObjectType.toRecord),
    ("newValue", c.new.elim .null ObjectType.toRecord)]

def success (changes : List TypeChange) : Value :=
  .object [("success", .bool true), ("changes", .list (changes.map toRecord))]

def failure : Value := .object [("success", .bool false), ("changes", .list [])]

end TypeChange

end ObjectQuery
