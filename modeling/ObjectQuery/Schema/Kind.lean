import ObjectQuery.Scalar.Basic
import ObjectQuery.Schema.Definition
import ObjectQuery.Value.Text

/-!
# Kinds of fields

What a field holds, decided from its declared type: one value of a scalar type, one object, a list
of either, or a connection. Objects with an id are referred to; others are part of the object they
are in. The markers come before everything else, and scalar names before type names.

On a valid schema every field has a kind. Elsewhere there may be a reason why one has none.
-/

set_option autoImplicit false

namespace ObjectQuery

inductive FieldKind
  | scalar (scalar : Scalar)
  | reference (typeName : String) (isNode : Bool)
  | connection (typeName reverseName : Value)
  | scalarList (scalar : Scalar)
  | objectList (typeName : String)

inductive KindDefect
  | incompleteConnection (f : Field)
  | unknownElement (f : Field)
  | unknownType (f : Field)

inductive KindError
  | defect (d : KindDefect)
  | misuse (m : Misuse)

/-- The attributes of a field, each with its name. -/
def Field.literal (f : Field) : String :=
  let attributes := [
    ("name", f.name), ("type", f.type), ("of_type", f.ofType), ("description", f.description),
    ("deprecation_reason", f.deprecationReason), ("reverse_name", f.reverseName),
    ("unique", f.unique), ("non_null", f.nonNull)]
  let texts := attributes.map fun a => s!"{a.1}={a.2.literal}"
  s!"Field({Value.joined texts})"

def KindDefect.message : KindDefect → String
  | incompleteConnection f =>
    s!"Connection field {f.literal} passed validation without ofType or reverseName."
  | unknownElement f => s!"List field {f.literal} passed validation with an unknown ofType."
  | unknownType f => s!"Field {f.literal} passed validation with an unknown type."

namespace Schema

/-- The type that a value names, and its name. -/
def named (s : Schema) (v : Value) (missing : KindDefect) :
    Except KindError (String × ObjectType) :=
  match v with
  | .text name =>
    match s.type? name with
    | some t => .ok (name, t)
    | none => .error (.defect missing)
  | v => .error (if v.isKey then .defect missing else .misuse .notAKey)

def kindOf (s : Schema) (f : Field) : Except KindError FieldKind :=
  if f.isConnection then
    if f.ofType.isNull || f.reverseName.isNull then .error (.defect (.incompleteConnection f))
    else .ok (.connection f.ofType f.reverseName)
  else if f.isList then
    match Scalar.named? f.ofType with
    | some scalar => .ok (.scalarList scalar)
    | none => do
      let (name, _) ← s.named f.ofType (.unknownElement f)
      return .objectList name
  else
    match Scalar.named? f.type with
    | some scalar => .ok (.scalar scalar)
    | none => do
      let (name, t) ← s.named f.type (.unknownType f)
      return .reference name t.isNode

end Schema

end ObjectQuery
