import ObjectQuery.Schema.Record
import ObjectQuery.Schema.Validation

/-!
# Changes of a schema

The four ways to change a schema, and what each one makes of it. A type is deleted together with the
fields of other types that refer to it. Nothing is checked but that the type and the field are
there: the result may be invalid, and a change that is to keep a schema valid goes through
`applyValidated`.
-/

set_option autoImplicit false

namespace ObjectQuery

inductive SchemaChange
  /-- The type may be missing, which no schema has room for. -/
  | createType (type : Option ObjectType)
  | deleteType (typeName : Value)
  | addField (typeName : Value) (member : Member)
  | removeField (typeName fieldName : Value)

inductive Missing
  | type (typeName : Value)
  | field (typeName fieldName : Value)

inductive ChangeError
  | missing (m : Missing)
  | misuse (m : Misuse)

def Missing.message : Missing → String
  | type typeName => s!"Cannot change type {typeName.inline}, which is not in the schema."
  | field typeName fieldName =>
    s!"Cannot remove field {fieldName.inline}, which is not in type {typeName.inline}."

/-- Whether a field is declared with a type, directly or within a marker. -/
def Field.refersTo (f : Field) (typeName : Value) : Bool :=
  f.type.equal typeName || f.ofType.equal typeName

/-- The fields of a type that refer to another one. -/
def ObjectType.referring (t : ObjectType) (typeName : Value) : Except Misuse (List Spot) :=
  if t.name.equal typeName then .ok []
  else do
    return ((← t.fields).filter (·.refersTo typeName)).map fun f => ⟨t.name, f.name⟩

namespace Schema

def referring (s : Schema) (typeName : Value) : Except Misuse (List Spot) := do
  return (← s.types.mapM (·.referring typeName)).flatten

/-- Replaces every type of a name. -/
def replace (s : Schema) (typeName : Value) (new : ObjectType) : Schema :=
  ⟨s.types.map fun t => if t.name.equal typeName then new else t⟩

def existing (s : Schema) (typeName : Value) : Except ChangeError ObjectType := do
  match ← (s.lookup typeName).mapError ChangeError.misuse with
  | some t => return t
  | none => throw (.missing (.type typeName))

end Schema

/-- A type without the fields that refer to another one. -/
def ObjectType.without (t : ObjectType) (typeName : Value) : Except Misuse ObjectType := do
  let fields ← t.fields
  let kept := fields.filter (!·.refersTo typeName)
  return if kept.length = fields.length then t else t.withFields kept

namespace Schema

def delete (s : Schema) (typeName : Value) : Except Misuse Schema := do
  return ⟨← (s.types.filter (!·.name.equal typeName)).mapM (·.without typeName)⟩

def apply (s : Schema) : SchemaChange → Except ChangeError Schema
  | .createType none => .error (.misuse .notAnObject)
  | .createType (some new) => .ok ⟨s.types ++ [new]⟩
  | .deleteType typeName => do
    let _ ← s.existing typeName
    (s.delete typeName).mapError .misuse
  | .addField typeName member => do
    let t ← s.existing typeName
    let entries ← t.members.entries.mapError ChangeError.misuse
    return s.replace typeName { t with members := .listed (entries ++ [member]) }
  | .removeField typeName fieldName => do
    let t ← s.existing typeName
    match ← (t.find fieldName).mapError ChangeError.misuse with
    | none => throw (.missing (.field typeName fieldName))
    | some _ =>
      let fields ← t.fields.mapError ChangeError.misuse
      return s.replace typeName (t.withFields (fields.filter (!·.name.equal fieldName)))

@[simp] theorem apply_createType (s : Schema) (new : ObjectType) :
    s.apply (.createType (some new)) = .ok ⟨s.types ++ [new]⟩ := rfl

end Schema

inductive ChangeRefusal
  | missing (m : Missing)
  | invalid (violations : List Violation)

def ChangeRefusal.messages : ChangeRefusal → List String
  | missing (.type typeName) => [s!"Expected type {typeName.inline} to be in the schema."]
  | missing (.field typeName fieldName) =>
    [s!"Expected field {fieldName.inline} to be in type {typeName.inline}."]
  | invalid violations => violations.map Violation.message

def Schema.applyValidated (rules : Validation.Rules) (s : Schema) (c : SchemaChange) :
    Except Misuse (Except ChangeRefusal Schema) :=
  match s.apply c with
  | .error (.missing m) => .ok (.error (.missing m))
  | .error (.misuse m) => .error m
  | .ok t => do
    match ← t.violations rules with
    | [] => return .ok t
    | violations => return .error (.invalid violations)

namespace Draft

/-- The draft after a change. A type can be added to any list of types, and a missing one too; all
else takes a schema. -/
def apply (d : Draft) : SchemaChange → Except ChangeError Draft
  | .createType new =>
    match d.types with
    | none => .error (.misuse .notACollection)
    | some types => .ok ⟨some (types ++ [new])⟩
  | c => do return ofSchema (← (← d.complete.mapError .misuse).apply c)

/-- The draft after a change, if it is a valid schema then. -/
def applyValidated (rules : Validation.Rules) (d : Draft) (c : SchemaChange) :
    Except Misuse (Except ChangeRefusal Draft) := do
  return (← (← d.complete).applyValidated rules c).map ofSchema

end Draft

namespace SchemaChange

def toValue : SchemaChange → Value
  | createType type =>
    .object [("kind", .text "createType"), ("type", type.elim .null ObjectType.toValue)]
  | deleteType typeName => .object [("kind", .text "deleteType"), ("typeName", typeName)]
  | addField typeName member =>
    .object [("kind", .text "addField"), ("typeName", typeName), ("field", member.toValue)]
  | removeField typeName fieldName =>
    .object [("kind", .text "removeField"), ("typeName", typeName), ("fieldName", fieldName)]

open Record in
/-- An entry that names something. -/
def readName (es : List (String × Value)) (mixed plain : String) : Except Misuse Value :=
  asText <$> required true es mixed plain

open Record in
def read (v : Value) : Except Misuse SchemaChange := do
  let kind ← v.required "kind"
  let es ← entries v
  match kind with
  | .text "createType" =>
    return createType (← Draft.readType true (← required true es "type" "new_type"))
  | .text "deleteType" => return deleteType (← readName es "typeName" "type_name")
  | .text "addField" => do
    let typeName ← required true es "typeName" "type_name"
    let member ← required true es "field" "new_field"
    return addField (asText typeName) (← Member.read true member)
  | .text "removeField" =>
    return removeField (← readName es "typeName" "type_name")
      (← readName es "fieldName" "field_name")
  | other => throw (if other.isKey then .missingEntry else .notAKey)

end SchemaChange

end ObjectQuery
