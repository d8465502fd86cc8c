import ObjectQuery.Introspection.Records
import ObjectQuery.Plan.Arguments
import ObjectQuery.Schema.Snapshot

/-!
# Calls that change the schema

Each of them is read as a change and the types it makes a difference to, before and after. A change
that would leave the schema invalid is refused.
-/

set_option autoImplicit false

namespace ObjectQuery

structure Mutation where
  change : SchemaChange
  changes : List TypeChange

namespace Mutation

def typeNameArgument : String := "type name"
def fieldNameArgument : String := "field name"
def fieldTypeArgument : String := "field type"

def existing (i : Snapshot) (c : Call) (typeName : String) : Except CompileError ObjectType :=
  match i.schema.type? typeName with
  | some t => .ok t
  | none => c.refuse (.unknownType typeName)

def result (i : Snapshot) (c : Call) (change : SchemaChange) : Except CompileError Schema := do
  match ← (i.schema.applyValidated i.rules change).mapError .misuse with
  | .ok s => return s
  | .error refusal => c.refuse (.badResult refusal)

def readNamed {α : Type} (named : List (String × Argument)) (names : List String)
    (read : String → Argument → Except CompileError α) : Except CompileError (List (String × α)) :=
  (named.filter fun a => names.contains a.1).mapM fun a => do return (a.1, ← read a.1 a.2)

def optionalText (texts : List (String × String)) (name : String) : Value :=
  (texts.lookup name).elim .null .text

def flag (flags : List (String × Bool)) (name : String) : Value :=
  .bool ((flags.lookup name).getD false)

def typeTexts : List String := ["pluralName", "description"]

def createType (i : Snapshot) (c : Call) : Except CompileError Mutation := do
  let typeName ← c.nameIn (← c.onePositional) typeNameArgument
  let named ← c.allowing typeTexts
  if i.schema.has typeName then c.refuse (.typeExists typeName)
  let texts ← readNamed named typeTexts fun name a => c.textIn a name
  let new := ObjectType.created typeName (texts.lookup "pluralName") (texts.lookup "description")
  let change := SchemaChange.createType (some new)
  let _ ← result i c change
  return ⟨change, [⟨none, some new⟩]⟩

/-- How the other types of a schema differ from those of the same names in another one, which lack
some of their fields if anything. -/
def differences (before after : Schema) (typeName : String) : List TypeChange :=
  before.types.filterMap fun t =>
    if t.name.spells typeName then none
    else
      let new := t.name.text?.bind after.type?
      if new.any (·.declared.length == t.declared.length) then none else some ⟨some t, new⟩

def deleteType (i : Snapshot) (c : Call) : Except CompileError Mutation := do
  let typeNameGiven ← c.onePositional
  let _ ← c.allowing []
  let typeName ← c.nameIn typeNameGiven typeNameArgument
  let old ← existing i c typeName
  let change := SchemaChange.deleteType (.text typeName)
  let after ← result i c change
  return ⟨change, ⟨some old, none⟩ :: differences i.schema after typeName⟩

def fieldTexts : List String := ["ofType", "reverseName", "description", "deprecationReason"]

def fieldFlags : List String := ["unique", "nonNull"]

def addField (i : Snapshot) (c : Call) : Except CompileError Mutation := do
  let (typeNameGiven, fieldNameGiven, typeGiven) ← c.threePositional
  let named ← c.allowing (fieldTexts ++ fieldFlags)
  let typeName ← c.nameIn typeNameGiven typeNameArgument
  let old ← existing i c typeName
  let texts ← readNamed named fieldTexts fun name a => c.textIn a name
  let flags ← readNamed named fieldFlags fun _ a => a.flag
  let fieldName ← c.nameIn fieldNameGiven fieldNameArgument
  let type ← c.nameIn typeGiven fieldTypeArgument
  let new : Field :=
    { name := .text fieldName
      type := .text type
      ofType := optionalText texts "ofType"
      description := optionalText texts "description"
      deprecationReason := optionalText texts "deprecationReason"
      reverseName := optionalText texts "reverseName"
      unique := flag flags "unique"
      nonNull := flag flags "nonNull" }
  let change := SchemaChange.addField (.text typeName) (.field new)
  let after ← result i c change
  return ⟨change, [⟨some old, after.type? typeName⟩]⟩

def removeField (i : Snapshot) (c : Call) : Except CompileError Mutation := do
  let (typeNameGiven, fieldNameGiven) ← c.twoPositional
  let _ ← c.allowing []
  let typeName ← c.nameIn typeNameGiven typeNameArgument
  let fieldName ← c.nameIn fieldNameGiven fieldNameArgument
  let old ← existing i c typeName
  if (old.field? fieldName).isNone then c.refuse (.unknownFieldOf typeName fieldName)
  let change := SchemaChange.removeField (.text typeName) (.text fieldName)
  let after ← result i c change
  return ⟨change, [⟨some old, after.type? typeName⟩]⟩

end Mutation

end ObjectQuery
