import ObjectQuery.Schema.Registry

/-!
# Types that describe schemas

Metadata is queried like records are, by types of its own. Their names begin with the reserved
prefix, so that no type of a schema is called like one of them. Lists of metadata are connections.
-/

set_option autoImplicit false

namespace ObjectQuery

namespace Metadata

def typeName (name : String) : Value := .text (reservedPrefix ++ name)

def textField (name : String) : Field := { name := .text name, type := .text "string" }

def flagField (name : String) : Field :=
  { name := .text name, type := .text "boolean", nonNull := .bool true }

def connectionField (name ofType : String) : Field :=
  { name := .text name, type := .text connectionMarker, ofType := typeName ofType,
    nonNull := .bool true }

def schemaType : ObjectType where
  name := typeName "Schema"
  members := .ofFields [connectionField "calls" "Call", connectionField "types" "Type"]
  description := .text "The schema: the calls that queries can make, and the types they can use."

def callType : ObjectType where
  name := typeName "Call"
  members := .ofFields [textField "name", textField "returns"]

def typeType : ObjectType where
  name := typeName "Type"
  members := .ofFields [
    textField "name",
    textField "pluralName",
    textField "kind",
    textField "description",
    flagField "isNode",
    { name := .text "interfaces", type := .text listMarker, ofType := .text "string" },
    connectionField "fields" "Field"]

def fieldType : ObjectType where
  name := typeName "Field"
  members := .ofFields [
    textField "name",
    textField "type",
    textField "ofType",
    textField "description",
    textField "deprecationReason",
    textField "reverseName",
    flagField "unique",
    flagField "nonNull"]

def resultFields : Members := .ofFields [flagField "success", connectionField "changes" "Change"]

def schemaResultType : ObjectType where
  name := typeName "SchemaResult"
  members := resultFields

def mutationResultType : ObjectType where
  name := typeName "MutationResult"
  members := resultFields

def changeType : ObjectType where
  name := typeName "Change"
  members := .ofFields [
    { name := .text "oldValue", type := typeName "Type" },
    { name := .text "newValue", type := typeName "Type" }]
  description := .text "A type before and after a schema change. Either side may be null."

/-- All of them, in the order in which they are listed. -/
def types : List ObjectType :=
  [schemaType, callType, typeType, fieldType, schemaResultType, mutationResultType, changeType]

def schema : Schema := ⟨types⟩

end Metadata

end ObjectQuery
