import ObjectQuery.Schema.Definition

/-!
# Fields that nobody declares freely

A registry says which fields the types of an interface have to declare, and which fields a type has
without declaring them. The interfaces it knows are the only ones a type can declare.
-/

set_option autoImplicit false

namespace ObjectQuery

/-- Names that begin like this belong to built-in types. -/
def reservedPrefix : String := "SchemaQL"

/-- The type that stands for callers. -/
def userTypeName : String := "User"

/-- The field that every type of the node interface has. -/
def idField : Field where
  name := .text idName
  type := .text "id"
  unique := .bool true
  nonNull := .bool true

/-- A type as it is created: a node with an id and nothing else. -/
def ObjectType.created (name : String) (pluralName description : Option String) : ObjectType where
  name := .text name
  members := .ofFields [idField]
  interfaces := .list [.text nodeInterface]
  pluralName := pluralName.elim .null .text
  description := description.elim .null .text

@[simp] theorem ObjectType.name_created (name : String) (pluralName description : Option String) :
    (created name pluralName description).name = .text name := rfl

@[simp] theorem ObjectType.declared_created (name : String)
    (pluralName description : Option String) :
    (created name pluralName description).declared = [idField] := by
  simp [created, declared]

def credentialsField : Field where
  name := .text "credentials"
  type := .text (reservedPrefix ++ "Credentials")
  description := .text "Login credentials of the user. Maintained by the storage layer."
  nonNull := .bool true

structure Registry where
  /-- What each interface asks for. -/
  interfaces : List (String × List Field)
  builtIns : List (String × List Field)
deriving Inhabited

namespace Registry

def standard : Registry where
  interfaces := [(nodeInterface, [idField])]
  builtIns := [(userTypeName, [credentialsField])]

/-- Whether a value names an interface. -/
def declares (r : Registry) : Value → Bool
  | .text s => (r.interfaces.lookup s).isSome
  | _ => false

def fieldsOf (table : List (String × List Field)) : Value → List Field
  | .text s => (table.lookup s).getD []
  | _ => []

def interfaceFields (r : Registry) (interface : Value) : List Field :=
  fieldsOf r.interfaces interface

def typeFields (r : Registry) (typeName : Value) : List Field := fieldsOf r.builtIns typeName

end Registry

end ObjectQuery
