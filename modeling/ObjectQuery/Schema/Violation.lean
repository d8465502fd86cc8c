import ObjectQuery.Schema.Registry
import ObjectQuery.Value.Text

/-!
# What can be wrong with a schema

Each way in which a definition can fail to make sense, with what it takes to say so.
-/

set_option autoImplicit false

namespace ObjectQuery

/-- A field of a type, by their names. -/
structure Spot where
  typeName : Value
  fieldName : Value

/-- The two names a type has. -/
inductive NameProperty
  | name
  | pluralName
deriving DecidableEq, Repr

inductive Violation
  | duplicateNames (counts : List (Value × Nat))
  | duplicatePlurals (counts : List (Value × Nat))
  | missingType (name : Value)
  | nameNotText (found : Value)
  | badName (property : NameProperty) (found : Value)
  | reservedName (property : NameProperty) (found : Value)
  | pluralTaken (typeName plural : Value)
  | badKind (typeName : Value)
  | badTypeDescription (typeName : Value)
  | badInterfaces (typeName found : Value)
  | fieldsNotListed (typeName : Value)
  | noFields (typeName : Value)
  | repeatedField (typeName : Value)
  | missingInterfaceField (typeName interface : Value) (wanted : Field)
  | badFieldName (spot : Spot)
  | badFieldDescription (spot : Spot) (found : Value)
  | badDeprecationReason (spot : Spot) (found : Value)
  | typeNotText (spot : Spot) (found : Value)
  | unknownType (spot : Spot) (found : Value)
  | badConnectionTarget (spot : Spot) (found : Value)
  | badListElement (spot : Spot) (found : Value)
  | unwantedOfType (spot : Spot) (type found : Value)
  | relationFromEmbedded (spot : Spot) (type : Value)
  | uniqueNotScalar (spot : Spot) (type : Value)
  | shadowsBuiltIn (spot : Spot)
  | noReverseField (spot : Spot) (wantedType targetType found : Value)
  | badReverseName (reverse origin : Spot) (found : Value)
  | badReverseType (reverse origin : Spot) (wanted found : Value)
  | badReverseOfType (reverse origin : Spot) (wanted found : Value)

def Spot.text (s : Spot) : String := s!"{s.typeName.inline}.{s.fieldName.inline}"

def NameProperty.text : NameProperty → String
  | name => "name"
  | pluralName => "pluralName"

namespace Violation

def countsText (what : String) (counts : List (Value × Nat)) : String :=
  Value.joined (counts.map fun c => s!"{c.2} types with {what} \"{c.1.inline}\"")

/-- What the reverse of a field is expected to be. -/
def reverseText (reverse origin : Spot) : String :=
  s!"{reverse.text}: Expected reverse field of {origin.text}"

def interfaceText (typeName interface : Value) (f : Field) : String :=
  let nonNull := if f.nonNull.isTrue then "non-null " else ""
  let unique := if f.unique.isTrue then "unique " else ""
  s!"{typeName.inline}.{f.name.inline}: Expected {nonNull}{unique}field of type " ++
    s!"{f.type.inline} from interface {interface.inline}"

def message : Violation → String
  | duplicateNames counts =>
    "Expected type names to be unique. Found " ++ countsText "name" counts
  | duplicatePlurals counts =>
    "Expected plural names of types to be unique. Found " ++ countsText "plural name" counts
  | missingType name => s!"Expected {name.inline} type to be present."
  | nameNotText found => s!"Expected `name` of a type to be a string. Found: {found.inline}"
  | badName property found =>
    s!"Expected `{property.text}` of a type to be a string starting with a capital letter. " ++
      "Allowed characters are letters A-Z, a-z, digits and underscore (_). " ++
      s!"Found: {found.inline}"
  | reservedName property found =>
    s!"Invalid `{property.text}`: {found.inline}. Names that begin with \"{reservedPrefix}\" " ++
      "are reserved for built-in types."
  | pluralTaken typeName plural =>
    s!"{typeName.inline}: Plural name \"{plural.inline}\" conflicts with the name of type " ++
      s!"{plural.inline}. Use the `pluralName` property to define a unique plural name."
  | badKind typeName => s!"{typeName.inline}: Expected type `kind` to be \"{objectKind}\"."
  | badTypeDescription typeName =>
    s!"{typeName.inline}: Expected `description` to be undefined or a string."
  | badInterfaces typeName found =>
    s!"{typeName.inline}: Expected `interfaces` to be an array of interface names. " ++
      s!"Found: {found.inline}"
  | fieldsNotListed typeName =>
    s!"{typeName.inline}: Expected `fields` to be an array of field objects."
  | noFields typeName =>
    s!"{typeName.inline}: Expected `fields` to be an array with at least one element"
  | repeatedField typeName =>
    s!"{typeName.inline}: Expected field names to be unique within a type."
  | missingInterfaceField typeName interface wanted => interfaceText typeName interface wanted
  | badFieldName spot =>
    s!"{spot.typeName.inline}: Expected field name to be a non-empty string of letters, digits " ++
      s!"and underscores, not starting with a digit. Found: {spot.fieldName.inline}."
  | badFieldDescription spot found =>
    s!"{spot.text}: Expected `description` to be undefined or string. Found {found.inline}."
  | badDeprecationReason spot found =>
    s!"{spot.text}: Expected `deprecationReason` to be undefined or string. Found {found.inline}."
  | typeNotText spot found =>
    s!"{spot.text}: Expected field type to be a string. Found: {found.inline}."
  | unknownType spot found =>
    s!"{spot.text}: Expected `type` to be a valid scalar or object type. Found: {found.inline}."
  | badConnectionTarget spot found =>
    s!"{spot.text}: Expected `ofType` of a connection field to be an object type that " ++
      s!"implements the Node interface. Found: {found.inline}."
  | badListElement spot found =>
    s!"{spot.text}: Expected `ofType` of a list field to be a scalar or non-Node object type. " ++
      s!"Found: {found.inline}."
  | unwantedOfType spot type found =>
    s!"{spot.text}: Expected `ofType` to be undefined for a field with non-wrapper type " ++
      s!"\"{type.inline}\". Found: {found.inline}."
  | relationFromEmbedded spot type =>
    s!"{spot.text}: Expected relation field to be defined on a type that implements the Node " ++
      s!"interface. Found: {type.inline} on {spot.typeName.inline}."
  | uniqueNotScalar spot type =>
    s!"{spot.text}: Expected unique field to be a scalar type. Found: {type.inline}."
  | shadowsBuiltIn spot => s!"{spot.text}: Field name shadows a built-in field."
  | noReverseField spot wantedType targetType found =>
    s!"{spot.text}: Expected `reverseName` to be a name of a {wantedType.inline} field in type " ++
      s!"{targetType.inline}. Found: {found.inline}."
  | badReverseName reverse origin found =>
    reverseText reverse origin ++
      s!" to have matching `reverseName` {origin.fieldName.inline}. Found: {found.inline}."
  | badReverseType reverse origin wanted found =>
    reverseText reverse origin ++ s!" to have type {wanted.inline}. Found: {found.inline}."
  | badReverseOfType reverse origin wanted found =>
    reverseText reverse origin ++ s!" to have ofType {wanted.inline}. Found: {found.inline}."

end Violation

end ObjectQuery
