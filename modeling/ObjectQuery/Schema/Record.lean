import ObjectQuery.Schema.Definition
import ObjectQuery.Value.Text

/-!
# Schemas as data

A definition written as a value, with an entry for every attribute, and read from one. Reading is
lenient: entries it does not know are passed over, and an attribute may be spelled in mixed case or
with underscores, of which the spelling that comes last counts. Texts and truth values are made of
whatever stands in their place, but null stays null.

A schema that has been read may still lack its list of types or a type in the list; it is a draft
until it is complete.
-/

set_option autoImplicit false

namespace ObjectQuery

namespace Field

def toValue (f : Field) : Value :=
  .object [
    ("name", f.name),
    ("type", f.type),
    ("ofType", f.ofType),
    ("description", f.description),
    ("deprecationReason", f.deprecationReason),
    ("reverseName", f.reverseName),
    ("unique", f.unique),
    ("nonNull", f.nonNull)]

end Field

def Member.toValue : Member → Value
  | field f => f.toValue
  | other v => v

def Members.toValue : Members → Value
  | listed es => .list (es.map Member.toValue)
  | other v => v

def ObjectType.toValue (t : ObjectType) : Value :=
  .object [
    ("name", t.name),
    ("fields", t.members.toValue),
    ("interfaces", t.interfaces),
    ("kind", t.kind),
    ("pluralName", t.pluralName),
    ("description", t.description)]

def Schema.toValue (s : Schema) : Value :=
  .object [("types", .list (s.types.map ObjectType.toValue))]

namespace Record

def entries : Value → Except Misuse (List (String × Value))
  | .object es => .ok es
  | _ => .error .notAnObject

/-- The last entry under one of two spellings. -/
def attribute? (entries : List (String × Value)) (mixed plain : String) : Option Value :=
  (entries.reverse.find? fun e => e.1 == mixed || e.1 == plain).map (·.2)

/-- An attribute that has to be there, unless null is to stand for what is missing. -/
def required (strict : Bool) (entries : List (String × Value)) (mixed plain : String) :
    Except Misuse Value :=
  match attribute? entries mixed plain with
  | some v => .ok v
  | none => if strict then .error .missingEntry else .ok .null

def asText : Value → Value
  | .null => .null
  | v => .text v.inline

def asFlag : Value → Value
  | .null => .null
  | v => .bool v.isTrue

def text (entries : List (String × Value)) (mixed plain : String) : Value :=
  asText ((attribute? entries mixed plain).getD .null)

def flag (entries : List (String × Value)) (mixed plain : String) : Value :=
  asFlag ((attribute? entries mixed plain).getD (.bool false))

/-- A name and a value, out of something with two parts. -/
def pair (v : Value) : Except Misuse (String × Value) := do
  match ← v.parts with
  | [name, w] => if name.isKey then return (name.inline, w) else .error .notAKey
  | _ => .error .notAPair

/-- Sets an entry, in its place if there is one of the name. -/
def put (entries : List (String × Value)) (entry : String × Value) : List (String × Value) :=
  if entries.any (·.1 == entry.1) then entries.map fun e => if e.1 == entry.1 then entry else e
  else entries ++ [entry]

/-- The entries of an object, or those that a list of pairs stands for, the last one of a name. -/
def gather : Value → Except Misuse (List (String × Value))
  | .object es => .ok es
  | v => do return (← (← v.parts).mapM pair).foldl put []

/-- The objects that the parts of a value are or stand for. -/
def gatherAll (v : Value) : Except Misuse (List Value) := do
  (← v.parts).mapM fun part => do return .object (← gather part)

end Record

open Record in
def Field.read (strict : Bool) (v : Value) : Except Misuse Field := do
  let es ← entries v
  let name ← required strict es "name" "name"
  let type ← required strict es "type" "type"
  return {
    name := asText name
    type := asText type
    ofType := text es "ofType" "of_type"
    description := text es "description" "description"
    deprecationReason := text es "deprecationReason" "deprecation_reason"
    reverseName := text es "reverseName" "reverse_name"
    unique := flag es "unique" "unique"
    nonNull := flag es "nonNull" "non_null" }

def Member.read (strict : Bool) : Value → Except Misuse Member
  | .null => .ok (.other .null)
  | v => .field <$> Field.read strict v

def Members.read (strict : Bool) : Value → Except Misuse Members
  | .null => .ok (.other .null)
  | v => do return .listed (← (← v.parts).mapM (Member.read strict))

/-- Reads the parts of a value as names. Null is a name like any other here. -/
def ObjectType.readInterfaces : Value → Except Misuse Value
  | .null => .ok .null
  | v => do return .list ((← v.parts).map fun part => .text part.inline)

open Record in
def ObjectType.read (strict : Bool) (v : Value) : Except Misuse ObjectType := do
  let es ← entries v
  let name ← required strict es "name" "name"
  let members ← Members.read strict ((attribute? es "fields" "fields").getD (.list []))
  let interfaces ← readInterfaces ((attribute? es "interfaces" "interfaces").getD (.list []))
  return {
    name := asText name
    members := members
    interfaces := interfaces
    kind := asText ((attribute? es "kind" "kind").getD (.text objectKind))
    pluralName := text es "pluralName" "plural_name"
    description := text es "description" "description" }

/-- A schema in which the list of types, or types in it, may be null. -/
structure Draft where
  types : Option (List (Option ObjectType))

namespace Draft

def toValue (d : Draft) : Value :=
  let type (t : Option ObjectType) : Value := t.elim .null ObjectType.toValue
  .object [("types", d.types.elim .null fun ts => .list (ts.map type))]

def ofSchema (s : Schema) : Draft := ⟨some (s.types.map some)⟩

def complete (d : Draft) : Except Misuse Schema :=
  match d.types with
  | none => .error .notACollection
  | some ts =>
    match ts.mapM id with
    | some ts => .ok ⟨ts⟩
    | none => .error .notAnObject

def readType (strict : Bool) : Value → Except Misuse (Option ObjectType)
  | .null => .ok none
  | v => some <$> ObjectType.read strict v

open Record in
/-- Reads the entries of a definition. -/
def readEntries (strict : Bool) (es : List (String × Value)) : Except Misuse Draft :=
  match (attribute? es "types" "types").getD (.list []) with
  | .null => .ok ⟨none⟩
  | v => do return ⟨some (← (← v.parts).mapM (readType strict))⟩

def read (strict : Bool) (v : Value) : Except Misuse Draft := do
  readEntries strict (← Record.entries v)

/-- Reads a definition in which null stands for what is missing. -/
def load (v : Value) : Except Misuse Draft := do
  readEntries false (← Record.gather v)

def unreadableMessage : String := "Expected a schema definition with a list of type objects."

end Draft

/-- Whether a schema is equal to what is read from its own data. -/
def Schema.equalsReloaded (s : Schema) : Except Misuse Bool := do
  let d ← Draft.read true s.toValue
  match d.complete with
  | .ok t => return s.equal t
  | .error _ => return false

namespace Record

def asWritten (es : List (String × Value)) (name : String) (default : Value) : Value :=
  (es.lookup name).getD default

end Record

open Record in
def Field.verbatim (es : List (String × Value)) : Field where
  name := asWritten es "name" .null
  type := asWritten es "type" .null
  ofType := asWritten es "ofType" .null
  description := asWritten es "description" .null
  deprecationReason := asWritten es "deprecationReason" .null
  reverseName := asWritten es "reverseName" .null
  unique := asWritten es "unique" (.bool false)
  nonNull := asWritten es "nonNull" (.bool false)

def Member.verbatim : Value → Member
  | .object es => .field (Field.verbatim es)
  | v => .other v

def Members.verbatim : Value → Members
  | .list items => .listed (items.map Member.verbatim)
  | v => .other v

def ObjectType.verbatim (v : Value) : ObjectType :=
  let es := match v with
    | .object es => es
    | _ => []
  { name := Record.asWritten es "name" .null
    members := Members.verbatim (Record.asWritten es "fields" (.list []))
    interfaces := Record.asWritten es "interfaces" (.list [])
    kind := Record.asWritten es "kind" (.text objectKind)
    pluralName := Record.asWritten es "pluralName" .null
    description := Record.asWritten es "description" .null }

/-- The types of a definition, with their attributes as they are written. -/
def Schema.verbatim (v : Value) : Schema :=
  match v with
  | .object es =>
    match es.lookup "types" with
    | some (.list items) => ⟨items.map ObjectType.verbatim⟩
    | _ => ⟨[]⟩
  | _ => ⟨[]⟩

end ObjectQuery
