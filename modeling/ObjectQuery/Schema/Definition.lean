import ObjectQuery.Schema.Plural
import ObjectQuery.Value.Basic

/-!
# Schema definitions

A schema is a list of object types, an object type a list of fields. Nobody has checked what they
are declared with, so every attribute is a value, and in place of a list of fields there may be
something else. Looking things up is all that is done here; whether a definition makes sense is
for validation to say.

Where names occur twice, the first one is found.
-/

set_option autoImplicit false

namespace ObjectQuery

/-- The type of a field that holds all records that point back at its owner. -/
def connectionMarker : String := "Connection"

def listMarker : String := "List"

/-- The interface of types whose records have an id. -/
def nodeInterface : String := "Node"

def objectKind : String := "OBJECT"

def idName : String := "id"

structure Field where
  name : Value := .null
  /-- A scalar, an object type or one of the two markers. -/
  type : Value := .null
  /-- What a connection or a list is of. -/
  ofType : Value := .null
  description : Value := .null
  deprecationReason : Value := .null
  /-- The field at the other end of a relation. -/
  reverseName : Value := .null
  unique : Value := .bool false
  nonNull : Value := .bool false
deriving Inhabited

namespace Field

def isConnection (f : Field) : Bool := f.type.spells connectionMarker

def isList (f : Field) : Bool := f.type.spells listMarker

/-- Whether the declared type is a marker. Only what can be looked up can be compared with them. -/
def isWrapper (f : Field) : Except Misuse Bool :=
  if f.type.isKey then .ok (f.isConnection || f.isList) else .error .notAKey

/-- The type that a field points at. -/
def target (f : Field) : Value := if f.isConnection then f.ofType else f.type

def equal (f g : Field) : Bool :=
  f.name.equal g.name && f.type.equal g.type && f.ofType.equal g.ofType &&
    f.description.equal g.description && f.deprecationReason.equal g.deprecationReason &&
    f.reverseName.equal g.reverseName && f.unique.equal g.unique && f.nonNull.equal g.nonNull

end Field

inductive Member
  | field (f : Field)
  | other (v : Value)

namespace Member

def field? : Member → Option Field
  | field f => some f
  | other _ => none

/-- The field that an entry is taken for. -/
def get : Member → Except Misuse Field
  | field f => .ok f
  | other _ => .error .notAnObject

def equal : Member → Member → Bool
  | field f, field g => f.equal g
  | other v, other w => v.equal w
  | _, _ => false

def equalAll : List Member → List Member → Bool
  | [], [] => true
  | m :: ms, n :: ns => m.equal n && equalAll ms ns
  | _, _ => false

end Member

/-- What a type declares as its fields. -/
inductive Members
  | listed (entries : List Member)
  | other (v : Value)
deriving Inhabited

namespace Members

def ofFields (fields : List Field) : Members := .listed (fields.map .field)

/-- The entries, one after the other. What is no list may still be made of parts. -/
def entries : Members → Except Misuse (List Member)
  | listed es => .ok es
  | other v => (fun parts => parts.map Member.other) <$> v.parts

/-- The fields of a list that has nothing else in it. -/
def fields? : Members → Option (List Field)
  | listed es => es.mapM Member.field?
  | other _ => none

@[simp] theorem fields?_ofFields (fields : List Field) :
    (ofFields fields).fields? = some fields := by
  induction fields with
  | nil => rfl
  | cons f fs ih =>
    simp only [ofFields, fields?, List.map_cons, List.mapM_cons] at ih ⊢
    simp [ih, Member.field?]

def equal : Members → Members → Bool
  | listed es, listed fs => Member.equalAll es fs
  | other v, other w => v.equal w
  | _, _ => false

end Members

structure ObjectType where
  name : Value := .null
  members : Members := .listed []
  interfaces : Value := .list []
  kind : Value := .text objectKind
  pluralName : Value := .null
  description : Value := .null
deriving Inhabited

namespace ObjectType

def isNode (t : ObjectType) : Bool :=
  match t.interfaces with
  | .list names => names.any (·.spells nodeInterface)
  | _ => false

/-- The declared plural, or else that of the name. A name that is no text is its own plural. -/
def plural (t : ObjectType) : Value :=
  if t.pluralName.isNull then
    match t.name with
    | .text s => .text (pluralize s)
    | v => v
  else t.pluralName

/-- The fields of a type, all of which have to be fields. -/
def fields (t : ObjectType) : Except Misuse (List Field) := do
  (← t.members.entries).mapM Member.get

/-- The fields of a type, whatever else is listed with them. -/
def declared (t : ObjectType) : List Field := t.members.fields?.getD []

/-- The first entry with a name. The entries in front of it have to be fields. -/
def findEntry (name : Value) : List Member → Except Misuse (Option Field)
  | [] => .ok none
  | m :: ms => do
    let f ← m.get
    if f.name.equal name then .ok (some f) else findEntry name ms

def find (t : ObjectType) (name : Value) : Except Misuse (Option Field) := do
  findEntry name (← t.members.entries)

def field? (t : ObjectType) (name : String) : Option Field :=
  t.declared.find? (·.name.spells name)

def withFields (t : ObjectType) (fields : List Field) : ObjectType :=
  { t with members := .ofFields fields }

def equal (s t : ObjectType) : Bool :=
  s.name.equal t.name && s.members.equal t.members && s.interfaces.equal t.interfaces &&
    s.kind.equal t.kind && s.pluralName.equal t.pluralName && s.description.equal t.description

@[simp] theorem declared_withFields (t : ObjectType) (fields : List Field) :
    (t.withFields fields).declared = fields := by
  simp [withFields, declared]

end ObjectType

structure Schema where
  types : List ObjectType
deriving Inhabited

namespace Schema

def typeNames (s : Schema) : List Value := s.types.map (·.name)

def type? (s : Schema) (name : String) : Option ObjectType := s.types.find? (·.name.spells name)

def has (s : Schema) (name : String) : Bool := (s.type? name).isSome

/-- Looks a type up by any value that can be looked up. -/
def lookup (s : Schema) (name : Value) : Except Misuse (Option ObjectType) :=
  match name with
  | .text n => .ok (s.type? n)
  | v => if v.isKey then .ok none else .error .notAKey

def equalTypes : List ObjectType → List ObjectType → Bool
  | [], [] => true
  | s :: ss, t :: ts => s.equal t && equalTypes ss ts
  | _, _ => false

def equal (s t : Schema) : Bool := equalTypes s.types t.types

theorem type?_name {s : Schema} {name : String} {t : ObjectType} (h : s.type? name = some t) :
    t.name = .text name := by
  unfold type? at h
  have named := List.find?_some h
  exact Value.spells_iff.mp named

end Schema

end ObjectQuery
