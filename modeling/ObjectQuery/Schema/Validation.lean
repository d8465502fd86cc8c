import ObjectQuery.Scalar.Basic
import ObjectQuery.Schema.Violation

/-!
# Validation

A schema is checked in stages. A stage reports all it finds, and the stages after it are left out,
since they take for granted what it checks: that names are unique, so that a type can be told by its
name; that every type has a list of fields; that the interfaces are known.

A valid schema is one in which no stage finds anything. Names that cannot be looked up are not
reported; validation itself fails on them.
-/

set_option autoImplicit false

namespace ObjectQuery

namespace Validation

structure Rules where
  registry : Registry
  /-- Names of types that have to be there. -/
  required : List Value
deriving Inhabited

def check (holds : Bool) (v : Violation) : List Violation := if holds then [] else [v]

@[simp] theorem check_eq_nil_iff {holds : Bool} {v : Violation} :
    check holds v = [] ↔ holds = true := by
  cases holds <;> simp [check]

/-- Names count as ending in front of a newline that is their last character. -/
def withoutFinalNewline (cs : List Char) : List Char :=
  match cs.reverse with
  | '\n' :: rest => rest.reverse
  | _ => cs

def isNamePart (c : Char) : Bool := c.isAlphanum || c == '_'

def matchesName (isStart : Char → Bool) (s : String) : Bool :=
  match withoutFinalNewline s.toList with
  | [] => false
  | c :: cs => isStart c && cs.all isNamePart

/-- A capital letter, and then letters, digits and underscores. -/
def isTypeName (s : String) : Bool := matchesName Char.isUpper s

/-- A letter or an underscore, and then letters, digits and underscores. -/
def isFieldName (s : String) : Bool := matchesName (fun c => c.isAlpha || c == '_') s

def textSatisfies (p : String → Bool) : Value → Bool
  | .text s => p s
  | _ => false

def isOptionalText (v : Value) : Bool := v.isNull || v.isText

def countIn (v : Value) : List (Value × Nat) → List (Value × Nat)
  | [] => [(v, 1)]
  | (w, n) :: rest => if w.equal v then (w, n + 1) :: rest else (w, n) :: countIn v rest

def counts (vs : List Value) : List (Value × Nat) := vs.foldl (fun table v => countIn v table) []

/-- The values that occur more than once, with how often they do. -/
def duplicates (vs : List Value) : Except Misuse (List (Value × Nat)) :=
  if vs.all Value.isKey then .ok ((counts vs).filter fun c => 1 < c.2) else .error .notAKey

def uniqueNames (s : Schema) : Except Misuse (List Violation) := do
  let found ← duplicates s.typeNames
  return check found.isEmpty (.duplicateNames found)

def uniquePlurals (s : Schema) : Except Misuse (List Violation) := do
  let found ← duplicates (s.types.map ObjectType.plural)
  return check found.isEmpty (.duplicatePlurals found)

def requiredTypes (rules : Rules) (s : Schema) : Except Misuse (List Violation) := do
  let found ← rules.required.mapM fun name => do
    return check (← s.lookup name).isSome (.missingType name)
  return found.flatten

def nameViolations (property : NameProperty) (v : Value) : List Violation :=
  check (v.isNull || textSatisfies isTypeName v) (.badName property v) ++
    check (!textSatisfies (fun name => reservedPrefix.toList.isPrefixOf name.toList) v)
      (.reservedName property v)

/-- Whether no other type has the plural of a type as its name. -/
def pluralIsFree (s : Schema) (t : ObjectType) : Bool :=
  match t.plural with
  | .text plural => !s.has plural || t.name.spells plural
  | _ => true

def interfacesKnown (rules : Rules) : Value → Bool
  | .list names => names.all rules.registry.declares
  | _ => false

def hasRepetition : List Value → Bool
  | [] => false
  | v :: vs => vs.any (·.equal v) || hasRepetition vs

def fieldListViolations (t : ObjectType) : Except Misuse (List Violation) :=
  match t.members.fields? with
  | none => .ok [.fieldsNotListed t.name]
  | some fields =>
    let names := fields.map (·.name)
    if names.all Value.isKey then
      .ok (check (!names.isEmpty) (.noFields t.name) ++
        check (!hasRepetition names) (.repeatedField t.name))
    else .error .notAKey

def structureViolations (rules : Rules) (s : Schema) (t : ObjectType) :
    Except Misuse (List Violation) := do
  let ofFields ← fieldListViolations t
  return check t.name.isText (.nameNotText t.name) ++
    nameViolations .name t.name ++ nameViolations .pluralName t.pluralName ++
    check (pluralIsFree s t) (.pluralTaken t.name t.plural) ++
    check (t.kind.spells objectKind) (.badKind t.name) ++
    check (isOptionalText t.description) (.badTypeDescription t.name) ++
    check (interfacesKnown rules t.interfaces) (.badInterfaces t.name t.interfaces) ++
    ofFields

def typeStructure (rules : Rules) (s : Schema) : Except Misuse (List Violation) := do
  return (← s.types.mapM (structureViolations rules s)).flatten

/-- Whether a field is declared as another one is. -/
def sameDefinition (f g : Field) : Bool :=
  f.name.equal g.name && f.type.equal g.type && f.ofType.equal g.ofType &&
    f.nonNull.isTrue == g.nonNull.isTrue && f.unique.isTrue == g.unique.isTrue

def interfaceNames (t : ObjectType) : List Value :=
  match t.interfaces with
  | .list names => names
  | _ => []

def interfaceFields (rules : Rules) (s : Schema) : List Violation :=
  s.types.flatMap fun t =>
    (interfaceNames t).flatMap fun interface =>
      (rules.registry.interfaceFields interface).flatMap fun wanted =>
        check (t.declared.any (sameDefinition · wanted))
          (.missingInterfaceField t.name interface wanted)

/-- Whether a value names a type of which something holds. -/
def namesType (s : Schema) (p : ObjectType → Bool) : Value → Bool
  | .text name => (s.type? name).any p
  | _ => false

/-- What has to be at the other end of a relation: a field of a type, declared with types. -/
structure Counterpart where
  targetType : Value
  type : Value
  ofType : Option Value

/-- At the other end of a connection is a single reference, and the other way round. -/
def counterpart (t : ObjectType) (f : Field) : Counterpart :=
  if f.isConnection then ⟨f.ofType, t.name, none⟩ else ⟨f.type, .text connectionMarker, some t.name⟩

/-- The field at the other end of a relation, if its type has one of the name. -/
def reverseField? (target : ObjectType) (f : Field) : Option Field :=
  if f.reverseName.isTrue then target.declared.find? (·.name.equal f.reverseName) else none

def reverseViolations (s : Schema) (t : ObjectType) (f : Field) : List Violation :=
  let wanted := counterpart t f
  let origin : Spot := ⟨t.name, f.name⟩
  match (wanted.targetType.text?.bind s.type?).bind (reverseField? · f) with
  | none => [.noReverseField origin wanted.type wanted.targetType f.reverseName]
  | some g =>
    let reverse : Spot := ⟨wanted.targetType, g.name⟩
    check (g.reverseName.equal f.name) (.badReverseName reverse origin g.reverseName) ++
      check (g.type.equal wanted.type) (.badReverseType reverse origin wanted.type g.type) ++
      match wanted.ofType with
      | none => []
      | some ofType =>
        check (g.ofType.equal ofType) (.badReverseOfType reverse origin ofType g.ofType)

def ofTypeViolations (s : Schema) (spot : Spot) (f : Field) : List Violation :=
  if f.isConnection then
    check (namesType s ObjectType.isNode f.ofType) (.badConnectionTarget spot f.ofType)
  else if f.isList then
    check (Scalar.isNamedBy f.ofType || namesType s (!ObjectType.isNode ·) f.ofType)
      (.badListElement spot f.ofType)
  else
    check f.ofType.isNull (.unwantedOfType spot f.type f.ofType)

/-- A relation has a node at either end, and a field at the other one that leads back. -/
def relationViolations (s : Schema) (t : ObjectType) (f : Field) : List Violation :=
  if namesType s ObjectType.isNode f.target then
    if t.isNode then reverseViolations s t f else [.relationFromEmbedded ⟨t.name, f.name⟩ f.type]
  else []

/-- What is wrong with a field whose type is a text. -/
def typedViolations (rules : Rules) (s : Schema) (t : ObjectType) (f : Field) : List Violation :=
  let spot : Spot := ⟨t.name, f.name⟩
  check (Scalar.isNamedBy f.type || namesType s (fun _ => true) f.type ||
        f.isConnection || f.isList) (.unknownType spot f.type) ++
    ofTypeViolations s spot f ++
    relationViolations s t f ++
    check (!f.unique.isTrue || Scalar.isNamedBy f.type) (.uniqueNotScalar spot f.type) ++
    check ((rules.registry.typeFields t.name).all fun g => !g.name.equal f.name)
      (.shadowsBuiltIn spot)

def fieldViolations (rules : Rules) (s : Schema) (t : ObjectType) (f : Field) : List Violation :=
  let spot : Spot := ⟨t.name, f.name⟩
  check (textSatisfies isFieldName f.name) (.badFieldName spot) ++
    check (isOptionalText f.description) (.badFieldDescription spot f.description) ++
    check (isOptionalText f.deprecationReason) (.badDeprecationReason spot f.deprecationReason) ++
    if f.type.isText then typedViolations rules s t f else [.typeNotText spot f.type]

def fieldDefinitions (rules : Rules) (s : Schema) : List Violation :=
  s.types.flatMap fun t => t.declared.flatMap (fieldViolations rules s t)

/-- What the first of some stages finds that finds anything. -/
def firstFindings : List (Unit → Except Misuse (List Violation)) → Except Misuse (List Violation)
  | [] => .ok []
  | stage :: rest => do
    match ← stage () with
    | [] => firstFindings rest
    | found => .ok found

def stages (rules : Rules) (s : Schema) : List (Unit → Except Misuse (List Violation)) :=
  [fun _ => uniqueNames s,
    fun _ => uniquePlurals s,
    fun _ => requiredTypes rules s,
    fun _ => typeStructure rules s,
    fun _ => .ok (interfaceFields rules s),
    fun _ => .ok (fieldDefinitions rules s)]

end Validation

namespace Schema

open Validation

def violations (rules : Rules) (s : Schema) : Except Misuse (List Violation) :=
  firstFindings (stages rules s)

def Valid (rules : Rules) (s : Schema) : Prop := s.violations rules = .ok []

end Schema

end ObjectQuery
