import ObjectQuery.Proofs.Schema.Growing
import ObjectQuery.Proofs.Schema.Reloading

/-!
# Definitions written and read back

Reading a definition brings it into a normal form: what was read is written as data that is read as
the same again, strictly or not, whatever was missing, null or of another kind at first. A change
with attributes of the right kinds is read back from what it is written as.
-/

set_option autoImplicit false

namespace ObjectQuery

open Outcome Record Validation

/-- A type in the form that reading gives, whatever is listed as its fields. -/
structure ObjectType.Normal (t : ObjectType) : Prop where
  name : asText t.name = t.name
  members : t.members.Settled
  interfaces : readInterfaces t.interfaces = .ok t.interfaces
  kind : asText t.kind = t.kind
  pluralName : asText t.pluralName = t.pluralName
  description : asText t.description = t.description

section
variable {strict : Bool} {v : Value} {t : ObjectType}

theorem ObjectType.normal_of_read (h : read strict v = .ok t) : t.Normal := by
  obtain ⟨es, _, h⟩ := bind_eq_ok.mp h
  obtain ⟨name, _, h⟩ := bind_eq_ok.mp h
  obtain ⟨members, hmembers, h⟩ := bind_eq_ok.mp h
  obtain ⟨interfaces, hinterfaces, h⟩ := bind_eq_ok.mp h
  cases h
  exact ⟨asText_asText _, Members.settled_of_read hmembers, readInterfaces_of_read hinterfaces,
    asText_asText _, asText_asText _, asText_asText _⟩

theorem ObjectType.Normal.read_toValue (h : t.Normal) (strict : Bool) :
    ObjectType.read strict t.toValue = .ok t := by
  have hread : ObjectType.read strict t.toValue = (do
      let members ← Members.read strict t.members.toValue
      let interfaces ← readInterfaces t.interfaces
      return {
        name := asText t.name
        members := members
        interfaces := interfaces
        kind := asText t.kind
        pluralName := asText t.pluralName
        description := asText t.description }) := rfl
  rw [hread, h.members.read_toValue, ok_bind, h.interfaces, ok_bind, h.name, h.kind, h.pluralName,
    h.description]
  rfl

end

namespace Draft

/-- A draft of types in the form that reading gives. -/
def Normal (d : Draft) : Prop := ∀ ts, d.types = some ts → ∀ t, some t ∈ ts → t.Normal

section
variable {strict : Bool} {v : Value} {d : Draft} {t : Option ObjectType}
  {es : List (String × Value)}

theorem normal_of_readType {u : ObjectType} (h : readType strict v = .ok (some u)) : u.Normal := by
  unfold readType at h
  split at h
  · cases h
  · have hmap : (ObjectType.read strict v).map some = .ok (some u) := h
    obtain ⟨u, hu, hsome⟩ := map_eq_ok.mp hmap
    cases hsome
    exact ObjectType.normal_of_read hu

theorem readType_toValue (h : ∀ u, t = some u → u.Normal) (strict : Bool) :
    readType strict (t.elim .null ObjectType.toValue) = .ok t := by
  cases t with
  | none => rfl
  | some u =>
    have hread : readType strict u.toValue = (ObjectType.read strict u.toValue).map some := rfl
    rw [Option.elim_some, hread, (h u rfl).read_toValue]
    rfl

theorem normal_of_readEntries (h : readEntries strict es = .ok d) : d.Normal := by
  unfold readEntries at h
  split at h
  · cases h
    nofun
  · obtain ⟨parts, _, h⟩ := bind_eq_ok.mp h
    obtain ⟨us, hus, h⟩ := bind_eq_ok.mp h
    cases h
    rintro _ ⟨⟩ u hu
    obtain ⟨part, _, hpart⟩ := exists_of_mem_mapM hus hu
    exact normal_of_readType hpart

theorem normal_of_load (h : load v = .ok d) : d.Normal := by
  obtain ⟨es, _, h⟩ := bind_eq_ok.mp h
  exact normal_of_readEntries h

theorem Normal.readEntries_types (h : d.Normal) (strict : Bool) :
    readEntries strict [("types", d.types.elim .null fun ts =>
      .list (ts.map fun t => t.elim .null ObjectType.toValue))] = .ok d := by
  obtain ⟨_ | ts⟩ := d
  · rfl
  · have hts : (ts.map fun t => t.elim .null ObjectType.toValue).mapM (readType strict) =
        .ok ts := by
      rw [mapM_eq_ok, List.forall₂_map_left_iff, List.forall₂_same]
      refine fun t ht => readType_toValue (fun u hu => h ts rfl u ?_) strict
      rwa [← hu]
    show (do return ⟨some (← (ts.map fun t => t.elim .null ObjectType.toValue).mapM
      (readType strict))⟩ : Except Misuse Draft) = _
    rw [hts]
    rfl

theorem Normal.read_toValue (h : d.Normal) (strict : Bool) : read strict d.toValue = .ok d :=
  h.readEntries_types strict

/-- A draft that is complete is that of the schema. -/
theorem eq_ofSchema {s : Schema} (h : d.complete = .ok s) : d = ofSchema s := by
  obtain ⟨_ | ts⟩ := d
  · cases h
  · rw [complete] at h
    dsimp only at h
    split at h
    · rename_i us hus
      cases h
      have heq : List.Forall₂ (· = ·) ts (us.map some) :=
        List.forall₂_map_right_iff.mpr (mapM_eq_some.mp hus)
      rw [List.forall₂_eq_eq_eq] at heq
      rw [heq, ofSchema]
    · cases h

theorem Normal.load_toValue (h : d.Normal) : load d.toValue = .ok d := h.readEntries_types false

end

end Draft

namespace Value

theorem equal_self_of_asText {v : Value} (h : asText v = v) : v.equal v = true := by
  cases v with
  | null => simp [equal]
  | text s => simp
  | _ => cases h

theorem equal_self_of_asFlag {v : Value} (h : asFlag v = v) : v.equal v = true := by
  cases v with
  | null => simp [equal]
  | bool b => simp [equal, number?, Number.compare?]
  | _ => cases h

theorem equalItems_texts (names : List String) :
    equalItems (names.map .text) (names.map .text) = true := by
  induction names with
  | nil => rfl
  | cons n names ih => simp [equalItems, ih]

theorem equal_self_of_readInterfaces {v : Value} (h : ObjectType.readInterfaces v = .ok v) :
    v.equal v = true := by
  unfold ObjectType.readInterfaces at h
  split at h
  · simp [equal]
  · obtain ⟨parts, _, h⟩ := bind_eq_ok.mp h
    have hnames : v = .list ((parts.map inline).map .text) := by
      rw [List.map_map]
      exact (Except.ok.inj h).symm
    rw [hnames, equal]
    exact equalItems_texts _

end Value

section
variable {f : Field} {m : Member} {ms : Members} {t : ObjectType} {s : Schema}

theorem Field.Settled.equal_self (h : f.Settled) : f.equal f = true := by
  simp only [equal, Value.equal_self_of_asText h.name, Value.equal_self_of_asText h.type,
    Value.equal_self_of_asText h.ofType, Value.equal_self_of_asText h.description,
    Value.equal_self_of_asText h.deprecationReason, Value.equal_self_of_asText h.reverseName,
    Value.equal_self_of_asFlag h.unique, Value.equal_self_of_asFlag h.nonNull, Bool.and_self]

theorem Member.Settled.equal_self (h : m.Settled) : m.equal m = true := by
  cases m with
  | field f => exact Field.Settled.equal_self h
  | other v =>
    obtain rfl : v = .null := h
    rfl

theorem Member.equalAll_self {es : List Member} (h : ∀ m ∈ es, m.Settled) :
    equalAll es es = true := by
  induction es with
  | nil => rfl
  | cons m es ih =>
    obtain ⟨hm, hes⟩ := List.forall_mem_cons.mp h
    rw [equalAll, hm.equal_self, ih hes, Bool.and_self]

theorem Members.Settled.equal_self (h : ms.Settled) : ms.equal ms = true := by
  cases ms with
  | listed es => exact Member.equalAll_self h
  | other v =>
    obtain rfl : v = .null := h
    rfl

theorem ObjectType.Normal.equal_self (h : t.Normal) : t.equal t = true := by
  simp only [equal, Value.equal_self_of_asText h.name, h.members.equal_self,
    Value.equal_self_of_readInterfaces h.interfaces, Value.equal_self_of_asText h.kind,
    Value.equal_self_of_asText h.pluralName, Value.equal_self_of_asText h.description,
    Bool.and_self]

theorem Schema.equal_self (h : ∀ t ∈ s.types, t.Normal) : s.equal s = true := by
  obtain ⟨ts⟩ := s
  induction ts with
  | nil => rfl
  | cons t ts ih =>
    obtain ⟨ht, hts⟩ := List.forall_mem_cons.mp h
    have hrest : equalTypes ts ts = true := ih hts
    rw [equal, equalTypes, ht.equal_self, hrest, Bool.and_self]

/-- A schema in the form that reading gives is equal to what is read from its data. -/
theorem Schema.equalsReloaded_of_normal (h : (Draft.ofSchema s).Normal) :
    s.equalsReloaded = .ok true := by
  have hvalue : s.toValue = (Draft.ofSchema s).toValue := by
    rw [toValue, Draft.toValue, Draft.ofSchema, Option.elim_some, List.map_map]
    rfl
  have hself := equal_self fun t ht => h _ rfl t (List.mem_map_of_mem ht)
  rw [equalsReloaded, hvalue, h.read_toValue, ok_bind, Draft.ofSchema, Draft.complete_some]
  exact congrArg Except.ok hself

end

namespace Value

theorem asText_of_isText {v : Value} (h : v.isText = true) : asText v = v := by
  cases v with
  | text s => rfl
  | _ => cases h

theorem asText_of_isOptionalText {v : Value} (h : isOptionalText v = true) : asText v = v := by
  cases v with
  | null => rfl
  | text s => rfl
  | _ => cases h

end Value

theorem Field.WellTyped.settled {f : Field} (h : f.WellTyped) : f.Settled := by
  obtain ⟨b, hunique⟩ := h.unique
  obtain ⟨c, hnonNull⟩ := h.nonNull
  exact ⟨Value.asText_of_isText h.name, Value.asText_of_isText h.type,
    Value.asText_of_isOptionalText h.ofType, Value.asText_of_isOptionalText h.description,
    Value.asText_of_isOptionalText h.deprecationReason,
    Value.asText_of_isOptionalText h.reverseName, by rw [hunique]; rfl, by rw [hnonNull]; rfl⟩

/-- A type the attributes of which are of the types they are to be of. -/
structure ObjectType.WellTyped (t : ObjectType) : Prop where
  name : t.name.isText = true
  members : ∃ fields, t.members = .ofFields fields ∧ ∀ f ∈ fields, f.WellTyped
  interfaces : ∃ names : List String, t.interfaces = .list (names.map .text)
  kind : t.kind.isText = true
  pluralName : isOptionalText t.pluralName = true
  description : isOptionalText t.description = true

theorem ObjectType.WellTyped.normal {t : ObjectType} (h : t.WellTyped) : t.Normal := by
  obtain ⟨fields, hmembers, hfields⟩ := h.members
  obtain ⟨names, hinterfaces⟩ := h.interfaces
  refine ⟨Value.asText_of_isText h.name, ?_, ?_, Value.asText_of_isText h.kind,
    Value.asText_of_isOptionalText h.pluralName, Value.asText_of_isOptionalText h.description⟩
  · rw [hmembers]
    exact Members.settled_ofFields fun f hf => (hfields f hf).settled
  · rw [hinterfaces]
    show Except.ok (Value.list _) = _
    rw [List.map_map]
    rfl

namespace SchemaChange

/-- A change of attributes of the types they are to be of. -/
inductive WellTyped : SchemaChange → Prop
  | createType {t : ObjectType} (h : t.WellTyped) : WellTyped (.createType (some t))
  | deleteType (typeName : String) : WellTyped (.deleteType typeName)
  | addField (typeName : String) {f : Field} (h : f.WellTyped) :
      WellTyped (.addField typeName (.field f))
  | removeField (typeName fieldName : String) : WellTyped (.removeField typeName fieldName)

theorem WellTyped.read_toValue {c : SchemaChange} (h : c.WellTyped) : read c.toValue = .ok c := by
  cases h with
  | @createType t h =>
    have hread : read (SchemaChange.createType (some t)).toValue =
        (do return SchemaChange.createType (← Draft.readType true t.toValue)) := rfl
    have htype := Draft.readType_toValue (t := some t) (by rintro _ ⟨⟩; exact h.normal) true
    rw [Option.elim_some] at htype
    rw [hread, htype]
    rfl
  | deleteType typeName => rfl
  | @addField typeName f h =>
    have hread : read (SchemaChange.addField typeName (Member.field f)).toValue = (do
        return SchemaChange.addField typeName (← Member.read true (Member.field f).toValue)) := rfl
    have hmember : (Member.field f).Settled := h.settled
    rw [hread, hmember.read_toValue]
    rfl
  | removeField typeName fieldName => rfl

end SchemaChange

/-- What was read from data is read again from its own data, strictly or not, and a schema is equal
to it. A change of the right types is read from its data. -/
theorem serialization_round_trips :
    (∀ v d, Draft.load v = .ok d →
      Draft.load d.toValue = .ok d ∧ Draft.read true d.toValue = .ok d ∧
        ∀ s, d.complete = .ok s → s.equalsReloaded = .ok true) ∧
    ∀ c : SchemaChange, c.WellTyped → SchemaChange.read c.toValue = .ok c := by
  refine ⟨fun v d hload => ?_, fun c hc => hc.read_toValue⟩
  have hnormal := Draft.normal_of_load hload
  refine ⟨hnormal.load_toValue, hnormal.read_toValue true, fun s hs => ?_⟩
  obtain rfl := Draft.eq_ofSchema hs
  exact Schema.equalsReloaded_of_normal hnormal

namespace Draft

/-- A type with a truth value for its plural, a text for its interfaces and null among its fields,
next to null in place of a type. -/
def lenient : Value :=
  .object [("types", .list [.null, .object [("interfaces", "AB"), ("plural_name", .bool true),
    ("fields", .list [.null, .object [("name", "size"), ("unique", "yes")]])]])]

/-- A field with an attribute that is spelled in mixed case. -/
def nickname : Field :=
  { name := "nickname", type := "string", deprecationReason := "Use handle." }

theorem lenient_round_trips : ∃ d, load lenient = .ok d ∧ load d.toValue = .ok d ∧
    read true d.toValue = .ok d ∧
    SchemaChange.read (SchemaChange.addField "User" (.field nickname)).toValue =
      .ok (.addField "User" (.field nickname)) := by
  have hload : (load lenient).toOption.any (fun _ => true) = true := by decide +kernel
  obtain ⟨d, hd, _⟩ := exists_of_any hload
  obtain ⟨hagain, hstrict, _⟩ := serialization_round_trips.1 lenient d hd
  have hnickname : nickname.WellTyped := ⟨rfl, rfl, rfl, rfl, rfl, rfl, ⟨_, rfl⟩, ⟨_, rfl⟩⟩
  exact ⟨d, hd, hagain, hstrict, serialization_round_trips.2 _ (.addField "User" hnickname)⟩

end Draft

end ObjectQuery
