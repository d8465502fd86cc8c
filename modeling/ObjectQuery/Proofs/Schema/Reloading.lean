import ObjectQuery.Introspection.Records
import ObjectQuery.Proofs.Schema.Effect
import ObjectQuery.Proofs.Schema.Reporting

/-!
# Reading records of types back

What was read from data is in a form that is left alone when it is read again: texts and truth
values stay what they are, and null stays null. So a type that was read can be told from its record,
but for its plural, which the record has whether it was declared or not.
-/

set_option autoImplicit false

namespace ObjectQuery

open Outcome Record

theorem Record.asText_asText (v : Value) : asText (asText v) = asText v := by
  cases v <;> rfl

theorem Record.asFlag_asFlag (v : Value) : asFlag (asFlag v) = asFlag v := by
  cases v <;> rfl

/-- A field with attributes that reading leaves alone. -/
structure Field.Settled (f : Field) : Prop where
  name : asText f.name = f.name
  type : asText f.type = f.type
  ofType : asText f.ofType = f.ofType
  description : asText f.description = f.description
  deprecationReason : asText f.deprecationReason = f.deprecationReason
  reverseName : asText f.reverseName = f.reverseName
  unique : asFlag f.unique = f.unique
  nonNull : asFlag f.nonNull = f.nonNull

section Fields

variable {strict : Bool} {v : Value} {f : Field}

theorem Field.settled_of_read (h : Field.read strict v = .ok f) : f.Settled := by
  obtain ⟨es, _, h⟩ := bind_eq_ok.mp h
  obtain ⟨name, _, h⟩ := bind_eq_ok.mp h
  obtain ⟨type, _, h⟩ := bind_eq_ok.mp h
  cases h
  exact ⟨asText_asText _, asText_asText _, asText_asText _, asText_asText _, asText_asText _,
    asText_asText _, asFlag_asFlag _, asFlag_asFlag _⟩

theorem Field.Settled.read_toValue (h : f.Settled) (strict : Bool) :
    Field.read strict f.toValue = .ok f := by
  have hread : Field.read strict f.toValue = .ok {
      name := asText f.name
      type := asText f.type
      ofType := asText f.ofType
      description := asText f.description
      deprecationReason := asText f.deprecationReason
      reverseName := asText f.reverseName
      unique := asFlag f.unique
      nonNull := asFlag f.nonNull } := rfl
  rw [hread, h.name, h.type, h.ofType, h.description, h.deprecationReason, h.reverseName, h.unique,
    h.nonNull]

end Fields

/-- An entry that reading leaves alone: a settled field, or null. -/
def Member.Settled : Member → Prop
  | field f => f.Settled
  | other v => v = .null

/-- Entries that reading leaves alone, or null in place of them. -/
def Members.Settled : Members → Prop
  | listed es => ∀ m ∈ es, m.Settled
  | other v => v = .null

section Members

variable {strict : Bool} {v : Value} {m : Member} {ms : Members}

theorem Member.settled_of_read (h : Member.read strict v = .ok m) : m.Settled := by
  unfold Member.read at h
  split at h
  · cases h
    rfl
  · have hmap : (Field.read strict v).map Member.field = .ok m := h
    obtain ⟨f, hf, rfl⟩ := map_eq_ok.mp hmap
    exact Field.settled_of_read hf

theorem Member.Settled.read_toValue (h : m.Settled) (strict : Bool) :
    Member.read strict m.toValue = .ok m := by
  cases m with
  | field f =>
    have hf : f.Settled := h
    have hread : Member.read strict f.toValue = (Field.read strict f.toValue).map Member.field :=
      rfl
    rw [toValue, hread, hf.read_toValue]
    rfl
  | other v =>
    obtain rfl : v = .null := h
    rfl

theorem Members.settled_of_read (h : Members.read strict v = .ok ms) : ms.Settled := by
  unfold Members.read at h
  split at h
  · cases h
    rfl
  · obtain ⟨parts, _, h⟩ := bind_eq_ok.mp h
    obtain ⟨es, hes, h⟩ := bind_eq_ok.mp h
    cases h
    intro m hm
    obtain ⟨part, _, hpart⟩ := exists_of_mem_mapM hes hm
    exact Member.settled_of_read hpart

theorem Members.Settled.read_toValue (h : ms.Settled) (strict : Bool) :
    Members.read strict ms.toValue = .ok ms := by
  cases ms with
  | listed es =>
    have hes : (es.map Member.toValue).mapM (Member.read strict) = .ok es := by
      rw [mapM_eq_ok, List.forall₂_map_left_iff, List.forall₂_same]
      exact fun m hm => (h m hm).read_toValue strict
    show (do return .listed (← (es.map Member.toValue).mapM (Member.read strict)) :
      Except Misuse Members) = _
    rw [hes]
    rfl
  | other v =>
    obtain rfl : v = .null := h
    rfl

theorem Members.settled_ofFields {fields : List Field} (h : ∀ f ∈ fields, f.Settled) :
    (Members.ofFields fields).Settled := by
  intro m hm
  obtain ⟨f, hf, rfl⟩ := List.mem_map.mp hm
  exact h f hf

end Members

namespace ObjectType

variable {strict : Bool} {v : Value} {t : ObjectType}

/-- A type that declares its plural, whatever it is. -/
def resolved (t : ObjectType) : ObjectType := { t with pluralName := t.plural }

/-- A type with attributes that reading leaves alone. -/
structure Settled (t : ObjectType) : Prop where
  name : asText t.name = t.name
  members : t.members = .ofFields t.declared
  fields : ∀ f ∈ t.declared, f.Settled
  interfaces : readInterfaces t.interfaces = .ok t.interfaces
  kind : asText t.kind = t.kind
  plural : asText t.plural = t.plural
  description : asText t.description = t.description

theorem readInterfaces_of_read {interfaces : Value} (h : readInterfaces v = .ok interfaces) :
    readInterfaces interfaces = .ok interfaces := by
  unfold readInterfaces at h
  split at h
  · cases h
    rfl
  · obtain ⟨parts, _, h⟩ := bind_eq_ok.mp h
    cases h
    show Except.ok (Value.list _) = _
    rw [List.map_map]
    rfl

theorem settled_of_read (h : read strict v = .ok t) (hm : t.members = .ofFields t.declared) :
    t.Settled := by
  obtain ⟨es, _, h⟩ := bind_eq_ok.mp h
  obtain ⟨name, _, h⟩ := bind_eq_ok.mp h
  obtain ⟨members, hmembers, h⟩ := bind_eq_ok.mp h
  obtain ⟨interfaces, hinterfaces, h⟩ := bind_eq_ok.mp h
  cases h
  refine ⟨asText_asText _, hm, fun f hf => ?_, readInterfaces_of_read hinterfaces,
    asText_asText _, ?_, asText_asText _⟩
  · dsimp only at hm
    rw [hm] at hmembers
    obtain ⟨part, hpart⟩ := Members.exists_of_read hmembers hf
    exact Field.settled_of_read hpart
  · rw [plural]
    split
    · dsimp only
      cases name <;> rfl
    · exact asText_asText _

/-- A type is read from its record as it is, but for its plural. -/
theorem Settled.read_toRecord (h : t.Settled) (strict : Bool) :
    read strict t.toRecord = .ok t.resolved := by
  have hmembers := (Members.settled_ofFields h.fields).read_toValue strict
  rw [← h.members] at hmembers
  have hread : read strict t.toRecord = (do
      let members ← Members.read strict t.members.toValue
      let interfaces ← readInterfaces t.interfaces
      return {
        name := asText t.name
        members := members
        interfaces := interfaces
        kind := asText t.kind
        pluralName := asText t.plural
        description := asText t.description }) := rfl
  rw [hread, hmembers, ok_bind, h.interfaces, ok_bind, h.name, h.kind, h.plural, h.description]
  rfl

end ObjectType

namespace Draft

variable {rules : Validation.Rules} {v : Value} {s : Schema} {t : ObjectType}

theorem settled_of_load (h : load v = .ok (.ofSchema s)) (hs : s.Valid rules) (ht : t ∈ s.types) :
    t.Settled := by
  obtain ⟨part, hpart⟩ := exists_of_load h (List.mem_map_of_mem ht)
  exact ObjectType.settled_of_read hpart (hs.members_eq ht)

/-- A definition that lists records of types is read as these types. -/
theorem load_records {ts : List ObjectType} (h : ∀ t ∈ ts, t.Settled) :
    load (.object [("types", .list (ts.map ObjectType.toRecord))]) =
      .ok (.ofSchema ⟨ts.map ObjectType.resolved⟩) := by
  have htypes : (ts.map ObjectType.toRecord).mapM (readType false) =
      .ok (ts.map fun t => some t.resolved) := by
    refine mapM_eq_ok.mpr (List.forall₂_map_left_iff.mpr (List.forall₂_map_right_iff.mpr ?_))
    rw [List.forall₂_same]
    intro t ht
    have hread : readType false t.toRecord = (ObjectType.read false t.toRecord).map some := rfl
    rw [hread, (h t ht).read_toRecord]
    rfl
  have hload : load (.object [("types", .list (ts.map ObjectType.toRecord))]) = (do
      return ⟨some (← (ts.map ObjectType.toRecord).mapM (readType false))⟩) := rfl
  rw [hload, htypes, ok_bind, ofSchema, List.map_map]
  rfl

end Draft

end ObjectQuery
