import ObjectQuery.Proofs.Schema.Validity
import ObjectQuery.Schema.Change

/-!
# What a change makes of each type

A change of a valid schema is a change of its types one by one: what becomes of the type of a name
depends on that type and no other.
-/

set_option autoImplicit false

namespace ObjectQuery

open Outcome

theorem Field.refersTo_eq_false_iff {f : Field} {n : String} :
    f.refersTo (.text n) = false ↔ f.type ≠ .text n ∧ f.ofType ≠ .text n := by
  rw [refersTo, Bool.or_eq_false_iff, ← Bool.not_eq_true, ← Bool.not_eq_true,
    Value.equal_text_iff, Value.equal_text_iff]

namespace ObjectType

def withMembers (t : ObjectType) (members : Members) : ObjectType := { t with members := members }

/-- The fields of a type that do not refer to another one. -/
def unrelated (t : ObjectType) (typeName : Value) : List Field :=
  t.declared.filter (!·.refersTo typeName)

/-- A type without the fields that refer to another one. -/
def dropping (t : ObjectType) (typeName : Value) : ObjectType :=
  if (t.unrelated typeName).length = t.declared.length then t
  else t.withFields (t.unrelated typeName)

@[simp] theorem name_withFields (t : ObjectType) (fields : List Field) :
    (t.withFields fields).name = t.name := rfl

@[simp] theorem name_withMembers (t : ObjectType) (members : Members) :
    (t.withMembers members).name = t.name := rfl

@[simp] theorem name_dropping (t : ObjectType) (typeName : Value) :
    (t.dropping typeName).name = t.name := by
  unfold dropping
  split <;> rfl

@[simp] theorem isNode_dropping (t : ObjectType) (typeName : Value) :
    (t.dropping typeName).isNode = t.isNode := by
  unfold dropping
  split <;> rfl

theorem declared_dropping (t : ObjectType) (typeName : Value) :
    (t.dropping typeName).declared = t.unrelated typeName := by
  unfold dropping
  split
  · rename_i h
    exact (List.filter_sublist.eq_of_length h).symm
  · exact declared_withFields t _

end ObjectType

/-- What a change makes of the type of a name, or of there being none. -/
def SchemaChange.effect (c : SchemaChange) (n : String) (t : Option ObjectType) :
    Option ObjectType :=
  match c with
  | .createType new => t.or (new.filter (·.name.spells n))
  | .deleteType typeName => if typeName.spells n then none else t.map (·.dropping typeName)
  | .addField typeName member =>
    if typeName.spells n then
      t.map fun t => t.withMembers (.listed (t.declared.map .field ++ [member]))
    else t
  | .removeField typeName fieldName =>
    if typeName.spells n then
      t.map fun t => t.withFields (t.declared.filter (!·.name.equal fieldName))
    else t

namespace ObjectType

variable {t : ObjectType} {fs : List Field}

/-- Whether there is nothing but fields in what a type declares as its fields. -/
def Readable (t : ObjectType) : Prop := t.fields = .ok t.declared

theorem eq_map_of_mapM_get {es : List Member} (h : es.mapM Member.get = .ok fs) :
    es = fs.map .field := by
  have hsame : List.Forall₂ (fun m f => m = Member.field f) es fs := by
    refine (mapM_eq_ok.mp h).imp fun m f hm => ?_
    cases m with
    | field g => exact congrArg _ (Except.ok.inj hm)
    | other u => cases hm
  rwa [← List.forall₂_map_right_iff, List.forall₂_eq_eq_eq] at hsame

theorem fields_eq_ok (h : t.fields = .ok fs) :
    t.members.entries = .ok (fs.map .field) ∧ t.declared = fs := by
  obtain ⟨es, hes, hfs⟩ := bind_eq_ok.mp h
  obtain rfl := eq_map_of_mapM_get hfs
  refine ⟨hes, ?_⟩
  rw [declared]
  cases hm : t.members with
  | listed ms =>
    rw [hm] at hes
    obtain rfl : ms = fs.map .field := Except.ok.inj hes
    exact congrArg (·.getD []) (Members.fields?_ofFields fs)
  | other u =>
    -- The parts of what is no list are no fields, so there are none of them.
    rw [hm] at hes
    obtain ⟨parts, _, hparts⟩ := map_eq_ok.mp hes
    cases fs with
    | nil => rfl
    | cons f fs => cases parts <;> cases hparts

theorem Readable.of_fields (h : t.fields = .ok fs) : t.Readable := by
  rw [Readable, (fields_eq_ok h).2, h]

theorem readable_of_members (h : t.members = .ofFields fs) : t.Readable := by
  have hread : (fs.map Member.field).mapM Member.get = .ok fs := by
    rw [mapM_eq_ok, List.forall₂_map_left_iff, List.forall₂_same]
    exact fun _ _ => rfl
  apply Readable.of_fields
  rw [fields, h]
  exact hread

theorem readable_withFields (t : ObjectType) (fs : List Field) : (t.withFields fs).Readable :=
  readable_of_members rfl

theorem findEntry_map (fs : List Field) (v : Value) :
    findEntry v (fs.map .field) = .ok (fs.find? (·.name.equal v)) := by
  induction fs with
  | nil => rfl
  | cons f fs ih =>
    rw [List.map_cons, findEntry, Member.get, ok_bind, ih, List.find?_cons]
    cases f.name.equal v <;> rfl

namespace Readable

variable (h : t.Readable)
include h

theorem entries : t.members.entries = .ok (t.declared.map .field) := (fields_eq_ok h).1

theorem without (v : Value) : t.without v = .ok (t.dropping v) := by
  rw [ObjectType.without, h, ok_bind]
  rfl

theorem find (v : Value) : t.find v = .ok (t.declared.find? (·.name.equal v)) := by
  rw [ObjectType.find, h.entries, ok_bind, findEntry_map]

end Readable

end ObjectType

/-- A type with a name that is a text, and with nothing but fields among its fields. -/
structure ObjectType.Legible (t : ObjectType) : Prop where
  name : ∃ n, t.name = .text n
  members : t.members = .ofFields t.declared

theorem Schema.Valid.legible {rules : Validation.Rules} {s : Schema} (h : s.Valid rules) :
    ∀ t ∈ s.types, t.Legible :=
  fun _ ht => ⟨h.exists_name ht, h.members_eq ht⟩

namespace ObjectType.Legible

variable {t : ObjectType}

theorem readable (h : t.Legible) : t.Readable := readable_of_members h.members

theorem entries (h : t.Legible) : t.members.entries = .ok (t.declared.map .field) :=
  h.readable.entries

theorem fields (h : t.Legible) : t.fields = .ok t.declared := h.readable

theorem without (h : t.Legible) (typeName : Value) :
    t.without typeName = .ok (t.dropping typeName) := h.readable.without typeName

theorem find (h : t.Legible) (v : Value) :
    t.find v = .ok (t.declared.find? (·.name.equal v)) := h.readable.find v

theorem find_eq_ok (h : t.Legible) {f : Field} {v : Value} (hf : t.find v = .ok (some f)) :
    f ∈ t.declared ∧ f.name.equal v = true := by
  have hfound := Except.ok.inj ((h.find v).symm.trans hf)
  have hname := List.find?_some hfound
  exact ⟨List.mem_of_find?_eq_some hfound, hname⟩

end ObjectType.Legible

namespace Schema

variable {s s' : Schema} {t : ObjectType} {c : SchemaChange}

theorem find?_map_name {ts : List ObjectType} {f : ObjectType → ObjectType}
    (hf : ∀ t ∈ ts, (f t).name = t.name) (n : String) :
    (ts.map f).find? (·.name.spells n) = (ts.find? (·.name.spells n)).map f := by
  induction ts with
  | nil => rfl
  | cons t ts ih =>
    have hts := ih fun u hu => hf u (List.mem_cons_of_mem t hu)
    rw [List.map_cons, List.find?_cons, List.find?_cons, hf t List.mem_cons_self]
    cases t.name.spells n with
    | true => rfl
    | false => exact hts

theorem find?_filter_name {ts : List ObjectType} {v : Value} (hts : ∀ t ∈ ts, t.Legible)
    (n : String) : (ts.filter (!·.name.equal v)).find? (·.name.spells n) =
      if v.spells n then none else ts.find? (·.name.spells n) := by
  induction ts with
  | nil => cases v.spells n <;> rfl
  | cons t ts ih =>
    have ih := ih fun u hu => hts u (List.mem_cons_of_mem t hu)
    obtain ⟨m, hm⟩ := (hts t List.mem_cons_self).name
    rw [List.filter_cons, hm, Value.text_equal_eq]
    by_cases hv : v.spells m = true
    · have hmn : m = n ↔ v.spells n = true := by
        rw [Value.spells_iff.mp hv, Value.spells_text, beq_iff_eq]
      rw [if_neg (by simp [hv]), ih, List.find?_cons, hm, Value.spells_text]
      by_cases hn : v.spells n = true
      · rw [if_pos hn, if_pos hn]
      · rw [if_neg hn, if_neg hn, beq_false_of_ne fun h => hn (hmn.mp h)]
    · rw [if_pos (by simp [hv]), List.find?_cons, List.find?_cons, hm, Value.spells_text, ih]
      by_cases hn : m = n
      · subst hn
        rw [if_neg hv, if_neg hv, BEq.rfl]
      · rw [beq_false_of_ne hn]

theorem lookup_eq_ok {v : Value} (h : s.lookup v = .ok (some t)) :
    ∃ n, v = .text n ∧ s.type? n = some t := by
  cases v with
  | text n => exact ⟨n, rfl, Except.ok.inj h⟩
  | _ => simp [lookup, Value.isKey] at h

theorem existing_eq_ok {v : Value} (h : s.existing v = .ok t) :
    ∃ n, v = .text n ∧ s.type? n = some t := by
  obtain ⟨found, hfound, h⟩ := bind_eq_ok.mp h
  cases found with
  | none => cases h
  | some u =>
    cases h
    exact lookup_eq_ok (mapError_eq_ok.mp hfound)

/-- Replacing the type of a name replaces what is found under that name. -/
theorem type?_replace {n m : String} {new : ObjectType} (hnew : new.name = .text n) :
    (s.replace (.text n) new).type? m =
      if n = m then (s.type? m).map fun _ => new else s.type? m := by
  have hreplace : (s.replace (.text n) new).types =
      s.types.map fun t => if t.name.equal (.text n) then new else t := rfl
  have hname : ∀ t ∈ s.types, (if t.name.equal (.text n) then new else t).name = t.name := by
    intro t _
    split
    · rename_i ht
      rw [hnew, Value.equal_text_iff.mp ht]
    · rfl
  rw [type?, hreplace, find?_map_name hname, ← type?]
  cases ht : s.type? m with
  | none => simp
  | some t =>
    have hm := type?_name ht
    rw [Option.map_some, hm, Value.equal_text, Option.map_some]
    by_cases hnm : n = m
    · rw [if_pos hnm, if_pos (by rw [hnm, BEq.rfl])]
    · rw [if_neg hnm, if_neg (by simpa using fun h => hnm h.symm)]

theorem delete_of_readable {v : Value}
    (hs : ∀ t ∈ s.types.filter (!·.name.equal v), t.Readable) :
    s.delete v = .ok ⟨(s.types.filter (!·.name.equal v)).map (·.dropping v)⟩ := by
  rw [delete, mapM_ok fun t ht => (hs t ht).without v]
  rfl

theorem delete_eq (hs : ∀ t ∈ s.types, t.Legible) (v : Value) :
    s.delete v = .ok ⟨(s.types.filter (!·.name.equal v)).map (·.dropping v)⟩ :=
  delete_of_readable fun t ht => (hs t (List.mem_of_mem_filter ht)).readable

theorem apply_deleteType_eq_ok (hs : ∀ t ∈ s.types, t.Legible) {v : Value}
    (h : s.apply (.deleteType v) = .ok s') :
    (∃ n t, v = .text n ∧ s.type? n = some t) ∧
      s' = ⟨(s.types.filter (!·.name.equal v)).map (·.dropping v)⟩ := by
  obtain ⟨t, ht, h⟩ := bind_eq_ok.mp h
  obtain ⟨n, hn⟩ := existing_eq_ok ht
  rw [mapError_eq_ok, delete_eq hs] at h
  cases h
  exact ⟨⟨n, t, hn⟩, rfl⟩

theorem apply_addField_eq_ok (hs : ∀ t ∈ s.types, t.Legible) {v : Value} {member : Member}
    (h : s.apply (.addField v member) = .ok s') :
    ∃ n t, v = .text n ∧ s.type? n = some t ∧
      s' = s.replace v (t.withMembers (.listed (t.declared.map .field ++ [member]))) := by
  obtain ⟨t, hexisting, h⟩ := bind_eq_ok.mp h
  obtain ⟨n, hn, ht⟩ := existing_eq_ok hexisting
  rw [(hs t (mem_of_type? ht)).entries] at h
  cases h
  exact ⟨n, t, hn, ht, rfl⟩

theorem apply_removeField_eq_ok (hs : ∀ t ∈ s.types, t.Legible) {v fieldName : Value}
    (h : s.apply (.removeField v fieldName) = .ok s') :
    ∃ n t f, v = .text n ∧ s.type? n = some t ∧ t.find fieldName = .ok (some f) ∧
      s' = s.replace v (t.withFields (t.declared.filter (!·.name.equal fieldName))) := by
  obtain ⟨t, hexisting, h⟩ := bind_eq_ok.mp h
  obtain ⟨n, hn, ht⟩ := existing_eq_ok hexisting
  obtain ⟨found, hfound, h⟩ := bind_eq_ok.mp h
  cases found with
  | none => cases h
  | some f =>
    simp only [(hs t (mem_of_type? ht)).fields] at h
    cases h
    exact ⟨n, t, f, hn, ht, mapError_eq_ok.mp hfound, rfl⟩

/-- What is found under a name after a change is what the change makes of what was found before. -/
theorem type?_apply (hs : ∀ t ∈ s.types, t.Legible) (h : s.apply c = .ok s') (n : String) :
    s'.type? n = c.effect n (s.type? n) := by
  cases c with
  | createType new =>
    cases new with
    | none => cases h
    | some new =>
      cases h
      rw [type?, List.find?_append, ← type?, SchemaChange.effect, List.find?_singleton,
        Option.filter_some]
  | deleteType v =>
    obtain ⟨_, rfl⟩ := apply_deleteType_eq_ok hs h
    rw [type?, find?_map_name fun t _ => t.name_dropping v, find?_filter_name hs, ← type?,
      SchemaChange.effect]
    split <;> rfl
  | addField v member =>
    obtain ⟨m, t, rfl, ht, rfl⟩ := apply_addField_eq_ok hs h
    rw [type?_replace (by rw [ObjectType.name_withMembers, type?_name ht]), SchemaChange.effect,
      Value.spells_text]
    by_cases hn : m = n
    · subst hn
      rw [if_pos rfl, if_pos BEq.rfl, ht]
      rfl
    · rw [if_neg hn, if_neg (by simpa using hn)]
  | removeField v fieldName =>
    obtain ⟨m, t, _, rfl, ht, _, rfl⟩ := apply_removeField_eq_ok hs h
    rw [type?_replace (by rw [ObjectType.name_withFields, type?_name ht]), SchemaChange.effect,
      Value.spells_text]
    by_cases hn : m = n
    · subst hn
      rw [if_pos rfl, if_pos BEq.rfl, ht]
      rfl
    · rw [if_neg hn, if_neg (by simpa using hn)]

theorem applyValidated_eq_ok {rules : Validation.Rules}
    (h : s.applyValidated rules c = .ok (.ok s')) : s.apply c = .ok s' ∧ s'.Valid rules := by
  unfold applyValidated at h
  split at h
  · cases h
  · cases h
  · rename_i t ht
    obtain ⟨violations, hv, h⟩ := bind_eq_ok.mp h
    cases violations with
    | nil =>
      cases h
      exact ⟨ht, hv⟩
    | cons v vs => cases h

variable {rules : Validation.Rules} {t' : ObjectType} {f : Field} {n : String}

theorem declared_of_members {member : Member}
    (hm : t'.members = .ofFields t'.declared)
    (ht' : t'.members = .listed (t.declared.map .field ++ [member])) :
    ∃ f, member = .field f ∧ t'.declared = t.declared ++ [f] := by
  rw [ht', Members.ofFields, Members.listed.injEq] at hm
  obtain ⟨fs, gs, hsplit, hfs, hgs⟩ := List.map_eq_append_iff.mp hm.symm
  obtain ⟨f, rfl, rfl⟩ := List.map_eq_singleton_iff.mp hgs
  have hinjective : Function.Injective Member.field := fun _ _ => Member.field.inj
  rw [hsplit, List.map_injective_iff.mpr hinjective hfs]
  exact ⟨f, rfl, rfl⟩

/-- A type gets one more field, and the others are as before. -/
structure Gains (s s' : Schema) (n : String) (t t' : ObjectType) (f : Field) : Prop where
  found : s.type? n = some t
  mem : t' ∈ s'.types
  name : t'.name = .text n
  isNode : t'.isNode = t.isNode
  declared : t'.declared = t.declared ++ [f]
  types : s'.types = s.types.map fun u => if u.name.equal (.text n) then t' else u

theorem Valid.gains (h : s.Valid rules) (h' : s'.Valid rules) {v : Value} {member : Member}
    (hc : s.apply (.addField v member) = .ok s') :
    ∃ n t t' f, v = .text n ∧ member = .field f ∧ s.Gains s' n t t' f := by
  obtain ⟨n, t, rfl, ht, rfl⟩ := apply_addField_eq_ok h.legible hc
  have hname := type?_name ht
  have hmem : t.withMembers (.listed (t.declared.map .field ++ [member])) ∈
      (s.replace (.text n)
        (t.withMembers (.listed (t.declared.map .field ++ [member])))).types := by
    refine List.mem_map.mpr ⟨t, mem_of_type? ht, ?_⟩
    rw [if_pos (Value.equal_text_iff.mpr hname)]
  obtain ⟨f, rfl, hdeclared⟩ := declared_of_members (h'.members_eq hmem) rfl
  exact ⟨n, t, _, f, rfl, rfl, ht, hmem, hname, rfl, hdeclared, rfl⟩

end Schema

end ObjectQuery
