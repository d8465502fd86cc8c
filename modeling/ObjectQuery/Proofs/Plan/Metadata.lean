import ObjectQuery.Proofs.Plan.Refusals
import ObjectQuery.Proofs.Plan.Reports

/-!
# Metadata that plans hold

What a plan holds of a schema can be presented whatever is selected on it: where a type of metadata
has a connection, its records have a list, and all that is in it is metadata of the right type. The
change that a plan makes leaves the schema that the query was compiled against valid.
-/

set_option autoImplicit false

namespace ObjectQuery

open Outcome

namespace Metadata

mutual

/-- What a record holds in a field that leads to other metadata. -/
inductive Leads : Field → ObjectType → Value → Prop where
  | list {f : Field} {u : ObjectType} {items : List Value}
      (hl : (f.isConnection || f.isList) = true) (h : ∀ v ∈ items, Describes u v) :
      Leads f u (.list items)
  | null {f : Field} {u : ObjectType} (hl : (f.isConnection || f.isList) = false) :
      Leads f u .null
  | object {f : Field} {u : ObjectType} {v : Value} (hl : (f.isConnection || f.isList) = false)
      (h : Describes u v) : Leads f u v

/-- A record of a type of metadata. -/
inductive Describes : ObjectType → Value → Prop where
  | object {t : ObjectType} {entries : List (String × Value)}
      (h : ∀ name f v u, t.field? name = some f → leadsTo? f = some v → target f v = .ok u →
        Leads f u ((Value.object entries).held name)) : Describes t (.object entries)

end

theorem Describes.exists_entries {t : ObjectType} {v : Value} (h : Describes t v) :
    ∃ entries, v = .object entries := by
  cases h with
  | @object _ entries _ => exact ⟨entries, rfl⟩

theorem Describes.entry_eq {t : ObjectType} {v : Value} (h : Describes t v) (name : String) :
    v.entry name = .ok (v.held name) := by
  obtain ⟨entries, rfl⟩ := h.exists_entries
  rfl

theorem Describes.leads {t u : ObjectType} {v : Value} (h : Describes t v) {name : String}
    {f : Field} (hf : t.field? name = some f) {w : Value} (hl : leadsTo? f = some w)
    (hu : target f w = .ok u) : Leads f u (v.held name) := by
  cases h with
  | object h => exact h name f w u hf hl hu

/-- A type that leads nowhere is described by any object. -/
theorem describes_of_leaves {t : ObjectType}
    (h : (t.declared.all fun f => (leadsTo? f).isNone) = true) (entries : List (String × Value)) :
    Describes t (.object entries) := by
  refine .object fun name f v u hf hl _ => ?_
  have hnone := List.all_eq_true.mp h f (ObjectType.mem_of_field? hf)
  rw [hl] at hnone
  cases hnone

theorem describes_field (f : Field) : Describes fieldType f.toValue :=
  describes_of_leaves (by decide) _

theorem describes_operation (o : Operation) : Describes callType o.toRecord :=
  describes_of_leaves (by decide) _

theorem describes_type {t : ObjectType} (h : t.Legible) : Describes typeType t.toRecord := by
  refine .object fun name f v u hf hl hu => ?_
  have hmem : f ∈ typeType.declared := ObjectType.mem_of_field? hf
  have hname := ObjectType.field?_name hf
  simp only [typeType, ObjectType.declared, Members.fields?_ofFields, Option.getD_some,
    List.mem_cons, List.not_mem_nil, or_false] at hmem
  rcases hmem with rfl | rfl | rfl | rfl | rfl | rfl | rfl
  case inr.inr.inr.inr.inr.inr =>
    cases hname
    cases hl
    cases hu
    have hfields : t.toRecord.held "fields" = .list (t.declared.map Field.toValue) := by
      show t.members.toValue = _
      rw [h.members, Members.ofFields, Members.toValue, List.map_map]
      rfl
    show Leads _ _ (t.toRecord.held "fields")
    rw [hfields]
    exact .list rfl (List.forall_mem_map.mpr fun f _ => describes_field f)
  all_goals cases hl

theorem types_legible : ∀ t ∈ types, t.Legible := by
  simp only [types, List.forall_mem_cons, List.not_mem_nil, false_implies, implies_true, and_true]
  exact ⟨⟨⟨_, rfl⟩, rfl⟩, ⟨⟨_, rfl⟩, rfl⟩, ⟨⟨_, rfl⟩, rfl⟩, ⟨⟨_, rfl⟩, rfl⟩, ⟨⟨_, rfl⟩, rfl⟩,
    ⟨⟨_, rfl⟩, rfl⟩, ⟨_, rfl⟩, rfl⟩

theorem describes_schema {s : Schema} (h : ∀ t ∈ s.types, t.Legible) :
    Describes schemaType s.toRecord := by
  refine .object fun name f v u hf hl hu => ?_
  have hmem : f ∈ schemaType.declared := ObjectType.mem_of_field? hf
  have hname := ObjectType.field?_name hf
  rcases List.mem_pair.mp hmem with rfl | rfl
  · cases hname
    cases hl
    cases hu
    exact .list rfl (List.forall_mem_map.mpr fun o _ => describes_operation o)
  · cases hname
    cases hl
    cases hu
    refine .list rfl (List.forall_mem_map.mpr fun t ht => describes_type ?_)
    rcases List.mem_append.mp ht with ht | ht
    · exact h t ht
    · exact types_legible t ht

theorem leads_shownType {f : Field} {t : Option ObjectType}
    (hl : (f.isConnection || f.isList) = false) (h : ∀ u ∈ t, u.Legible) :
    Leads f typeType (shownType t) := by
  cases t with
  | none => exact .null hl
  | some t => exact .object hl (describes_type (h t rfl))

theorem describes_change {s s' : Schema} (hs : ∀ t ∈ s.types, t.Legible)
    (hs' : ∀ t ∈ s'.types, t.Legible) (n : String) : Describes changeType (s.pairOf s' n) := by
  refine .object fun name f v u hf hl hu => ?_
  have hmem : f ∈ changeType.declared := ObjectType.mem_of_field? hf
  have hname := ObjectType.field?_name hf
  rcases List.mem_pair.mp hmem with rfl | rfl
  · cases hname
    cases hl
    cases hu
    exact leads_shownType rfl fun t ht => hs t (Schema.mem_of_type? ht)
  · cases hname
    cases hl
    cases hu
    exact leads_shownType rfl fun t ht => hs' t (Schema.mem_of_type? ht)

/-- The two types for results have the same fields. -/
theorem describes_result {t : ObjectType} (ht : t.members = resultFields) (success : Bool)
    {changes : List Value} (h : ∀ v ∈ changes, Describes changeType v) :
    Describes t (.object [("success", .bool success), ("changes", .list changes)]) := by
  refine .object fun name f v u hf hl hu => ?_
  have hmem : f ∈ t.declared := ObjectType.mem_of_field? hf
  have hname := ObjectType.field?_name hf
  rw [ObjectType.declared, ht] at hmem
  rcases List.mem_pair.mp hmem with rfl | rfl
  · cases hl
  · cases hname
    cases hl
    cases hu
    exact .list rfl h

end Metadata

end ObjectQuery
