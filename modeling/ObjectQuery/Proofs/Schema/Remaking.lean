import Mathlib.Data.List.Find
import ObjectQuery.Proofs.Schema.Opposites
import ObjectQuery.Proofs.Schema.Verdict

/-!
# Schemas made over

All changes but the one that creates a type keep some of the types of a schema, in their order, and
say anew which fields each of them has. Names, plurals and interfaces are as before then, so what
has to be checked of such a schema is that the required types are kept and that each type has
fields that are in order in the new schema.
-/

set_option autoImplicit false

namespace ObjectQuery

open Outcome Validation

theorem Value.not_spells_iff {v : Value} {n : String} : (!v.spells n) = true ↔ v ≠ .text n := by
  rw [Bool.not_eq_true', ← Bool.not_eq_true, spells_iff]

/-- The fields of a type, but for the types of one name, which have other ones. -/
def ObjectType.edited (n : String) (edit : List Field → List Field) (t : ObjectType) : List Field :=
  if t.name.spells n then edit t.declared else t.declared

namespace Schema

/-- Some of the types of a schema, with other fields. -/
def remade (s : Schema) (keep : ObjectType → Bool) (fields : ObjectType → List Field) : Schema :=
  ⟨(s.types.filter keep).map fun t => t.withFields (fields t)⟩

/-- Whether a field is not the one of a name in the type of a name. -/
def isSpared (n m : String) (t : ObjectType) (f : Field) : Bool :=
  !(t.name.spells n && f.name.spells m)

/-- Some of the types of a schema, with some of their fields. -/
def restricted (s : Schema) (keep : ObjectType → Bool) (keepField : ObjectType → Field → Bool) :
    Schema :=
  s.remade keep fun t => t.declared.filter (keepField t)

variable {rules : Rules} {s s' : Schema} {t u : ObjectType} {f g : Field} {v : Value} {n : String}
  {keep : ObjectType → Bool} {fields : ObjectType → List Field}
  {keepField : ObjectType → Field → Bool}

theorem mem_remade : u ∈ (s.remade keep fields).types ↔
    ∃ t ∈ s.types, keep t = true ∧ t.withFields (fields t) = u := by
  simp only [remade, List.mem_map, List.mem_filter, and_assoc]

theorem forall_mem_remade {p : ObjectType → Prop} : (∀ u ∈ (s.remade keep fields).types, p u) ↔
    ∀ t ∈ s.types, keep t = true → p (t.withFields (fields t)) := by
  simp only [remade, List.forall_mem_map, List.mem_filter, and_imp]

theorem typeNames_remade : (s.remade keep fields).typeNames = (s.types.filter keep).map (·.name) :=
  List.map_map

theorem nodup_typeNames_remade (h : s.typeNames.Nodup) :
    (s.remade keep fields).typeNames.Nodup := by
  rw [typeNames_remade]
  exact h.sublist (List.filter_sublist.map _)

theorem markerFree_remade (h : s.MarkerFree) : (s.remade keep fields).MarkerFree :=
  forall_mem_remade.mpr fun t ht _ => h t ht

/-- What is found under a name whose type is kept. -/
theorem type?_remade (hkeep : ∀ t ∈ s.types, t.name = .text n → keep t = true) :
    (s.remade keep fields).type? n = (s.type? n).map fun t => t.withFields (fields t) := by
  have hfilter : (s.types.filter keep).find? (·.name.spells n) = s.type? n := by
    rw [List.find?_filter, type?]
    refine List.find?_congr fun t ht => ?_
    cases hn : t.name.spells n with
    | true => simp [hkeep t ht (Value.spells_iff.mp hn)]
    | false => simp
  have hname : ∀ t ∈ s.types.filter keep, (t.withFields (fields t)).name = t.name := fun _ _ => rfl
  rw [← hfilter]
  exact find?_map_name hname n

theorem standing_remade (hkeep : ∀ t ∈ s.types, t.name = v → keep t = true) :
    (s.remade keep fields).standing v = s.standing v := by
  cases v with
  | text n =>
    rw [standing, standing, Value.text?_text, Option.bind_some, Option.bind_some,
      type?_remade hkeep, Option.map_map]
    rfl
  | _ => rfl

theorem TypeFacts.remade (h : TypeFacts rules s t) : TypeFacts rules (s.remade keep fields) t := by
  apply h.transfer
  obtain ⟨p, hp⟩ := h.exists_plural
  have hfree := (pluralIsFree_iff hp).mp h.pluralFree
  exact (pluralIsFree_iff hp).mpr (forall_mem_remade.mpr fun u hu _ => hfree u hu)

/-- A schema made of a valid one is valid if the required types are in it and the fields of its
types are as they have to be. -/
theorem Valid.valid_remade (h : s.Valid rules)
    (hrequired : ∀ t ∈ s.types, t.name ∈ rules.required → keep t = true)
    (hne : ∀ t ∈ s.types, keep t = true → fields t ≠ [])
    (hnodup : ∀ t ∈ s.types, keep t = true → ((fields t).map (·.name)).Nodup)
    (hmandated : ∀ t ∈ s.types, keep t = true → (t.withFields (fields t)).Mandated rules)
    (hfields : ∀ t ∈ s.types, keep t = true → ∀ f ∈ fields t,
      FieldFacts rules (s.remade keep fields) (t.withFields (fields t)) f) :
    (s.remade keep fields).Valid rules := by
  have hf := h.facts
  have hplurals : (s.remade keep fields).types.map ObjectType.plural =
      (s.types.filter keep).map ObjectType.plural := List.map_map
  refine Facts.valid ⟨nodup_typeNames_remade hf.names, ?_, ?_, ?_, forall_mem_remade.mpr hmandated,
    forall_mem_remade.mpr fun t ht hk => ?_⟩
  · rw [hplurals]
    exact hf.plurals.sublist (List.filter_sublist.map _)
  · intro v hv
    obtain ⟨t, ht, rfl⟩ := List.mem_map.mp (hf.required v hv)
    rw [typeNames_remade]
    exact List.mem_map_of_mem (List.mem_filter.mpr ⟨ht, hrequired t ht hv⟩)
  · refine forall_mem_remade.mpr fun t ht hk => ?_
    refine (hf.types t ht).remade.withFields ?_ (hne t ht hk) (hnodup t ht hk)
    intro f hmem
    obtain ⟨n, hn, _⟩ := exists_of_fieldName (hfields t ht hk f hmem).name
    exact ⟨n, hn⟩
  · rw [ObjectType.declared_withFields]
    exact hfields t ht hk

/-- A valid schema stays valid when types and fields are left out of it: the types that the fields
left over speak of have to be kept, and both ends of a relation or none. -/
theorem Valid.valid_restricted (h : s.Valid rules) (hm : s.MarkerFree)
    (hrequired : ∀ t ∈ s.types, t.name ∈ rules.required → keep t = true)
    (hne : ∀ t ∈ s.types, keep t = true → ∃ f ∈ t.declared, keepField t f = true)
    (hmandated : ∀ t ∈ s.types, keep t = true →
      (t.withFields (t.declared.filter (keepField t))).Mandated rules)
    (hkeep : ∀ t ∈ s.types, keep t = true → ∀ f ∈ t.declared, keepField t f = true →
      ∀ u ∈ s.types, f.type = u.name ∨ f.ofType = u.name → keep u = true)
    (hends : ∀ t ∈ s.types, keep t = true → ∀ f ∈ t.declared, keepField t f = true →
      ∀ u ∈ s.types, ∀ g ∈ u.declared, Opposite t f u g → keepField u g = true) :
    (s.restricted keep keepField).Valid rules := by
  have hnodup : ∀ t ∈ s.types, keep t = true →
      ((t.declared.filter (keepField t)).map (·.name)).Nodup := fun t ht _ =>
    (h.fieldNames_nodup ht).sublist (List.filter_sublist.map _)
  refine h.valid_remade hrequired (fun t ht hk => ?_) hnodup hmandated fun t ht hk f hf => ?_
  · obtain ⟨f, hf, hkf⟩ := hne t ht hk
    exact List.ne_nil_of_mem (List.mem_filter.mpr ⟨hf, hkf⟩)
  · obtain ⟨hf, hkf⟩ := List.mem_filter.mp hf
    have htargets := hkeep t ht hk f hf hkf
    refine h.fieldFacts_in hm ht hf rfl rfl (standing_remade fun u hu hun => ?_)
      (standing_remade fun u hu hun => ?_) (nodup_typeNames_remade h.names_nodup) ?_ ?_
    · exact htargets u hu (.inl hun.symm)
    · exact htargets u hu (.inr hun.symm)
    · refine forall_mem_remade.mpr fun u hu hku => ?_
      rw [ObjectType.declared_withFields]
      exact hnodup u hu hku
    · intro u hu g hg ho
      have hku : keep u = true := by
        apply htargets u hu
        cases ho with
        | connection hc => exact .inr hc.ofType
        | reference hc => exact .inl hc.type
      refine ⟨_, mem_remade.mpr ⟨u, hu, hku, rfl⟩, rfl, ?_⟩
      rw [ObjectType.declared_withFields]
      exact List.mem_filter.mpr ⟨hg, hends t ht hk f hf hkf u hu g hg ho⟩

end Schema

namespace ObjectType.Legible

variable {t : ObjectType}

theorem withFields_declared (h : t.Legible) : t.withFields t.declared = t := by
  rw [withFields, ← h.members]

theorem dropping_eq (h : t.Legible) (v : Value) : t.dropping v = t.withFields (t.unrelated v) := by
  rw [dropping]
  split
  · rename_i hlength
    rw [unrelated, List.filter_sublist.eq_of_length hlength, h.withFields_declared]
  · rfl

theorem exists_found (h : t.Legible) {f : Field} (hf : f ∈ t.declared) {n : String}
    (hn : f.name = .text n) : ∃ g, t.find f.name = .ok (some g) := by
  have hfound : (t.declared.find? (·.name.equal f.name)).isSome := by
    rw [List.find?_isSome, hn]
    exact ⟨f, hf, Value.equal_text_iff.mpr hn⟩
  obtain ⟨g, hg⟩ := Option.isSome_iff_exists.mp hfound
  exact ⟨g, by rw [h.find, hg]⟩

end ObjectType.Legible

namespace Schema

variable {rules : Rules} {s s' : Schema} {t u : ObjectType} {f g : Field} {n m : String}

theorem existing_of_type? (ht : s.type? n = some t) : s.existing (.text n) = .ok t := by
  rw [existing, lookup, ht]
  rfl

/-- Deleting a type leaves the other types, without the fields that refer to it. -/
theorem Valid.apply_deleteType (h : s.Valid rules) (ht : s.type? n = some t) :
    s.apply (.deleteType (.text n)) =
      .ok (s.restricted (!·.name.spells n) fun _ f => !f.refersTo (.text n)) := by
  have hmap : (s.types.filter (!·.name.spells n)).map (·.dropping (.text n)) =
      (s.types.filter (!·.name.spells n)).map fun u => u.withFields (u.unrelated (.text n)) :=
    List.map_congr_left fun u hu => (h.legible u (List.mem_of_mem_filter hu)).dropping_eq _
  rw [apply, existing_of_type? ht, ok_bind, delete_eq h.legible]
  simp only [Value.equal_text_eq]
  rw [hmap]
  rfl

/-- Giving the type of a name other fields leaves all else as it is. -/
theorem Valid.replace_eq (h : s.Valid rules) (ht : s.type? n = some t)
    (edit : List Field → List Field) :
    s.replace (.text n) (t.withFields (edit t.declared)) =
      s.remade (fun _ => true) (ObjectType.edited n edit) := by
  simp only [replace, remade, List.filter_true, Value.equal_text_eq]
  refine congrArg Schema.mk (List.map_congr_left fun u hu => ?_)
  rw [ObjectType.edited]
  split
  · rename_i hun
    have hu := h.type?_of_mem hu (Value.spells_iff.mp hun)
    rw [Option.some.inj (ht.symm.trans hu)]
  · exact (h.legible u hu).withFields_declared.symm

theorem Valid.apply_addField (h : s.Valid rules) (ht : s.type? n = some t) (f : Field) :
    s.apply (.addField (.text n) (.field f)) =
      .ok (s.remade (fun _ => true) (ObjectType.edited n (· ++ [f]))) := by
  rw [← h.replace_eq ht, apply, existing_of_type? ht, ok_bind,
    (h.legible t (mem_of_type? ht)).entries, ObjectType.withFields, Members.ofFields,
    List.map_append]
  rfl

/-- Removing a field leaves all other fields of all types. -/
theorem Valid.apply_removeField (h : s.Valid rules) (ht : s.type? n = some t)
    (hf : t.field? m = some f) : s.apply (.removeField (.text n) (.text m)) =
      .ok (s.restricted (fun _ => true) (isSpared n m)) := by
  have hl := h.legible t (mem_of_type? ht)
  obtain ⟨g, hg⟩ := hl.exists_found (ObjectType.mem_of_field? hf) (ObjectType.field?_name hf)
  rw [ObjectType.field?_name hf] at hg
  have hedited : ObjectType.edited n (·.filter (!·.name.equal (.text m))) =
      fun u => u.declared.filter (isSpared n m u) := by
    funext u
    unfold ObjectType.edited isSpared
    simp only [Value.equal_text_eq]
    cases u.name.spells n <;> simp
  rw [restricted, ← hedited, ← h.replace_eq ht, apply, existing_of_type? ht, ok_bind, hg]
  simp only [hl.fields]
  rfl

end Schema

end ObjectQuery
