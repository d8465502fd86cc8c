import ObjectQuery.Proofs.Schema.Conditions
import ObjectQuery.Proofs.Schema.Effect

/-!
# Required types

A schema that has to have certain types is valid if it has them and is valid without having to, so
what is valid stays so when less is required. Of all changes only the deletion of a type takes a
name away from a schema, and takes away no other.
-/

set_option autoImplicit false

namespace ObjectQuery

namespace Schema

variable {registry : Registry} {required fewer : List Value} {rules : Validation.Rules}
  {s s' : Schema} {c : SchemaChange} {v : Value}

theorem valid_iff_required : s.Valid ⟨registry, required⟩ ↔
    s.Valid ⟨registry, []⟩ ∧ ∀ v ∈ required, v ∈ s.typeNames := by
  constructor
  · intro h
    exact ⟨h.unrequired, h.facts.required⟩
  · rintro ⟨h, hrequired⟩
    have hf := h.facts
    refine Facts.valid ⟨hf.names, hf.plurals, hrequired, fun t ht => ?_, hf.mandated,
      fun t ht f hmem => ?_⟩
    · exact structureViolations_eq_nil_iff.mp (h.structure ht)
    · exact fieldViolations_eq_nil_iff.mp (h.fieldViolations ht hmem)

theorem Valid.of_subset (h : s.Valid rules) (hr : fewer ⊆ rules.required) :
    s.Valid ⟨rules.registry, fewer⟩ :=
  valid_iff_required.mpr ⟨h.unrequired, fun v hv => h.facts.required v (hr hv)⟩

theorem applyValidated_of_valid (hs' : s.apply c = .ok s') (h : s'.Valid rules) :
    s.applyValidated rules c = .ok (.ok s') := by
  rw [applyValidated, hs']
  dsimp only
  rw [h]
  rfl

/-- A type keeps its name unless it is the one that is deleted. -/
theorem Valid.mem_typeNames_apply (h : s.Valid rules) (hs' : s.apply c = .ok s')
    (hv : v ∈ s.typeNames) (hc : c ≠ .deleteType v) : v ∈ s'.typeNames := by
  obtain ⟨t, ht, rfl⟩ := List.mem_map.mp hv
  obtain ⟨n, hn⟩ := h.exists_name ht
  have heffect := type?_apply h.legible hs' n
  rw [h.type?_of_mem ht hn] at heffect
  have hkept : ∃ u, s'.type? n = some u := by
    rw [heffect]
    cases c with
    | createType new => exact ⟨t, rfl⟩
    | deleteType w =>
      have hw : w.spells n = false := by
        rw [← Bool.not_eq_true, Value.spells_iff]
        rintro rfl
        exact hc (congrArg _ hn.symm)
      rw [SchemaChange.effect, hw]
      exact ⟨_, rfl⟩
    | addField w member =>
      rw [SchemaChange.effect]
      split
      · exact ⟨_, rfl⟩
      · exact ⟨_, rfl⟩
    | removeField w fieldName =>
      rw [SchemaChange.effect]
      split
      · exact ⟨_, rfl⟩
      · exact ⟨_, rfl⟩
  obtain ⟨u, hu⟩ := hkept
  exact List.mem_map.mpr ⟨u, mem_of_type? hu, (type?_name hu).trans hn.symm⟩

/-- A change that deletes none of some types leaves a schema with all of them. -/
theorem Valid.typeNames_apply (h : s.Valid rules) (hs' : s.apply c = .ok s')
    (hr : ∀ v ∈ required, v ∈ s.typeNames) (hc : ∀ v ∈ required, c ≠ .deleteType v) :
    ∀ v ∈ required, v ∈ s'.typeNames :=
  fun v hv => h.mem_typeNames_apply hs' (hr v hv) (hc v hv)

theorem Valid.not_mem_typeNames_deleteType (h : s.Valid rules)
    (hs' : s.apply (.deleteType v) = .ok s') : v ∉ s'.typeNames := by
  intro hv
  obtain ⟨⟨n, t, rfl, _⟩, rfl⟩ := apply_deleteType_eq_ok h.legible hs'
  obtain ⟨u, hu, hname⟩ := List.mem_map.mp hv
  obtain ⟨w, hw, rfl⟩ := List.mem_map.mp hu
  obtain ⟨_, hw⟩ := List.mem_filter.mp hw
  rw [ObjectType.name_dropping] at hname
  rw [hname, Value.equal_text, BEq.rfl] at hw
  cases hw

end Schema

end ObjectQuery
