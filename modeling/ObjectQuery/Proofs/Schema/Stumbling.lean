import ObjectQuery.Proofs.Schema.Validity

/-!
# What validation stumbles over

Validation reports what is wrong with a schema, whatever the attributes are that it is declared
with, unless it stumbles over a name that it looks up before the name is checked: that of a type,
its plural, one that is required, or that of a field. Which of them it comes to depends on the
stages before.
-/

set_option autoImplicit false

namespace ObjectQuery

open Outcome Validation

namespace Validation

section
variable {rules : Rules} {s : Schema} {t : ObjectType} {vs : List Value} {e : Misuse}

theorem firstFindings_cons_eq_error {stage : Unit → Except Misuse (List Violation)}
    {rest : List (Unit → Except Misuse (List Violation))} :
    firstFindings (stage :: rest) = .error e ↔
      stage () = .error e ∨ stage () = .ok [] ∧ firstFindings rest = .error e := by
  rw [firstFindings]
  cases stage () with
  | error e' => simp
  | ok found => cases found <;> simp

theorem duplicates_eq_error_iff :
    duplicates vs = .error e ↔ e = .notAKey ∧ ∃ v ∈ vs, v.isKey = false := by
  unfold duplicates
  split
  · rename_i hall
    refine iff_of_false nofun ?_
    rintro ⟨_, v, hv, hkey⟩
    rw [List.all_eq_true.mp hall v hv] at hkey
    cases hkey
  · rename_i hall
    have hmissing : ∃ v ∈ vs, v.isKey = false := by simpa using hall
    rw [Except.error.injEq, and_iff_left hmissing, eq_comm]

/-- A stage that looks for duplicates fails as the search does. -/
theorem duplicates_bind_eq_error {violation : List (Value × Nat) → Violation} :
    (do
      let found ← duplicates vs
      return check found.isEmpty (violation found)) = .error e ↔
        e = .notAKey ∧ ∃ v ∈ vs, v.isKey = false := by
  rw [← duplicates_eq_error_iff]
  cases duplicates vs <;> simp

theorem uniqueNames_eq_error_iff :
    uniqueNames s = .error e ↔ e = .notAKey ∧ ∃ t ∈ s.types, t.name.isKey = false := by
  rw [uniqueNames, duplicates_bind_eq_error, Schema.typeNames]
  simp only [List.mem_map, exists_exists_and_eq_and]

theorem uniquePlurals_eq_error_iff :
    uniquePlurals s = .error e ↔ e = .notAKey ∧ ∃ t ∈ s.types, t.plural.isKey = false := by
  rw [uniquePlurals, duplicates_bind_eq_error]
  simp only [List.mem_map, exists_exists_and_eq_and]

theorem lookup_eq_error_iff {v : Value} :
    s.lookup v = .error e ↔ e = .notAKey ∧ v.isKey = false := by
  cases v <;> simp [Schema.lookup, Value.isKey, eq_comm]

theorem requiredTypes_eq_error_iff :
    requiredTypes rules s = .error e ↔ e = .notAKey ∧ ∃ v ∈ rules.required, v.isKey = false := by
  have hcheck (v : Value) (e : Misuse) : (do
      return check (← s.lookup v).isSome (.missingType v)) = .error e ↔
        e = .notAKey ∧ v.isKey = false := by
    rw [← lookup_eq_error_iff]
    cases s.lookup v <;> simp
  have hall : (rules.required.mapM fun v => do
      return check (← s.lookup v).isSome (.missingType v)) = .error e ↔
        e = .notAKey ∧ ∃ v ∈ rules.required, v.isKey = false := by
    rw [mapM_eq_error_iff_exists fun v _ e he => ((hcheck v e).mp he).1]
    simp only [hcheck, true_and]
  rw [← hall, requiredTypes]
  cases rules.required.mapM fun v => do
      return check (← s.lookup v).isSome (.missingType v) <;> simp

theorem fieldListViolations_eq_error_iff :
    fieldListViolations t = .error e ↔ e = .notAKey ∧ ∃ f ∈ t.declared, f.name.isKey = false := by
  rw [fieldListViolations, ObjectType.declared]
  cases t.members.fields? with
  | none => simp
  | some fields =>
    rw [Option.getD_some]
    dsimp only
    split
    · rename_i hall
      refine iff_of_false (fun h => by cases h) ?_
      rintro ⟨_, f, hf, hkey⟩
      rw [List.all_eq_true.mp hall _ (List.mem_map_of_mem hf)] at hkey
      cases hkey
    · rename_i hall
      have hmissing : ∃ f ∈ fields, f.name.isKey = false := by simpa using hall
      rw [Except.error.injEq, and_iff_left hmissing, eq_comm]

theorem structureViolations_eq_error_iff : structureViolations rules s t = .error e ↔
    e = .notAKey ∧ ∃ f ∈ t.declared, f.name.isKey = false := by
  rw [← fieldListViolations_eq_error_iff, structureViolations]
  cases fieldListViolations t <;> simp

theorem typeStructure_eq_error_iff : typeStructure rules s = .error e ↔
    e = .notAKey ∧ ∃ t ∈ s.types, ∃ f ∈ t.declared, f.name.isKey = false := by
  have hall : s.types.mapM (structureViolations rules s) = .error e ↔
      e = .notAKey ∧ ∃ t ∈ s.types, ∃ f ∈ t.declared, f.name.isKey = false := by
    rw [mapM_eq_error_iff_exists fun t _ e he => (structureViolations_eq_error_iff.mp he).1]
    simp only [structureViolations_eq_error_iff, true_and]
  rw [← hall, typeStructure]
  cases s.types.mapM (structureViolations rules s) <;> simp

end

end Validation

/-- A name that validation comes to look up and that cannot be looked up. -/
inductive Schema.Stumbles (rules : Rules) (s : Schema) : Prop
  | overName {t : ObjectType} (ht : t ∈ s.types) (hkey : t.name.isKey = false)
  | overPlural {t : ObjectType} (names : uniqueNames s = .ok []) (ht : t ∈ s.types)
      (hkey : t.plural.isKey = false)
  | overRequired {v : Value} (names : uniqueNames s = .ok []) (plurals : uniquePlurals s = .ok [])
      (hv : v ∈ rules.required) (hkey : v.isKey = false)
  | overField {t : ObjectType} {f : Field} (names : uniqueNames s = .ok [])
      (plurals : uniquePlurals s = .ok []) (required : requiredTypes rules s = .ok [])
      (ht : t ∈ s.types) (hf : f ∈ t.declared) (hkey : f.name.isKey = false)

/-- Validation fails on a name that it stumbles over, and on nothing else. -/
theorem Schema.violations_eq_error_iff {rules : Rules} {s : Schema} {e : Misuse} :
    s.violations rules = .error e ↔ e = .notAKey ∧ s.Stumbles rules := by
  simp only [violations, stages, firstFindings_cons_eq_error, uniqueNames_eq_error_iff,
    uniquePlurals_eq_error_iff, requiredTypes_eq_error_iff, typeStructure_eq_error_iff]
  constructor
  · rintro (⟨rfl, t, ht, hkey⟩ | ⟨names, ⟨rfl, t, ht, hkey⟩ | ⟨plurals, ⟨rfl, v, hv, hkey⟩ |
      ⟨required, ⟨rfl, t, ht, f, hf, hkey⟩ | ⟨_, h | ⟨_, h | ⟨_, h⟩⟩⟩⟩⟩⟩)
    · exact ⟨rfl, .overName ht hkey⟩
    · exact ⟨rfl, .overPlural names ht hkey⟩
    · exact ⟨rfl, .overRequired names plurals hv hkey⟩
    · exact ⟨rfl, .overField names plurals required ht hf hkey⟩
    · cases h
    · cases h
    · cases h
  · rintro ⟨rfl, ⟨ht, hkey⟩ | ⟨names, ht, hkey⟩ | ⟨names, plurals, hv, hkey⟩ |
      ⟨names, plurals, required, ht, hf, hkey⟩⟩
    · exact .inl ⟨rfl, _, ht, hkey⟩
    · exact .inr ⟨names, .inl ⟨rfl, _, ht, hkey⟩⟩
    · exact .inr ⟨names, .inr ⟨plurals, .inl ⟨rfl, _, hv, hkey⟩⟩⟩
    · exact .inr ⟨names, .inr ⟨plurals, .inr ⟨required, .inl ⟨rfl, _, ht, _, hf, hkey⟩⟩⟩⟩

/-- A type all of whose names can be looked up. -/
structure ObjectType.Judgeable (t : ObjectType) : Prop where
  name : t.name.isKey = true
  plural : t.plural.isKey = true
  fields : ∀ f ∈ t.declared, f.name.isKey = true

theorem ObjectType.isKey_plural {t : ObjectType} (hn : t.name.isKey = true)
    (hp : t.pluralName.isKey = true) :
    t.plural.isKey = true := by
  unfold plural
  split
  · split
    · rfl
    · exact hn
  · exact hp

namespace Schema

variable {rules : Rules} {s : Schema} {t : ObjectType}

/-- Where all names can be looked up there is nothing to stumble over. -/
theorem exists_violations (hr : ∀ v ∈ rules.required, v.isKey = true)
    (h : ∀ t ∈ s.types, t.Judgeable) : ∃ found, s.violations rules = .ok found := by
  cases hviolations : s.violations rules with
  | ok found => exact ⟨found, rfl⟩
  | error e =>
    obtain ⟨_, hstumbles⟩ := violations_eq_error_iff.mp hviolations
    cases hstumbles with
    | overName ht hkey => cases hkey.symm.trans (h _ ht).name
    | overPlural _ ht hkey => cases hkey.symm.trans (h _ ht).plural
    | overRequired _ _ hv hkey => cases hkey.symm.trans (hr _ hv)
    | overField _ _ _ ht hf hkey => cases hkey.symm.trans ((h _ ht).fields _ hf)

theorem Valid.not_stumbles (h : s.Valid rules) : ¬s.Stumbles rules := fun hstumbles => by
  cases (violations_eq_error_iff.mpr ⟨rfl, hstumbles⟩).symm.trans h

theorem Valid.judgeable (h : s.Valid rules) (ht : t ∈ s.types) : t.Judgeable := by
  have hp := valid_iff_passes.mp h
  constructor
  · exact eq_true_of_ne_false fun hkey => h.not_stumbles (.overName ht hkey)
  · exact eq_true_of_ne_false fun hkey => h.not_stumbles (.overPlural hp.names ht hkey)
  · exact fun f hf => eq_true_of_ne_false fun hkey =>
      h.not_stumbles (.overField hp.names hp.plurals hp.required ht hf hkey)

theorem Valid.required (h : s.Valid rules) : ∀ v ∈ rules.required, v.isKey = true := by
  have hp := valid_iff_passes.mp h
  exact fun v hv => eq_true_of_ne_false fun hkey =>
    h.not_stumbles (.overRequired hp.names hp.plurals hv hkey)

end Schema

end ObjectQuery
