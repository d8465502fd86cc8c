import ObjectQuery.Proofs.Schema.Effect
import ObjectQuery.Proofs.Schema.Stumbling

/-!
# Changes that validation can judge

Validation fails only on names that cannot be looked up. A valid schema has none of them, and
neither has one that a change makes of it that names everything by what can be looked up: such a
change is found to be made, to be of something that is missing, or to leave the schema invalid.
-/

set_option autoImplicit false

namespace ObjectQuery

open Outcome Validation

namespace ObjectType

variable {t : ObjectType}

theorem Judgeable.withFields (h : t.Judgeable) {fields : List Field} (hf : fields ⊆ t.declared) :
    (t.withFields fields).Judgeable := by
  refine ⟨h.name, h.plural, ?_⟩
  rw [declared_withFields]
  exact fun f hmem => h.fields f (hf hmem)

theorem Judgeable.dropping (h : t.Judgeable) (v : Value) : (t.dropping v).Judgeable := by
  unfold ObjectType.dropping
  split
  · exact h
  · exact h.withFields (List.filter_subset_self _)

theorem Judgeable.withField (h : t.Judgeable) {f : Field} (hf : f.name.isKey = true) :
    (t.withMembers (.listed (t.declared.map .field ++ [.field f]))).Judgeable := by
  have hmembers : Members.listed (t.declared.map .field ++ [.field f]) =
      .ofFields (t.declared ++ [f]) := by
    rw [Members.ofFields, List.map_append, List.map_singleton]
  rw [hmembers]
  refine ⟨h.name, h.plural, fun g hg => ?_⟩
  rw [ObjectType.declared, withMembers, Members.fields?_ofFields, Option.getD_some] at hg
  rcases List.mem_append.mp hg with hg | hg
  · exact h.fields g hg
  · rwa [List.mem_singleton.mp hg]

end ObjectType

/-- A change that names everything by what can be looked up. -/
def SchemaChange.Judgeable : SchemaChange → Prop
  | .createType new => ∃ t, new = some t ∧ t.Judgeable
  | .deleteType typeName => typeName.isKey = true
  | .addField typeName member =>
    typeName.isKey = true ∧ ∃ f, member = .field f ∧ f.name.isKey = true
  | .removeField typeName _ => typeName.isKey = true

namespace SchemaChange

theorem judgeable_created (name : String) (pluralName description : Option String) :
    (createType (some (.created name pluralName description))).Judgeable := by
  refine ⟨_, rfl, rfl, ObjectType.isKey_plural rfl ?_, ?_⟩
  · cases pluralName <;> rfl
  · rw [ObjectType.declared_created]
    exact List.forall_mem_singleton.mpr rfl

theorem judgeable_addField {typeName : Value} {new : Field} (ht : typeName.isKey = true)
    (hf : new.name.isKey = true) : (addField typeName (.field new)).Judgeable :=
  ⟨ht, new, rfl, hf⟩

end SchemaChange

namespace Schema

variable {rules : Rules} {s s' : Schema} {t : ObjectType} {c : SchemaChange}

theorem exists_lookup {v : Value} (h : v.isKey = true) : ∃ found, s.lookup v = .ok found := by
  unfold lookup
  split
  · exact ⟨_, rfl⟩
  · exact ⟨none, if_pos h⟩

theorem lacks_existing {v : Value} (hv : v.isKey = true) :
    FailsWith (fun e => ∃ m, e = .missing m) (s.existing v) := by
  obtain ⟨found, hfound⟩ := exists_lookup (s := s) hv
  unfold existing
  rw [hfound]
  cases found with
  | none => exact failsWith_error ⟨_, rfl⟩
  | some t => exact failsWith_ok t

/-- What a change of a valid schema fails with is that something is missing. -/
theorem Valid.lacks_apply (h : s.Valid rules) (hc : c.Judgeable) :
    FailsWith (fun e => ∃ m, e = .missing m) (s.apply c) := by
  have hlegible {v : Value} {t : ObjectType} (ht : s.existing v = .ok t) : t.Legible := by
    obtain ⟨n, _, ht⟩ := existing_eq_ok ht
    exact h.legible t (mem_of_type? ht)
  cases c with
  | createType new =>
    obtain ⟨t, rfl, _⟩ := hc
    exact failsWith_ok _
  | deleteType v =>
    refine (lacks_existing hc).bind fun _ _ => ?_
    rw [delete_eq h.legible]
    exact failsWith_ok _
  | addField v member =>
    refine (lacks_existing hc.1).bind fun t ht => ?_
    rw [(hlegible ht).entries]
    exact failsWith_ok _
  | removeField v fieldName =>
    refine (lacks_existing hc).bind fun t ht => ?_
    rw [(hlegible ht).find]
    cases t.declared.find? (·.name.equal fieldName) with
    | none => exact failsWith_error ⟨_, rfl⟩
    | some f =>
      simp only [(hlegible ht).fields]
      exact failsWith_ok _

theorem judgeable_replace (h : ∀ t ∈ s.types, t.Judgeable) {v : Value} (ht : t.Judgeable) :
    ∀ u ∈ (s.replace v t).types, u.Judgeable := by
  intro u hu
  obtain ⟨u₀, hu₀, rfl⟩ := List.mem_map.mp hu
  split
  · exact ht
  · exact h u₀ hu₀

theorem Valid.judgeable_apply (h : s.Valid rules) (hc : c.Judgeable) (hs' : s.apply c = .ok s') :
    ∀ t ∈ s'.types, t.Judgeable := by
  have hall : ∀ t ∈ s.types, t.Judgeable := fun t ht => h.judgeable ht
  cases c with
  | createType new =>
    obtain ⟨t, rfl, ht⟩ := hc
    cases hs'
    exact List.forall_mem_append.mpr ⟨hall, List.forall_mem_singleton.mpr ht⟩
  | deleteType v =>
    obtain ⟨_, rfl⟩ := apply_deleteType_eq_ok h.legible hs'
    intro u hu
    obtain ⟨t, ht, rfl⟩ := List.mem_map.mp hu
    exact (hall t (List.mem_of_mem_filter ht)).dropping v
  | addField v member =>
    obtain ⟨_, f, rfl, hf⟩ := hc
    obtain ⟨n, t, rfl, ht, rfl⟩ := apply_addField_eq_ok h.legible hs'
    exact judgeable_replace hall ((hall t (mem_of_type? ht)).withField hf)
  | removeField v fieldName =>
    obtain ⟨n, t, _, rfl, ht, _, rfl⟩ := apply_removeField_eq_ok h.legible hs'
    exact judgeable_replace hall
      ((hall t (mem_of_type? ht)).withFields (List.filter_subset_self _))

/-- A change of a valid schema is judged. -/
theorem Valid.exists_applyValidated (h : s.Valid rules) (hc : c.Judgeable) :
    ∃ outcome, s.applyValidated rules c = .ok outcome := by
  unfold applyValidated
  split
  · exact ⟨_, rfl⟩
  · rename_i m hm
    obtain ⟨_, he⟩ := h.lacks_apply hc _ hm
    cases he
  · rename_i s' hs'
    obtain ⟨found, hfound⟩ := exists_violations h.required (h.judgeable_apply hc hs')
    rw [hfound, ok_bind]
    cases found with
    | nil => exact ⟨_, rfl⟩
    | cons v vs => exact ⟨_, rfl⟩

/-- A change is judged, and accepted if something is so and only then. -/
def AcceptedIff (rules : Rules) (s : Schema) (c : SchemaChange) (p : Prop) : Prop :=
  ∃ outcome, s.applyValidated rules c = .ok outcome ∧ (outcome.isOk = true ↔ p)

namespace AcceptedIff

variable {p q : Prop}

theorem accepts (h : s.AcceptedIff rules c p) (hp : p) :
    ∃ s', s.applyValidated rules c = .ok (.ok s') := by
  obtain ⟨outcome, ho, hiff⟩ := h
  cases outcome with
  | ok s' => exact ⟨s', ho⟩
  | error r => cases hiff.mpr hp

theorem refuses (h : s.AcceptedIff rules c p) (hp : ¬p) :
    ∃ r, s.applyValidated rules c = .ok (.error r) := by
  obtain ⟨outcome, ho, hiff⟩ := h
  cases outcome with
  | ok s' => exact absurd (hiff.mp rfl) hp
  | error r => exact ⟨r, ho⟩

theorem congr (h : s.AcceptedIff rules c p) (hpq : p ↔ q) : s.AcceptedIff rules c q := by
  obtain ⟨outcome, ho, hiff⟩ := h
  exact ⟨outcome, ho, hiff.trans hpq⟩

end AcceptedIff

/-- A change that can be made of a valid schema is accepted if what it makes is valid. -/
theorem Valid.acceptedIff (h : s.Valid rules) (hc : c.Judgeable) (hs' : s.apply c = .ok s') :
    s.AcceptedIff rules c (s'.Valid rules) := by
  obtain ⟨found, hfound⟩ := exists_violations h.required (h.judgeable_apply hc hs')
  rw [AcceptedIff, applyValidated, hs']
  dsimp only
  rw [hfound, ok_bind, Valid, hfound]
  cases found with
  | nil => exact ⟨_, rfl, iff_of_true rfl rfl⟩
  | cons v vs =>
    have hne : (.ok (v :: vs) : Except Misuse _) ≠ .ok [] := fun h =>
      List.cons_ne_nil v vs (Except.ok.inj h)
    exact ⟨_, rfl, iff_of_false Bool.false_ne_true hne⟩

end Schema

end ObjectQuery
