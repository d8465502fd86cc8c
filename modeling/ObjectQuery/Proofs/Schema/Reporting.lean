import Mathlib.Data.Set.List
import ObjectQuery.Proofs.Schema.Stumbling
import ObjectQuery.Schema.Record

/-!
# Validation of definitions that were read

The names of a definition that was read from data are texts or null, so validation stumbles over
none of them. What it cannot do with is null in place of the types, or of one of them.
-/

set_option autoImplicit false

namespace ObjectQuery

open Outcome Validation

section
variable {strict : Bool} {v : Value} {f : Field} {t : ObjectType} {d : Draft}

theorem Record.isKey_asText (v : Value) : (Record.asText v).isKey = true := by
  cases v <;> rfl

theorem Field.isKey_of_read (h : Field.read strict v = .ok f) : f.name.isKey = true := by
  obtain ⟨es, _, h⟩ := bind_eq_ok.mp h
  obtain ⟨name, _, h⟩ := bind_eq_ok.mp h
  obtain ⟨type, _, h⟩ := bind_eq_ok.mp h
  cases h
  exact Record.isKey_asText name

/-- A field of a list that was read was read itself. -/
theorem Members.exists_of_read {fields : List Field}
    (h : Members.read strict v = .ok (.ofFields fields)) (hf : f ∈ fields) :
    ∃ part, Field.read strict part = .ok f := by
  cases v with
  | null => cases h
  | _ =>
    obtain ⟨parts, _, h⟩ := bind_eq_ok.mp h
    obtain ⟨es, hes, hlisted⟩ := bind_eq_ok.mp h
    cases hlisted
    obtain ⟨part, _, hpart⟩ := exists_of_mem_mapM hes (List.mem_map_of_mem hf)
    unfold Member.read at hpart
    split at hpart
    · cases hpart
    · have hmap : (Field.read strict part).map Member.field = .ok (.field f) := hpart
      obtain ⟨g, hg, hfield⟩ := map_eq_ok.mp hmap
      cases hfield
      exact ⟨part, hg⟩

theorem ObjectType.judgeable_of_read (h : ObjectType.read strict v = .ok t) : t.Judgeable := by
  obtain ⟨es, _, h⟩ := bind_eq_ok.mp h
  obtain ⟨name, _, h⟩ := bind_eq_ok.mp h
  obtain ⟨members, hmembers, h⟩ := bind_eq_ok.mp h
  obtain ⟨interfaces, _, h⟩ := bind_eq_ok.mp h
  cases h
  have hname := Record.isKey_asText name
  refine ⟨hname, isKey_plural hname (Record.isKey_asText _), ?_⟩
  rw [declared]
  cases hfields : members.fields? with
  | none =>
    intro f hf
    cases hf
  | some fields =>
    rw [Schema.ofFields_of_fields? hfields] at hmembers
    intro f hf
    obtain ⟨part, hpart⟩ := Members.exists_of_read hmembers hf
    exact Field.isKey_of_read hpart

/-- A type of a definition that was read was read itself. -/
theorem Draft.exists_of_load {ts : List (Option ObjectType)} (h : Draft.load v = .ok ⟨some ts⟩)
    (ht : some t ∈ ts) : ∃ part, ObjectType.read false part = .ok t := by
  obtain ⟨es, _, h⟩ := bind_eq_ok.mp h
  unfold readEntries at h
  split at h
  · cases h
  · obtain ⟨parts, _, h⟩ := bind_eq_ok.mp h
    obtain ⟨us, hus, h⟩ := bind_eq_ok.mp h
    cases h
    obtain ⟨part, _, hpart⟩ := exists_of_mem_mapM hus ht
    unfold readType at hpart
    split at hpart
    · cases hpart
    · have hmap : (ObjectType.read false part).map some = .ok (some t) := hpart
      obtain ⟨u, hu, hsome⟩ := map_eq_ok.mp hmap
      cases hsome
      exact ⟨part, hu⟩

/-- The types of a definition that was read have names that can be looked up. -/
theorem Draft.judgeable_of_load {ts : List (Option ObjectType)} (h : Draft.load v = .ok ⟨some ts⟩)
    (ht : some t ∈ ts) : t.Judgeable := by
  obtain ⟨part, hpart⟩ := exists_of_load h ht
  exact ObjectType.judgeable_of_read hpart

end

namespace Draft

section
variable {rules : Rules} {d : Draft} {e : Misuse}

/-- A draft is validated once it is complete. -/
def violations (rules : Rules) (d : Draft) : Except Misuse (List Violation) := do
  (← d.complete).violations rules

/-- What a draft lacks to be validated, and what comes of it. -/
inductive Lacks : Draft → Misuse → Prop
  | types : Lacks ⟨none⟩ .notACollection
  | type {ts : List (Option ObjectType)} (h : none ∈ ts) : Lacks ⟨some ts⟩ .notAnObject

theorem complete_some (ts : List ObjectType) : complete ⟨some (ts.map some)⟩ = .ok ⟨ts⟩ := by
  have hall : (ts.map some).mapM id = some ts := by
    induction ts with
    | nil => rfl
    | cons t ts ih => simp [ih]
  rw [complete]
  dsimp only
  rw [hall]

theorem violations_ofSchema (rules : Rules) (s : Schema) :
    (ofSchema s).violations rules = s.violations rules := by
  rw [violations, ofSchema, complete_some, ok_bind]

theorem violations_of_mem_none {ts : List (Option ObjectType)} (h : none ∈ ts) :
    violations rules ⟨some ts⟩ = .error .notAnObject := by
  have hnone : ts.mapM id = none := by
    induction ts with
    | nil => cases h
    | cons t ts ih =>
      cases t with
      | none => rfl
      | some t =>
        have hts := ih ((List.mem_cons.mp h).resolve_left nofun)
        simp [hts]
  rw [violations, complete]
  dsimp only
  rw [hnone]
  rfl

/-- A draft lacks its types or one of them, or it is complete. -/
theorem exists_schema (d : Draft) :
    d = ⟨none⟩ ∨ (∃ ts, d = ⟨some ts⟩ ∧ none ∈ ts) ∨ ∃ s, d = .ofSchema s := by
  obtain ⟨_ | ts⟩ := d
  · exact .inl rfl
  · by_cases h : none ∈ ts
    · exact .inr (.inl ⟨ts, rfl, h⟩)
    · obtain ⟨us, rfl⟩ : ts ∈ Set.range (List.map some) := by
        rw [Set.range_list_map]
        exact fun t ht => Option.ne_none_iff_exists.mp (ne_of_mem_of_not_mem ht h)
      exact .inr (.inr ⟨⟨us⟩, rfl⟩)

theorem not_stumbles_of_load {v : Value} {s : Schema} (h : load v = .ok (.ofSchema s))
    (hr : ∀ n ∈ rules.required, n.isKey = true) : ¬s.Stumbles rules := by
  intro hs
  have hjudgeable : ∀ t ∈ s.types, t.Judgeable := fun t ht =>
    judgeable_of_load h (List.mem_map_of_mem ht)
  obtain ⟨found, hfound⟩ := Schema.exists_violations hr hjudgeable
  rw [Schema.violations_eq_error_iff.mpr ⟨rfl, hs⟩] at hfound
  cases hfound

theorem violations_eq_error_iff_of_load {v : Value} (h : load v = .ok d)
    (hr : ∀ n ∈ rules.required, n.isKey = true) :
    d.violations rules = .error e ↔ d.Lacks e := by
  constructor
  · intro he
    rcases d.exists_schema with rfl | ⟨ts, rfl, hts⟩ | ⟨s, rfl⟩
    · cases he
      exact .types
    · rw [violations_of_mem_none hts] at he
      cases he
      exact .type hts
    · rw [violations_ofSchema] at he
      exact absurd (Schema.violations_eq_error_iff.mp he).2 (not_stumbles_of_load h hr)
  · rintro (_ | hts)
    · rfl
    · exact violations_of_mem_none hts

end

end Draft

/-- Validation reports what is wrong with a schema unless it stumbles over a name. With a definition
that was read it fails only if null stands for the types or for one of them. -/
theorem Validation.reported_unless_stumbling (rules : Rules) :
    (∀ (s : Schema) e, s.violations rules = .error e ↔ e = .notAKey ∧ s.Stumbles rules) ∧
      ∀ v d, Draft.load v = .ok d → (∀ n ∈ rules.required, n.isKey = true) →
        ∀ e, d.violations rules = .error e ↔ d.Lacks e :=
  ⟨fun _ _ => Schema.violations_eq_error_iff, fun _ _ hload hr _ =>
    Draft.violations_eq_error_iff_of_load hload hr⟩

namespace Draft

/-- A type without a name, with a field without one. -/
def nameless : Value :=
  .object [("types", .list [.object [("fields", .list [.object [("type", "string")]])]])]

theorem nameless_reported : ∃ d, load nameless = .ok d ∧
    ∃ found, d.violations ⟨.standard, [userTypeName]⟩ = .ok found := by
  have hload : load nameless =
      .ok ⟨some [some { members := .ofFields [{ type := "string" }] }]⟩ := rfl
  have hrequired : ∀ n ∈ [Value.text userTypeName], n.isKey = true :=
    List.forall_mem_singleton.mpr rfl
  have hiff := (Validation.reported_unless_stumbling ⟨.standard, [userTypeName]⟩).2
    nameless _ hload hrequired
  refine ⟨_, hload, ?_⟩
  cases h : violations ⟨.standard, [userTypeName]⟩
      ⟨some [some { members := .ofFields [{ type := "string" }] }]⟩ with
  | ok found => exact ⟨found, rfl⟩
  | error e =>
    obtain _ | hnull := (hiff e).mp h
    simp at hnull

/-- A node type with a list for a name, and a definition with null for a type. -/
def listNamed : Schema where
  types := [{
    name := .list [userTypeName]
    members := .ofFields [idField]
    interfaces := .list [nodeInterface] }]

def nullTyped : Value := .object [("types", .list [.null])]

theorem malformed_not_reported :
    (¬∃ found, listNamed.violations ⟨.standard, []⟩ = .ok found) ∧
      ∃ d, load nullTyped = .ok d ∧ ¬∃ found, d.violations ⟨.standard, []⟩ = .ok found := by
  refine ⟨?_, ⟨some [none]⟩, rfl, ?_⟩
  · rintro ⟨found, h⟩
    cases h
  · rintro ⟨found, h⟩
    cases h

end Draft

end ObjectQuery
