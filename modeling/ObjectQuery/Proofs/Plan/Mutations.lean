import ObjectQuery.Plan.Compile
import ObjectQuery.Proofs.Plan.Calls
import ObjectQuery.Proofs.Schema.Effect

/-!
# What mutations are compiled to

For each kind of mutation, the change it is compiled to, the types that are told of, and what has
been found out about the schema by then. In each case the schema that the change leads to is valid.
-/

set_option autoImplicit false

namespace ObjectQuery

open Outcome

namespace Mutation

variable {i : Snapshot} {c : Call} {m : Mutation} {change : SchemaChange} {s' : Schema}
  {n : String} {t : ObjectType}

theorem result_eq_ok (h : result i c change = .ok s') :
    i.schema.apply change = .ok s' ∧ s'.Valid i.rules := by
  obtain ⟨outcome, ho, h⟩ := bind_eq_ok.mp h
  rw [mapError_eq_ok] at ho
  cases outcome with
  | error refusal => cases h
  | ok s =>
    cases h
    exact Schema.applyValidated_eq_ok ho

theorem legible_of_type? (h : i.schema.type? n = some t) : t.Legible :=
  i.valid.legible t (Schema.mem_of_type? h)

/-- What there is to know of a mutation once it is compiled. -/
inductive Made (i : Snapshot) : Mutation → Prop
  | createType {n : String} {plural description : Option String} {s' : Schema}
      (hfree : i.schema.type? n = none)
      (hs' : i.schema.apply (.createType (some (.created n plural description))) = .ok s')
      (hvalid : s'.Valid i.rules) :
      Made i ⟨.createType (some (.created n plural description)),
        [⟨none, some (.created n plural description)⟩]⟩
  | deleteType {n : String} {t : ObjectType} {s' : Schema} (ht : i.schema.type? n = some t)
      (hs' : i.schema.apply (.deleteType (.text n)) = .ok s') (hvalid : s'.Valid i.rules) :
      Made i ⟨.deleteType (.text n), ⟨some t, none⟩ :: differences i.schema s' n⟩
  | addField {n : String} {t : ObjectType} {f : Field} {s' : Schema}
      (ht : i.schema.type? n = some t)
      (hs' : i.schema.apply (.addField (.text n) (.field f)) = .ok s')
      (hvalid : s'.Valid i.rules) :
      Made i ⟨.addField (.text n) (.field f), [⟨some t, s'.type? n⟩]⟩
  | removeField {n fieldName : String} {t : ObjectType} {s' : Schema}
      (ht : i.schema.type? n = some t) (hf : (t.field? fieldName).isSome)
      (hs' : i.schema.apply (.removeField (.text n) (.text fieldName)) = .ok s')
      (hvalid : s'.Valid i.rules) :
      Made i ⟨.removeField (.text n) (.text fieldName), [⟨some t, s'.type? n⟩]⟩

theorem made_createType (h : createType i c = .ok m) : Made i m := by
  obtain ⟨a, _, h⟩ := bind_eq_ok.mp h
  obtain ⟨n, _, h⟩ := bind_eq_ok.mp h
  obtain ⟨named, _, h⟩ := bind_eq_ok.mp h
  split at h
  · obtain ⟨_, hr, _⟩ := bind_eq_ok.mp h
    cases hr
  · rename_i hfree
    obtain ⟨texts, _, h⟩ := bind_eq_ok.mp h
    obtain ⟨s', hs', h⟩ := bind_eq_ok.mp h
    cases h
    obtain ⟨happly, hvalid⟩ := result_eq_ok hs'
    exact .createType (by simpa [Schema.has] using hfree) happly hvalid

theorem made_deleteType (h : deleteType i c = .ok m) : Made i m := by
  obtain ⟨a, _, h⟩ := bind_eq_ok.mp h
  obtain ⟨_, _, h⟩ := bind_eq_ok.mp h
  obtain ⟨n, _, h⟩ := bind_eq_ok.mp h
  obtain ⟨t, ht, h⟩ := bind_eq_ok.mp h
  obtain ⟨s', hs', h⟩ := bind_eq_ok.mp h
  cases h
  obtain ⟨happly, hvalid⟩ := result_eq_ok hs'
  exact .deleteType (existing_eq_ok.mp ht) happly hvalid

theorem made_addField (h : addField i c = .ok m) : Made i m := by
  obtain ⟨⟨a, b, d⟩, _, h⟩ := bind_eq_ok.mp h
  obtain ⟨named, _, h⟩ := bind_eq_ok.mp h
  obtain ⟨n, _, h⟩ := bind_eq_ok.mp h
  obtain ⟨t, ht, h⟩ := bind_eq_ok.mp h
  obtain ⟨texts, _, h⟩ := bind_eq_ok.mp h
  obtain ⟨flags, _, h⟩ := bind_eq_ok.mp h
  obtain ⟨fieldName, _, h⟩ := bind_eq_ok.mp h
  obtain ⟨type, _, h⟩ := bind_eq_ok.mp h
  obtain ⟨s', hs', h⟩ := bind_eq_ok.mp h
  cases h
  obtain ⟨happly, hvalid⟩ := result_eq_ok hs'
  exact .addField (existing_eq_ok.mp ht) happly hvalid

theorem made_removeField (h : removeField i c = .ok m) : Made i m := by
  obtain ⟨⟨a, b⟩, _, h⟩ := bind_eq_ok.mp h
  obtain ⟨named, _, h⟩ := bind_eq_ok.mp h
  obtain ⟨n, _, h⟩ := bind_eq_ok.mp h
  obtain ⟨fieldName, _, h⟩ := bind_eq_ok.mp h
  obtain ⟨t, ht, h⟩ := bind_eq_ok.mp h
  split at h
  · obtain ⟨_, hr, _⟩ := bind_eq_ok.mp h
    cases hr
  · rename_i hfield
    obtain ⟨s', hs', h⟩ := bind_eq_ok.mp h
    cases h
    obtain ⟨happly, hvalid⟩ := result_eq_ok hs'
    exact .removeField (existing_eq_ok.mp ht)
      (Option.isSome_iff_ne_none.mpr (by simpa using hfield)) happly hvalid

/-- The mutation that a call is compiled to, by the operation that it names. -/
inductive Compiled (i : Snapshot) (c : Call) (m : Mutation) : Prop
  | createType (hc : c.name = Operation.createType.name) (h : createType i c = .ok m)
  | deleteType (hc : c.name = Operation.deleteType.name) (h : deleteType i c = .ok m)
  | addField (hc : c.name = Operation.addField.name) (h : addField i c = .ok m)
  | removeField (hc : c.name = Operation.removeField.name) (h : removeField i c = .ok m)

theorem Compiled.made (h : Compiled i c m) : Made i m := by
  cases h with
  | createType _ h => exact made_createType h
  | deleteType _ h => exact made_deleteType h
  | addField _ h => exact made_addField h
  | removeField _ h => exact made_removeField h

end Mutation

namespace Compile

variable {i : Snapshot} {limit : Int} {c : Call} {o : Operation} {p : CallPlan}

/-- An operation that changes the schema is planned as what a mutation changes, and its reports. -/
theorem exists_compiled (hc : c.name = o.name) (ho : o.isMutation = true)
    (h : operation i limit c o = .ok p) :
    ∃ m t projection, Mutation.Compiled i c m ∧ t.members = Metadata.resultFields ∧
      (Context.object .metadata t).project limit c = .ok projection ∧
      p = .mutation m.change (TypeChange.success m.changes) TypeChange.failure projection := by
  have hplan {t : ObjectType} {m : Mutation} (hm : Mutation.Compiled i c m)
      (ht : t.members = Metadata.resultFields) (h : mutation limit t c m = .ok p) :
      ∃ m t projection, Mutation.Compiled i c m ∧ t.members = Metadata.resultFields ∧
        (Context.object .metadata t).project limit c = .ok projection ∧
        p = .mutation m.change (TypeChange.success m.changes) TypeChange.failure projection := by
    obtain ⟨projection, hp, h⟩ := bind_eq_ok.mp h
    cases h
    exact ⟨m, t, projection, hm, ht, hp, rfl⟩
  cases o with
  | createType =>
    obtain ⟨m, hm, h⟩ := bind_eq_ok.mp h
    exact hplan (.createType hc hm) rfl h
  | deleteType =>
    obtain ⟨m, hm, h⟩ := bind_eq_ok.mp h
    exact hplan (.deleteType hc hm) rfl h
  | addField =>
    obtain ⟨m, hm, h⟩ := bind_eq_ok.mp h
    exact hplan (.addField hc hm) rfl h
  | removeField =>
    obtain ⟨m, hm, h⟩ := bind_eq_ok.mp h
    exact hplan (.removeField hc hm) rfl h
  | _ => cases ho

end Compile

end ObjectQuery
