import ObjectQuery.Proofs.Plan.Metadata
import ObjectQuery.Proofs.Schema.Verdict
import ObjectQuery.Proofs.Store.Reshaping

/-!
# What calls are planned as

A call is planned as a question for records of a type of the schema, as metadata that describes
something, or as a change that leaves the schema valid, with a report of it. What it gives is
projected as its selections say.
-/

set_option autoImplicit false

namespace ObjectQuery

open Outcome

/-- A change after which a schema is valid names everything by what can be looked up. -/
theorem Schema.Valid.judgeable_change {rules : Validation.Rules} {s s' : Schema} {c : SchemaChange}
    (h : s.Valid rules) (hc : s.apply c = .ok s') (h' : s'.Valid rules) : c.Judgeable := by
  cases c with
  | createType new =>
    cases new with
    | none => cases hc
    | some t =>
      cases hc
      exact ⟨t, rfl, h'.judgeable (List.mem_append_right _ (List.mem_singleton_self t))⟩
  | deleteType v =>
    obtain ⟨⟨n, t, rfl, _⟩, _⟩ := apply_deleteType_eq_ok h.legible hc
    rfl
  | addField v member =>
    obtain ⟨n, t, t', f, rfl, rfl, hg⟩ := h.gains h' hc
    refine ⟨rfl, f, rfl, (h'.judgeable hg.mem).fields f ?_⟩
    rw [hg.declared]
    exact List.mem_append_right _ (List.mem_singleton_self f)
  | removeField v fieldName =>
    obtain ⟨n, t, f, rfl, _⟩ := apply_removeField_eq_ok h.legible hc
    rfl

namespace Mutation

variable {i : Snapshot} {c : Call} {m : Mutation}

/-- What a mutation is compiled to leaves the schema valid. -/
def Keeps (i : Snapshot) (m : Mutation) : Prop :=
  ∃ s', i.schema.apply m.change = .ok s' ∧ s'.Valid i.rules

theorem Made.keeps (h : Made i m) : Keeps i m := by
  cases h with
  | createType _ hs' hvalid => exact ⟨_, hs', hvalid⟩
  | deleteType _ hs' hvalid => exact ⟨_, hs', hvalid⟩
  | addField _ hs' hvalid => exact ⟨_, hs', hvalid⟩
  | removeField _ _ hs' hvalid => exact ⟨_, hs', hvalid⟩

theorem Keeps.judgeable (h : Keeps i m) : m.change.Judgeable := by
  obtain ⟨s', happly, hvalid⟩ := h
  exact i.valid.judgeable_change happly hvalid

/-- The reports of a mutation describe types before and after it. -/
theorem Keeps.describes (h : Keeps i m) (hm : Faithful i m) :
    ∀ v ∈ m.changes.map TypeChange.toRecord, Metadata.Describes Metadata.changeType v := by
  obtain ⟨s', happly, hvalid⟩ := h
  obtain ⟨s'', happly', names, _, _, hreports⟩ := hm
  cases happly.symm.trans happly'
  rw [hreports]
  exact List.forall_mem_map.mpr fun n _ =>
    Metadata.describes_change i.valid.legible hvalid.legible n

end Mutation

namespace Compile

variable {i : Snapshot} {limit : Int} {c : Call} {p : CallPlan}

/-- What a call is planned as. -/
inductive Planned (i : Snapshot) (limit : Int) (c : Call) : CallPlan → Prop where
  | node {n id : String} {t : ObjectType} {projection : Projection}
      (ht : i.schema.type? n = some t) (hn : t.isNode)
      (hp : (Context.object (.data i) t).project limit c = .ok projection) :
      Planned i limit c (.fetchNode t.label id projection)
  | nodes {n : String} {t : ObjectType} {fs : Filters} {projection : Projection}
      (ht : i.schema.type? n = some t) (hn : t.isNode)
      (hfs : filters (filterable i t) c.namedArguments = .ok fs)
      (hp : (Context.connection c.name (.data i) t).project limit c = .ok projection) :
      Planned i limit c (.fetchNodes t.label fs (.of c) projection)
  | introspection {t : ObjectType} {record : Value} {projection : Projection}
      (hr : Metadata.Describes t record)
      (hp : (Context.object .metadata t).project limit c = .ok projection) :
      Planned i limit c (.introspection record projection)
  | mutation {m : Mutation} {t : ObjectType} {projection : Projection}
      (hk : Mutation.Keeps i m) (hm : Mutation.Faithful i m)
      (ht : t.members = Metadata.resultFields)
      (hp : (Context.object .metadata t).project limit c = .ok projection) :
      Planned i limit c
        (.mutation m.change (TypeChange.success m.changes) TypeChange.failure projection)

theorem legible_of_described {n : String} {t : ObjectType} (h : describedType? i n = some t) :
    t.Legible := by
  unfold describedType? at h
  cases hdata : i.schema.type? n with
  | some u =>
    rw [hdata] at h
    cases h
    exact i.valid.legible t (Schema.mem_of_type? hdata)
  | none =>
    rw [hdata] at h
    exact Metadata.types_legible t (Schema.mem_of_type? h)

theorem planned_schema (h : schema i limit c = .ok p) : Planned i limit c p := by
  obtain ⟨_, _, h⟩ := bind_eq_ok.mp h
  obtain ⟨_, _, h⟩ := bind_eq_ok.mp h
  obtain ⟨projection, hp, h⟩ := bind_eq_ok.mp h
  cases h
  exact .introspection (Metadata.describes_schema i.valid.legible) hp

theorem planned_type (h : type i limit c = .ok p) : Planned i limit c p := by
  obtain ⟨_, _, h⟩ := bind_eq_ok.mp h
  obtain ⟨_, _, h⟩ := bind_eq_ok.mp h
  obtain ⟨n, _, h⟩ := bind_eq_ok.mp h
  split at h
  · cases h
  · rename_i t ht
    obtain ⟨projection, hp, h⟩ := bind_eq_ok.mp h
    cases h
    exact .introspection (Metadata.describes_type (legible_of_described ht)) hp

theorem planned_of_call {credentials : Credentials} (h : call credentials i limit c = .ok p) :
    Planned i limit c p := by
  unfold call at h
  split at h
  · cases h
  · rename_i o ho
    obtain ⟨_, _, h⟩ := bind_eq_ok.mp h
    cases hmutation : o.isMutation with
    | true =>
      obtain ⟨m, t, projection, hm, ht, hp, rfl⟩ :=
        exists_compiled (Operation.ofName?_eq_some_iff.mp ho) hmutation h
      exact .mutation hm.made.keeps hm.made.faithful ht hp
    | false =>
      cases o with
      | schema => exact planned_schema h
      | type => exact planned_type h
      | nodes =>
        obtain ⟨_, _, _, projection, _, ht, hn, hfs, hp, rfl⟩ := nodes_eq_ok h
        exact .nodes ht hn hfs hp
      | node =>
        obtain ⟨_, _, _, _, projection, _, _, ht, hn, hp, rfl⟩ := node_eq_ok h
        exact .node ht hn hp
      | _ => cases hmutation

end Compile

end ObjectQuery
