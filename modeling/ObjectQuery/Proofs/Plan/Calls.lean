import ObjectQuery.Proofs.Plan.Selections

/-!
# What calls that read are compiled to

A call for one record or for records of a type names a type of the schema whose records have ids.
The filters of a call are the arguments that name a field of one scalar, each with what the scalar
makes of it.
-/

set_option autoImplicit false

namespace ObjectQuery

open Outcome

namespace Call

variable {c : Call}

theorem nameIn_eq_ok {a : Argument} {what n : String} :
    c.nameIn a what = .ok n ↔ a.value = .name n := by
  unfold nameIn
  cases a.value <;> simp [refuse]

theorem onePositional_eq_ok {a : Argument} : c.onePositional = .ok a ↔ c.positional = [a] := by
  unfold onePositional
  split
  · rename_i hp
    simp [hp]
  · rename_i hp
    exact ⟨nofun, fun h => absurd h (hp a)⟩

theorem twoPositional_eq_ok {a b : Argument} (h : c.twoPositional = .ok (a, b)) :
    c.positional = [a, b] := by
  unfold twoPositional at h
  split at h
  · rename_i hp
    cases h
    exact hp
  · cases h

end Call

theorem Mutation.existing_eq_ok {i : Snapshot} {c : Call} {n : String} {t : ObjectType} :
    existing i c n = .ok t ↔ i.schema.type? n = some t := by
  unfold existing
  cases i.schema.type? n <;> simp [Call.refuse]

namespace Compile

variable {i : Snapshot} {limit : Int} {c : Call} {t : ObjectType} {n : String} {p : CallPlan}

theorem nodeType_eq_ok : nodeType i c n = .ok t ↔ i.schema.type? n = some t ∧ t.isNode := by
  unfold nodeType
  rw [bind_eq_ok]
  constructor
  · rintro ⟨u, hu, h⟩
    split at h
    · rename_i hnode
      cases h
      exact ⟨Mutation.existing_eq_ok.mp hu, hnode⟩
    · cases h
  · rintro ⟨ht, hnode⟩
    exact ⟨t, Mutation.existing_eq_ok.mpr ht, if_pos hnode⟩

theorem node_eq_ok (h : node i limit c = .ok p) :
    ∃ n a id t projection, c.positional.map Argument.value = [.name n, a] ∧
      Scalar.idOf a.value = .ok id ∧ i.schema.type? n = some t ∧ t.isNode ∧
      (Context.object (.data i) t).project limit c = .ok projection ∧
      p = .fetchNode t.label id projection := by
  obtain ⟨⟨a, b⟩, hab, h⟩ := bind_eq_ok.mp h
  obtain ⟨_, _, h⟩ := bind_eq_ok.mp h
  obtain ⟨n, hn, h⟩ := bind_eq_ok.mp h
  obtain ⟨t, ht, h⟩ := bind_eq_ok.mp h
  obtain ⟨id, hid, h⟩ := bind_eq_ok.mp h
  obtain ⟨projection, hp, h⟩ := bind_eq_ok.mp h
  cases h
  obtain ⟨ht, hnode⟩ := nodeType_eq_ok.mp ht
  refine ⟨n, b.value, id, t, projection, ?_, Argument.id_eq_ok hid, ht, hnode, hp, rfl⟩
  rw [Call.twoPositional_eq_ok hab, List.map_cons, Call.nameIn_eq_ok.mp hn, List.map_singleton]

theorem nodes_eq_ok (h : nodes i limit c = .ok p) :
    ∃ n t fs projection, c.positional.map Argument.value = [.name n] ∧
      i.schema.type? n = some t ∧ t.isNode ∧
      filters (filterable i t) c.namedArguments = .ok fs ∧
      (Context.connection c.name (.data i) t).project limit c = .ok projection ∧
      p = .fetchNodes t.label fs (.of c) projection := by
  obtain ⟨a, ha, h⟩ := bind_eq_ok.mp h
  obtain ⟨n, hn, h⟩ := bind_eq_ok.mp h
  obtain ⟨t, ht, h⟩ := bind_eq_ok.mp h
  obtain ⟨named, hnamed, h⟩ := bind_eq_ok.mp h
  obtain ⟨page, hpage, h⟩ := bind_eq_ok.mp h
  obtain ⟨fs, hfs, h⟩ := bind_eq_ok.mp h
  obtain ⟨projection, hp, h⟩ := bind_eq_ok.mp h
  cases h
  rw [(Call.allowing_eq_ok.mp hnamed).1] at hpage hfs
  obtain ⟨ht, hnode⟩ := nodeType_eq_ok.mp ht
  cases Page.ofArguments_eq_ok hpage
  refine ⟨n, t, fs, projection, ?_, ht, hnode, hfs, hp, rfl⟩
  rw [Call.onePositional_eq_ok.mp ha, List.map_singleton, Call.nameIn_eq_ok.mp hn]

theorem scalarOf?_eq (f : Field) :
    scalarOf? i f = match (i.schema.kindOf f).toOption with
      | some (.scalar s) => some s
      | _ => none := by
  unfold scalarOf?
  cases i.schema.kindOf f with
  | error e => rfl
  | ok k => cases k <;> rfl

/-- Where names are distinct, looking a name up among the fields of scalars is looking up the field
of the name and its scalar. -/
theorem lookup_filterable {fields : List Field}
    (hn : ∀ f ∈ fields, ∃ n, f.name = .text n) (hd : (fields.map (·.name)).Nodup) (name : String) :
    (fields.filterMap fun f => do return (← f.name.text?, ← scalarOf? i f)).lookup name =
      (fields.find? (·.name.spells name)).bind (scalarOf? i) := by
  induction fields with
  | nil => rfl
  | cons f fields ih =>
    obtain ⟨m, hm⟩ := hn f List.mem_cons_self
    obtain ⟨hfresh, hd⟩ := List.nodup_cons.mp hd
    have ih := ih (fun g hg => hn g (List.mem_cons_of_mem f hg)) hd
    rw [List.filterMap_cons, List.find?_cons, hm, Value.text?_text, Value.spells_text]
    by_cases hname : m = name
    · subst hname
      have hnone : fields.find? (·.name.spells m) = none := by
        rw [List.find?_eq_none]
        intro g hg hspells
        exact hfresh (List.mem_map.mpr ⟨g, hg, (Value.spells_iff.mp hspells).trans hm.symm⟩)
      cases hs : scalarOf? i f with
      | none => simpa [hs, hnone] using ih
      | some s => simp [hs]
    · have hne : (m == name) = false := beq_false_of_ne hname
      have hne' : (name == m) = false := beq_false_of_ne (Ne.symm hname)
      cases hs : scalarOf? i f with
      | none => simpa [hs, hne] using ih
      | some s => simpa [hs, hne, hne', List.lookup_cons] using ih

theorem scalarOf?_eq_some {f : Field} {s : Scalar} :
    scalarOf? i f = some s ↔ i.schema.kindOf f = .ok (.scalar s) := by
  unfold scalarOf?
  split
  · rename_i hk
    simp [hk]
  · rename_i hk
    exact ⟨nofun, fun h => absurd h (hk s)⟩

theorem lookup_filterable_eq_some (ht : t ∈ i.schema.types) {name : String} {s : Scalar} :
    (filterable i t).lookup name = some s ↔
      ∃ f, t.field? name = some f ∧ i.schema.kindOf f = .ok (.scalar s) := by
  have hnames := i.valid.fieldNames_nodup ht
  have hlookup : (filterable i t).lookup name = (t.field? name).bind (scalarOf? i) :=
    lookup_filterable (fun f hf => i.valid.exists_fieldName ht hf) hnames name
  simp only [hlookup, Option.bind_eq_some_iff, scalarOf?_eq_some]

/-- A filter names a field of one scalar, and asks for what the scalar makes of its argument. -/
theorem mem_filters (ht : t ∈ i.schema.types) {named : List (String × Argument)} {fs : Filters}
    (h : filters (filterable i t) named = .ok fs) {e : String × Value} (he : e ∈ fs) :
    ∃ f s v, t.field? e.1 = some f ∧ i.schema.kindOf f = .ok (.scalar s) ∧
      s.coerce v = .ok e.2 := by
  obtain ⟨os, hos, h⟩ := bind_eq_ok.mp h
  cases h
  obtain ⟨o, ho, hoe⟩ := List.mem_filterMap.mp he
  obtain rfl : o = some e := hoe
  obtain ⟨a, _, ha⟩ := exists_of_mem_mapM hos ho
  unfold filter? at ha
  split at ha
  · cases ha
  · split at ha
    · rename_i s hs
      obtain ⟨v, hv, ha⟩ := bind_eq_ok.mp ha
      cases ha
      obtain ⟨f, hf, hk⟩ := (lookup_filterable_eq_some ht).mp hs
      exact ⟨f, s, a.2.value.value, hf, hk, mapError_eq_ok.mp hv⟩
    · cases ha

variable {w : World}

theorem filter?_eq_ok (hw : w.schema = i.schema) (ht : t ∈ i.schema.types)
    {a : String × Argument} {o : Option (String × Value)}
    (h : filter? (filterable i t) a = .ok o) : o = (w.wanted? t a).map fun v => (a.1, v) := by
  have hlookup : (filterable i t).lookup a.1 = (t.field? a.1).bind (scalarOf? i) :=
    lookup_filterable (fun f hf => i.valid.exists_fieldName ht hf) (i.valid.fieldNames_nodup ht) a.1
  unfold World.wanted? World.kind?
  unfold filter? at h
  rw [hlookup] at h
  rw [hw]
  split at h
  · rename_i hpage
    cases h
    rw [if_pos hpage]
    rfl
  · rename_i hpage
    rw [if_neg hpage]
    cases hf : t.field? a.1 with
    | none =>
      rw [hf] at h
      cases h
      rfl
    | some f =>
      rw [hf] at h
      simp only [Option.bind_some, scalarOf?_eq] at h ⊢
      split
      · rename_i s hs
        simp only [hs] at h
        obtain ⟨v, hv, h⟩ := bind_eq_ok.mp h
        cases h
        rw [mapError_eq_ok.mp hv]
        rfl
      · rename_i hs
        split at h
        · rename_i s hmatch
          split at hmatch
          · rename_i hk
            exact absurd hk (hs _)
          · cases hmatch
        · cases h
          rfl

/-- The filters of a call ask for what the call asks for. -/
theorem filters_all (hw : w.schema = i.schema) (ht : t ∈ i.schema.types) {fs : Filters}
    (h : filters (filterable i t) c.namedArguments = .ok fs) (r : Value) :
    (fs.all fun f => (r.held f.1).equal f.2) = w.meets t c r := by
  obtain ⟨os, hos, h⟩ := bind_eq_ok.mp h
  cases h
  unfold World.meets
  have hall := mapM_eq_ok.mp hos
  clear hos h
  generalize c.namedArguments = named at hall
  induction hall with
  | nil => rfl
  | @cons a o named os ho _ ih =>
    rw [List.all_cons, ← ih, List.filterMap_cons, filter?_eq_ok hw ht ho]
    cases w.wanted? t a with
    | none => simp
    | some v => simp

end Compile

end ObjectQuery
