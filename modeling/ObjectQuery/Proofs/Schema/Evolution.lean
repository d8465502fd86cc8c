import ObjectQuery.Proofs.Schema.Growing
import ObjectQuery.Proofs.Schema.Shrinking

/-!
# Relations through changes

An accepted change neither adds a relation nor removes one by itself: the two fields of a relation
are there together or not at all, and a change adds or removes one field only. What takes relations
away is the deletion of a type, which takes those that begin or end at it. So after any run of
accepted changes the relations are those of the schema at its start between types that no change has
deleted, even if a type of the same name has been created since.
-/

set_option autoImplicit false

namespace ObjectQuery

open Outcome Validation

/-- Whether a change deletes the type of a name. -/
def SchemaChange.deletes (v : Value) : SchemaChange → Bool
  | .deleteType typeName => v.equal typeName
  | _ => false

/-- Whether the types that a change creates are as they are created by default, and not called like
a marker. -/
def SchemaChange.Ordinary : SchemaChange → Prop
  | .createType type => ∃ name pluralName description,
    type = some (.created name pluralName description) ∧
      name ≠ connectionMarker ∧ name ≠ listMarker
  | _ => True

namespace Schema

/-- The relations of a schema, each with the name of the type that declares it. -/
def relations (s : Schema) : List (Value × Field) :=
  s.types.flatMap fun t => (t.declared.filter s.isRelation).map (t.name, ·)

/-- Whether no change deletes the type that declares a field or the one that the field leads to. -/
def survives (cs : List SchemaChange) (r : Value × Field) : Bool :=
  cs.all fun c => !c.deletes r.1 && !c.deletes r.2.target

/-- The schemas that runs of accepted changes lead to. -/
inductive Evolves (rules : Rules) (s₀ : Schema) : List SchemaChange → Schema → Prop
  | start : Evolves rules s₀ [] s₀
  | change {cs : List SchemaChange} {s s' : Schema} {c : SchemaChange} (h : Evolves rules s₀ cs s)
      (hc : c.Ordinary) (ha : s.applyValidated rules c = .ok (.ok s')) :
      Evolves rules s₀ (cs ++ [c]) s'

variable {rules : Rules} {s₀ s s' : Schema} {t u : ObjectType} {f g : Field} {v w : Value}
  {n m : String} {c : SchemaChange} {cs : List SchemaChange} {p d : Option String}
  {keep : ObjectType → Bool} {fields : ObjectType → List Field}

theorem Valid.eq_enlarged (h : s.Valid rules) {member : Member}
    (ha : s.applyValidated rules (.addField v member) = .ok (.ok s')) :
    ∃ n t f, v = .text n ∧ member = .field f ∧ s.type? n = some t ∧ s' = s.enlarged n f := by
  obtain ⟨hs', hv⟩ := applyValidated_eq_ok ha
  obtain ⟨n, t, _, f, rfl, rfl, hg⟩ := h.gains hv hs'
  rw [h.apply_addField hg.found] at hs'
  exact ⟨n, t, f, rfl, rfl, hg.found, (Except.ok.inj hs').symm⟩

theorem Valid.eq_spared (h : s.Valid rules)
    (ha : s.applyValidated rules (.removeField v w) = .ok (.ok s')) :
    ∃ n m t f, v = .text n ∧ w = .text m ∧ s.type? n = some t ∧ t.field? m = some f ∧
      s' = s.restricted (fun _ => true) (isSpared n m) := by
  obtain ⟨hs', _⟩ := applyValidated_eq_ok ha
  obtain ⟨n, t, f, rfl, ht, hfound, _⟩ := apply_removeField_eq_ok h.legible hs'
  have htmem := mem_of_type? ht
  obtain ⟨hf, hname⟩ := (h.legible t htmem).find_eq_ok hfound
  obtain ⟨m, hm⟩ := h.exists_fieldName htmem hf
  rw [hm, Value.text_equal_iff] at hname
  subst hname
  have hfield := h.field?_of_mem htmem hf hm
  rw [h.apply_removeField ht hfield] at hs'
  exact ⟨n, m, t, f, rfl, rfl, ht, hfield, (Except.ok.inj hs').symm⟩

/-- No relation is ever added. -/
theorem Valid.isRelation_of_addField (h : s.Valid rules) (hm : s.MarkerFree)
    (ha : s.applyValidated rules (.addField v (.field f)) = .ok (.ok s')) :
    s.isRelation f = false := by
  obtain ⟨n, t, g, rfl, hg, ht, rfl⟩ := h.eq_enlarged ha
  cases hg
  exact h.isRelation_of_added hm ht (applyValidated_eq_ok ha).2

/-- No relation is ever removed by itself. -/
theorem Valid.isRelation_of_removeField (h : s.Valid rules) (hm : s.MarkerFree)
    (ha : s.applyValidated rules (.removeField v w) = .ok (.ok s')) (ht : t ∈ s.types)
    (hv : t.name = v) (hf : f ∈ t.declared) (hw : f.name = w) : s.isRelation f = false := by
  obtain ⟨n, m, t', f', rfl, rfl, ht', hf', rfl⟩ := h.eq_spared ha
  cases (h.type?_of_mem ht hv).symm.trans ht'
  cases (h.field?_of_mem ht hf hw).symm.trans hf'
  exact h.isRelation_of_removed hm ht' hf' (applyValidated_eq_ok ha).2

theorem relations_remade : (s.remade keep fields).relations = s.types.flatMap fun t =>
    if keep t then ((fields t).filter (s.remade keep fields).isRelation).map (t.name, ·)
    else [] := by
  generalize hq : (s.remade keep fields).isRelation = q
  rw [relations, hq, remade]
  induction s.types with
  | nil => rfl
  | cons t ts ih =>
    rw [List.flatMap_cons, ← ih, List.filter_cons]
    cases keep t with
    | true =>
      rw [if_pos rfl, if_pos rfl, List.map_cons, List.flatMap_cons, ObjectType.declared_withFields]
      rfl
    | false => rfl

/-- A change that is made of fields that are no relations leaves the relations as they are. -/
theorem relations_eq_of_fields (hfields : ∀ t ∈ s.types,
    (fields t).filter s.isRelation = t.declared.filter s.isRelation) :
    (s.remade (fun _ => true) fields).relations = s.relations := by
  have hsame : (s.remade (fun _ => true) fields).isRelation = s.isRelation :=
    funext fun f => isRelation_congr (standing_remade fun _ _ _ => rfl)
  rw [relations_remade, relations, hsame]
  refine List.flatMap_congr fun t ht => ?_
  rw [if_pos rfl, hfields t ht]

theorem Valid.relations_enlarged (h : s.Valid rules) (hm : s.MarkerFree) (ht : s.type? n = some t)
    (hv : (s.enlarged n f).Valid rules) : (s.enlarged n f).relations = s.relations := by
  refine relations_eq_of_fields fun u _ => ?_
  rw [ObjectType.edited]
  split
  · rw [List.filter_append, List.filter_singleton, h.isRelation_of_added hm ht hv]
    exact List.append_nil _
  · rfl

theorem Valid.relations_spared (h : s.Valid rules) (hm : s.MarkerFree) (ht : s.type? n = some t)
    (hf : t.field? m = some f) (hv : (s.restricted (fun _ => true) (isSpared n m)).Valid rules) :
    (s.restricted (fun _ => true) (isSpared n m)).relations = s.relations := by
  refine relations_eq_of_fields fun u hu => ?_
  rw [List.filter_filter]
  refine List.filter_congr fun g hg => ?_
  cases hr : s.isRelation g with
  | false => rfl
  | true =>
    refine h.isSpared_of_ne ht hf hu hg ?_
    rintro rfl
    rw [h.isRelation_of_removed hm ht hf hv] at hr
    cases hr

theorem survives_deleteType :
    survives [.deleteType (.text n)] (v, f) = (!v.spells n && !f.target.spells n) := by
  rw [survives, List.all_cons, List.all_nil, Bool.and_true, SchemaChange.deletes,
    SchemaChange.deletes, Value.equal_text_eq, Value.equal_text_eq]

/-- What is left of the fields of a type when another one is deleted: the relations that do not lead
to it are among them. -/
theorem Valid.filter_isRelation (h : s.Valid rules) (hm : s.MarkerFree) (hn : s.type? n = some u)
    (ht : t ∈ s.types) (htn : t.name.spells n = false)
    (hs' : ∀ v, v ≠ .text n → s'.standing v = s.standing v) :
    (t.declared.filter (!·.refersTo (.text n))).filter s'.isRelation =
      (t.declared.filter s.isRelation).filter
        fun f => survives [.deleteType (.text n)] (t.name, f) := by
  have hmarker : n ≠ connectionMarker := by
    rintro rfl
    exact hm u (mem_of_type? hn) (.inl (type?_name hn))
  rw [List.filter_filter, List.filter_filter]
  refine List.filter_congr fun f hf => ?_
  have hsame : f.refersTo (.text n) = false → s'.isRelation f = s.isRelation f := by
    intro hrefers
    rw [Field.refersTo, Bool.or_eq_false_iff, Value.equal_text_eq] at hrefers
    refine isRelation_congr (hs' _ fun htype => ?_)
    exact Bool.false_ne_true (hrefers.1.symm.trans (Value.spells_iff.mpr htype))
  rw [survives_deleteType, htn, Bool.not_false, Bool.true_and]
  cases hr : s.isRelation f with
  | true =>
    obtain ⟨_, w, hw, g, _, _, ho⟩ := h.exists_opposite hm ht hf hr
    have hrefers := ho.refersTo_eq (h.fieldFacts ht hf) (hm w hw) hmarker
    rw [← ho.target (hm w hw)] at hrefers
    rw [Bool.and_true, ← hrefers]
    cases hk : f.refersTo (.text n) with
    | true => exact Bool.and_false _
    | false => rw [hsame hk, hr, Bool.not_false, Bool.and_true]
  | false =>
    rw [Bool.and_false]
    cases hk : f.refersTo (.text n) with
    | true => exact Bool.and_false _
    | false => rw [hsame hk, hr, Bool.false_and]

/-- Deleting a type takes the relations that begin or end at it. -/
theorem Valid.relations_deleteType (h : s.Valid rules) (hm : s.MarkerFree)
    (hn : s.type? n = some u) :
    (s.restricted (!·.name.spells n) fun _ f => !f.refersTo (.text n)).relations =
      s.relations.filter (survives [.deleteType (.text n)]) := by
  rw [restricted, relations_remade, relations, List.filter_flatMap]
  refine List.flatMap_congr fun t ht => ?_
  rw [List.filter_map]
  cases htn : t.name.spells n with
  | true =>
    have hgone : ∀ f ∈ t.declared.filter s.isRelation,
        ¬(survives [.deleteType (.text n)] ∘ fun f => (t.name, f)) f = true := by
      intro f _
      rw [Function.comp_apply, survives_deleteType, htn]
      exact Bool.false_ne_true
    rw [List.filter_eq_nil_iff.mpr hgone]
    rfl
  | false =>
    have hstanding : ∀ v, v ≠ .text n → (s.restricted (!·.name.spells n)
        fun _ f => !f.refersTo (.text n)).standing v = s.standing v := by
      intro v hv
      refine standing_remade fun w _ hwv => ?_
      rw [Value.not_spells_iff, hwv]
      exact hv
    rw [Bool.not_false, if_pos rfl]
    exact congrArg (List.map _) (h.filter_isRelation hm hn ht htn hstanding)

theorem Valid.isRelation_idField (h : s.Valid rules) : s.isRelation idField = false := by
  have hnone : s.standing idField.type = none := h.standing_scalar (by decide)
  rw [isRelation, namesType_isNode, hnone]
  rfl

/-- A type that is created has no relations, and the other types have the ones they had. -/
theorem Valid.relations_extended (h : s.Valid rules) (hv : (s.extended n p d).Valid rules)
    (hmarker : n ≠ connectionMarker ∧ n ≠ listMarker) :
    (s.extended n p d).relations = s.relations := by
  have hc := hv.creatable
  have htypes : (s.extended n p d).types = s.types ++ [.created n p d] := rfl
  have hnew : ([.created n p d] : List ObjectType).flatMap (fun t =>
      (t.declared.filter (s.extended n p d).isRelation).map (t.name, ·)) = [] := by
    rw [List.flatMap_singleton, ObjectType.declared_created, List.filter_singleton,
      hv.isRelation_idField]
    rfl
  rw [relations, relations, htypes, List.flatMap_append, hnew, List.append_nil]
  refine List.flatMap_congr fun t ht => ?_
  refine congrArg (List.map _) (List.filter_congr fun f hf => isRelation_congr ?_)
  exact standing_extended (h.not_declared_with ht hf (fun u hu => (hc.nameFree u hu).1)
    hc.admissible.1 hmarker).1

theorem MarkerFree.extended (hm : s.MarkerFree)
    (hmarker : n ≠ connectionMarker ∧ n ≠ listMarker) : (s.extended n p d).MarkerFree := by
  refine forall_mem_extended.mpr ⟨hm, ?_⟩
  rintro (hc | hl)
  · exact hmarker.1 (Value.text.inj hc)
  · exact hmarker.2 (Value.text.inj hl)

/-- What an accepted change makes of the relations. -/
theorem Valid.relations_change (h : s.Valid rules) (hm : s.MarkerFree) (hc : c.Ordinary)
    (ha : s.applyValidated rules c = .ok (.ok s')) :
    s'.relations = s.relations.filter (survives [c]) ∧ s'.MarkerFree := by
  obtain ⟨hs', hv⟩ := applyValidated_eq_ok ha
  have hkept (hdeletes : ∀ v, c.deletes v = false) :
      s.relations.filter (survives [c]) = s.relations := by
    refine List.filter_eq_self.mpr fun r _ => ?_
    rw [survives, List.all_cons, List.all_nil, hdeletes, hdeletes]
    rfl
  cases c with
  | createType type =>
    obtain ⟨n, p, d, rfl, hmarker⟩ := hc
    obtain rfl : s' = s.extended n p d := (Except.ok.inj hs').symm
    rw [hkept fun _ => rfl]
    exact ⟨h.relations_extended hv hmarker, hm.extended hmarker⟩
  | deleteType v =>
    obtain ⟨⟨n, t, rfl, ht⟩, _⟩ := apply_deleteType_eq_ok h.legible hs'
    rw [h.apply_deleteType ht] at hs'
    obtain rfl := Except.ok.inj hs'
    exact ⟨h.relations_deleteType hm ht, markerFree_remade hm⟩
  | addField v member =>
    obtain ⟨n, t, f, rfl, rfl, ht, rfl⟩ := h.eq_enlarged ha
    rw [hkept fun _ => rfl]
    exact ⟨h.relations_enlarged hm ht hv, markerFree_remade hm⟩
  | removeField v w =>
    obtain ⟨n, m, t, f, rfl, rfl, ht, hf, rfl⟩ := h.eq_spared ha
    rw [hkept fun _ => rfl]
    exact ⟨h.relations_spared hm ht hf hv, markerFree_remade hm⟩

theorem Evolves.relations (he : Evolves rules s₀ cs s) (h : s₀.Valid rules) (hm : s₀.MarkerFree) :
    s.Valid rules ∧ s.MarkerFree ∧ s.relations = s₀.relations.filter (survives cs) := by
  induction he with
  | start => exact ⟨h, hm, (List.filter_eq_self.mpr fun _ _ => rfl).symm⟩
  | @change cs s s' c _ hc ha ih =>
    obtain ⟨hs, hsm, hrelations⟩ := ih
    obtain ⟨hstep, hsm'⟩ := hs.relations_change hsm hc ha
    refine ⟨(applyValidated_eq_ok ha).2, hsm', ?_⟩
    rw [hstep, hrelations, List.filter_filter]
    refine List.filter_congr fun r _ => ?_
    simp only [survives]
    rw [List.all_append, Bool.and_comm]

/-- After any run of accepted changes the relations of a schema are those that it had at the start
between types that have not been deleted since, and no relation can be added or removed by
itself. -/
theorem Evolves.relations_frozen (he : Evolves rules s₀ cs s) (h : s₀.Valid rules)
    (hm : s₀.MarkerFree) :
    s.relations = s₀.relations.filter (survives cs) ∧
      (∀ v f s', s.applyValidated rules (.addField v (.field f)) = .ok (.ok s') →
        s.isRelation f = false) ∧
      ∀ v w s', s.applyValidated rules (.removeField v w) = .ok (.ok s') →
        ∀ t ∈ s.types, t.name = v → ∀ f ∈ t.declared, f.name = w → s.isRelation f = false := by
  obtain ⟨hs, hsm, hrelations⟩ := he.relations h hm
  refine ⟨hrelations, fun v f s' ha => hs.isRelation_of_addField hsm ha, ?_⟩
  intro v w s' ha t ht hv f hf hw
  exact hs.isRelation_of_removeField hsm ha ht hv hf hw

end Schema

/-- A type that is deleted and created again has none of the relations that it had. -/
theorem nested_relations_lost : (Nested.schema "Part" .null).Valid Nested.rules ∧
    (Nested.schema "Part" .null).MarkerFree ∧
    (Nested.schema "Part" .null).relations.length = 2 ∧
    ∃ s, Schema.Evolves Nested.rules (Nested.schema "Part" .null)
      [.deleteType (.text "Part"), .createType (some (.created "Part" none none))] s ∧
      s.type? "Part" = some (.created "Part" none none) ∧ s.relations = [] := by
  have hvalid : (Nested.schema "Part" .null).Valid Nested.rules := by rfl
  have hfree : (Nested.schema "Part" .null).MarkerFree := by
    intro t ht hmarker
    obtain rfl := List.mem_singleton.mp ht
    rcases hmarker with hm | hm <;> exact absurd (Value.text.inj hm) (by decide)
  have hdeleted : Schema.Evolves Nested.rules (Nested.schema "Part" .null)
      [.deleteType (.text "Part")] ⟨[]⟩ := .change .start trivial rfl
  have hcreated : Schema.Evolves Nested.rules (Nested.schema "Part" .null)
      [.deleteType (.text "Part"), .createType (some (.created "Part" none none))]
      ⟨[.created "Part" none none]⟩ :=
    .change hdeleted ⟨"Part", none, none, rfl, by decide, by decide⟩ rfl
  refine ⟨hvalid, hfree, rfl, _, hcreated, rfl, ?_⟩
  rw [(hcreated.relations_frozen hvalid hfree).1]
  rfl

end ObjectQuery
