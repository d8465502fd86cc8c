import ObjectQuery.Proofs.Schema.Cascade

/-!
# Changes that take something away

What can be taken away from a valid schema can be told from what is taken away: a type if it is not
required and no other type is left without fields, a field if it is not the only one of its type,
not the id of a node and not an end of a relation. For then nothing that is left speaks of what is
gone, and so nothing that was in order before gets out of order.
-/

set_option autoImplicit false

namespace ObjectQuery

open Validation

namespace Schema

variable {rules : Rules} {s : Schema} {t u : ObjectType} {f g : Field} {n m : String}

/-- The id of a node refers to no type. -/
theorem Valid.refersTo_id (h : s.Valid rules) (ht : s.type? n = some t)
    (hf : sameDefinition f idField = true) : f.refersTo (.text n) = false := by
  obtain ⟨_, htype, hof⟩ := of_sameDefinition_idField hf
  have hscalar : Scalar.named? (.text "id") = some .id := by decide
  rw [Field.refersTo, Value.equal_text_eq, Value.equal_text_eq, htype, hof,
    h.not_scalar ht hscalar]
  rfl

/-- What is left when a type is deleted is valid if the type is not required and all other types
have fields left. -/
theorem Valid.deletable (h : s.Valid rules) (hr : rules.registry = .standard) (hm : s.MarkerFree)
    (ht : s.type? n = some t) (hrequired : .text n ∉ rules.required)
    (hleft : ∀ u ∈ s.types, u.name ≠ .text n → ∃ f ∈ u.declared, f.refersTo (.text n) = false) :
    (s.restricted (!·.name.spells n) fun _ f => !f.refersTo (.text n)).Valid rules := by
  have hmarker : n ≠ connectionMarker := by
    rintro rfl
    exact hm t (mem_of_type? ht) (.inl (type?_name ht))
  apply h.valid_restricted hm
  · intro u hu hmem
    rw [Value.not_spells_iff]
    intro hn
    exact hrequired (hn ▸ hmem)
  · intro u hu hk
    obtain ⟨f, hf, hrefers⟩ := hleft u hu (Value.not_spells_iff.mp hk)
    exact ⟨f, hf, by rw [hrefers]; rfl⟩
  · intro u hu _
    rw [ObjectType.mandated_iff hr, ObjectType.declared_withFields]
    intro hnode
    obtain ⟨f, hf, hsame⟩ := (ObjectType.mandated_iff hr).mp (h.facts.mandated u hu) hnode
    refine ⟨f, List.mem_filter.mpr ⟨hf, ?_⟩, hsame⟩
    rw [h.refersTo_id ht hsame]
    rfl
  · intro u hu _ f hf hkf w hw htarget
    rw [Value.not_spells_iff]
    intro hn
    rw [hn, ← Value.equal_text_iff, ← Value.equal_text_iff, ← Bool.or_eq_true] at htarget
    rw [Field.refersTo, htarget] at hkf
    cases hkf
  · intro u hu hk f hf _ w hw g hg ho
    -- The other end of a relation refers to the type that is kept, not to the one that is deleted.
    rw [ho.symm.refersTo_eq (h.fieldFacts hw hg) (hm u hu) hmarker]
    exact hk

/-- A type can be deleted if it is not required and each other type has a field that is not declared
with it, and only then. -/
theorem Valid.deleteType_acceptedIff (h : s.Valid rules) (hr : rules.registry = .standard)
    (hm : s.MarkerFree) (ht : t ∈ s.types) : s.AcceptedIff rules (.deleteType t.name)
      (t.name ∉ rules.required ∧ ∀ u ∈ s.types, u.name ≠ t.name →
        ∃ f ∈ u.declared, f.type ≠ t.name ∧ f.ofType ≠ t.name) := by
  obtain ⟨n, hn⟩ := h.exists_name ht
  have hfound := h.type?_of_mem ht hn
  rw [hn]
  refine (h.acceptedIff (c := .deleteType (.text n)) rfl (h.apply_deleteType hfound)).congr
    ⟨fun hv => ⟨?_, ?_⟩, ?_⟩
  · intro hmem
    obtain ⟨u, hu, hun⟩ := List.mem_map.mp (hv.facts.required _ hmem)
    obtain ⟨u, _, hk, rfl⟩ := mem_remade.mp hu
    exact Value.not_spells_iff.mp hk hun
  · intro u hu hun
    have hne := hv.declared_ne_nil (mem_remade.mpr ⟨u, hu, Value.not_spells_iff.mpr hun, rfl⟩)
    rw [ObjectType.declared_withFields] at hne
    obtain ⟨f, hf⟩ := List.exists_mem_of_ne_nil _ hne
    obtain ⟨hf, hkf⟩ := List.mem_filter.mp hf
    exact ⟨f, hf, Field.refersTo_eq_false_iff.mp (Bool.not_eq_true' _ ▸ hkf)⟩
  · rintro ⟨hrequired, hleft⟩
    refine h.deletable hr hm hfound hrequired fun u hu hun => ?_
    obtain ⟨f, hf, hdeclared⟩ := hleft u hu hun
    exact ⟨f, hf, Field.refersTo_eq_false_iff.mpr hdeclared⟩

theorem isSpared_iff : isSpared n m t f = true ↔ t.name = .text n → f.name ≠ .text m := by
  rw [isSpared, Bool.not_eq_true', Bool.and_eq_false_imp, Value.spells_iff, ← Bool.not_eq_true,
    Value.spells_iff]

/-- All fields but one are spared. -/
theorem Valid.isSpared_of_ne (h : s.Valid rules) (ht : s.type? n = some t)
    (hf : t.field? m = some f) (hu : u ∈ s.types) (hg : g ∈ u.declared) (hne : g ≠ f) :
    isSpared n m u g = true := by
  rw [isSpared_iff]
  intro hun hgm
  have hut := (h.type?_of_mem hu hun).symm.trans ht
  cases hut
  have hgf := (h.field?_of_mem hu hg hgm).symm.trans hf
  exact hne (Option.some.inj hgf)

theorem exists_ne_of_ne_singleton {fs : List Field} (hn : fs.Nodup) (hne : fs ≠ []) (h : fs ≠ [f]) :
    ∃ g ∈ fs, g ≠ f := by
  cases fs with
  | nil => exact absurd rfl hne
  | cons g fs =>
    by_cases hg : g = f
    · subst hg
      obtain ⟨k, hk⟩ := List.exists_mem_of_ne_nil fs fun hfs => h (hfs ▸ rfl)
      refine ⟨k, List.mem_cons_of_mem g hk, ?_⟩
      rintro rfl
      exact (List.nodup_cons.mp hn).1 hk
    · exact ⟨g, List.mem_cons_self, hg⟩

/-- What is left when a field is removed is valid if the field is not the only one of its type, not
the id of a node and no relation. -/
theorem Valid.removable (h : s.Valid rules) (hr : rules.registry = .standard) (hm : s.MarkerFree)
    (ht : s.type? n = some t) (hf : t.field? m = some f) (hrelation : s.isRelation f = false)
    (hid : ¬(t.isNode = true ∧ m = idName)) (honly : t.declared ≠ [f]) :
    (s.restricted (fun _ => true) (isSpared n m)).Valid rules := by
  apply h.valid_restricted hm
  · exact fun _ _ _ => rfl
  · intro u hu _
    have hother : ∃ g ∈ u.declared, g ≠ f ∨ u.name ≠ .text n := by
      by_cases hun : u.name = .text n
      · cases (h.type?_of_mem hu hun).symm.trans ht
        have hnodup := (h.fieldNames_nodup hu).of_map
        obtain ⟨g, hg, hne⟩ := exists_ne_of_ne_singleton hnodup (h.declared_ne_nil hu) honly
        exact ⟨g, hg, .inl hne⟩
      · obtain ⟨g, hg⟩ := List.exists_mem_of_ne_nil _ (h.declared_ne_nil hu)
        exact ⟨g, hg, .inr hun⟩
    obtain ⟨g, hg, hne | hun⟩ := hother
    · exact ⟨g, hg, h.isSpared_of_ne ht hf hu hg hne⟩
    · exact ⟨g, hg, isSpared_iff.mpr fun hn => absurd hn hun⟩
  · intro u hu _
    rw [ObjectType.mandated_iff hr, ObjectType.declared_withFields]
    intro hnode
    obtain ⟨g, hg, hsame⟩ := (ObjectType.mandated_iff hr).mp (h.facts.mandated u hu) hnode
    refine ⟨g, List.mem_filter.mpr ⟨hg, ?_⟩, hsame⟩
    rw [isSpared_iff]
    intro hun hgm
    cases (h.type?_of_mem hu hun).symm.trans ht
    have hidm := (of_sameDefinition_idField hsame).1.symm.trans hgm
    exact hid ⟨hnode, (Value.text.inj hidm).symm⟩
  · exact fun _ _ _ _ _ _ _ _ _ => rfl
  · intro u hu _ g' hg' _ w hw g hg ho
    apply h.isSpared_of_ne ht hf hw hg
    rintro rfl
    rw [h.isRelation_of_opposite hm hu hg' ho] at hrelation
    cases hrelation

/-- A relation cannot be removed: the field at its other end would be left alone. -/
theorem Valid.isRelation_of_removed (h : s.Valid rules) (hm : s.MarkerFree)
    (ht : s.type? n = some t) (hf : t.field? m = some f)
    (hv : (s.restricted (fun _ => true) (isSpared n m)).Valid rules) :
    s.isRelation f = false := by
  have hn := type?_name ht
  have hfm := ObjectType.field?_name hf
  refine h.isRelation_eq_false hm (mem_of_type? ht) (ObjectType.mem_of_field? hf) hv
    (markerFree_remade hm) (fun v => standing_remade fun _ _ _ => rfl) ?_ ?_
  · intro u hu g hg hne
    refine ⟨_, mem_remade.mpr ⟨u, hu, rfl, rfl⟩, ?_⟩
    rw [ObjectType.declared_withFields]
    exact List.mem_filter.mpr ⟨hg, h.isSpared_of_ne ht hf hu hg hne⟩
  · refine forall_mem_remade.mpr fun u hu _ hun g hg => ?_
    rw [ObjectType.declared_withFields] at hg
    rw [hfm]
    exact isSpared_iff.mp (List.mem_filter.mp hg).2 (hun.trans hn)

/-- A field can be removed if it is not a relation, not the id of a node and not the only field of
its type, and only then. -/
theorem Valid.removeField_acceptedIff (h : s.Valid rules) (hr : rules.registry = .standard)
    (hm : s.MarkerFree) (ht : t ∈ s.types) (hf : f ∈ t.declared) :
    s.AcceptedIff rules (.removeField t.name f.name)
      (s.isRelation f = false ∧ ¬(t.isNode = true ∧ f.name = .text idName) ∧ t.declared ≠ [f]) := by
  obtain ⟨n, hn⟩ := h.exists_name ht
  obtain ⟨m, hfm⟩ := h.exists_fieldName ht hf
  have hfound := h.type?_of_mem ht hn
  have hfield := h.field?_of_mem ht hf hfm
  rw [hn, hfm, Value.text.injEq]
  refine (h.acceptedIff (c := .removeField (.text n) (.text m)) rfl
    (h.apply_removeField hfound hfield)).congr ⟨fun hv => ?_, ?_⟩
  · have hleft : t.withFields (t.declared.filter (isSpared n m t)) ∈
        (s.restricted (fun _ => true) (isSpared n m)).types := mem_remade.mpr ⟨t, ht, rfl, rfl⟩
    have hgone : ∀ g ∈ t.declared.filter (isSpared n m t), g.name ≠ .text m := fun g hg =>
      isSpared_iff.mp (List.mem_filter.mp hg).2 hn
    refine ⟨h.isRelation_of_removed hm hfound hfield hv, ?_, ?_⟩
    · rintro ⟨hnode, rfl⟩
      obtain ⟨g, hg, hsame⟩ := (ObjectType.mandated_iff hr).mp (hv.facts.mandated _ hleft) hnode
      rw [ObjectType.declared_withFields] at hg
      exact hgone g hg (of_sameDefinition_idField hsame).1
    · intro honly
      have hne := hv.declared_ne_nil hleft
      rw [ObjectType.declared_withFields] at hne
      obtain ⟨g, hg⟩ := List.exists_mem_of_ne_nil _ hne
      have hgf := List.mem_of_mem_filter hg
      rw [honly, List.mem_singleton] at hgf
      exact hgone g hg (hgf ▸ hfm)
  · rintro ⟨hrelation, hid, honly⟩
    exact h.removable hr hm hfound hfield hrelation hid honly

/-- What can be taken away from a valid schema no type of which is called like a marker: a type if
it is not required and each other type has a field that is not declared with it, a field if it is
not a relation, not the id of a node and not the only field of its type, and nothing else. -/
theorem Valid.destructive_acceptedIff (h : s.Valid rules) (hr : rules.registry = .standard)
    (hm : s.MarkerFree) (ht : t ∈ s.types) :
    s.AcceptedIff rules (.deleteType t.name) (t.name ∉ rules.required ∧
      ∀ u ∈ s.types, u.name ≠ t.name → ∃ f ∈ u.declared, f.type ≠ t.name ∧ f.ofType ≠ t.name) ∧
    ∀ f ∈ t.declared, s.AcceptedIff rules (.removeField t.name f.name)
      (s.isRelation f = false ∧ ¬(t.isNode = true ∧ f.name = .text idName) ∧ t.declared ≠ [f]) :=
  ⟨h.deleteType_acceptedIff hr hm ht, fun _ hf => h.removeField_acceptedIff hr hm ht hf⟩

end Schema

theorem stock_shrinks : (Stock.schema "Part").Valid Stock.rules ∧
    (Stock.schema "Part").MarkerFree ∧
    (∃ s', (Stock.schema "Part").applyValidated Stock.rules (.deleteType (.text "Part")) =
      .ok (.ok s')) ∧
    (∃ s', (Stock.schema "Part").applyValidated Stock.rules
      (.removeField (.text "Item") (.text "tags")) = .ok (.ok s')) ∧
    ∃ r, (Stock.schema "Part").applyValidated Stock.rules
      (.removeField (.text "Item") (.text "id")) = .ok (.error r) := by
  have hpart : Stock.partType "Part" ∈ (Stock.schema "Part").types := List.mem_cons_self
  have hitem : Stock.itemType [idField, Stock.tags, Stock.parts "Part"] ∈
      (Stock.schema "Part").types := List.mem_cons_of_mem _ List.mem_cons_self
  obtain ⟨hdelete, _⟩ := Stock.valid.destructive_acceptedIff rfl Stock.markerFree hpart
  obtain ⟨_, hremove⟩ := Stock.valid.destructive_acceptedIff rfl Stock.markerFree hitem
  refine ⟨Stock.valid, Stock.markerFree, hdelete.accepts ⟨List.not_mem_nil, ?_⟩, ?_, ?_⟩
  · intro u hu hne
    rcases List.mem_cons.mp hu with rfl | hu
    · exact absurd rfl hne
    · obtain rfl := List.mem_singleton.mp hu
      exact ⟨idField, List.mem_cons_self, by simp [idField, Stock.partType]⟩
  · refine (hremove Stock.tags (List.mem_cons_of_mem _ List.mem_cons_self)).accepts
      ⟨rfl, fun hid => ?_, fun honly => ?_⟩
    · exact absurd (Value.text.inj hid.2) (by decide)
    · exact absurd (congrArg List.length honly) (by decide)
  · exact (hremove idField List.mem_cons_self).refuses fun h => h.2.1 ⟨rfl, rfl⟩

end ObjectQuery
