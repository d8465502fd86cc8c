import ObjectQuery.Proofs.Schema.Cascade

/-!
# Changes that add something

What can be added to a valid schema can be told from what is added and from the names that are
taken. A new field or type changes nothing about what is there already; and a relation is never
added, for a field that is at the other end of it would be in order in one of the two schemas only.
-/

set_option autoImplicit false

namespace ObjectQuery

open Validation

theorem nodup_map_append_singleton {α β : Type} {q : α → β} {l : List α} {a : α} :
    ((l ++ [a]).map q).Nodup ↔ (l.map q).Nodup ∧ ∀ b ∈ l, q b ≠ q a := by
  rw [List.map_append, List.map_singleton, List.nodup_append_comm, List.singleton_append,
    List.nodup_cons, and_comm]
  simp

namespace Schema

variable {rules : Rules} {s s' : Schema} {t u : ObjectType} {f g : Field} {v : Value} {n : String}

/-- Whether a value names a scalar or a type that is no node. -/
def isPlain (s : Schema) (v : Value) : Bool :=
  Scalar.isNamedBy v || namesType s (fun t => !t.isNode) v

/-- Whether what a field is declared with is plain, or a list of something plain. -/
def PlainlyTyped (s : Schema) (f : Field) : Prop :=
  s.isPlain f.type = true ∧ f.ofType = .null ∨ f.isList = true ∧ s.isPlain f.ofType = true

theorem isPlain_congr (h : s'.standing v = s.standing v) : s'.isPlain v = s.isPlain v := by
  rw [isPlain, isPlain, namesType_eq, namesType_eq, h]

/-- A field that is in order and no relation is plainly typed. -/
theorem FieldFacts.plainlyTyped (h : FieldFacts rules s t f) (hr : s.isRelation f = false) :
    s.PlainlyTyped f := by
  obtain ⟨hc, hnode⟩ := Bool.or_eq_false_iff.mp hr
  have ho := h.ofType
  cases hl : f.isList with
  | true =>
    rw [ofTypeViolations, hc, hl, if_neg Bool.false_ne_true, if_pos rfl, check_eq_nil_iff] at ho
    exact .inr ⟨hl, ho⟩
  | false =>
    refine .inl ⟨?_, h.ofType_eq_null hc hl⟩
    have hknown := h.typeKnown
    rw [hc, hl, Bool.or_false, Bool.or_false, namesType_eq fun _ => true] at hknown
    rw [namesType_isNode] at hnode
    rw [isPlain, namesType_eq]
    cases hs : s.standing f.type with
    | none =>
      rw [hs] at hknown
      exact hknown
    | some isNode =>
      rw [hs] at hnode
      rw [show isNode = false from hnode]
      exact Bool.or_true _

/-- What is plain is neither a marker nor the name of a node. -/
theorem Valid.plain (h : s.Valid rules) (hm : s.MarkerFree) (hv : s.isPlain v = true) :
    v.spells connectionMarker = false ∧ v.spells listMarker = false ∧
      namesType s ObjectType.isNode v = false := by
  rcases Bool.or_eq_true_iff.mp hv with hscalar | hembedded
  · refine ⟨?_, ?_, ?_⟩
    · rw [Bool.eq_false_iff]
      intro hc
      rw [Value.spells_iff.mp hc] at hscalar
      exact absurd hscalar (by decide)
    · rw [Bool.eq_false_iff]
      intro hl
      rw [Value.spells_iff.mp hl] at hscalar
      exact absurd hscalar (by decide)
    · rw [namesType_isNode, h.standing_scalar hscalar]
      rfl
  · obtain ⟨n, t, rfl, ht, hnode⟩ := namesType_eq_true_iff.mp hembedded
    have hname := type?_name ht
    have hmarker := hm t (mem_of_type? ht)
    rw [ObjectType.CalledLikeMarker, hname, not_or] at hmarker
    refine ⟨?_, ?_, ?_⟩
    · exact Bool.eq_false_iff.mpr fun hc => hmarker.1 (Value.spells_iff.mp hc)
    · exact Bool.eq_false_iff.mpr fun hl => hmarker.2 (Value.spells_iff.mp hl)
    · rw [namesType, ht, Option.any_some]
      simpa using hnode

/-- What is plainly typed is no relation, and what is declared for it is as it has to be. -/
theorem Valid.typed_of_plain (h : s.Valid rules) (hm : s.MarkerFree) (hp : s.PlainlyTyped f) :
    f.isConnection = false ∧ namesType s ObjectType.isNode f.type = false ∧
      (Scalar.isNamedBy f.type || namesType s (fun _ => true) f.type || f.isList) = true ∧
      ∀ spot, ofTypeViolations s spot f = [] := by
  rcases hp with ⟨hplain, hof⟩ | ⟨hl, hplain⟩
  · obtain ⟨hc, hl, hnode⟩ := h.plain hm hplain
    refine ⟨hc, hnode, ?_, fun spot => ?_⟩
    · rcases Bool.or_eq_true_iff.mp hplain with hscalar | hembedded
      · rw [hscalar]
        rfl
      · obtain ⟨n, u, hn, hu, _⟩ := namesType_eq_true_iff.mp hembedded
        rw [namesType_eq_true_iff.mpr ⟨n, u, hn, hu, rfl⟩, Bool.or_true]
        rfl
    · rw [ofTypeViolations, Field.isConnection, hc, Field.isList, hl, hof]
      rfl
  · have htype := Value.spells_iff.mp hl
    have hc : f.isConnection = false := by
      rw [Field.isConnection, htype]
      rfl
    refine ⟨hc, ?_, ?_, fun spot => ?_⟩
    · rw [Bool.eq_false_iff, htype]
      intro hnode
      obtain ⟨n, u, hn, hu, _⟩ := namesType_eq_true_iff.mp hnode
      exact hm u (mem_of_type? hu) (.inr ((type?_name hu).trans hn.symm))
    · rw [hl, Bool.or_true]
    · rw [ofTypeViolations, hc, if_neg Bool.false_ne_true, if_pos hl, check_eq_nil_iff]
      exact hplain

end Schema

/-- A field the attributes of which are of the types they are to be of. -/
structure Field.WellTyped (f : Field) : Prop where
  name : f.name.isText = true
  type : f.type.isText = true
  ofType : isOptionalText f.ofType = true
  description : isOptionalText f.description = true
  deprecationReason : isOptionalText f.deprecationReason = true
  reverseName : isOptionalText f.reverseName = true
  unique : ∃ b, f.unique = .bool b
  nonNull : ∃ b, f.nonNull = .bool b

namespace Schema

variable {rules : Rules} {s s' : Schema} {t u : ObjectType} {f g : Field} {v : Value} {n : String}

/-- A field that can be added to a type. -/
structure Addable (rules : Rules) (s : Schema) (t : ObjectType) (f : Field) : Prop where
  name : textSatisfies isFieldName f.name = true
  fresh : ∀ g ∈ t.declared, g.name ≠ f.name
  notBuiltIn : ∀ g ∈ rules.registry.typeFields t.name, g.name ≠ f.name
  plainlyTyped : s.PlainlyTyped f
  unique : f.unique.isTrue = true → Scalar.isNamedBy f.type = true

/-- A schema with one more field in the type of a name. -/
def enlarged (s : Schema) (n : String) (f : Field) : Schema :=
  s.remade (fun _ => true) (ObjectType.edited n (· ++ [f]))

theorem standing_enlarged : (s.enlarged n f).standing v = s.standing v :=
  standing_remade fun _ _ _ => rfl

theorem mem_edited : g ∈ t.edited n (· ++ [f]) ↔ g ∈ t.declared ∨ t.name = .text n ∧ g = f := by
  rw [ObjectType.edited, ← Value.spells_iff]
  cases t.name.spells n <;> simp

theorem nodup_edited (hn : (t.declared.map (·.name)).Nodup)
    (hf : t.name = .text n → ∀ g ∈ t.declared, g.name ≠ f.name) :
    ((t.edited n (· ++ [f])).map (·.name)).Nodup := by
  rw [ObjectType.edited]
  split
  · rename_i hname
    exact nodup_map_append_singleton.mpr ⟨hn, hf (Value.spells_iff.mp hname)⟩
  · exact hn

/-- What is declared already stays in order when a field is added. -/
theorem Valid.fieldFacts_enlarged (h : s.Valid rules) (hm : s.MarkerFree)
    (hfresh : ∀ u ∈ s.types, u.name = .text n → ∀ g ∈ u.declared, g.name ≠ f.name)
    (ht : t ∈ s.types) (hg : g ∈ t.declared) :
    FieldFacts rules (s.enlarged n f) (t.withFields (t.edited n (· ++ [f]))) g := by
  refine h.fieldFacts_in hm ht hg rfl rfl standing_enlarged standing_enlarged
    (nodup_typeNames_remade h.names_nodup) ?_ ?_
  · refine forall_mem_remade.mpr fun u hu _ => ?_
    rw [ObjectType.declared_withFields]
    exact nodup_edited (h.fieldNames_nodup hu) (hfresh u hu)
  · intro u hu k hk _
    refine ⟨_, mem_remade.mpr ⟨u, hu, rfl, rfl⟩, rfl, ?_⟩
    rw [ObjectType.declared_withFields, mem_edited]
    exact .inl hk

/-- A field that can be added is in order as far as the types of a schema are concerned. -/
theorem Valid.fieldFacts_of_addable (h : s.Valid rules) (hm : s.MarkerFree) (hf : f.WellTyped)
    (ha : s.Addable rules t f) : FieldFacts rules s t f ∧ s.isRelation f = false := by
  obtain ⟨hc, hnode, hknown, hof⟩ := h.typed_of_plain hm ha.plainlyTyped
  refine ⟨⟨ha.name, hf.description, hf.deprecationReason, hf.type, ?_, hof _, ?_, ?_, ?_⟩, ?_⟩
  · rw [hc, Bool.or_false]
    exact hknown
  · rw [relationViolations, Field.target, hc, if_neg Bool.false_ne_true, hnode,
      if_neg Bool.false_ne_true]
  · rw [Bool.or_eq_true, Bool.not_eq_true', or_iff_not_imp_left, Bool.not_eq_false]
    exact ha.unique
  · rw [List.all_eq_true]
    intro g hg
    obtain ⟨m, hm, _⟩ := exists_of_fieldName ha.name
    have hne := ha.notBuiltIn g hg
    rw [hm] at hne
    rw [hm, Value.equal_text_eq, Value.not_spells_iff]
    exact hne
  · rw [isRelation, hc, hnode]
    rfl

theorem Valid.fieldFacts_new (h : s.Valid rules) (hm : s.MarkerFree) (hf : f.WellTyped)
    (ha : s.Addable rules t f) :
    FieldFacts rules (s.enlarged n f) (t.withFields (t.edited n (· ++ [f]))) f := by
  obtain ⟨hfacts, hr⟩ := h.fieldFacts_of_addable hm hf ha
  refine hfacts.transfer rfl standing_enlarged standing_enlarged ?_
  obtain ⟨hc, hnode⟩ := Bool.or_eq_false_iff.mp hr
  rw [relationViolations, Field.target, hc, if_neg Bool.false_ne_true, namesType_isNode,
    standing_enlarged, ← namesType_isNode, hnode, if_neg Bool.false_ne_true]

theorem Valid.valid_enlarged (h : s.Valid rules) (hm : s.MarkerFree) (ht : s.type? n = some t)
    (hf : f.WellTyped) (ha : s.Addable rules t f) : (s.enlarged n f).Valid rules := by
  have hfresh : ∀ u ∈ s.types, u.name = .text n → ∀ g ∈ u.declared, g.name ≠ f.name := by
    intro u hu hun
    cases (h.type?_of_mem hu hun).symm.trans ht
    exact ha.fresh
  apply h.valid_remade
  · exact fun _ _ _ => rfl
  · intro u hu _ hnil
    obtain ⟨g, hg⟩ := List.exists_mem_of_ne_nil _ (h.declared_ne_nil hu)
    have hmem := (mem_edited (n := n) (f := f)).mpr (.inl hg)
    rw [hnil] at hmem
    cases hmem
  · exact fun u hu _ => nodup_edited (h.fieldNames_nodup hu) (hfresh u hu)
  · intro u hu _ interface hinterface wanted hwanted
    obtain ⟨g, hg, hsame⟩ := h.facts.mandated u hu interface hinterface wanted hwanted
    rw [ObjectType.declared_withFields]
    exact ⟨g, mem_edited.mpr (.inl hg), hsame⟩
  · intro u hu _ g hg
    rcases mem_edited.mp hg with hg | ⟨hun, rfl⟩
    · exact h.fieldFacts_enlarged hm hfresh hu hg
    · cases (h.type?_of_mem hu hun).symm.trans ht
      exact h.fieldFacts_new hm hf ha

/-- No field of the type has the name of a field that is added. -/
theorem Valid.fresh_of_added (ht : s.type? n = some t) (hv : (s.enlarged n f).Valid rules) :
    ∀ g ∈ t.declared, g.name ≠ f.name := by
  have hnodup := hv.fieldNames_nodup (mem_remade.mpr ⟨t, mem_of_type? ht, rfl, rfl⟩)
  rw [ObjectType.declared_withFields, ObjectType.edited,
    if_pos (Value.spells_iff.mpr (type?_name ht))] at hnodup
  exact (nodup_map_append_singleton.mp hnodup).2

/-- A field that is added is no relation: there would be a field at the other end of it already, and
so there would be a field of its name. -/
theorem Valid.isRelation_of_added (h : s.Valid rules) (hm : s.MarkerFree) (ht : s.type? n = some t)
    (hv : (s.enlarged n f).Valid rules) : s.isRelation f = false := by
  have hn := type?_name ht
  have ht' : t.withFields (t.edited n (· ++ [f])) ∈ (s.enlarged n f).types :=
    mem_remade.mpr ⟨t, mem_of_type? ht, rfl, rfl⟩
  have hf : f ∈ (t.withFields (t.edited n (· ++ [f]))).declared := by
    rw [ObjectType.declared_withFields, mem_edited]
    exact .inr ⟨hn, rfl⟩
  rw [← isRelation_congr standing_enlarged]
  refine hv.isRelation_eq_false (markerFree_remade hm) ht' hf h hm
    (fun v => standing_enlarged.symm) ?_ ?_
  · refine forall_mem_remade.mpr fun u hu _ g hg hne => ⟨u, hu, ?_⟩
    rw [ObjectType.declared_withFields, mem_edited] at hg
    exact hg.resolve_right fun hnew => hne hnew.2
  · intro u hu hun
    cases (h.type?_of_mem hu (hun.trans hn)).symm.trans ht
    exact hv.fresh_of_added ht

/-- A field can be added to a type if its name is well formed and free, it is plainly typed, and it
is unique only if it is of a scalar type, and only then. -/
theorem Valid.addField_acceptedIff (h : s.Valid rules) (hm : s.MarkerFree) (ht : t ∈ s.types)
    (hf : f.WellTyped) :
    s.AcceptedIff rules (.addField t.name (.field f)) (s.Addable rules t f) := by
  obtain ⟨n, hn⟩ := h.exists_name ht
  have hfound := h.type?_of_mem ht hn
  have hkey : f.name.isKey = true := by
    have htext := hf.name
    cases hv : f.name <;> simp_all [Value.isText, Value.isKey]
  rw [hn]
  refine (h.acceptedIff (c := .addField (.text n) (.field f)) ⟨rfl, f, rfl, hkey⟩
    (h.apply_addField hfound f)).congr ⟨fun hv => ?_, h.valid_enlarged hm hfound hf⟩
  have ht' : t.withFields (t.edited n (· ++ [f])) ∈ (s.enlarged n f).types :=
    mem_remade.mpr ⟨t, ht, rfl, rfl⟩
  have hfacts : FieldFacts rules (s.enlarged n f) (t.withFields (t.edited n (· ++ [f]))) f := by
    refine hv.fieldFacts ht' ?_
    rw [ObjectType.declared_withFields, mem_edited]
    exact .inr ⟨hn, rfl⟩
  have hr := h.isRelation_of_added hm hfound hv
  refine ⟨hfacts.name, hv.fresh_of_added hfound, fun g hg hgf => ?_, ?_, fun hu => ?_⟩
  · have hnot := List.all_eq_true.mp hfacts.fresh g hg
    obtain ⟨m, hm, _⟩ := exists_of_fieldName hfacts.name
    rw [hgf, hm, Value.equal_text] at hnot
    simp at hnot
  · rw [← isRelation_congr standing_enlarged] at hr
    have hplain := hfacts.plainlyTyped hr
    rwa [PlainlyTyped, isPlain_congr standing_enlarged, isPlain_congr standing_enlarged] at hplain
  · have hunique := hfacts.unique
    rw [hu] at hunique
    exact hunique

end Schema

/-- The plural that a type has if it is created with a name and maybe a plural. -/
def resolvedPlural (name : String) (pluralName : Option String) : String :=
  pluralName.getD (pluralize name)

theorem ObjectType.plural_created (name : String) (pluralName description : Option String) :
    (created name pluralName description).plural = .text (resolvedPlural name pluralName) := by
  cases pluralName <;> rfl

namespace Schema

variable {rules : Rules} {s s' : Schema} {t u : ObjectType} {f g : Field} {v : Value} {n : String}
  {p d : Option String}

/-- A name and maybe a plural that a type can be created with. -/
structure Creatable (s : Schema) (name : String) (pluralName : Option String) : Prop where
  admissible : Admissible name
  pluralAdmissible : ∀ plural, pluralName = some plural → Admissible plural
  nameFree : ∀ t ∈ s.types, t.name ≠ .text name ∧ t.plural ≠ .text name
  pluralFree : ∀ t ∈ s.types, t.name ≠ .text (resolvedPlural name pluralName) ∧
    t.plural ≠ .text (resolvedPlural name pluralName)

/-- A schema with one more type, as it is created. -/
def extended (s : Schema) (name : String) (pluralName description : Option String) : Schema :=
  ⟨s.types ++ [.created name pluralName description]⟩

theorem forall_mem_extended {q : ObjectType → Prop} : (∀ t ∈ (s.extended n p d).types, q t) ↔
    (∀ t ∈ s.types, q t) ∧ q (.created n p d) := by
  rw [extended, List.forall_mem_append, List.forall_mem_singleton]

theorem standing_extended (hv : v ≠ .text n) : (s.extended n p d).standing v = s.standing v := by
  cases v with
  | text m =>
    have hnone : (ObjectType.created n p d).name.spells m = false := by
      rw [Bool.eq_false_iff]
      intro h
      exact hv (Value.spells_iff.mp h).symm
    rw [standing, standing, Value.text?_text, Option.bind_some, Option.bind_some, type?, extended,
      List.find?_append, List.find?_singleton, hnone, if_neg Bool.false_ne_true, Option.or_none]
    rfl
  | _ => rfl

/-- No field is declared with the name of a type that is not there. -/
theorem Valid.not_declared_with (h : s.Valid rules) (ht : t ∈ s.types) (hf : f ∈ t.declared)
    (hfree : ∀ u ∈ s.types, u.name ≠ .text n) (hn : isTypeName n = true)
    (hmarker : n ≠ connectionMarker ∧ n ≠ listMarker) : f.type ≠ .text n ∧ f.ofType ≠ .text n := by
  have hfacts := h.fieldFacts ht hf
  have hscalar : Scalar.isNamedBy (.text n) = false := by
    rw [Scalar.isNamedBy, named?_eq_none_of_isTypeName hn]
    rfl
  have hnone (q : ObjectType → Bool) : namesType s q (.text n) = false := by
    rw [Bool.eq_false_iff]
    intro hnamed
    obtain ⟨m, u, hm, hu, _⟩ := namesType_eq_true_iff.mp hnamed
    exact hfree u (mem_of_type? hu) ((type?_name hu).trans hm.symm)
  constructor
  · intro htype
    have hknown := hfacts.typeKnown
    rw [Field.isConnection, Field.isList, htype, hscalar, hnone, Value.spells_text,
      Value.spells_text, beq_false_of_ne hmarker.1, beq_false_of_ne hmarker.2] at hknown
    cases hknown
  · intro hof
    have ho := hfacts.ofType
    rw [ofTypeViolations, hof] at ho
    split at ho
    · rw [check_eq_nil_iff, hnone] at ho
      cases ho
    · split at ho
      · rw [check_eq_nil_iff, hscalar, hnone] at ho
        cases ho
      · cases check_eq_nil_iff.mp ho

/-- A created type is in order if its name and its plural are admissible and free. -/
theorem Creatable.typeFacts (hc : s.Creatable n p) (hr : rules.registry = .standard) :
    TypeFacts rules (s.extended n p d) (.created n p d) := by
  refine ⟨rfl, nameViolations_text.mpr hc.admissible, ?_, ?_, rfl, ?_, ?_, ?_⟩
  · cases p with
    | none => rfl
    | some plural => exact nameViolations_text.mpr (hc.pluralAdmissible plural rfl)
  · rw [pluralIsFree_iff (ObjectType.plural_created n p d), forall_mem_extended]
    exact ⟨fun t ht htn => absurd htn (hc.pluralFree t ht).1, id⟩
  · cases d <;> rfl
  · show [Value.text nodeInterface].all rules.registry.declares = true
    rw [hr]
    rfl
  · have hmembers : (ObjectType.created n p d).members = .ofFields [idField] := rfl
    rw [fieldListViolations_eq_nil_iff hmembers (List.forall_mem_singleton.mpr ⟨idName, rfl⟩)]
    exact ⟨List.cons_ne_nil _ _, List.nodup_singleton _⟩

/-- The id of a created type is in order. -/
theorem Valid.fieldFacts_id (h : s.Valid rules) (hr : rules.registry = .standard)
    (hn : Admissible n) : FieldFacts rules (s.extended n p d) (.created n p d) idField := by
  have hne : Value.text "id" ≠ .text n := by
    intro hn'
    rw [← Value.text.inj hn'] at hn
    exact absurd hn.1 (by decide)
  have hnone : (s.extended n p d).standing (.text "id") = none :=
    (standing_extended hne).trans (h.standing_scalar (by decide))
  have htarget : namesType (s.extended n p d) ObjectType.isNode idField.target = false := by
    rw [namesType_isNode]
    exact congrArg (Option.any id) hnone
  have hscalar : Scalar.isNamedBy idField.type = true := by decide
  refine ⟨by decide, rfl, rfl, rfl, ?_, rfl, ?_, by decide, ?_⟩
  · rw [hscalar]
    rfl
  · rw [relationViolations, htarget, if_neg Bool.false_ne_true]
  · rw [hr, List.all_eq_true]
    intro g hg
    rw [Registry.eq_of_mem_typeFields hg]
    decide

/-- A valid schema stays valid with one more type, if that can be created. -/
theorem Valid.valid_extended (h : s.Valid rules) (hr : rules.registry = .standard)
    (hm : s.MarkerFree) (hc : s.Creatable n p)
    (hmarker : n ≠ connectionMarker ∧ n ≠ listMarker) : (s.extended n p d).Valid rules := by
  have hf := h.facts
  have hnames : (s.extended n p d).typeNames.Nodup :=
    nodup_map_append_singleton.mpr ⟨hf.names, fun t ht => (hc.nameFree t ht).1⟩
  have hfields : ∀ t ∈ (s.extended n p d).types, (t.declared.map (·.name)).Nodup := by
    refine forall_mem_extended.mpr ⟨fun t ht => h.fieldNames_nodup ht, ?_⟩
    rw [ObjectType.declared_created]
    exact List.nodup_singleton _
  refine Facts.valid ⟨hnames, ?_, ?_, forall_mem_extended.mpr ⟨fun t ht => ?_, hc.typeFacts hr⟩,
    forall_mem_extended.mpr ⟨hf.mandated, ?_⟩, forall_mem_extended.mpr ⟨fun t ht f hfd => ?_, ?_⟩⟩
  · rw [extended, nodup_map_append_singleton, ObjectType.plural_created]
    exact ⟨hf.plurals, fun t ht => (hc.pluralFree t ht).2⟩
  · intro v hv
    rw [Schema.typeNames, extended, List.map_append]
    exact List.mem_append_left _ (hf.required v hv)
  · have hfacts := hf.types t ht
    obtain ⟨plural, hplural⟩ := hfacts.exists_plural
    apply hfacts.transfer
    rw [pluralIsFree_iff hplural, forall_mem_extended]
    refine ⟨(pluralIsFree_iff hplural).mp hfacts.pluralFree, fun hname => ?_⟩
    exact absurd (hplural.trans hname.symm) (hc.nameFree t ht).2
  · rw [ObjectType.mandated_iff hr, ObjectType.declared_created]
    exact fun _ => ⟨idField, List.mem_singleton_self _, by decide⟩
  · obtain ⟨htype, hof⟩ := h.not_declared_with ht hfd (fun u hu => (hc.nameFree u hu).1)
      hc.admissible.1 hmarker
    refine h.fieldFacts_in hm ht hfd rfl rfl (standing_extended htype) (standing_extended hof)
      hnames hfields fun u hu g hg _ => ?_
    exact ⟨u, List.mem_append_left _ hu, rfl, hg⟩
  · rw [ObjectType.declared_created, List.forall_mem_singleton]
    exact h.fieldFacts_id hr hc.admissible

/-- The name and the plural of a type that is created are admissible and free. -/
theorem Valid.creatable (hv : (s.extended n p d).Valid rules) : s.Creatable n p := by
  have hf := hv.facts
  have hnew : .created n p d ∈ (s.extended n p d).types :=
    List.mem_append_right _ (List.mem_singleton_self _)
  have hfacts := hf.types _ hnew
  have hnames : ∀ t ∈ s.types, t.name ≠ .text n := (nodup_map_append_singleton.mp hf.names).2
  have hplurals : ∀ t ∈ s.types, t.plural ≠ .text (resolvedPlural n p) := by
    rw [← ObjectType.plural_created n p d]
    exact (nodup_map_append_singleton.mp hf.plurals).2
  refine ⟨nameViolations_text.mp hfacts.names, ?_, fun t ht => ⟨hnames t ht, fun htp => ?_⟩,
    fun t ht => ⟨fun htn => ?_, hplurals t ht⟩⟩
  · rintro plural rfl
    exact nameViolations_text.mp hfacts.plurals
  · have hfree := (forall_mem_extended.mp hf.types).1 t ht
    have hown := (pluralIsFree_iff htp).mp hfree.pluralFree _ hnew rfl
    exact hnames t ht hown
  · have hfree := (pluralIsFree_iff (ObjectType.plural_created n p d)).mp hfacts.pluralFree
    have hown := hfree t (List.mem_append_left _ ht) htn
    exact hnames t ht (htn.trans hown.symm)

/-- A type can be created if its name and its plural are admissible and neither is the name or the
plural of another type, and only then. -/
theorem Valid.createType_acceptedIff (h : s.Valid rules) (hr : rules.registry = .standard)
    (hm : s.MarkerFree) (hmarker : n ≠ connectionMarker ∧ n ≠ listMarker) :
    s.AcceptedIff rules (.createType (some (.created n p d))) (s.Creatable n p) :=
  (h.acceptedIff (SchemaChange.judgeable_created n p d) rfl).congr
    ⟨fun hv => hv.creatable, fun hc => h.valid_extended hr hm hc hmarker⟩

/-- What can be added to a valid schema no type of which is called like a marker: a field to a type
if its name is well formed and free, it is plainly typed and is unique only if it is of a scalar
type; a type if its name and its plural are admissible and free. -/
theorem Valid.additive_acceptedIff (h : s.Valid rules) (hr : rules.registry = .standard)
    (hm : s.MarkerFree) :
    (∀ t ∈ s.types, ∀ f : Field, f.WellTyped →
      s.AcceptedIff rules (.addField t.name (.field f)) (s.Addable rules t f)) ∧
    ∀ (name : String) (pluralName description : Option String),
      name ≠ connectionMarker ∧ name ≠ listMarker →
      s.AcceptedIff rules (.createType (some (.created name pluralName description)))
        (s.Creatable name pluralName) :=
  ⟨fun _ ht _ hf => h.addField_acceptedIff hm ht hf,
    fun _ _ _ hmarker => h.createType_acceptedIff hr hm hmarker⟩

end Schema

namespace Stock

def price : Field where
  name := .text "price"
  type := .text "float"

def owner : Field where
  name := .text "owner"
  type := .text "Item"
  reverseName := .text "items"

theorem wellTyped_price : price.WellTyped := ⟨rfl, rfl, rfl, rfl, rfl, rfl, ⟨_, rfl⟩, ⟨_, rfl⟩⟩

theorem wellTyped_owner : owner.WellTyped := ⟨rfl, rfl, rfl, rfl, rfl, rfl, ⟨_, rfl⟩, ⟨_, rfl⟩⟩

end Stock

theorem stock_grows : (Stock.schema "Part").Valid Stock.rules ∧
    (Stock.schema "Part").MarkerFree ∧
    (∃ s', (Stock.schema "Part").applyValidated Stock.rules
      (.addField (.text "Item") (.field Stock.price)) = .ok (.ok s')) ∧
    (∃ r, (Stock.schema "Part").applyValidated Stock.rules
      (.addField (.text "Item") (.field Stock.owner)) = .ok (.error r)) ∧
    (∃ s', (Stock.schema "Part").applyValidated Stock.rules
      (.createType (some (.created "Box" none none))) = .ok (.ok s')) ∧
    ∃ r, (Stock.schema "Part").applyValidated Stock.rules
      (.createType (some (.created "Items" none none))) = .ok (.error r) := by
  have hitem : Stock.itemType [idField, Stock.tags, Stock.parts "Part"] ∈
      (Stock.schema "Part").types := List.mem_cons_of_mem _ List.mem_cons_self
  obtain ⟨hadd, hcreate⟩ := Stock.valid.additive_acceptedIff rfl Stock.markerFree
  refine ⟨Stock.valid, Stock.markerFree, (hadd _ hitem _ Stock.wellTyped_price).accepts ?_,
    (hadd _ hitem _ Stock.wellTyped_owner).refuses fun ha => ?_,
    (hcreate "Box" none none (by decide)).accepts ?_,
    (hcreate "Items" none none (by decide)).refuses fun hc => ?_⟩
  · refine ⟨by decide, ?_, List.forall_mem_nil _, .inl ⟨by decide, rfl⟩, fun _ => by decide⟩
    have hdeclared : (Stock.itemType [idField, Stock.tags, Stock.parts "Part"]).declared =
        [idField, Stock.tags, Stock.parts "Part"] := rfl
    rw [hdeclared]
    simp [idField, idName, Stock.tags, Stock.parts, Stock.price]
  · rcases ha.plainlyTyped with ⟨hplain, _⟩ | ⟨hlist, _⟩
    · exact absurd hplain (by decide)
    · exact absurd hlist (by decide)
  · have hnames : ∀ t ∈ (Stock.schema "Part").types, t.name ≠ .text "Box" ∧
        t.plural ≠ .text "Box" ∧ t.name ≠ .text "Boxes" ∧ t.plural ≠ .text "Boxes" := by
      refine List.forall_mem_cons.mpr ⟨?_, List.forall_mem_singleton.mpr ?_⟩ <;>
        exact ⟨mt Value.text.inj (by decide), mt Value.text.inj (by decide),
          mt Value.text.inj (by decide), mt Value.text.inj (by decide)⟩
    have hplural : resolvedPlural "Box" none = "Boxes" := by decide
    refine ⟨⟨by decide, by decide⟩, (by rintro _ ⟨⟩), fun t ht => ?_, fun t ht => ?_⟩
    · exact ⟨(hnames t ht).1, (hnames t ht).2.1⟩
    · rw [hplural]
      exact (hnames t ht).2.2
  · have hfree := (hc.nameFree _ hitem).2
    exact hfree rfl

end ObjectQuery
