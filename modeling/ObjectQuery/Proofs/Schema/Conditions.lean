import ObjectQuery.Proofs.Schema.Kinds

/-!
# What makes a schema valid

A schema is valid exactly if its types have names and plurals that are all different, the required
ones are among them, each type is in order, and each field is. What a field is declared with matters
only as far as it names a type and says whether that is a node, so a field stays in order in another
schema where the same is true of it, but for what is at the other end of a relation.
-/

set_option autoImplicit false

namespace ObjectQuery

open Outcome

namespace Validation

variable {rules : Rules} {s s' : Schema} {t t' : ObjectType} {f : Field} {v : Value}
  {names : List String} {fields : List Field}

theorem countIn_of_fresh {table : List (Value × Nat)} (h : ∀ e ∈ table, e.1.equal v = false) :
    countIn v table = table ++ [(v, 1)] := by
  induction table with
  | nil => rfl
  | cons e rest ih =>
    obtain ⟨he, hrest⟩ := List.forall_mem_cons.mp h
    rw [countIn, he, if_neg Bool.false_ne_true, ih hrest, List.cons_append]

theorem foldl_countIn_of_nodup (hn : names.Nodup) {table : List (Value × Nat)}
    (h : ∀ n ∈ names, ∀ e ∈ table, e.1.equal (.text n) = false) :
    (names.map Value.text).foldl (fun table v => countIn v table) table =
      table ++ names.map fun n => (.text n, 1) := by
  induction names generalizing table with
  | nil => simp
  | cons n names ih =>
    obtain ⟨hnew, hn⟩ := List.nodup_cons.mp hn
    obtain ⟨hhead, htail⟩ := List.forall_mem_cons.mp h
    have hrest : ∀ m ∈ names, ∀ e ∈ table ++ [(.text n, 1)], e.1.equal (.text m) = false := by
      intro m hm e he
      rcases List.mem_append.mp he with he | he
      · exact htail m hm e he
      · obtain rfl := List.mem_singleton.mp he
        have hne : n ≠ m := fun hnm => hnew (hnm ▸ hm)
        simpa using hne
    rw [List.map_cons, List.foldl_cons, countIn_of_fresh hhead, ih hn hrest, List.append_assoc]
    rfl

theorem duplicates_of_nodup (hn : names.Nodup) : duplicates (names.map Value.text) = .ok [] := by
  have hkeys : (names.map Value.text).all Value.isKey = true := by simp [Value.isKey]
  have hcounts : (names.map Value.text).foldl (fun table v => countIn v table) [] =
      [] ++ names.map fun n => (.text n, 1) := foldl_countIn_of_nodup hn (by simp)
  rw [duplicates, if_pos hkeys, counts, hcounts, List.nil_append, List.filter_eq_nil_iff.mpr]
  simp

theorem hasRepetition_of_nodup (hn : names.Nodup) :
    hasRepetition (names.map Value.text) = false := by
  induction names with
  | nil => rfl
  | cons n names ih =>
    obtain ⟨hnew, hn⟩ := List.nodup_cons.mp hn
    rw [List.map_cons, hasRepetition, ih hn, Bool.or_false, List.any_eq_false]
    intro v hv
    obtain ⟨m, hm, rfl⟩ := List.mem_map.mp hv
    have hne : m ≠ n := fun hmn => hnew (hmn ▸ hm)
    simpa using hne

theorem exists_nodup_texts {vs : List Value} (h : ∀ v ∈ vs, ∃ n, v = .text n) (hn : vs.Nodup) :
    ∃ names : List String, vs = names.map .text ∧ names.Nodup := by
  obtain ⟨names, rfl⟩ := exists_texts h
  exact ⟨names, rfl, hn.of_map⟩

theorem duplicates_of_texts {vs : List Value} (h : ∀ v ∈ vs, ∃ n, v = .text n) (hn : vs.Nodup) :
    duplicates vs = .ok [] := by
  obtain ⟨names, rfl, hnodup⟩ := exists_nodup_texts h hn
  exact duplicates_of_nodup hnodup

/-- A list of fields with names that are texts is in order if it has some, no two of one name. -/
theorem fieldListViolations_eq_nil_iff (hm : t.members = .ofFields fields)
    (hn : ∀ f ∈ fields, ∃ n, f.name = .text n) :
    fieldListViolations t = .ok [] ↔ fields ≠ [] ∧ (fields.map (·.name)).Nodup := by
  obtain ⟨names, hnames⟩ := exists_texts fun v (hv : v ∈ fields.map (·.name)) => by
    obtain ⟨f, hf, rfl⟩ := List.mem_map.mp hv
    exact hn f hf
  have hkeys : (names.map Value.text).all Value.isKey = true := by simp [Value.isKey]
  have hempty : fields ≠ [] ↔ (names.map Value.text).isEmpty = false := by
    rw [← hnames]
    simp
  rw [fieldListViolations, hm, Members.fields?_ofFields]
  dsimp only
  rw [hnames, if_pos hkeys, Except.ok.injEq, List.append_eq_nil_iff, check_eq_nil_iff,
    check_eq_nil_iff, Bool.not_eq_true', Bool.not_eq_true', hempty]
  refine and_congr_right fun _ => ⟨fun h => ?_, fun h => hasRepetition_of_nodup h.of_map⟩
  exact (nodup_of_hasRepetition h).map fun _ _ => Value.text.inj

/-- Whether a type can have a text as its name or its plural. -/
def Admissible (n : String) : Prop :=
  isTypeName n = true ∧ ¬reservedPrefix.toList <+: n.toList

theorem nameViolations_text {property : NameProperty} {n : String} :
    nameViolations property (.text n) = [] ↔ Admissible n := by
  rw [nameViolations, List.append_eq_nil_iff, check_eq_nil_iff, check_eq_nil_iff]
  refine and_congr Iff.rfl ?_
  rw [Bool.not_eq_true', ← Bool.not_eq_true]
  exact not_congr List.isPrefixOf_iff_prefix

/-- Where plurals are texts, that of a type is free if no other type has it as its name. -/
theorem pluralIsFree_iff {p : String} (hp : t.plural = .text p) :
    pluralIsFree s t = true ↔ ∀ u ∈ s.types, u.name = .text p → t.name = .text p := by
  rw [pluralIsFree, hp]
  simp only [Bool.or_eq_true, Bool.not_eq_true', Value.spells_iff]
  rw [Schema.has, Schema.type?]
  constructor
  · rintro (hfree | hown) u hu hname
    · have hfound : (s.types.find? (·.name.spells p)).isSome = true :=
        List.find?_isSome.mpr ⟨u, hu, Value.spells_iff.mpr hname⟩
      rw [hfree] at hfound
      cases hfound
    · exact hown
  · intro h
    rw [or_iff_not_imp_left, Bool.not_eq_false, List.find?_isSome]
    rintro ⟨u, hu, hname⟩
    exact h u hu (Value.spells_iff.mp hname)

end Validation

open Validation

/-- A type has all the fields that its interfaces ask for. -/
def ObjectType.Mandated (rules : Rules) (t : ObjectType) : Prop :=
  ∀ interface ∈ interfaceNames t, ∀ wanted ∈ rules.registry.interfaceFields interface,
    ∃ f ∈ t.declared, sameDefinition f wanted = true

theorem ObjectType.isNode_iff {t : ObjectType} :
    t.isNode = true ↔ .text nodeInterface ∈ interfaceNames t := by
  rw [isNode, interfaceNames]
  cases t.interfaces with
  | list names =>
    dsimp only
    rw [List.any_eq_true]
    constructor
    · rintro ⟨v, hv, hspells⟩
      rwa [← Value.spells_iff.mp hspells]
    · intro h
      exact ⟨_, h, Value.spells_iff.mpr rfl⟩
  | _ => simp

theorem Registry.interfaceFields_standard (v : Value) :
    Registry.standard.interfaceFields v = if v.spells nodeInterface then [idField] else [] := by
  cases v with
  | text m =>
    rw [interfaceFields, fieldsOf, standard, List.lookup_cons, List.lookup_nil, Value.spells_text]
    cases m == nodeInterface <;> rfl
  | _ => rfl

/-- The credentials of users are the one field that is built in. -/
theorem Registry.eq_of_mem_typeFields {v : Value} {g : Field}
    (h : g ∈ standard.typeFields v) : g = credentialsField := by
  unfold typeFields fieldsOf at h
  split at h
  · simp only [standard, List.lookup_cons, List.lookup_nil] at h
    split at h
    · exact List.mem_singleton.mp h
    · cases h
  · cases h

theorem Validation.of_sameDefinition_idField {f : Field} (h : sameDefinition f idField = true) :
    f.name = .text idName ∧ f.type = .text "id" ∧ f.ofType = .null := by
  simp only [sameDefinition, idField, Bool.and_eq_true, Value.equal_text_iff] at h
  obtain ⟨⟨⟨⟨hname, htype⟩, hof⟩, _⟩, _⟩ := h
  refine ⟨hname, htype, ?_⟩
  cases hv : f.ofType <;> simp_all [Value.equal, Value.number?]

/-- The one field that the standard interfaces ask for is the id of a node. -/
theorem ObjectType.mandated_iff {rules : Rules} {t : ObjectType}
    (hr : rules.registry = .standard) :
    t.Mandated rules ↔ (t.isNode = true → ∃ f ∈ t.declared, sameDefinition f idField = true) := by
  rw [Mandated, hr, isNode_iff]
  constructor
  · intro h hnode
    refine h _ hnode idField ?_
    rw [Registry.interfaceFields_standard, if_pos (Value.spells_iff.mpr rfl)]
    exact List.mem_singleton_self _
  · intro h v hv wanted hwanted
    rw [Registry.interfaceFields_standard] at hwanted
    split at hwanted
    · rename_i hnode
      obtain rfl := List.mem_singleton.mp hwanted
      rw [Value.spells_iff.mp hnode] at hv
      exact h hv
    · cases hwanted

namespace Schema

variable {rules : Rules} {s s' : Schema} {t t' : ObjectType} {f : Field} {v : Value} {n : String}

theorem interfaceFields_eq_nil_iff :
    interfaceFields rules s = [] ↔ ∀ t ∈ s.types, t.Mandated rules := by
  simp only [interfaceFields, List.flatMap_eq_nil_iff, check_eq_nil_iff, List.any_eq_true]
  rfl

theorem TypeFacts.exists_plural (h : TypeFacts rules s t) : ∃ p, t.plural = .text p := by
  obtain ⟨n, hn⟩ := h.exists_name
  have hplural := h.plurals
  rw [nameViolations, List.append_eq_nil_iff, check_eq_nil_iff, Bool.or_eq_true] at hplural
  rw [ObjectType.plural, hn]
  split
  · exact ⟨_, rfl⟩
  · rename_i hgiven
    have htext := hplural.1.resolve_left hgiven
    cases hv : t.pluralName <;> simp_all [textSatisfies]

/-- A type that is in order is so in every schema that has no other type of the name of its
plural. -/
theorem TypeFacts.transfer (h : TypeFacts rules s t) (hfree : pluralIsFree s' t = true) :
    TypeFacts rules s' t :=
  ⟨h.nameText, h.names, h.plurals, hfree, h.kind, h.description, h.interfaces, h.fieldList⟩

theorem TypeFacts.withFields (h : TypeFacts rules s t) {fields : List Field}
    (hf : ∀ f ∈ fields, ∃ n, f.name = .text n) (hne : fields ≠ [])
    (hn : (fields.map (·.name)).Nodup) : TypeFacts rules s (t.withFields fields) :=
  ⟨h.nameText, h.names, h.plurals, h.pluralFree, h.kind, h.description, h.interfaces,
    (fieldListViolations_eq_nil_iff rfl hf).mpr ⟨hne, hn⟩⟩

theorem Valid.declared_ne_nil (h : s.Valid rules) (ht : t ∈ s.types) : t.declared ≠ [] :=
  ((fieldListViolations_eq_nil_iff (h.members_eq ht) fun _ hf => h.exists_fieldName ht hf).mp
    (h.typeFacts ht).fieldList).1

/-- What the checks of a schema come to. -/
structure Facts (rules : Rules) (s : Schema) : Prop where
  names : s.typeNames.Nodup
  plurals : (s.types.map ObjectType.plural).Nodup
  required : ∀ v ∈ rules.required, v ∈ s.typeNames
  types : ∀ t ∈ s.types, TypeFacts rules s t
  mandated : ∀ t ∈ s.types, t.Mandated rules
  fields : ∀ t ∈ s.types, ∀ f ∈ t.declared, FieldFacts rules s t f

theorem lookup_isSome {found : Option ObjectType} (h : s.lookup v = .ok found)
    (hf : found.isSome = true) : v ∈ s.typeNames := by
  obtain ⟨t, rfl⟩ := Option.isSome_iff_exists.mp hf
  unfold lookup at h
  split at h
  · have ht := Except.ok.inj h
    exact List.mem_map.mpr ⟨t, mem_of_type? ht, type?_name ht⟩
  · split at h <;> cases h

theorem Valid.facts (h : s.Valid rules) : s.Facts rules := by
  have hp := valid_iff_passes.mp h
  refine ⟨h.names_nodup, ?_, ?_, fun t ht => h.typeFacts ht,
    interfaceFields_eq_nil_iff.mp hp.interfaces, fun t ht f hf => h.fieldFacts ht hf⟩
  · obtain ⟨names, hnames⟩ := exists_texts fun v (hv : v ∈ s.types.map ObjectType.plural) => by
      obtain ⟨t, ht, rfl⟩ := List.mem_map.mp hv
      exact (h.typeFacts ht).exists_plural
    obtain ⟨found, hfound, hcheck⟩ := bind_eq_ok.mp hp.plurals
    rw [hnames] at hfound ⊢
    have hempty : found.isEmpty = true := check_eq_nil_iff.mp (Except.ok.inj hcheck)
    exact (nodup_of_duplicates hfound hempty).map fun _ _ => Value.text.inj
  · intro v hv
    obtain ⟨found, hfound, hflat⟩ := bind_eq_ok.mp hp.required
    obtain ⟨_, hmem, hcheck⟩ := ok_of_mem_mapM hfound hv
    obtain ⟨o, ho, hc⟩ := bind_eq_ok.mp hcheck
    have hnil := List.flatten_eq_nil_iff.mp (Except.ok.inj hflat) _ hmem
    rw [← Except.ok.inj hc, check_eq_nil_iff] at hnil
    exact lookup_isSome ho hnil

namespace Facts

variable (h : s.Facts rules)
include h

theorem uniqueNames : Validation.uniqueNames s = .ok [] := by
  have htexts : ∀ v ∈ s.typeNames, ∃ n, v = .text n :=
    List.forall_mem_map.mpr fun t ht => (h.types t ht).exists_name
  rw [Validation.uniqueNames, duplicates_of_texts htexts h.names]
  rfl

theorem uniquePlurals : Validation.uniquePlurals s = .ok [] := by
  have htexts : ∀ v ∈ s.types.map ObjectType.plural, ∃ n, v = .text n :=
    List.forall_mem_map.mpr fun t ht => (h.types t ht).exists_plural
  rw [Validation.uniquePlurals, duplicates_of_texts htexts h.plurals]
  rfl

theorem type?_of_mem (ht : t ∈ s.types) (hn : t.name = .text n) : s.type? n = some t :=
  type?_of_nodup h.names ht hn

theorem requiredTypes : Validation.requiredTypes rules s = .ok [] := by
  have hall : ∀ v ∈ rules.required, (do
      return check (← s.lookup v).isSome (.missingType v) : Except Misuse (List Violation)) =
        .ok [] := by
    intro v hv
    obtain ⟨t, ht, rfl⟩ := List.mem_map.mp (h.required v hv)
    obtain ⟨n, hn⟩ := (h.types t ht).exists_name
    rw [hn, lookup, h.type?_of_mem ht hn]
    rfl
  rw [Validation.requiredTypes, mapM_ok hall, ok_bind, pure_eq_ok, Except.ok.injEq,
    List.flatten_eq_nil_iff]
  exact List.forall_mem_map.mpr fun _ _ => rfl

theorem typeStructure : Validation.typeStructure rules s = .ok [] := by
  have hall : ∀ t ∈ s.types, structureViolations rules s t = .ok [] := fun t ht =>
    structureViolations_eq_nil_iff.mpr (h.types t ht)
  rw [Validation.typeStructure, mapM_ok hall, ok_bind, pure_eq_ok, Except.ok.injEq,
    List.flatten_eq_nil_iff]
  exact List.forall_mem_map.mpr fun _ _ => rfl

theorem fieldDefinitions : Validation.fieldDefinitions rules s = [] := by
  rw [Validation.fieldDefinitions, List.flatMap_eq_nil_iff]
  intro t ht
  rw [List.flatMap_eq_nil_iff]
  exact fun f hf => fieldViolations_eq_nil_iff.mpr (h.fields t ht f hf)

theorem valid : s.Valid rules :=
  valid_iff_passes.mpr ⟨h.uniqueNames, h.uniquePlurals, h.requiredTypes, h.typeStructure,
    interfaceFields_eq_nil_iff.mpr h.mandated, h.fieldDefinitions⟩

end Facts

/-- Whether a value names a node or another type, if it names a type. -/
def standing (s : Schema) (v : Value) : Option Bool := (v.text?.bind s.type?).map ObjectType.isNode

theorem namesType_eq (p : Bool → Bool) :
    namesType s (fun t => p t.isNode) v = (s.standing v).any p := by
  cases v with
  | text n =>
    rw [namesType, standing, Value.text?_text, Option.bind_some]
    cases s.type? n <;> rfl
  | _ => rfl

theorem namesType_isNode : namesType s ObjectType.isNode v = (s.standing v).any id :=
  namesType_eq id

theorem standing_eq_some_iff {isNode : Bool} :
    s.standing v = some isNode ↔ ∃ n t, v = .text n ∧ s.type? n = some t ∧ t.isNode = isNode := by
  simp only [standing, Option.map_eq_some_iff, Option.bind_eq_some_iff, Value.text?_eq_some_iff]
  constructor
  · rintro ⟨t, ⟨n, hv, ht⟩, hnode⟩
    exact ⟨n, t, hv, ht, hnode⟩
  · rintro ⟨n, t, hv, ht, hnode⟩
    exact ⟨t, ⟨n, hv, ht⟩, hnode⟩

/-- Scalars are not the names of types. -/
theorem Valid.standing_scalar (h : s.Valid rules) (hv : Scalar.isNamedBy v = true) :
    s.standing v = none := by
  cases hs : s.standing v with
  | none => rfl
  | some isNode =>
    obtain ⟨n, t, rfl, ht, _⟩ := standing_eq_some_iff.mp hs
    have hnone := h.named?_eq_none (mem_of_type? ht)
    rw [type?_name ht] at hnone
    rw [Scalar.isNamedBy, hnone] at hv
    cases hv

theorem FieldFacts.ofType_eq_null (h : FieldFacts rules s t f) (hc : f.isConnection = false)
    (hl : f.isList = false) : f.ofType = .null := by
  have ho := h.ofType
  rw [ofTypeViolations, hc, hl, if_neg Bool.false_ne_true, if_neg Bool.false_ne_true,
    check_eq_nil_iff] at ho
  cases hv : f.ofType <;> simp_all [Value.isNull]

/-- A field that is in order in one schema is so in another one in which it speaks of the same
types, if what is at the other end of it is as it has to be. -/
theorem FieldFacts.transfer (h : FieldFacts rules s t f) (hname : t'.name = t.name)
    (htype : s'.standing f.type = s.standing f.type)
    (hof : s'.standing f.ofType = s.standing f.ofType)
    (hrelation : relationViolations s' t' f = []) : FieldFacts rules s' t' f := by
  have heq (p : Bool → Bool) : namesType s' (fun t => p t.isNode) f.type =
      namesType s (fun t => p t.isNode) f.type := by
    rw [namesType_eq, namesType_eq, htype]
  have heq' (p : Bool → Bool) : namesType s' (fun t => p t.isNode) f.ofType =
      namesType s (fun t => p t.isNode) f.ofType := by
    rw [namesType_eq, namesType_eq, hof]
  refine ⟨h.name, h.description, h.deprecationReason, h.typeText, ?_, ?_, hrelation, h.unique, ?_⟩
  · rw [heq fun _ => true]
    exact h.typeKnown
  · have hold := h.ofType
    unfold ofTypeViolations at hold ⊢
    rw [namesType_isNode, hof, ← namesType_isNode,
      show namesType s' (fun t => !t.isNode) f.ofType = _ from heq' not, hname]
    exact hold
  · rw [hname]
    exact h.fresh

end Schema

end ObjectQuery
