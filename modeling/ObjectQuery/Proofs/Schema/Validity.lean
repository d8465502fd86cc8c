import Mathlib.Data.List.Nodup
import ObjectQuery.Proofs.Outcome
import ObjectQuery.Schema.Snapshot

/-!
# What validation establishes

A schema in which no stage of validation finds anything has names that are texts, each of which
stands for one type; its types list fields with names that are texts, each of which stands for one
field of the type; and every one of its fields is as the rules for fields have it.
-/

set_option autoImplicit false

namespace ObjectQuery

open Outcome

namespace Value

theorem equal_text_iff {v : Value} {s : String} : v.equal (.text s) = true ↔ v = .text s := by
  cases v <;> simp [equal, number?]

theorem equal_text_eq (v : Value) (s : String) : v.equal (.text s) = v.spells s := by
  rw [Bool.eq_iff_iff, equal_text_iff, spells_iff]

theorem text_equal_iff {v : Value} {s : String} : (text s).equal v = true ↔ v = .text s := by
  rw [eq_comm (a := v)]
  cases v <;> simp [equal, number?]

theorem text_equal_eq (v : Value) (s : String) : (text s).equal v = v.spells s := by
  rw [Bool.eq_iff_iff, text_equal_iff, spells_iff]

end Value

namespace Validation

theorem firstFindings_eq_nil_iff {stages : List (Unit → Except Misuse (List Violation))} :
    firstFindings stages = .ok [] ↔ ∀ stage ∈ stages, stage () = .ok [] := by
  induction stages with
  | nil => simp [firstFindings]
  | cons stage rest ih =>
    simp only [firstFindings, bind_eq_ok, List.forall_mem_cons]
    constructor
    · rintro ⟨found, hf, hr⟩
      cases found with
      | nil => exact ⟨hf, ih.mp hr⟩
      | cons v vs => simp at hr
    · rintro ⟨hf, hr⟩
      exact ⟨[], hf, ih.mpr hr⟩

/-- All stages find nothing. -/
structure Passes (rules : Rules) (s : Schema) : Prop where
  names : uniqueNames s = .ok []
  plurals : uniquePlurals s = .ok []
  required : requiredTypes rules s = .ok []
  structures : typeStructure rules s = .ok []
  interfaces : interfaceFields rules s = []
  fields : fieldDefinitions rules s = []

theorem valid_iff_passes {rules : Rules} {s : Schema} : s.Valid rules ↔ Passes rules s := by
  simp only [Schema.Valid, Schema.violations, firstFindings_eq_nil_iff, stages,
    List.forall_mem_cons, List.not_mem_nil, false_implies, implies_true, and_true, Except.ok.injEq]
  constructor
  · rintro ⟨h1, h2, h3, h4, h5, h6⟩
    exact ⟨h1, h2, h3, h4, h5, h6⟩
  · rintro ⟨h1, h2, h3, h4, h5, h6⟩
    exact ⟨h1, h2, h3, h4, h5, h6⟩

theorem mem_countIn {v w : Value} {n : Nat} {table : List (Value × Nat)} (h : (w, n) ∈ table) :
    ∃ m, n ≤ m ∧ (w, m) ∈ countIn v table := by
  induction table with
  | nil => simp at h
  | cons e rest ih =>
    obtain ⟨u, k⟩ := e
    simp only [countIn]
    rcases List.mem_cons.mp h with he | hr
    · cases he
      split
      · exact ⟨n + 1, by omega, List.mem_cons_self⟩
      · exact ⟨n, Nat.le_refl n, List.mem_cons_self⟩
    · split
      · exact ⟨n, Nat.le_refl n, List.mem_cons_of_mem _ hr⟩
      · obtain ⟨m, hm, hmem⟩ := ih hr
        exact ⟨m, hm, List.mem_cons_of_mem _ hmem⟩

theorem mem_foldl_countIn {w : Value} {n : Nat} {table : List (Value × Nat)} (vs : List Value)
    (h : (w, n) ∈ table) :
    ∃ m, n ≤ m ∧ (w, m) ∈ vs.foldl (fun table v => countIn v table) table := by
  induction vs generalizing table n with
  | nil => exact ⟨n, Nat.le_refl n, h⟩
  | cons v vs ih =>
    obtain ⟨m, hm, hmem⟩ := mem_countIn (v := v) h
    obtain ⟨k, hk, hmem⟩ := ih hmem
    exact ⟨k, Nat.le_trans hm hk, hmem⟩

/-- Every count is of something. -/
def Counted (table : List (Value × Nat)) : Prop := ∀ e ∈ table, 0 < e.2

theorem counted_countIn {v : Value} {table : List (Value × Nat)} (h : Counted table) :
    Counted (countIn v table) := by
  induction table with
  | nil => simp [Counted, countIn]
  | cons e rest ih =>
    have he := h e List.mem_cons_self
    have hr : Counted rest := fun d hd => h d (List.mem_cons_of_mem e hd)
    simp only [countIn]
    split
    · intro d hd
      rcases List.mem_cons.mp hd with rfl | hd
      · exact Nat.succ_pos _
      · exact hr d hd
    · intro d hd
      rcases List.mem_cons.mp hd with rfl | hd
      · exact he
      · exact ih hr d hd

theorem text_mem_countIn (s : String) {table : List (Value × Nat)} (hc : Counted table) :
    (∃ n, (.text s, n) ∈ countIn (.text s) table) ∧
      (∀ k, (.text s, k) ∈ table → ∃ n, 1 < n ∧ (.text s, n) ∈ countIn (.text s) table) := by
  induction table with
  | nil => simp [countIn]
  | cons e rest ih =>
    obtain ⟨w, k⟩ := e
    have hk : 0 < k := hc (w, k) List.mem_cons_self
    obtain ⟨hin, htwice⟩ := ih fun d hd => hc d (List.mem_cons_of_mem _ hd)
    simp only [countIn]
    split
    · rename_i hw
      obtain rfl := Value.equal_text_iff.mp hw
      exact ⟨⟨k + 1, List.mem_cons_self⟩, fun _ _ => ⟨k + 1, by omega, List.mem_cons_self⟩⟩
    · rename_i hw
      obtain ⟨n, hn⟩ := hin
      refine ⟨⟨n, List.mem_cons_of_mem _ hn⟩, fun j hj => ?_⟩
      rcases List.mem_cons.mp hj with he | hr
      · cases he
        simp at hw
      · obtain ⟨m, hm, hmem⟩ := htwice j hr
        exact ⟨m, hm, List.mem_cons_of_mem _ hmem⟩

/-- If no value is counted twice, texts that are counted are different. -/
theorem nodup_of_counts {names : List String} {table : List (Value × Nat)} (hc : Counted table)
    (h : ∀ e ∈ (names.map Value.text).foldl (fun table v => countIn v table) table, ¬1 < e.2) :
    names.Nodup ∧ ∀ n ∈ names, ∀ k, (.text n, k) ∉ table := by
  induction names generalizing table with
  | nil => simp
  | cons s names ih =>
    obtain ⟨hnodup, hfresh⟩ := ih (counted_countIn hc) h
    obtain ⟨⟨n, hn⟩, htwice⟩ := text_mem_countIn s hc
    have hs : s ∉ names := fun hmem => hfresh s hmem n hn
    refine ⟨List.nodup_cons.mpr ⟨hs, hnodup⟩, ?_⟩
    intro m hm k hk
    rcases List.mem_cons.mp hm with rfl | hm
    · obtain ⟨j, hj, hmem⟩ := htwice k hk
      obtain ⟨i, hi, hmem⟩ := mem_foldl_countIn (names.map Value.text) hmem
      exact h _ hmem (Nat.lt_of_lt_of_le hj hi)
    · obtain ⟨j, _, hmem⟩ := mem_countIn (v := .text s) hk
      exact hfresh m hm j hmem

theorem nodup_of_duplicates {names : List String} {found : List (Value × Nat)}
    (h : duplicates (names.map Value.text) = .ok found) (hf : found.isEmpty) : names.Nodup := by
  unfold duplicates at h
  split at h
  · cases h
    rw [List.isEmpty_iff, List.filter_eq_nil_iff] at hf
    have hc : Counted [] := fun _ he => absurd he List.not_mem_nil
    exact (nodup_of_counts hc fun e he => by simpa using hf e he).1
  · cases h

theorem exists_texts {vs : List Value} (h : ∀ v ∈ vs, ∃ n, v = .text n) :
    ∃ names : List String, vs = names.map .text := by
  induction vs with
  | nil => exact ⟨[], rfl⟩
  | cons v vs ih =>
    obtain ⟨n, hn⟩ := h v List.mem_cons_self
    obtain ⟨names, hnames⟩ := ih fun w hw => h w (List.mem_cons_of_mem v hw)
    exact ⟨n :: names, by rw [hn, hnames, List.map_cons]⟩

theorem nodup_of_hasRepetition {names : List String}
    (h : hasRepetition (names.map Value.text) = false) : names.Nodup := by
  induction names with
  | nil => exact .nil
  | cons n names ih =>
    simp only [List.map_cons, hasRepetition, Bool.or_eq_false_iff, List.any_eq_false,
      List.mem_map] at h
    refine List.nodup_cons.mpr ⟨fun hn => ?_, ih h.2⟩
    have hne := h.1 (.text n) ⟨n, hn, rfl⟩
    simp at hne

end Validation

namespace ObjectType

variable {t : ObjectType} {f : Field} {n : String}

theorem field?_name (h : t.field? n = some f) : f.name = .text n := by
  unfold field? at h
  have named := List.find?_some h
  exact Value.spells_iff.mp named

theorem mem_of_field? (h : t.field? n = some f) : f ∈ t.declared := List.mem_of_find?_eq_some h

end ObjectType

namespace Schema

open Validation

variable {rules : Rules} {s : Schema} {t : ObjectType} {f : Field} {n : String}

theorem mem_of_type? (h : s.type? n = some t) : t ∈ s.types := List.mem_of_find?_eq_some h

/-- A schema that is valid with more required of it is valid with less. -/
theorem Valid.unrequired (h : s.Valid rules) : s.Valid ⟨rules.registry, []⟩ := by
  have hp := valid_iff_passes.mp h
  exact valid_iff_passes.mpr
    ⟨hp.names, hp.plurals, rfl, hp.structures, hp.interfaces, hp.fields⟩

theorem Valid.structure (h : s.Valid rules) (ht : t ∈ s.types) :
    structureViolations rules s t = .ok [] := by
  have hs := (valid_iff_passes.mp h).structures
  simp only [typeStructure, bind_eq_ok, pure_eq_ok, Except.ok.injEq,
    List.flatten_eq_nil_iff] at hs
  obtain ⟨found, hf, hempty⟩ := hs
  obtain ⟨v, hv, htv⟩ := ok_of_mem_mapM hf ht
  rw [htv, hempty v hv]

/-- What the checks of a type by itself come to. -/
structure TypeFacts (rules : Rules) (s : Schema) (t : ObjectType) : Prop where
  nameText : t.name.isText
  names : nameViolations .name t.name = []
  plurals : nameViolations .pluralName t.pluralName = []
  pluralFree : pluralIsFree s t
  kind : t.kind.spells objectKind
  description : isOptionalText t.description
  interfaces : interfacesKnown rules t.interfaces
  fieldList : fieldListViolations t = .ok []

theorem structureViolations_eq_nil_iff :
    structureViolations rules s t = .ok [] ↔ TypeFacts rules s t := by
  simp only [structureViolations, bind_eq_ok, pure_eq_ok, Except.ok.injEq,
    List.append_eq_nil_iff, check_eq_nil_iff]
  constructor
  · rintro ⟨found, hf, ⟨⟨⟨⟨⟨⟨h1, h2⟩, h3⟩, h4⟩, h5⟩, h6⟩, h7⟩, rfl⟩
    exact ⟨h1, h2, h3, h4, h5, h6, h7, hf⟩
  · rintro ⟨h1, h2, h3, h4, h5, h6, h7, hf⟩
    exact ⟨[], hf, ⟨⟨⟨⟨⟨⟨h1, h2⟩, h3⟩, h4⟩, h5⟩, h6⟩, h7⟩, rfl⟩

theorem Valid.typeFacts (h : s.Valid rules) (ht : t ∈ s.types) : TypeFacts rules s t :=
  structureViolations_eq_nil_iff.mp (h.structure ht)

theorem TypeFacts.exists_name (h : TypeFacts rules s t) : ∃ n, t.name = .text n := by
  have hn := h.nameText
  cases hv : t.name <;> simp_all [Value.isText]

theorem Valid.exists_name (h : s.Valid rules) (ht : t ∈ s.types) : ∃ n, t.name = .text n :=
  (h.typeFacts ht).exists_name

theorem Valid.typeNames (h : s.Valid rules) :
    ∃ names : List String, s.typeNames = names.map .text ∧ names.Nodup := by
  obtain ⟨names, hnames⟩ := exists_texts fun v (hv : v ∈ s.typeNames) => by
    obtain ⟨t, ht, rfl⟩ := List.mem_map.mp hv
    exact h.exists_name ht
  refine ⟨names, hnames, ?_⟩
  have hu := (valid_iff_passes.mp h).names
  simp only [uniqueNames, bind_eq_ok, pure_eq_ok, Except.ok.injEq, check_eq_nil_iff, hnames] at hu
  obtain ⟨found, hf, hempty⟩ := hu
  exact nodup_of_duplicates hf hempty

theorem Valid.names_nodup (h : s.Valid rules) : s.typeNames.Nodup := by
  obtain ⟨names, hnames, hnodup⟩ := h.typeNames
  rw [hnames]
  exact List.Nodup.map (fun a b hab => Value.text.inj hab) hnodup

/-- Where no two types have one name, a name stands for the type that has it. -/
theorem type?_of_nodup (h : s.typeNames.Nodup) (ht : t ∈ s.types) (hn : t.name = .text n) :
    s.type? n = some t := by
  have hfound : (s.type? n).isSome := by
    rw [type?, List.find?_isSome]
    exact ⟨t, ht, Value.spells_iff.mpr hn⟩
  obtain ⟨u, hu⟩ := Option.isSome_iff_exists.mp hfound
  have hun := type?_name hu
  rw [hu, List.inj_on_of_nodup_map h (mem_of_type? hu) ht (hun.trans hn.symm)]

theorem Valid.type?_of_mem (h : s.Valid rules) (ht : t ∈ s.types) (hn : t.name = .text n) :
    s.type? n = some t :=
  type?_of_nodup h.names_nodup ht hn

theorem ofFields_of_fields? {members : Members} {fields : List Field}
    (h : members.fields? = some fields) : members = .ofFields fields := by
  cases members with
  | other v => simp [Members.fields?] at h
  | listed es =>
    simp only [Members.ofFields, Members.listed.injEq]
    simp only [Members.fields?] at h
    induction es generalizing fields with
    | nil =>
      cases h
      rfl
    | cons m es ih =>
      cases m with
      | other v => simp [Member.field?] at h
      | field f =>
        simp only [List.mapM_cons, Member.field?, Option.bind_eq_bind, Option.bind_some,
          Option.bind_eq_some_iff] at h
        obtain ⟨fs, hfs, heq⟩ := h
        cases heq
        rw [List.map_cons, ih hfs]

theorem Valid.members_eq (h : s.Valid rules) (ht : t ∈ s.types) :
    t.members = .ofFields t.declared := by
  have hl := (h.typeFacts ht).fieldList
  unfold fieldListViolations at hl
  split at hl
  · cases hl
  · rename_i fields hfields
    apply ofFields_of_fields?
    rw [ObjectType.declared, hfields, Option.getD_some]

theorem Valid.fieldViolations (h : s.Valid rules) (ht : t ∈ s.types) (hf : f ∈ t.declared) :
    Validation.fieldViolations rules s t f = [] := by
  have hd := (valid_iff_passes.mp h).fields
  rw [fieldDefinitions, List.flatMap_eq_nil_iff] at hd
  exact List.flatMap_eq_nil_iff.mp (hd t ht) f hf

/-- What the checks of a field come to. -/
structure FieldFacts (rules : Rules) (s : Schema) (t : ObjectType) (f : Field) : Prop where
  name : textSatisfies isFieldName f.name
  description : isOptionalText f.description
  deprecationReason : isOptionalText f.deprecationReason
  typeText : f.type.isText
  typeKnown : Scalar.isNamedBy f.type || namesType s (fun _ => true) f.type ||
    f.isConnection || f.isList
  ofType : ofTypeViolations s ⟨t.name, f.name⟩ f = []
  relation : relationViolations s t f = []
  unique : !f.unique.isTrue || Scalar.isNamedBy f.type
  fresh : (rules.registry.typeFields t.name).all fun g => !g.name.equal f.name

theorem fieldViolations_eq_nil_iff :
    Validation.fieldViolations rules s t f = [] ↔ FieldFacts rules s t f := by
  simp only [Validation.fieldViolations, List.append_eq_nil_iff, check_eq_nil_iff]
  constructor
  · rintro ⟨⟨⟨h1, h2⟩, h3⟩, h4⟩
    split at h4
    · rename_i htext
      simp only [typedViolations, List.append_eq_nil_iff, check_eq_nil_iff] at h4
      obtain ⟨⟨⟨⟨h5, h6⟩, h7⟩, h8⟩, h9⟩ := h4
      exact ⟨h1, h2, h3, htext, h5, h6, h7, h8, h9⟩
    · simp at h4
  · rintro ⟨h1, h2, h3, htext, h5, h6, h7, h8, h9⟩
    refine ⟨⟨⟨h1, h2⟩, h3⟩, ?_⟩
    rw [if_pos htext]
    simp only [typedViolations, List.append_eq_nil_iff, check_eq_nil_iff]
    exact ⟨⟨⟨⟨h5, h6⟩, h7⟩, h8⟩, h9⟩

theorem Valid.fieldFacts (h : s.Valid rules) (ht : t ∈ s.types) (hf : f ∈ t.declared) :
    FieldFacts rules s t f :=
  fieldViolations_eq_nil_iff.mp (h.fieldViolations ht hf)

theorem Valid.exists_fieldName (h : s.Valid rules) (ht : t ∈ s.types) (hf : f ∈ t.declared) :
    ∃ n, f.name = .text n := by
  have hn := (h.fieldFacts ht hf).name
  cases hv : f.name <;> simp_all [textSatisfies]

theorem Valid.fieldNames_nodup (h : s.Valid rules) (ht : t ∈ s.types) :
    (t.declared.map (·.name)).Nodup := by
  obtain ⟨names, hnames⟩ := exists_texts fun v (hv : v ∈ t.declared.map (·.name)) => by
    obtain ⟨f, hf, rfl⟩ := List.mem_map.mp hv
    exact h.exists_fieldName ht hf
  have hl := (h.typeFacts ht).fieldList
  have hfields : t.members.fields? = some t.declared := by
    rw [h.members_eq ht, Members.fields?_ofFields]
  simp only [fieldListViolations, hfields] at hl
  split at hl
  · simp only [Except.ok.injEq, List.append_eq_nil_iff, check_eq_nil_iff, hnames] at hl
    rw [hnames]
    have hnodup : names.Nodup := nodup_of_hasRepetition (by simpa using hl.2)
    exact List.Nodup.map (fun a b hab => Value.text.inj hab) hnodup
  · cases hl

/-- Where no two fields have one name, a name stands for the field that has it. -/
theorem field?_of_nodup (h : (t.declared.map (·.name)).Nodup) (hf : f ∈ t.declared)
    (hn : f.name = .text n) : t.field? n = some f := by
  have hfound : (t.field? n).isSome := by
    rw [ObjectType.field?, List.find?_isSome]
    exact ⟨f, hf, Value.spells_iff.mpr hn⟩
  obtain ⟨g, hg⟩ := Option.isSome_iff_exists.mp hfound
  have hgn := ObjectType.field?_name hg
  have hgf := List.inj_on_of_nodup_map h (ObjectType.mem_of_field? hg) hf (hgn.trans hn.symm)
  rw [hg, hgf]

theorem Valid.field?_of_mem (h : s.Valid rules) (ht : t ∈ s.types) (hf : f ∈ t.declared)
    (hn : f.name = .text n) : t.field? n = some f :=
  field?_of_nodup (h.fieldNames_nodup ht) hf hn

end Schema

end ObjectQuery
