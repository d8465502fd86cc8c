import ObjectQuery.Proofs.Plan.Mutations

/-!
# Reports of changes

A report of a change tells of each type that is shown differently after it, once, and shows it as it
was and as it is. What a call that changes the schema is compiled to tells this of the schema that
it is compiled against.

Changes that are equal do the same to types that are shown alike, so whether a report holds of
another schema depends on the types that it tells of and on those that differ there.
-/

set_option autoImplicit false

namespace ObjectQuery

open Outcome

/-- What is shown of a type, or of there being none. -/
def shownType (t : Option ObjectType) : Value := t.elim .null ObjectType.toRecord

namespace Schema

/-- What is shown of the type of a name. -/
def shown (s : Schema) (n : String) : Value := shownType (s.type? n)

/-- What is shown of the type of a name in two schemas. -/
def pairOf (before after : Schema) (n : String) : Value :=
  .object [("oldValue", before.shown n), ("newValue", after.shown n)]

theorem pairOf_eq_iff {s s' z z' : Schema} {m n : String} :
    s.pairOf s' m = z.pairOf z' n ↔ s.shown m = z.shown n ∧ s'.shown m = z'.shown n := by
  simp [pairOf]

end Schema

/-- Reports that tell how two schemas differ: one for each type that is shown differently, with what
is shown of it before and after. -/
def Tells (reports : List Value) (before after : Schema) : Prop :=
  ∃ names : List String, names.Nodup ∧ (∀ n, n ∈ names ↔ before.shown n ≠ after.shown n) ∧
    reports = names.map (before.pairOf after)

theorem Field.toValue_ne_null (f : Field) : f.toValue ≠ .null := by
  intro h
  cases h

theorem Field.toValue_injective : Function.Injective Field.toValue := by
  rintro ⟨_, _, _, _, _, _, _, _⟩ ⟨_, _, _, _, _, _, _, _⟩ h
  simp only [toValue, Value.object.injEq, List.cons.injEq, Prod.mk.injEq, true_and, and_true] at h
  obtain ⟨rfl, rfl, rfl, rfl, rfl, rfl, rfl, rfl⟩ := h
  rfl

namespace ObjectType

variable {t u : ObjectType}

theorem members_toValue_of_toRecord (h : t.toRecord = u.toRecord) :
    t.members.toValue = u.members.toValue := by
  simp only [toRecord, Value.object.injEq, List.cons.injEq, Prod.mk.injEq, true_and,
    and_true] at h
  exact h.2.2.2.2.2.2

theorem toRecord_withMembers (h : t.toRecord = u.toRecord) (members : Members) :
    (t.withMembers members).toRecord = (u.withMembers members).toRecord := by
  simp only [toRecord, withMembers, plural, isNode, Value.object.injEq, List.cons.injEq,
    Prod.mk.injEq, true_and, and_true] at h ⊢
  obtain ⟨h1, h2, h3, h4, h5, h6, -⟩ := h
  exact ⟨h1, h2, h3, h4, h5, h6⟩

theorem Legible.declared_eq (ht : t.Legible) (hu : u.Legible) (h : t.toRecord = u.toRecord) :
    t.declared = u.declared := by
  have hm := members_toValue_of_toRecord h
  rw [ht.members, hu.members] at hm
  simp only [Members.ofFields, Members.toValue, List.map_map, Value.list.injEq] at hm
  exact List.map_injective_iff.mpr Field.toValue_injective hm

theorem toRecord_ne_null (t : ObjectType) : t.toRecord ≠ .null := by
  simp [toRecord]

theorem toRecord_dropping (ht : t.Legible) (hu : u.Legible) (h : t.toRecord = u.toRecord)
    (v : Value) : (t.dropping v).toRecord = (u.dropping v).toRecord := by
  have hd := ht.declared_eq hu h
  unfold dropping unrelated
  rw [hd]
  split
  · exact h
  · exact toRecord_withMembers h _

end ObjectType

namespace SchemaChange

/-- A change makes the same of types that are shown alike. -/
theorem shownType_effect (c : SchemaChange) (n : String) {t u : Option ObjectType}
    (ht : ∀ x ∈ t, x.Legible) (hu : ∀ x ∈ u, x.Legible) (h : shownType t = shownType u) :
    shownType (c.effect n t) = shownType (c.effect n u) := by
  cases t with
  | none =>
    cases u with
    | none => rfl
    | some u => exact absurd h.symm u.toRecord_ne_null
  | some t =>
    cases u with
    | none => exact absurd h t.toRecord_ne_null
    | some u =>
      have ht := ht t rfl
      have hu := hu u rfl
      have hd := ht.declared_eq hu h
      cases c with
      | createType new => exact h
      | deleteType v =>
        simp only [effect]
        split
        · rfl
        · exact ObjectType.toRecord_dropping ht hu h v
      | addField v member =>
        simp only [effect]
        split
        · rw [Option.map_some, Option.map_some, hd]
          exact ObjectType.toRecord_withMembers h _
        · exact h
      | removeField v fieldName =>
        simp only [effect]
        split
        · rw [Option.map_some, Option.map_some, hd]
          exact ObjectType.toRecord_withMembers h _
        · exact h

end SchemaChange

section Elsewhere

variable {reports : List Value} {s s' z z' : Schema} {c : SchemaChange}

/-- A type that is shown is shown by its name. -/
theorem Schema.shown_eq_null_or (s : Schema) (n : String) :
    s.shown n = .null ∨ ∃ rest, s.shown n = .object (("name", .text n) :: rest) := by
  unfold shown
  cases h : s.type? n with
  | none => exact .inl rfl
  | some t =>
    have hname := type?_name h
    rw [← hname]
    exact .inr ⟨_, rfl⟩

theorem name_eq_of_shown {m n : String} (hb : s.shown m = z.shown n) (ha : s'.shown m = z'.shown n)
    (hd : z.shown n ≠ z'.shown n) : m = n := by
  have hone : ∀ {x y : Schema}, x.shown m = y.shown n → y.shown n ≠ .null → m = n := by
    intro x y hxy hne
    rcases x.shown_eq_null_or m with hx | ⟨_, hx⟩
    · exact absurd (hxy.symm.trans hx) hne
    · rcases y.shown_eq_null_or n with hy | ⟨_, hy⟩
      · exact absurd hy hne
      · rw [hx, hy] at hxy
        simp only [Value.object.injEq, List.cons.injEq, Prod.mk.injEq, Value.text.injEq,
          true_and] at hxy
        exact hxy.1
  by_cases hz : z.shown n = .null
  · exact hone ha fun hz' => hd (hz.trans hz'.symm)
  · exact hone hb hz

/-- What is told of one schema is told of another one exactly if the types that differ in either are
shown alike in both at first. -/
theorem Tells.iff_shown_eq (hs : ∀ t ∈ s.types, t.Legible) (hz : ∀ t ∈ z.types, t.Legible)
    (h : Tells reports s s') (hs' : s.apply c = .ok s') (hz' : z.apply c = .ok z') :
    Tells reports z z' ↔
      ∀ n, s.shown n ≠ s'.shown n ∨ z.shown n ≠ z'.shown n → z.shown n = s.shown n := by
  have heffect (n : String) (hn : z.shown n = s.shown n) : z'.shown n = s'.shown n := by
    unfold Schema.shown at hn ⊢
    rw [Schema.type?_apply hz hz', Schema.type?_apply hs hs']
    exact c.shownType_effect n (fun t ht => hz t (Schema.mem_of_type? ht))
      (fun t ht => hs t (Schema.mem_of_type? ht)) hn
  obtain ⟨names, hnodup, hnames, rfl⟩ := h
  constructor
  · rintro ⟨others, -, hothers, heq⟩ n hn
    rcases hn with hn | hn
    · have hmem : s.pairOf s' n ∈ names.map (s.pairOf s') :=
        List.mem_map_of_mem ((hnames n).mpr hn)
      rw [heq] at hmem
      obtain ⟨k, _, hk⟩ := List.mem_map.mp hmem
      obtain ⟨hold, hnew⟩ := Schema.pairOf_eq_iff.mp hk
      obtain rfl := name_eq_of_shown hold hnew hn
      exact hold
    · have hmem : z.pairOf z' n ∈ others.map (z.pairOf z') :=
        List.mem_map_of_mem ((hothers n).mpr hn)
      rw [← heq] at hmem
      obtain ⟨k, _, hk⟩ := List.mem_map.mp hmem
      obtain ⟨hold, hnew⟩ := Schema.pairOf_eq_iff.mp hk
      obtain rfl := name_eq_of_shown hold hnew hn
      exact hold.symm
  · intro hall
    refine ⟨names, hnodup, fun n => ?_, List.map_congr_left fun n hn => ?_⟩
    · rw [hnames]
      constructor
      · intro hn
        have hfirst := hall n (.inl hn)
        rwa [hfirst, heffect n hfirst]
      · intro hn
        have hfirst := hall n (.inr hn)
        rwa [hfirst, heffect n hfirst] at hn
    · have hfirst := hall n (.inl ((hnames n).mp hn))
      exact Schema.pairOf_eq_iff.mpr ⟨hfirst.symm, (heffect n hfirst).symm⟩

end Elsewhere

theorem ObjectType.legible_withFields {t : ObjectType} (ht : t.Legible) (fields : List Field) :
    (t.withFields fields).Legible :=
  ⟨ht.name, by rw [declared_withFields]; rfl⟩

theorem ObjectType.Legible.toRecord_ne {t u : ObjectType} (ht : t.Legible) (hu : u.Legible)
    (h : t.declared.length ≠ u.declared.length) : t.toRecord ≠ u.toRecord :=
  fun heq => h (congrArg List.length (ht.declared_eq hu heq))

/-- A change that leaves all types but one as they are is told by one report. -/
theorem tells_singleton {s s' : Schema} {c : SchemaChange} {n : String}
    (hs : ∀ t ∈ s.types, t.Legible) (h : s.apply c = .ok s') (hn : s.shown n ≠ s'.shown n)
    (hm : ∀ m, m ≠ n → c.effect m (s.type? m) = s.type? m) :
    Tells [TypeChange.toRecord ⟨s.type? n, s'.type? n⟩] s s' := by
  refine ⟨[n], List.nodup_singleton n, fun m => ?_, rfl⟩
  rw [List.mem_singleton]
  constructor
  · rintro rfl
    exact hn
  · intro hdiffer
    by_contra hne
    apply hdiffer
    rw [Schema.shown, Schema.shown, Schema.type?_apply hs h, hm m hne]

theorem filterMap_eq_map_filter {α β : Type} {f : α → Option β} {p : α → Bool} {g : α → β}
    {xs : List α} (h : ∀ x ∈ xs, f x = if p x then some (g x) else none) :
    xs.filterMap f = (xs.filter p).map g := by
  induction xs with
  | nil => rfl
  | cons x xs ih =>
    rw [List.filterMap_cons, h x List.mem_cons_self, List.filter_cons,
      ih fun y hy => h y (List.mem_cons_of_mem x hy)]
    cases p x <;> rfl

namespace Mutation

variable {i : Snapshot} {c : Call} {m : Mutation} {change : SchemaChange} {s' : Schema}
  {n : String} {t : ObjectType}

/-- What a mutation is compiled to is a change that can be made and a report of it. -/
structure Faithful (i : Snapshot) (m : Mutation) : Prop where
  applies : ∃ s', i.schema.apply m.change = .ok s' ∧
    Tells (m.changes.map TypeChange.toRecord) i.schema s'

theorem tells_createType {plural description : Option String} (hfree : i.schema.type? n = none)
    (hs' : i.schema.apply (.createType (some (.created n plural description))) = .ok s') :
    Tells [TypeChange.toRecord ⟨none, some (.created n plural description)⟩] i.schema s' := by
  have hnew := Schema.type?_apply i.valid.legible hs' n
  rw [hfree, SchemaChange.effect, Option.none_or, Option.filter_some,
    if_pos (by rw [ObjectType.name_created, Value.spells_text, BEq.rfl])] at hnew
  rw [← hfree, ← hnew]
  refine tells_singleton i.valid.legible hs' ?_ fun m hm => ?_
  · rw [Schema.shown, Schema.shown, hfree, hnew]
    exact (ObjectType.toRecord_ne_null _).symm
  · rw [SchemaChange.effect, Option.filter_some, if_neg (by simpa using hm.symm), Option.or_none]

/-- The report on a change of the fields of a type, which has more of them or fewer than before. -/
theorem tells_of_fields (hs' : i.schema.apply change = .ok s') (ht : i.schema.type? n = some t)
    (hother : ∀ m, m ≠ n → ∀ x, change.effect m x = x) {u : ObjectType}
    (hu : change.effect n (some t) = some u) (hlegible : u.Legible)
    (hlength : t.declared.length ≠ u.declared.length) :
    Tells [TypeChange.toRecord ⟨some t, s'.type? n⟩] i.schema s' := by
  have hnew := Schema.type?_apply i.valid.legible hs' n
  rw [ht, hu] at hnew
  rw [← ht]
  refine tells_singleton i.valid.legible hs' ?_ fun m hm => hother m hm _
  rw [Schema.shown, Schema.shown, ht, hnew]
  exact (legible_of_type? ht).toRecord_ne hlegible hlength

theorem tells_addField {f : Field}
    (hs' : i.schema.apply (.addField (.text n) (.field f)) = .ok s')
    (ht : i.schema.type? n = some t) :
    Tells [TypeChange.toRecord ⟨some t, s'.type? n⟩] i.schema s' := by
  refine tells_of_fields hs' ht (fun m hm x => ?_) ?_
    (ObjectType.legible_withFields (legible_of_type? ht) (t.declared ++ [f])) (by simp)
  · rw [SchemaChange.effect, if_neg (by simpa using hm.symm)]
  · rw [SchemaChange.effect, if_pos (by rw [Value.spells_text, BEq.rfl]), Option.map_some,
      ObjectType.withFields, Members.ofFields, List.map_append]
    rfl

theorem tells_removeField {fieldName : String}
    (hs' : i.schema.apply (.removeField (.text n) (.text fieldName)) = .ok s')
    (ht : i.schema.type? n = some t) (hf : (t.field? fieldName).isSome) :
    Tells [TypeChange.toRecord ⟨some t, s'.type? n⟩] i.schema s' := by
  refine tells_of_fields hs' ht (fun m hm x => ?_) ?_
    (ObjectType.legible_withFields (legible_of_type? ht)
      (t.declared.filter (!·.name.equal (.text fieldName)))) ?_
  · rw [SchemaChange.effect, if_neg (by simpa using hm.symm)]
  · rw [SchemaChange.effect, if_pos (by rw [Value.spells_text, BEq.rfl]), Option.map_some]
  · obtain ⟨f, hf⟩ := Option.isSome_iff_exists.mp hf
    rw [ObjectType.declared_withFields]
    intro hlength
    have hall := List.length_filter_eq_length_iff.mp hlength.symm f (ObjectType.mem_of_field? hf)
    rw [ObjectType.field?_name hf] at hall
    simp at hall

/-- Whether a type is another one than that of a name and has fields that refer to it. -/
def loses (n : String) (t : ObjectType) : Bool :=
  !t.name.spells n && (t.unrelated (.text n)).length != t.declared.length

theorem type?_deleted (hs' : i.schema.apply (.deleteType (.text n)) = .ok s') (m : String) :
    s'.type? m = if n = m then none else (i.schema.type? m).map (·.dropping (.text n)) := by
  rw [Schema.type?_apply i.valid.legible hs', SchemaChange.effect, Value.spells_text]
  by_cases hm : n = m
  · rw [if_pos hm, if_pos (beq_iff_eq.mpr hm)]
  · rw [if_neg hm, if_neg (by simpa using hm)]

theorem differences_eq (hs' : i.schema.apply (.deleteType (.text n)) = .ok s') :
    differences i.schema s' n = ((i.schema.types.filter (loses n)).map ObjectType.label).map
      fun m => ⟨i.schema.type? m, s'.type? m⟩ := by
  rw [List.map_map]
  apply filterMap_eq_map_filter
  intro t ht
  obtain ⟨m, hm⟩ := i.valid.exists_name ht
  have hlabel : t.label = m := by rw [ObjectType.label, hm, Value.inline_text]
  rw [Function.comp_apply, hlabel, i.valid.type?_of_mem ht hm, hm, Value.text?_text,
    Option.bind_some, type?_deleted hs', i.valid.type?_of_mem ht hm, loses, hm, Value.spells_text]
  by_cases hmn : m = n
  · subst hmn
    simp
  · rw [if_neg (Ne.symm hmn), beq_false_of_ne hmn, Option.map_some]
    simp only [Option.any_some, ObjectType.declared_dropping]
    by_cases hlength : (t.unrelated (.text n)).length = t.declared.length
    · simp [hlength]
    · simp [hlength]

theorem mem_losing {m : String} : m ∈ (i.schema.types.filter (loses n)).map ObjectType.label ↔
    ∃ t, i.schema.type? m = some t ∧ loses n t := by
  constructor
  · intro h
    obtain ⟨t, ht, rfl⟩ := List.mem_map.mp h
    obtain ⟨ht, hloses⟩ := List.mem_filter.mp ht
    obtain ⟨k, hk⟩ := i.valid.exists_name ht
    rw [ObjectType.label, hk, Value.inline_text]
    exact ⟨t, i.valid.type?_of_mem ht hk, hloses⟩
  · rintro ⟨t, ht, hloses⟩
    refine List.mem_map.mpr ⟨t, List.mem_filter.mpr ⟨Schema.mem_of_type? ht, hloses⟩, ?_⟩
    rw [ObjectType.label, Schema.type?_name ht, Value.inline_text]

/-- Losing fields is being shown differently. -/
theorem loses_iff {m : String} (hm : m ≠ n) (ht : i.schema.type? m = some t) :
    loses n t ↔ shownType (some t) ≠ shownType (some (t.dropping (.text n))) := by
  have hlegible := legible_of_type? ht
  rw [loses, Schema.type?_name ht, Value.spells_text, beq_false_of_ne hm, Bool.not_false,
    Bool.true_and, bne_iff_ne]
  constructor
  · intro hlength
    have hdropping : (t.dropping (.text n)).Legible := by
      rw [ObjectType.dropping, if_neg hlength]
      exact ObjectType.legible_withFields hlegible _
    apply hlegible.toRecord_ne hdropping
    rw [ObjectType.declared_dropping]
    exact hlength.symm
  · intro hdiffer hlength
    rw [ObjectType.dropping, if_pos hlength] at hdiffer
    exact hdiffer rfl

theorem tells_deleteType (hs' : i.schema.apply (.deleteType (.text n)) = .ok s')
    (ht : i.schema.type? n = some t) :
    Tells ((⟨some t, none⟩ :: differences i.schema s' n).map TypeChange.toRecord) i.schema s' := by
  have hgone : s'.type? n = none := by rw [type?_deleted hs', if_pos rfl]
  refine ⟨n :: (i.schema.types.filter (loses n)).map ObjectType.label, ?_, fun m => ?_, ?_⟩
  · rw [List.nodup_cons]
    constructor
    · intro hmem
      obtain ⟨u, hu, hloses⟩ := mem_losing.mp hmem
      rw [loses, Schema.type?_name hu, Value.spells_text, BEq.rfl] at hloses
      cases hloses
    · obtain ⟨names, hnames, hnodup⟩ := i.valid.typeNames
      have hlabels : i.schema.types.map ObjectType.label = names := by
        have hinline := congrArg (List.map Value.inline) hnames
        rw [Schema.typeNames, List.map_map, List.map_map] at hinline
        exact hinline.trans (List.map_id names)
      rw [← hlabels] at hnodup
      exact hnodup.sublist (List.filter_sublist.map _)
  · rw [List.mem_cons, mem_losing, Schema.shown, Schema.shown, type?_deleted hs']
    by_cases hm : m = n
    · subst hm
      rw [if_pos rfl, ht]
      simp [shownType, ObjectType.toRecord_ne_null]
    · rw [if_neg (Ne.symm hm)]
      cases hfind : i.schema.type? m with
      | none => simp [hm]
      | some u =>
        rw [Option.map_some, ← loses_iff hm hfind]
        simp [hm]
  · rw [List.map_cons, List.map_cons, differences_eq hs', List.map_map]
    congr 1
    rw [Schema.pairOf, Schema.shown, Schema.shown, ht, hgone]
    rfl

theorem Made.faithful (h : Made i m) : Faithful i m := by
  cases h with
  | createType hfree hs' _ => exact ⟨_, hs', tells_createType hfree hs'⟩
  | deleteType ht hs' _ => exact ⟨_, hs', tells_deleteType hs' ht⟩
  | addField ht hs' _ => exact ⟨_, hs', tells_addField hs' ht⟩
  | removeField ht hf hs' _ => exact ⟨_, hs', tells_removeField hs' ht hf⟩

end Mutation

end ObjectQuery
