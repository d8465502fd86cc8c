import ObjectQuery.Proofs.Schema.Conditions
import ObjectQuery.Store.TableLayout

/-!
# Tables of a valid schema

Every type whose records have an id has a table of its name, and no column of the table is for
anything but a field of the type: the column of a declared field is that of its kind, and any other
column is for a field that is built in. One of them is the key, a text in the column of the id.
-/

set_option autoImplicit false

namespace ObjectQuery

open Outcome

namespace TableLayout

variable {l l' : TableLayout} {c : Column} {cs : List Column} {n : String}

theorem addColumn_eq_ok (h : l.addColumn c = .ok l') :
    l' = { l with columns := l.columns ++ [c] } ∧ ∀ d ∈ l.columns, d.name ≠ c.name := by
  unfold addColumn at h
  split at h
  · cases h
  · split at h
    · cases h
    · rename_i hnone
      cases h
      refine ⟨rfl, fun d hd hname => hnone ?_⟩
      rw [column?, List.find?_isSome]
      exact ⟨d, hd, beq_iff_eq.mpr hname⟩

theorem foldlM_addColumn_eq_ok (h : cs.foldlM addColumn l = .ok l')
    (hd : (l.columns.map (·.name)).Nodup) :
    l' = { l with columns := l.columns ++ cs } ∧ (l'.columns.map (·.name)).Nodup := by
  induction cs generalizing l with
  | nil =>
    cases h
    exact ⟨by rw [List.append_nil], hd⟩
  | cons c cs ih =>
    rw [List.foldlM_cons] at h
    obtain ⟨l₁, hl, h⟩ := bind_eq_ok.mp h
    obtain ⟨rfl, hfresh⟩ := addColumn_eq_ok hl
    have hd₁ : ((l.columns ++ [c]).map (·.name)).Nodup := by
      rw [List.map_append, List.nodup_append]
      refine ⟨hd, List.nodup_singleton _, ?_⟩
      intro a ha b hb
      obtain ⟨d, hmem, rfl⟩ := List.mem_map.mp ha
      obtain rfl := List.mem_singleton.mp hb
      exact hfresh d hmem
    obtain ⟨rfl, hnodup⟩ := ih h hd₁
    exact ⟨by simp, hnodup⟩

theorem mem_of_column? (h : l.column? n = some c) : c ∈ l.columns ∧ c.name = n := by
  unfold column? at h
  have hname := List.find?_some h
  exact ⟨List.mem_of_find?_eq_some h, beq_iff_eq.mp hname⟩

theorem column?_of_mem (hd : (l.columns.map (·.name)).Nodup) (hc : c ∈ l.columns) :
    l.column? c.name = some c := by
  have hsome : (l.column? c.name).isSome := by
    rw [column?, List.find?_isSome]
    exact ⟨c, hc, beq_iff_eq.mpr rfl⟩
  obtain ⟨d, hfound⟩ := Option.isSome_iff_exists.mp hsome
  obtain ⟨hmem, hname⟩ := mem_of_column? hfound
  rw [hfound, List.inj_on_of_nodup_map hd hmem hc hname]

end TableLayout

/-- The table for a type. -/
structure LaidOut (s : Schema) (r : Registry) (t : ObjectType) (l : TableLayout) : Prop where
  name : l.name = t.name.inline
  columns : ∃ cs, s.columns t = .ok cs ∧ l.columns = cs ++ Schema.builtInColumns r t
  distinct : (l.columns.map (·.name)).Nodup

namespace Schema

variable {s : Schema} {r : Registry} {t : ObjectType}

theorem addLayout_eq_ok {tables tables' : List TableLayout}
    (h : s.addLayout r tables t = .ok tables') :
    ∃ l, tables' = tables ++ [l] ∧ l.name ∉ tables.map (·.name) ∧ LaidOut s r t l := by
  obtain ⟨cs, hcs, h⟩ := bind_eq_ok.mp h
  unfold TableLayout.addTo at h
  split at h
  · cases h
  · rename_i hfresh
    obtain ⟨l, hl, h⟩ := bind_eq_ok.mp h
    cases h
    obtain ⟨rfl, hd⟩ := TableLayout.foldlM_addColumn_eq_ok hl .nil
    refine ⟨_, rfl, ?_, rfl, ⟨cs, mapError_eq_ok.mp hcs, by rw [List.nil_append]⟩, hd⟩
    simpa using hfresh

theorem mem_of_foldlM_addLayout {ts : List ObjectType} {tables tables' : List TableLayout}
    (h : ts.foldlM (s.addLayout r) tables = .ok tables') {l : TableLayout} (hl : l ∈ tables') :
    l ∈ tables ∨ ∃ t ∈ ts, LaidOut s r t l := by
  induction ts generalizing tables with
  | nil =>
    cases h
    exact .inl hl
  | cons t ts ih =>
    rw [List.foldlM_cons] at h
    obtain ⟨tables₁, h₁, h⟩ := bind_eq_ok.mp h
    obtain ⟨l₁, rfl, _, hlaid⟩ := addLayout_eq_ok h₁
    rcases ih h with hmem | ⟨u, hu, hlaid⟩
    · rcases List.mem_append.mp hmem with hmem | hmem
      · exact .inl hmem
      · obtain rfl := List.mem_singleton.mp hmem
        exact .inr ⟨t, List.mem_cons_self, hlaid⟩
    · exact .inr ⟨u, List.mem_cons_of_mem t hu, hlaid⟩

theorem exists_mem_foldlM_addLayout {ts : List ObjectType} {tables tables' : List TableLayout}
    (h : ts.foldlM (s.addLayout r) tables = .ok tables') :
    tables ⊆ tables' ∧ ∀ t ∈ ts, ∃ l ∈ tables', LaidOut s r t l := by
  induction ts generalizing tables with
  | nil =>
    cases h
    exact ⟨List.Subset.refl _, by simp⟩
  | cons t ts ih =>
    rw [List.foldlM_cons] at h
    obtain ⟨tables₁, h₁, h⟩ := bind_eq_ok.mp h
    obtain ⟨l₁, rfl, _, hlaid⟩ := addLayout_eq_ok h₁
    obtain ⟨hsub, hall⟩ := ih h
    refine ⟨fun l hl => hsub (List.mem_append_left _ hl), ?_⟩
    intro u hu
    rcases List.mem_cons.mp hu with rfl | hu
    · exact ⟨l₁, hsub (by simp), hlaid⟩
    · exact hall u hu

/-- No two tables are called the same. -/
theorem nodup_of_foldlM_addLayout {ts : List ObjectType} {tables tables' : List TableLayout}
    (h : ts.foldlM (s.addLayout r) tables = .ok tables') (hd : (tables.map (·.name)).Nodup) :
    (tables'.map (·.name)).Nodup := by
  induction ts generalizing tables with
  | nil =>
    cases h
    exact hd
  | cons t ts ih =>
    rw [List.foldlM_cons] at h
    obtain ⟨tables₁, h₁, h⟩ := bind_eq_ok.mp h
    obtain ⟨l, rfl, hfresh, _⟩ := addLayout_eq_ok h₁
    refine ih h ?_
    rw [List.map_append, List.map_singleton, ← List.concat_eq_append, List.nodup_concat]
    exact ⟨hfresh, hd⟩

theorem nodup_layouts {layouts : List TableLayout} (h : s.layouts r = .ok layouts) :
    (layouts.map (·.name)).Nodup :=
  nodup_of_foldlM_addLayout h .nil

theorem exists_mem_layouts {layouts : List TableLayout} (h : s.layouts r = .ok layouts)
    (ht : t ∈ s.types) (hn : t.isNode = true) : ∃ l ∈ layouts, LaidOut s r t l :=
  (exists_mem_foldlM_addLayout h).2 t (List.mem_filter.mpr ⟨ht, hn⟩)

theorem exists_of_mem_layouts {layouts : List TableLayout} {l : TableLayout}
    (h : s.layouts r = .ok layouts) (hl : l ∈ layouts) :
    ∃ t ∈ s.types, t.isNode = true ∧ LaidOut s r t l := by
  rcases mem_of_foldlM_addLayout h hl with hl | ⟨t, ht, hlaid⟩
  · cases hl
  · obtain ⟨hmem, hnode⟩ := List.mem_filter.mp ht
    exact ⟨t, hmem, hnode, hlaid⟩

end Schema

theorem FieldKind.name_of_column? {k : FieldKind} {n : String} {c : Column}
    (h : k.column? n = some c) : c.name = n := by
  cases k <;> cases h <;> rfl

namespace Schema

variable {rules : Validation.Rules} {s : Schema} {t : ObjectType} {cs : List Column} {c : Column}

theorem columnName_eq {f : Field} {n : String} (h : f.name = .text n) : columnName f = n := by
  rw [columnName, h]
  rfl

/-- The columns for declared fields, each that of the kind of its field. -/
theorem Valid.mem_columns_iff (h : s.Valid rules) (ht : t ∈ s.types) (hcs : s.columns t = .ok cs) :
    c ∈ cs ↔ ∃ n f k, t.field? n = some f ∧ s.kindOf f = .ok k ∧ k.column? n = some c := by
  have hentries : t.members.entries = .ok (t.declared.map .field) := by
    rw [h.members_eq ht]
    rfl
  unfold columns at hcs
  rw [hentries] at hcs
  obtain ⟨_, hms, hcs⟩ := bind_eq_ok.mp hcs
  cases hms
  obtain ⟨kinds, hkinds, hcs⟩ := bind_eq_ok.mp hcs
  cases hcs
  rw [List.mem_filterMap]
  constructor
  · rintro ⟨⟨name, k⟩, hmem, hc⟩
    obtain ⟨m, hm, hk⟩ := exists_of_mem_mapM hkinds hmem
    obtain ⟨f, hf, rfl⟩ := List.mem_map.mp hm
    obtain ⟨_, hget, hk⟩ := bind_eq_ok.mp hk
    cases hget
    obtain ⟨k', hk', hpair⟩ := bind_eq_ok.mp hk
    cases hpair
    obtain ⟨n, hn⟩ := h.exists_fieldName ht hf
    rw [columnName_eq hn] at hc
    exact ⟨n, f, k, h.field?_of_mem ht hf hn, hk', hc⟩
  · rintro ⟨n, f, k, hf, hk, hc⟩
    have hmem := List.mem_map_of_mem (f := Member.field) (ObjectType.mem_of_field? hf)
    obtain ⟨pair, hpair, hstep⟩ := ok_of_mem_mapM hkinds hmem
    obtain ⟨_, hget, hstep⟩ := bind_eq_ok.mp hstep
    cases hget
    obtain ⟨k', hk', heq⟩ := bind_eq_ok.mp hstep
    cases heq
    rw [hk] at hk'
    cases hk'
    refine ⟨_, hpair, ?_⟩
    rw [columnName_eq (ObjectType.field?_name hf)]
    exact hc

end Schema

namespace LaidOut

variable {rules : Validation.Rules} {s : Schema} {t : ObjectType} {l : TableLayout} {f : Field}
  {k : FieldKind} {n : String}

theorem column?_eq (hl : LaidOut s .standard t l) (hv : s.Valid rules)
    (hr : rules.registry = .standard) (ht : t ∈ s.types) (hf : t.field? n = some f)
    (hk : s.kindOf f = .ok k) : l.column? n = k.column? n := by
  obtain ⟨cs, hcs, hcolumns⟩ := hl.columns
  cases hc : k.column? n with
  | some c =>
    have hmem : c ∈ l.columns := by
      rw [hcolumns]
      exact List.mem_append_left _ ((hv.mem_columns_iff ht hcs).mpr ⟨n, f, k, hf, hk, hc⟩)
    have hfound := TableLayout.column?_of_mem hl.distinct hmem
    rwa [FieldKind.name_of_column? hc] at hfound
  | none =>
    rw [Option.eq_none_iff_forall_not_mem]
    intro c hfound
    obtain ⟨hmem, hname⟩ := TableLayout.mem_of_column? hfound
    rw [hcolumns] at hmem
    rcases List.mem_append.mp hmem with hmem | hmem
    · obtain ⟨m, g, k', hg, hk', hc'⟩ := (hv.mem_columns_iff ht hcs).mp hmem
      obtain rfl : m = n := (FieldKind.name_of_column? hc').symm.trans hname
      cases hf.symm.trans hg
      cases hk.symm.trans hk'
      rw [hc] at hc'
      cases hc'
    · obtain ⟨g, hg, rfl⟩ := List.mem_map.mp hmem
      have hfresh := (hv.fieldFacts ht (ObjectType.mem_of_field? hf)).fresh
      rw [hr, List.all_eq_true] at hfresh
      have hne := hfresh g hg
      obtain rfl := Registry.eq_of_mem_typeFields hg
      have hcredentials : n = "credentials" := hname.symm
      rw [ObjectType.field?_name hf, hcredentials] at hne
      simp [credentialsField] at hne

/-- A field that is built in has a column for structured values. -/
theorem column?_builtIn (hl : LaidOut s .standard t l)
    (hb : (Registry.standard.typeFields t.name).any (·.name.spells n) = true) :
    l.column? n = some { name := n, type := .json } := by
  obtain ⟨g, hg, hspells⟩ := List.any_eq_true.mp hb
  obtain ⟨cs, _, hcolumns⟩ := hl.columns
  have hmem : { name := n, type := .json } ∈ l.columns := by
    rw [hcolumns]
    refine List.mem_append_right cs (List.mem_map.mpr ⟨g, hg, ?_⟩)
    rw [Schema.columnName_eq (Value.spells_iff.mp hspells)]
  exact TableLayout.column?_of_mem hl.distinct hmem

end LaidOut

namespace Schema

variable {rules : Validation.Rules} {s : Schema} {t : ObjectType}

/-- Types of the node interface declare the id that the interface asks for. -/
theorem Valid.exists_idField (h : s.Valid rules) (hr : rules.registry = .standard)
    (ht : t ∈ s.types) (hn : t.isNode = true) :
    ∃ f, t.field? idName = some f ∧ s.kindOf f = .ok (.scalar .id) := by
  obtain ⟨f, hf, hsame⟩ := (ObjectType.mandated_iff hr).mp (h.facts.mandated t ht) hn
  obtain ⟨hname, htype, _⟩ := Validation.of_sameDefinition_idField hsame
  refine ⟨f, h.field?_of_mem ht hf hname, ?_⟩
  simp only [kindOf, Field.isConnection, Field.isList, htype]
  rfl

end Schema

theorem LaidOut.column?_id {rules : Validation.Rules} {s : Schema} {t : ObjectType}
    {l : TableLayout} (hl : LaidOut s .standard t l) (hv : s.Valid rules)
    (hr : rules.registry = .standard) (ht : t ∈ s.types) (hn : t.isNode = true) :
    l.column? idName = some ⟨idName, .varchar, true⟩ := by
  obtain ⟨f, hf, hk⟩ := hv.exists_idField hr ht hn
  rw [hl.column?_eq hv hr ht hf hk]
  rfl

end ObjectQuery
