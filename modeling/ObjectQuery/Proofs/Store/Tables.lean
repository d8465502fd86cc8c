import ObjectQuery.Proofs.Schema.Opposites
import ObjectQuery.Proofs.Store.Acceptance
import ObjectQuery.Proofs.Store.Reshaping

/-!
# The tables of a valid schema

A valid schema can always be laid out: its types have different names, and the columns of a type
have different names that are not empty, because its fields do and none of them is called like one
that is built in. Every table has the id for its only key.
-/

set_option autoImplicit false

namespace ObjectQuery

open Outcome Validation

namespace TableLayout

variable {l : TableLayout} {c : Column} {cs : List Column} {n : String}

theorem addColumn_eq (hc : c.name ≠ "") (hfresh : ∀ d ∈ l.columns, d.name ≠ c.name) :
    l.addColumn c = .ok { l with columns := l.columns ++ [c] } := by
  have hempty : c.name.isEmpty = false := by simp [hc]
  have hnone : l.column? c.name = none := by
    rw [column?, List.find?_eq_none]
    exact fun d hd => by simpa using hfresh d hd
  rw [addColumn, hempty, hnone]
  rfl

theorem foldlM_addColumn_eq (hne : ∀ c ∈ cs, c.name ≠ "")
    (hd : ((l.columns ++ cs).map (·.name)).Nodup) :
    cs.foldlM addColumn l = .ok { l with columns := l.columns ++ cs } := by
  induction cs generalizing l with
  | nil => simp [pure_eq_ok]
  | cons c cs ih =>
    obtain ⟨hc, hcs⟩ := List.forall_mem_cons.mp hne
    have hfresh : ∀ d ∈ l.columns, d.name ≠ c.name := by
      rw [List.map_append, List.map_cons, List.nodup_append] at hd
      exact fun d hmem => hd.2.2 _ (List.mem_map_of_mem hmem) _ List.mem_cons_self
    rw [List.append_cons] at hd
    rw [List.foldlM_cons, addColumn_eq hc hfresh, ok_bind, ih hcs hd, List.append_assoc,
      List.singleton_append]

theorem ofColumns_eq (hne : ∀ c ∈ cs, c.name ≠ "") (hd : (cs.map (·.name)).Nodup) :
    ofColumns n cs = .ok ⟨n, cs⟩ :=
  foldlM_addColumn_eq (l := ⟨n, []⟩) hne hd

end TableLayout

namespace Schema

variable {rules : Rules} {s : Schema} {t : ObjectType} {f : Field} {ls : List TableLayout}

theorem Valid.columnName_ne_empty (h : s.Valid rules) (ht : t ∈ s.types) (hf : f ∈ t.declared) :
    columnName f ≠ "" := by
  obtain ⟨n, hn, hne⟩ := exists_of_fieldName (h.fieldFacts ht hf).name
  rwa [columnName_eq hn]

/-- The columns for the fields that are built in are for none that are declared. -/
theorem Valid.builtIn_ne_columnName (h : s.Valid rules) (hr : rules.registry = .standard)
    (ht : t ∈ s.types) (hf : f ∈ t.declared) {c : Column} (hc : c ∈ builtInColumns .standard t) :
    columnName f ≠ c.name := by
  obtain ⟨g, hg, rfl⟩ := List.mem_map.mp hc
  obtain ⟨n, hn⟩ := h.exists_fieldName ht hf
  have hfresh := (h.fieldFacts ht hf).fresh
  rw [hr, List.all_eq_true] at hfresh
  have hne := hfresh g hg
  rw [Registry.eq_of_mem_typeFields hg, hn] at hne
  rw [Registry.eq_of_mem_typeFields hg, columnName_eq hn]
  rintro rfl
  simp [columnName, credentialsField, Value.isNull, Value.inline] at hne

theorem Valid.columnNames_nodup (h : s.Valid rules) (ht : t ∈ s.types) :
    ((t.declared.filterMap s.columnOf).map (·.name)).Nodup := by
  have hnames := h.fieldNames_nodup ht
  rw [List.Nodup, List.pairwise_map] at hnames ⊢
  refine List.pairwise_filterMap.mpr (hnames.imp_of_mem fun hf hg hne c hc d hd hcd => hne ?_)
  obtain ⟨m, hm⟩ := h.exists_fieldName ht hf
  obtain ⟨n, hn⟩ := h.exists_fieldName ht hg
  rw [name_of_columnOf hc, name_of_columnOf hd, columnName_eq hm, columnName_eq hn] at hcd
  rw [hm, hn, hcd]

theorem builtInColumns_nodup (t : ObjectType) :
    ((builtInColumns .standard t).map (·.name)).Nodup := by
  unfold builtInColumns Registry.typeFields Registry.fieldsOf
  split
  · simp only [Registry.standard, List.lookup_cons, List.lookup_nil]
    split <;> simp
  · exact .nil

theorem Valid.nodup_layoutOf (h : s.Valid rules) (hr : rules.registry = .standard)
    (ht : t ∈ s.types) : ((s.layoutOf .standard t).columns.map (·.name)).Nodup := by
  rw [layoutOf, List.map_append, List.nodup_append]
  refine ⟨h.columnNames_nodup ht, builtInColumns_nodup t, fun a ha b hb => ?_⟩
  obtain ⟨c, hc, rfl⟩ := List.mem_map.mp ha
  obtain ⟨d, hd, rfl⟩ := List.mem_map.mp hb
  obtain ⟨f, hf, hcolumn⟩ := List.mem_filterMap.mp hc
  rw [name_of_columnOf hcolumn]
  exact h.builtIn_ne_columnName hr ht hf hd

theorem Valid.addLayout_eq (h : s.Valid rules) (hr : rules.registry = .standard) (ht : t ∈ s.types)
    (hfresh : ∀ l ∈ ls, l.name ≠ t.name.inline) :
    s.addLayout .standard ls t = .ok (ls ++ [s.layoutOf .standard t]) := by
  have hne : ∀ c ∈ (s.layoutOf .standard t).columns, c.name ≠ "" := by
    intro c hc
    rcases List.mem_append.mp hc with hc | hc
    · obtain ⟨f, hf, hcolumn⟩ := List.mem_filterMap.mp hc
      rw [name_of_columnOf hcolumn]
      exact h.columnName_ne_empty ht hf
    · obtain ⟨g, hg, rfl⟩ := List.mem_map.mp hc
      rw [Registry.eq_of_mem_typeFields hg]
      decide
  have hany : ls.any (·.name == t.name.inline) = false := by
    rw [List.any_eq_false]
    exact fun l hl => by simpa using hfresh l hl
  have hcolumns := TableLayout.ofColumns_eq (n := t.name.inline) hne (h.nodup_layoutOf hr ht)
  unfold addLayout TableLayout.addTo
  rw [h.columns_eq ht, hany]
  refine bind_eq_ok.mpr ⟨_, rfl, bind_eq_ok.mpr ⟨_, hcolumns, rfl⟩⟩

theorem Valid.foldlM_addLayout_eq_ok (h : s.Valid rules) (hr : rules.registry = .standard)
    {ts : List ObjectType} (hts : ts ⊆ s.types)
    (hd : ((ls.map (·.name)) ++ ts.map (·.name.inline)).Nodup) :
    ts.foldlM (s.addLayout .standard) ls = .ok (ls ++ ts.map (s.layoutOf .standard)) := by
  induction ts generalizing ls with
  | nil => simp [pure_eq_ok]
  | cons t ts ih =>
    obtain ⟨ht, hts⟩ := List.cons_subset.mp hts
    have hfresh : ∀ l ∈ ls, l.name ≠ t.name.inline := by
      rw [List.map_cons, List.nodup_append] at hd
      exact fun l hl => hd.2.2 _ (List.mem_map_of_mem hl) _ List.mem_cons_self
    have hd' : (((ls ++ [s.layoutOf .standard t]).map (·.name)) ++
        ts.map (·.name.inline)).Nodup := by
      rw [List.map_append, List.append_assoc]
      exact hd
    rw [List.foldlM_cons, h.addLayout_eq hr ht hfresh, ok_bind, ih hts hd', List.append_assoc,
      List.map_cons, List.singleton_append]

/-- A valid schema has tables. -/
theorem Valid.layouts_eq_ok (h : s.Valid rules) (hr : rules.registry = .standard) :
    s.layouts .standard =
      .ok ((s.types.filter ObjectType.isNode).map (s.layoutOf .standard)) := by
  have hnames : ((s.types.filter ObjectType.isNode).map (·.name.inline)).Nodup := by
    have hnodup := h.names_nodup.sublist ((List.filter_sublist (p := ObjectType.isNode)).map _)
    rw [List.Nodup, List.pairwise_map] at hnodup ⊢
    refine hnodup.imp_of_mem fun ht hu hne heq => hne ?_
    obtain ⟨m, hm⟩ := h.exists_name (List.mem_of_mem_filter ht)
    obtain ⟨n, hn⟩ := h.exists_name (List.mem_of_mem_filter hu)
    rw [hm, hn] at heq ⊢
    exact congrArg Value.text heq
  exact h.foldlM_addLayout_eq_ok hr (List.filter_subset_self _) hnames

end Schema

/-- Whether the id is the only key of a table, and its columns have different names. -/
structure TableLayout.KeyedById (l : TableLayout) : Prop where
  key : l.columns.filter (·.isKey) = [⟨idName, .varchar, true⟩]
  distinct : (l.columns.map (·.name)).Nodup

theorem LaidOut.keyedById {rules : Rules} {s : Schema} {t : ObjectType} {l : TableLayout}
    (hl : LaidOut s .standard t l) (hv : s.Valid rules) (hr : rules.registry = .standard)
    (ht : t ∈ s.types) (hn : t.isNode = true) : l.KeyedById := by
  refine ⟨?_, hl.distinct⟩
  obtain ⟨hid, _⟩ := TableLayout.mem_of_column? (hl.column?_id hv hr ht hn)
  have hkeys : ∀ c ∈ l.columns, c.isKey = (c == ⟨idName, .varchar, true⟩) := by
    intro c hc
    rw [Bool.eq_iff_iff, beq_iff_eq]
    refine ⟨hl.eq_of_isKey hv hr ht hn hc, ?_⟩
    rintro rfl
    rfl
  rw [List.filter_congr hkeys, List.filter_beq,
    List.count_eq_one_of_mem (List.Nodup.of_map _ hl.distinct) hid, List.replicate_one]

/-- Whether there is a table for the named type, with columns for the named fields. -/
def Stores (ls : List TableLayout) (typeName : String) (fields : List String) : Prop :=
  ∃ l, Relational.layout? ls (.text typeName) = some l ∧ l.KeyedById ∧
    ∀ n ∈ fields, (l.column? n).isSome

/-- A node type is stored, and so is what has a column by its kind. -/
theorem Schema.Valid.stores {rules : Rules} {s : Schema} (h : s.Valid rules)
    (hr : rules.registry = .standard) {ls : List TableLayout} (hls : s.layouts .standard = .ok ls)
    {n : String} {t : ObjectType} (ht : s.type? n = some t) (hn : t.isNode = true)
    {fields : List String} (hfields : ∀ m ∈ fields, ∃ f k, t.field? m = some f ∧
      s.kindOf f = .ok k ∧ (k.column? m).isSome) : Stores ls n fields := by
  have hmem := mem_of_type? ht
  obtain ⟨l, _, hl⟩ := exists_mem_layouts hls hmem hn
  refine ⟨l, ?_, hl.keyedById h hr hmem hn, fun m hm => ?_⟩
  · rw [h.layout?_eq hls ht, if_pos hn, h.eq_layoutOf hmem hl]
  · obtain ⟨f, k, hf, hk, hc⟩ := hfields m hm
    rwa [hl.column?_eq h hr hmem hf hk]

end ObjectQuery
