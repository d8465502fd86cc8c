import ObjectQuery.Proofs.Store.Removal

/-!
# Tables that follow a schema

Run on the tables for a valid schema, the statements for a change that keeps it valid either make
the tables those for the changed schema, and keep what is stored in whatever stays, or change
nothing at all, which they do where a database cannot have the tables for the changed schema. Only a
single statement can be refused: the ones that drop the columns and the table of a deleted type can
all be run.
-/

set_option autoImplicit false

namespace ObjectQuery

open Outcome Validation

variable {d d' : Database} {ls ls' : List TableLayout} {l : TableLayout} {t : Table} {c : Column}
  {n : String}

/-- Whether a table has the columns that it should have, in whatever order. -/
structure Table.Fits (t : Table) (l : TableLayout) : Prop where
  name : t.name = l.name
  columns : t.columns.Perm l.columns

theorem Table.Fits.without (h : t.Fits l) (xs : List ColumnName) :
    (t.without xs).Fits (l.without xs) := by
  refine ⟨h.name, ?_⟩
  simp only [Table.without, TableLayout.without, h.name]
  exact h.columns.filter _

theorem Storable.removed (h : Storable ls) (xs : List ColumnName) (q : TableLayout → Bool) :
    Storable ((ls.filter q).map (·.without xs)) := by
  have hkept := h.sublist (List.filter_sublist (p := q))
  refine ⟨⟨?_, List.forall_mem_map.mpr fun l hl => ?_⟩, List.forall_mem_map.mpr hkept.unreserved,
    List.forall_mem_map.mpr fun l hl c hc => ?_, List.forall_mem_map.mpr fun l hl => ?_⟩
  · rw [List.map_map]
    exact hkept.tables
  · exact (hkept.columns l hl).sublist (List.filter_sublist.map _)
  · exact hkept.understood l hl c (List.mem_of_mem_filter hc)
  · exact Nat.le_trans (List.length_filter_le _ _) (hkept.narrow l hl)

/-- Whether one more column can be had beside those that are there. -/
structure TableLayout.Accepts (l : TableLayout) (c : Column) : Prop where
  fresh : ∀ e ∈ l.columns, foldCase e.name ≠ foldCase c.name
  understood : isMisread c.name = false
  narrow : l.columns.length < Table.maxColumns

theorem Table.Fits.accepts_iff (h : t.Fits l) : t.accepts c = true ↔ l.Accepts c := by
  have hfresh : t.hasColumn c.name = false ↔
      ∀ e ∈ l.columns, foldCase e.name ≠ foldCase c.name := by
    rw [Table.hasColumn, List.any_eq_false]
    simp only [sameName_iff, h.columns.mem_iff, ne_eq]
  rw [Table.accepts, Bool.and_eq_true, Bool.and_eq_true, Bool.not_eq_true', Bool.not_eq_true',
    decide_eq_true_eq, hfresh, h.columns.length_eq]
  exact ⟨fun ⟨⟨hfresh, hread⟩, hnarrow⟩ => ⟨hfresh, hread, hnarrow⟩,
    fun ⟨hfresh, hread, hnarrow⟩ => ⟨⟨hfresh, hread⟩, hnarrow⟩⟩

theorem nodup_of_perm_append {l' : TableLayout} (hperm : l'.columns.Perm (l.columns ++ [c])) :
    (l'.columns.map fun c => foldCase c.name).Nodup ↔
      foldCase c.name ∉ l.columns.map (fun c => foldCase c.name) ∧
        (l.columns.map fun c => foldCase c.name).Nodup := by
  rw [(hperm.map fun c => foldCase c.name).nodup_iff, List.map_append, List.map_singleton,
    ← List.concat_eq_append, List.nodup_concat]

/-- A table is as it was, or it is the one that gets a column. -/
theorem Separate.adding_cases (h : Separate ls) (hl : l ∈ ls) (hn : l.name = n)
    (hls : List.Forall₂ (fun l l' => l'.name = l.name ∧ l'.columns.Perm
      (l.columns ++ if sameName l.name n then [c] else [])) ls ls') :
    ∀ l' ∈ ls', (∃ l₁ ∈ ls, l'.name = l₁.name ∧ l'.columns.Perm l₁.columns) ∨
      (l'.name = l.name ∧ l'.columns.Perm (l.columns ++ [c])) := by
  intro l' hl'
  obtain ⟨l₁, hl₁, hname, hperm⟩ := exists_left_of_mem hls hl'
  split at hperm
  · rename_i hsame
    obtain rfl := h.eq_of_sameName hl₁ hl (hn ▸ hsame)
    exact .inr ⟨hname, hperm⟩
  · rw [List.append_nil] at hperm
    exact .inl ⟨l₁, hl₁, hname, hperm⟩

/-- Tables with one more column in one of them can be had if that one can have it. -/
theorem Storable.adding_iff (h : Storable ls) (hl : l ∈ ls) (hn : l.name = n)
    (hls : List.Forall₂ (fun l l' => l'.name = l.name ∧ l'.columns.Perm
      (l.columns ++ if sameName l.name n then [c] else [])) ls ls') :
    Storable ls' ↔ l.Accepts c := by
  constructor
  · intro h'
    obtain ⟨l', hl', _, hperm⟩ := exists_left_of_mem hls.flip hl
    rw [if_pos (hn ▸ sameName_self l.name)] at hperm
    have hnarrow := h'.narrow l' hl'
    rw [hperm.length_eq, List.length_append, List.length_singleton] at hnarrow
    refine ⟨fun e he hname => ?_, h'.understood l' hl' c (hperm.mem_iff.mpr (by simp)), hnarrow⟩
    exact ((nodup_of_perm_append hperm).mp (h'.columns l' hl')).1 (List.mem_map.mpr ⟨e, he, hname⟩)
  · intro haccepts
    have hcases := h.adding_cases hl hn hls
    refine ⟨⟨?_, fun l' hl' => ?_⟩, fun l' hl' => ?_, fun l' hl' e he => ?_, fun l' hl' => ?_⟩
    · have hnames : ls'.map (fun l => foldCase l.name) = ls.map fun l => foldCase l.name := by
        clear h hl hcases
        induction hls with
        | nil => rfl
        | cons hboth _ ih => rw [List.map_cons, List.map_cons, hboth.1, ih]
      exact hnames ▸ h.tables
    · rcases hcases l' hl' with ⟨l₁, hl₁, _, hperm⟩ | ⟨_, hperm⟩
      · exact (hperm.map _).nodup_iff.mpr (h.columns l₁ hl₁)
      · refine (nodup_of_perm_append hperm).mpr ⟨fun hmem => ?_, h.columns l hl⟩
        obtain ⟨e, he, hname⟩ := List.mem_map.mp hmem
        exact haccepts.fresh e he hname
    · rcases hcases l' hl' with ⟨l₁, hl₁, hname, _⟩ | ⟨hname, _⟩
      · exact hname ▸ h.unreserved l₁ hl₁
      · exact hname ▸ h.unreserved l hl
    · rcases hcases l' hl' with ⟨l₁, hl₁, _, hperm⟩ | ⟨_, hperm⟩
      · exact h.understood l₁ hl₁ e (hperm.mem_iff.mp he)
      · rcases List.mem_append.mp (hperm.mem_iff.mp he) with he | he
        · exact h.understood l hl e he
        · exact List.mem_singleton.mp he ▸ haccepts.understood
    · rcases hcases l' hl' with ⟨l₁, hl₁, _, hperm⟩ | ⟨_, hperm⟩
      · exact hperm.length_eq ▸ h.narrow l₁ hl₁
      · rw [hperm.length_eq, List.length_append, List.length_singleton]
        exact haccepts.narrow

namespace Database

/-- Whether the tables of a database are those of some layouts. -/
def Fits (d : Database) (ls : List TableLayout) : Prop := List.Forall₂ Table.Fits d.tables ls

namespace Fits

theorem names (h : d.Fits ls) : d.tables.map (·.name) = ls.map (·.name) := by
  obtain ⟨tables⟩ := d
  dsimp only [Fits] at h ⊢
  induction h with
  | nil => rfl
  | cons hfits _ ih => rw [List.map_cons, List.map_cons, hfits.name, ih]

theorem distinct (h : d.Fits ls) (hsep : Separate ls) : d.Distinct := by
  have hnames := congrArg (List.map foldCase) h.names
  rw [List.map_map, List.map_map] at hnames
  rw [Distinct]
  exact hnames ▸ hsep.tables

theorem exists_table (h : d.Fits ls) (hl : l ∈ ls) : ∃ t ∈ d.tables, t.Fits l :=
  exists_left_of_mem h hl

theorem has (h : d.Fits ls) (hl : l ∈ ls) (hc : c ∈ l.columns) : d.Has ⟨l.name, c.name⟩ := by
  obtain ⟨t, ht, hfits⟩ := h.exists_table hl
  refine ⟨t, ht, hfits.name ▸ sameName_self t.name, List.any_eq_true.mpr ⟨c, ?_, sameName_self _⟩⟩
  exact hfits.columns.mem_iff.mpr hc

theorem removed (h : d.Fits ls) (xs : List ColumnName) (q : String → Bool) :
    Fits ⟨(d.without xs).tables.filter (q ·.name)⟩
      ((ls.filter (q ·.name)).map (·.without xs)) := by
  have hkept : List.Forall₂ Table.Fits (d.tables.filter (q ·.name)) (ls.filter (q ·.name)) :=
    List.rel_filter (fun t l hfits => by simp only [hfits.name]) h
  rw [Fits, Database.without, List.filter_map, List.forall₂_map_left_iff,
    List.forall₂_map_right_iff]
  exact hkept.imp fun _ _ hfits => hfits.without xs

/-- The columns at spots can all be dropped. -/
theorem run_drops (h : d.Fits ls) (hsep : Separate ls) {spots : List Spot} (hs : spots.Nodup) :
    d.run ((ColumnName.ofSpots ls spots).map ColumnName.drop) =
      (d.without (ColumnName.ofSpots ls spots), true) := by
  refine Database.run_drops (h.distinct hsep) (fun x hx => ?_) (ColumnName.pairwise_ofSpots hsep hs)
  obtain ⟨table, column⟩ := x
  obtain ⟨l, hl, rfl, c, hc, rfl⟩ := ColumnName.exists_of_mem_ofSpots hsep hx
  exact h.has hl hc

theorem dropTable (h : d.Fits ls) (hsep : Separate ls) (hl : l ∈ ls) (hn : l.name = n)
    (xs : List ColumnName) : (d.without xs).dropTable n =
      some ⟨(d.without xs).tables.filter (!sameName ·.name n)⟩ := by
  obtain ⟨t, ht, hfits⟩ := h.exists_table hl
  have hname : sameName t.name n = true := hn ▸ hfits.name ▸ sameName_self t.name
  have hmem : t.without xs ∈ (d.without xs).tables := List.mem_map_of_mem ht
  have hfound := (distinct_without (h.distinct hsep) xs).table?_of_mem hmem hname
  rw [Database.dropTable, hfound, Option.isSome_some, if_pos rfl]

theorem adding (h : d.Fits ls)
    (hls : List.Forall₂ (fun l l' => l'.name = l.name ∧ l'.columns.Perm
      (l.columns ++ if sameName l.name n then [c] else [])) ls ls') : (d.adding n c).Fits ls' := by
  obtain ⟨tables⟩ := d
  dsimp only [Fits, Database.adding] at h ⊢
  induction h generalizing ls' with
  | nil =>
    cases hls
    exact .nil
  | @cons t l tables ls hfits _ ih =>
    cases hls with
    | cons hl hls =>
      refine .cons ?_ (ih hls)
      obtain ⟨hname, hcolumns⟩ := hl
      dsimp only
      rw [hfits.name]
      split
      · rename_i hsame
        rw [if_pos hsame] at hcolumns
        exact ⟨hname.symm, (hfits.columns.append_right [c]).trans hcolumns.symm⟩
      · rename_i hsame
        rw [if_neg hsame, List.append_nil] at hcolumns
        exact ⟨hfits.name.trans hname.symm, hfits.columns.trans hcolumns.symm⟩

/-- A table that has new rows instead of those that it had. -/
theorem replace (h : d.Fits ls) (hsep : Separate ls) (ht : d.table? n = some t) {rows : List Row}
    (hd : d.onTable n (fun _ => some { t with rows := rows }) = some d') : d'.Fits ls := by
  obtain ⟨u, hu, hn, t', ht', htables⟩ := onTable_eq_some hd
  cases ht'
  rw [table?] at ht
  have htn := List.find?_some ht
  have htables : d'.tables = d.tables.map fun u =>
      if sameName u.name n then { u with rows := rows } else u := by
    rw [htables]
    refine List.map_congr_left fun u hu => ?_
    split
    · rename_i hun
      rw [(h.distinct hsep).eq_of_named hu (List.mem_of_find?_eq_some ht) hun htn]
    · rfl
  rw [Fits, htables, List.forall₂_map_left_iff]
  refine h.imp fun u l hfits => ?_
  split
  · exact ⟨hfits.name, hfits.columns⟩
  · exact hfits

end Fits

/-- What statements for a change come to: the tables are those for the changed schema and hold what
they held, or they could not be had and nothing is changed. -/
inductive Follows (d : Database) (ls' : List TableLayout) : Database × Bool → Prop
  | done {d' : Database} (fits : d'.Fits ls') (storable : Storable ls') (keeps : d.Keeps d') :
    Follows d ls' (d', true)
  | refused (h : ¬Storable ls') : Follows d ls' (d, false)

section Single

variable (h : d.Fits ls) (hname : Storable ls)
include h hname

theorem follows_nil : d.Follows ls (d.run []) :=
  .done h hname (h.distinct hname.toSeparate).keeps_self

theorem Fits.follows_createTable (l : TableLayout) :
    d.Follows (ls ++ [l]) (d.run [(·.createTable l)]) := by
  have hdistinct := h.distinct hname.toSeparate
  have haccepts := accepts_iff (l := l) hname h.names
  rw [run]
  cases hd : d.createTable l with
  | none =>
    refine .refused fun hstorable => ?_
    rw [createTable_eq_some.mpr ⟨haccepts.mpr hstorable, rfl⟩] at hd
    cases hd
  | some d' =>
    obtain ⟨hl, rfl⟩ := createTable_eq_some.mp hd
    have hnew : List.Forall₂ Table.Fits [⟨l.name, l.columns, []⟩] [l] := .cons ⟨rfl, .refl _⟩ .nil
    refine .done (List.rel_append h hnew) (haccepts.mp hl) fun t ht t' ht' heq => ?_
    rcases List.mem_append.mp ht' with ht' | ht'
    · exact hdistinct.keeps_self t ht t' ht' heq
    · obtain rfl := List.mem_singleton.mp ht'
      exact absurd (congrArg foldCase heq.symm) (hl.fresh t ht)

theorem Fits.follows_addColumn (hl : l ∈ ls) (hn : l.name = n)
    (hls : List.Forall₂ (fun l l' => l'.name = l.name ∧ l'.columns.Perm
      (l.columns ++ if sameName l.name n then [c] else [])) ls ls') :
    d.Follows ls' (d.run [(·.addColumn n c)]) := by
  have hdistinct := h.distinct hname.toSeparate
  obtain ⟨t, ht, hfits⟩ := h.exists_table hl
  have haccepts : t.accepts c = true ↔ Storable ls' :=
    hfits.accepts_iff.trans (hname.adding_iff hl hn hls).symm
  rw [run, addColumn_eq hdistinct ht (hn ▸ hfits.name ▸ sameName_self t.name)]
  cases hcolumn : t.accepts c with
  | true => exact .done (h.adding hls) (haccepts.mp hcolumn) (hdistinct.keeps_adding n c)
  | false =>
    refine .refused fun hstorable => ?_
    rw [haccepts.mpr hstorable] at hcolumn
    cases hcolumn

/-- Tables and columns that go are those that the changed schema has no use for. -/
theorem Fits.follows_removed (xs : List ColumnName) (q : String → Bool) :
    d.Follows ((ls.filter (q ·.name)).map (·.without xs))
      (⟨(d.without xs).tables.filter (q ·.name)⟩, true) :=
  .done (h.removed xs q) (hname.removed xs _) ((h.distinct hname.toSeparate).keeps_without xs _)

end Single

end Database

/-- The type and the field that a field is removed from a valid schema by. -/
theorem Schema.Valid.exists_removed {rules : Rules} {s s' : Schema} (h : s.Valid rules)
    {v fieldName : Value} (hc : s.apply (.removeField v fieldName) = .ok s') :
    ∃ n m t f, v = .text n ∧ fieldName = .text m ∧ s.type? n = some t ∧ t.field? m = some f := by
  obtain ⟨n, t, f, rfl, ht, hfind, _⟩ := apply_removeField_eq_ok h.legible hc
  have htypes := mem_of_type? ht
  obtain ⟨hf, hequal⟩ := (h.legible t htypes).find_eq_ok hfind
  obtain ⟨m, hm⟩ := h.exists_fieldName htypes hf
  rw [hm] at hequal
  exact ⟨n, m, t, f, rfl, Value.text_equal_iff.mp hequal, ht, h.field?_of_mem htypes hf hm⟩

section Changes

variable {rules : Rules} {s s' : Schema} (h : s.Valid rules) (hr : rules.registry = .standard)
  (h' : s'.Valid rules) (hls : s.layouts .standard = .ok ls)
  (hls' : s'.layouts .standard = .ok ls') (hname : Storable ls) (hd : d.Fits ls)

include h h' hls hls' hname hd

theorem follows_createType {new : Option ObjectType} {spots : List Spot}
    (hc : s.apply (.createType new) = .ok s') :
    d.Follows ls' (d.run (Relational.migration ls ls' spots (.createType new))) := by
  cases new with
  | none => cases hc
  | some t =>
    have hadded := h.layouts_createType h' hls hls' hc
    have ht : t ∈ s'.types := by
      cases hc
      exact List.mem_append_right _ (List.mem_singleton_self t)
    obtain ⟨n, hn⟩ := h'.exists_name ht
    have hlayout := h'.layout?_eq hls' (h'.type?_of_mem ht hn)
    rw [Relational.migration, Option.bind_some, hn, hlayout, hadded]
    cases t.isNode with
    | true => exact hd.follows_createTable hname _
    | false =>
      rw [if_neg Bool.false_ne_true, List.append_nil]
      exact Database.follows_nil hd hname

include hr

theorem follows_addField {v : Value} {member : Member} {spots : List Spot}
    (hc : s.apply (.addField v member) = .ok s') :
    d.Follows ls' (d.run (Relational.migration ls ls' spots (.addField v member))) := by
  obtain ⟨n, t, t', f, rfl, rfl, hg⟩ := h.gains h' hc
  have hn := Schema.sameNodes_apply h.legible hc
  have hf : f ∈ t'.declared := by
    rw [hg.declared]
    exact List.mem_append_right _ (List.mem_singleton_self f)
  obtain ⟨m, hm⟩ := h'.exists_fieldName hg.mem hf
  have hlayout := h'.layout?_eq hls' (h'.type?_of_mem hg.mem hg.name)
  have hfield : (Member.field f).field?.bind (·.name.text?) = some m := by
    rw [Member.field?, Option.bind_some, hm, Value.text?_text]
  rw [Relational.migration, hlayout, hfield, hg.isNode]
  cases hnode : t.isNode with
  | false =>
    rw [hg.layouts_eq h h' hn hls hls' fun hnode' => absurd hnode' (hnode ▸ Bool.false_ne_true)]
    exact Database.follows_nil hd hname
  | true =>
    rw [if_pos rfl]
    dsimp only
    rw [h'.column?_layoutOf hr hls' hg.mem (hg.isNode.trans hnode) hf hm,
      Schema.name_layoutOf hg.name]
    cases hcolumn : s'.columnOf f with
    | none =>
      rw [hg.layouts_eq h h' hn hls hls' fun _ => hcolumn]
      exact Database.follows_nil hd hname
    | some c =>
      have hperm := hg.layouts_perm h h' hn hls hls' hname.toSeparate hnode hcolumn
      exact hd.follows_addColumn hname (h.layoutOf_mem hls (Schema.mem_of_type? hg.found) hnode)
        (Schema.name_layoutOf (Schema.type?_name hg.found) _) hperm

theorem follows_removeField {v fieldName : Value} {spots : List Spot}
    (hc : s.apply (.removeField v fieldName) = .ok s') :
    d.Follows ls' (d.run (Relational.migration ls ls' spots (.removeField v fieldName))) := by
  obtain ⟨n, m, t, f, rfl, rfl, ht, hfield⟩ := h.exists_removed hc
  have hstatements : Relational.migration ls ls' spots (.removeField (.text n) (.text m)) =
      (ColumnName.ofSpots ls [⟨.text n, .text m⟩]).map ColumnName.drop := by
    rw [← ColumnName.flatMap_dropStored, List.flatMap_singleton]
    rfl
  have hfollows := hd.follows_removed hname (ColumnName.ofSpots ls [⟨.text n, .text m⟩])
    fun _ => true
  rw [List.filter_true, ← h.layouts_removeField hr h' hls hls' hname.toSeparate ht hfield hc,
    List.filter_true] at hfollows
  rw [hstatements, hd.run_drops hname.toSeparate (h.spotted_field ht hfield).nodup]
  exact hfollows

theorem follows_deleteType {v : Value} {spots : List Spot}
    (hc : s.apply (.deleteType v) = .ok s') (hspots : s.referring v = .ok spots) :
    d.Follows ls' (d.run (Relational.migration ls ls' spots (.deleteType v))) := by
  obtain ⟨⟨n, t, rfl, ht⟩, _⟩ := Schema.apply_deleteType_eq_ok h.legible hc
  have htypeName := Schema.type?_name ht
  have hfollows := hd.follows_removed hname (ColumnName.ofSpots ls spots)
    fun m => !(t.isNode && sameName m n)
  rw [← h.layouts_deleteType hr h' hls hls' hname.toSeparate ht hspots hc] at hfollows
  rw [Relational.migration, ColumnName.flatMap_dropStored, h.layout?_eq hls ht,
    Database.run_append, hd.run_drops hname.toSeparate (h.spotted_referring hspots).nodup]
  -- The columns are gone by now, and what is left is the table of the type, if it has one.
  cases hnode : t.isNode with
  | false =>
    simp only [hnode, Bool.false_and, Bool.not_false, List.filter_true] at hfollows
    exact hfollows
  | true =>
    simp only [hnode, Bool.true_and] at hfollows
    have hdrop := hd.dropTable hname.toSeparate (h.layoutOf_mem hls (Schema.mem_of_type? ht) hnode)
      (Schema.name_layoutOf htypeName _) (ColumnName.ofSpots ls spots)
    simp only [if_true, Database.run, Schema.name_layoutOf htypeName, hdrop]
    exact hfollows

theorem follows_migration {change : SchemaChange} {spots : List Spot}
    (hc : s.apply change = .ok s') (hspots : Relational.referring s change = .ok spots) :
    d.Follows ls' (d.run (Relational.migration ls ls' spots change)) := by
  cases change with
  | createType new => exact follows_createType h h' hls hls' hname hd hc
  | deleteType v => exact follows_deleteType h hr h' hls hls' hname hd hc hspots
  | addField v member => exact follows_addField h hr h' hls hls' hname hd hc
  | removeField v fieldName => exact follows_removeField h hr h' hls hls' hname hd hc

end Changes

end ObjectQuery
