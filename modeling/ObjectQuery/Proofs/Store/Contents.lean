import ObjectQuery.Proofs.Store.Catalog

/-!
# What holds of all rows

Statements for a change of the schema take entries out of rows and add none. So what holds of every
row, and also of it without the entries of a column, holds of every row after the change, whether it
is made or not. Ids are texts, whatever is changed and inserted.
-/

set_option autoImplicit false

namespace ObjectQuery

open Outcome

/-- What a row holds once a column is dropped. -/
theorem Row.get_drop (row : Row) (column name : String) :
    Row.get (row.filter (!sameName ·.1 column)) name =
      if sameName name column then none else row.get name := by
  split
  · rename_i hname
    rw [get, List.find?_filter, List.find?_eq_none.mpr, Option.map_none]
    intro e _
    have htrans : sameName e.1 name = true → sameName e.1 column = true := fun he =>
      sameName_iff.mpr ((sameName_iff.mp he).trans (sameName_iff.mp hname))
    by_cases he : sameName e.1 name = true
    · simp [htrans he]
    · simp [he]
  · rename_i hname
    refine get_filter (p := fun n => !sameName n column) (fun a b hab => ?_) (by simpa using hname)
    simp only [sameName, hab]

namespace Database

/-- Something that holds of every row, by the name of its table. -/
def Each (R : String → Row → Prop) (d : Database) : Prop :=
  ∀ t ∈ d.tables, ∀ row ∈ t.rows, R t.name row

variable {R : String → Row → Prop} {d d' : Database}

/-- What holds of a row also holds of it once a column is dropped. -/
def Droppable (R : String → Row → Prop) : Prop :=
  ∀ n row column, R n row → R n (row.filter (!sameName ·.1 column))

/-- A statement after which something still holds of every row. -/
def Spares (R : String → Row → Prop) (statement : Statement) : Prop :=
  ∀ d d', d.Each R → statement d = some d' → d'.Each R

theorem spares_createTable (l : TableLayout) : Spares R (·.createTable l) := by
  intro d d' h hd
  obtain ⟨_, rfl⟩ := createTable_eq_some.mp hd
  intro t ht
  rcases List.mem_append.mp ht with ht | ht
  · exact h t ht
  · obtain rfl := List.mem_singleton.mp ht
    nofun

theorem spares_dropTable (n : String) : Spares R (·.dropTable n) := by
  intro d d' h hd
  simp only [dropTable] at hd
  split at hd
  · cases hd
    exact fun t ht => h t (List.mem_of_mem_filter ht)
  · cases hd

/-- A table that is put in the place of another one, with rows of which the same holds. -/
theorem spares_onTable {n : String} {f : Table → Option Table}
    (hf : ∀ t t', f t = some t' → (∀ row ∈ t.rows, R t.name row) →
      ∀ row ∈ t'.rows, R t'.name row) : Spares R (·.onTable n f) := by
  intro d d' h hd
  obtain ⟨t, ht, hn, t', ht', htables⟩ := onTable_eq_some hd
  intro u hu
  rw [htables] at hu
  obtain ⟨u₀, hu₀, rfl⟩ := List.mem_map.mp hu
  split
  · exact hf t t' ht' (h t ht)
  · exact h u₀ hu₀

theorem spares_addColumn (n : String) (c : Column) : Spares R (·.addColumn n c) := by
  refine spares_onTable fun t t' ht' hrows => ?_
  split at ht'
  · cases ht'
    exact hrows
  · cases ht'

theorem spares_dropColumn (hR : Droppable R) (n column : String) :
    Spares R (·.dropColumn n column) := by
  refine spares_onTable fun t t' ht' hrows => ?_
  split at ht'
  · cases ht'
    exact List.forall_mem_map.mpr fun row hrow => hR t.name row column (hrows row hrow)
  · cases ht'

/-- Whether all statements of a list can be run or not. -/
theorem Each.run {statements : List Statement} (h : d.Each R)
    (hs : ∀ statement ∈ statements, Spares R statement) : (d.run statements).1.Each R := by
  induction statements generalizing d with
  | nil => exact h
  | cons statement rest ih =>
    obtain ⟨hfirst, hrest⟩ := List.forall_mem_cons.mp hs
    rw [Database.run]
    cases hd : statement d with
    | none => exact h
    | some d' => exact ih (hfirst d d' h hd) hrest

end Database

namespace Relational

open Database

variable {R : String → Row → Prop} {r r' : Relational}

theorem spares_dropStored (hR : Droppable R) (ls : List TableLayout) (spot : Spot) :
    ∀ statement ∈ dropStored ls spot, Spares R statement := by
  unfold dropStored
  split
  · split
    · exact List.forall_mem_singleton.mpr (spares_dropColumn hR _ _)
    · nofun
  · nofun

theorem spares_migration (hR : Droppable R) (before after : List TableLayout) (spots : List Spot)
    (c : SchemaChange) : ∀ statement ∈ migration before after spots c, Spares R statement := by
  cases c with
  | createType new =>
    rw [migration]
    split
    · exact List.forall_mem_singleton.mpr (spares_createTable _)
    · exact List.forall_mem_nil _
  | deleteType typeName =>
    rw [migration]
    refine List.forall_mem_append.mpr ⟨fun statement hmem => ?_, ?_⟩
    · obtain ⟨spot, _, hmem⟩ := List.mem_flatMap.mp hmem
      exact spares_dropStored hR before spot statement hmem
    · split
      · exact List.forall_mem_singleton.mpr (spares_dropTable _)
      · exact List.forall_mem_nil _
  | addField typeName member =>
    rw [migration]
    split
    · split
      · exact List.forall_mem_singleton.mpr (spares_addColumn _ _)
      · exact List.forall_mem_nil _
    · exact List.forall_mem_nil _
  | removeField typeName fieldName => exact spares_dropStored hR before ⟨typeName, fieldName⟩

/-- What holds of every row holds of every row after a change, or after one that is not made. -/
theorem each_change (hR : Droppable R) (h : r.database.Each R) (c : SchemaChange) :
    ((Store.change c : Access Relational Bool).result r).2.database.Each R := by
  rw [result_change]
  cases hp : r.prepare c with
  | error e => exact h
  | ok o =>
    cases o with
    | none => exact h
    | some p =>
      obtain ⟨changed, statements⟩ := p
      obtain ⟨_, _, _, hdatabase, spots, _, rfl⟩ := prepare_eq_ok hp
      have hrun := h.run (spares_migration hR r.layouts changed.layouts spots c)
      dsimp only
      rw [hdatabase]
      generalize r.database.run (migration r.layouts changed.layouts spots c) = ran at hrun ⊢
      obtain ⟨database, done⟩ := ran
      cases done <;> exact hrun

theorem forall_of_foldlM_insertRow {P : Row → Prop} {otherwise : Fault}
    {rows : List (Except Unstorable Row)} {t new : Table} (ht : ∀ row ∈ t.rows, P row)
    (hrows : ∀ cells, .ok cells ∈ rows → P cells)
    (h : rows.foldlM (insertRow otherwise) t = .ok new) : ∀ row ∈ new.rows, P row := by
  induction rows generalizing t with
  | nil =>
    cases h
    exact ht
  | cons row rows ih =>
    rw [List.foldlM_cons] at h
    obtain ⟨t₁, h₁, h⟩ := bind_eq_ok.mp h
    obtain ⟨cells, rfl, rfl⟩ := insertRow_eq_ok h₁
    refine ih (List.forall_mem_append.mpr ⟨ht, ?_⟩) (fun c hc => hrows c ?_) h
    · exact List.forall_mem_singleton.mpr (hrows cells List.mem_cons_self)
    · exact List.mem_cons_of_mem _ hc

end Relational

/-- A row whose id is a text, if it has one. -/
def Row.Identified (row : Row) : Prop := ∀ v, row.get idName = some v → ∃ id, v = .text id

theorem Row.droppable_identified : Database.Droppable fun _ => Row.Identified := by
  intro _ row column h v hv
  rw [get_drop] at hv
  split at hv
  · cases hv
  · exact h v hv

theorem Cell.asText_eq_ok {v held : Value} (h : asText v = .ok (some held)) :
    ∃ s, held = .text s := by
  obtain ⟨d, _, h⟩ := bind_eq_ok.mp h
  cases d with
  | none => cases h
  | some d =>
    cases h
    exact ⟨_, rfl⟩

namespace Relational

variable {r r' r₀ : Relational} {l : TableLayout} {n : String} {v : Value}

theorem Consistent.column?_id (h : r.Consistent) (hl : l ∈ r.layouts) :
    l.column? idName = some ⟨idName, .varchar, true⟩ := by
  obtain ⟨t, ht, hnode, hlaid⟩ := Schema.exists_of_mem_layouts r.layouts_eq hl
  rw [h.registry] at hlaid
  exact hlaid.column?_id h.valid rfl ht hnode

theorem identified_of_rowOf {cs : List Column} {values : List (Column × Value)} {row : Row}
    (hl : (l.columns.map fun c => foldCase c.name).Nodup)
    (hid : l.column? idName = some ⟨idName, .varchar, true⟩) (hcs : cs.Sublist l.columns)
    (hv : valuesOf cs v = some values) (h : rowOf values = .ok row) : row.Identified := by
  obtain ⟨hget, hnone⟩ := get_of_rowOf (hl.sublist (hcs.map _)) hv h
  obtain ⟨hmem, _⟩ := TableLayout.mem_of_column? hid
  intro w hw
  by_cases hfilled : ⟨idName, .varchar, true⟩ ∈ cs
  · obtain ⟨_, _, hcell⟩ := hget _ hfilled
    rw [hw] at hcell
    exact Cell.asText_eq_ok hcell
  · have hfree : foldCase idName ∉ cs.map fun c => foldCase c.name := by
      intro hfold
      obtain ⟨c, hc, hname⟩ := List.mem_map.mp hfold
      rw [List.inj_on_of_nodup_map hl (hcs.subset hc) hmem hname] at hc
      exact hfilled hc
    rw [hnone idName hfree] at hw
    cases hw

theorem identified_of_insertInto {t new : Table} {records : List Value} {otherwise : Fault}
    (hl : (l.columns.map fun c => foldCase c.name).Nodup)
    (hid : l.column? idName = some ⟨idName, .varchar, true⟩) (ht : ∀ row ∈ t.rows, row.Identified)
    (h : insertInto t l records otherwise = .ok new) : ∀ row ∈ new.rows, row.Identified := by
  unfold insertInto at h
  dsimp only at h
  split at h
  · rename_i values hvalues
    split at h
    · cases h
    · refine forall_of_foldlM_insertRow ht (fun cells hcells => ?_) h
      split at hcells
      · cases List.mem_singleton.mp hcells
        nofun
      · obtain ⟨vs, hvs, hrow⟩ := List.mem_map.mp hcells
        obtain ⟨record, _, hrecord⟩ := exists_left_of_mem (mapM_eq_some.mp hvalues) hvs
        exact identified_of_rowOf hl hid List.filter_sublist hrecord hrow
  · cases h

theorem Consistent.identified_insert (h : r.Consistent)
    (hrows : r.database.Each fun _ => Row.Identified) (hr : r.insert n v = .ok r') :
    r'.database.Each fun _ => Row.Identified := by
  obtain ⟨l, hl, hr⟩ := bind_eq_ok.mp hr
  obtain ⟨records, _, hr⟩ := bind_eq_ok.mp hr
  split at hr
  · rename_i t ht
    obtain ⟨new, hnew, hr⟩ := bind_eq_ok.mp hr
    split at hr
    · rename_i d hd
      cases hr
      obtain ⟨hmem, _⟩ := layout_eq_ok hl
      have ht' := identified_of_insertInto (h.storable.columns l hmem) (h.column?_id hmem)
        (hrows t (List.mem_of_find?_eq_some ht)) hnew
      exact Database.spares_onTable (fun _ _ hnew' _ => by cases hnew'; exact ht') _ _ hrows hd
    · cases hr
  · cases hr

/-- A store that has just been set up has no rows. -/
theorem each_of_create {s : Schema} (R : String → Row → Prop)
    (h : create .standard s = .ok r) : r.database.Each R := by
  obtain ⟨_, _, _, hdatabase⟩ := create_eq_ok h
  intro t ht
  rw [hdatabase] at ht
  obtain ⟨l, _, rfl⟩ := List.mem_map.mp ht
  nofun

theorem Reached.identified (h : r₀.Reached r) (h₀ : r₀.Consistent)
    (hrows : r₀.database.Each fun _ => Row.Identified) :
    r.database.Each fun _ => Row.Identified := by
  induction h with
  | start => exact hrows
  | change _ c ih => exact each_change Row.droppable_identified ih c
  | @insert r hr n records ih =>
    rw [result_insertRecords]
    cases hinsert : r.insert n records with
    | ok r' => exact (hr.consistent h₀).identified_insert ih hinsert
    | error e => exact ih

end Relational

end ObjectQuery
