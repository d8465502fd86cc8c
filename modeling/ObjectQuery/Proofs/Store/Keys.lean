import ObjectQuery.Proofs.Store.Requests

/-!
# Keys of rows

Every row of a store that was set up for a valid schema has a text as its id, and no other row of
its table has the same one, whatever is changed and inserted: a row is only taken with an id that is
not there yet, and the column of the ids is in every table, so that no change drops it.
-/

set_option autoImplicit false

namespace ObjectQuery

open Outcome

/-- A table whose rows are told apart by texts as ids. -/
structure Table.KeyedById (t : Table) : Prop where
  present : ∀ row ∈ t.rows, ∃ id, row.get idName = some (.text id)
  distinct : (t.rows.map Relational.idOf).Nodup

namespace Relational

variable {r r' r₀ : Relational} {l : TableLayout} {t t' new : Table} {row row' : Row}
  {id n : String}
  {otherwise : Fault} {v : Value}

theorem idOf_of_get (h : row.get idName = some (.text id)) : idOf row = id := by
  rw [idOf, h]
  rfl

theorem idOf_congr (h : row'.get idName = row.get idName) : idOf row' = idOf row := by
  rw [idOf, idOf, h]

/-- Rows that hold the ids of the rows of a table are told apart by them like those. -/
theorem keyedById_of_forall₂ (h : t.KeyedById)
    (hrows : List.Forall₂ (fun row row' => Row.get row' idName = Row.get row idName)
      t.rows t'.rows) : t'.KeyedById := by
  have hids : t.rows.map idOf = t'.rows.map idOf := by
    rw [← List.forall₂_eq_eq_eq, List.forall₂_map_left_iff, List.forall₂_map_right_iff]
    exact hrows.imp fun row row' hget => (idOf_congr hget).symm
  refine ⟨fun row' hrow' => ?_, hids ▸ h.distinct⟩
  obtain ⟨row, hrow, hget⟩ := exists_left_of_mem hrows hrow'
  obtain ⟨id, hid⟩ := h.present row hrow
  exact ⟨id, hget.trans hid⟩

/-- A row that is added has an id, which no other row has. -/
theorem keyedById_of_insertRow (hkey : t.columns.find? (·.isKey) = some ⟨idName, .varchar, true⟩)
    (ht : t.KeyedById) (hrow : row.Identified)
    (h : insertRow otherwise t (.ok row) = .ok new) : new.KeyedById := by
  unfold insertRow at h
  dsimp only [Except.mapError, ok_bind] at h
  split at h
  · rename_i hadmits
    cases h
    unfold admits at hadmits
    rw [hkey] at hadmits
    obtain ⟨v, hv, hfresh⟩ := (Option.any_eq_true _ _).mp hadmits
    obtain ⟨id, rfl⟩ := hrow v hv
    rw [Bool.not_eq_true', List.any_eq_false] at hfresh
    have hnew : id ∉ t.rows.map idOf := by
      intro hmem
      obtain ⟨other, hother, hid⟩ := List.mem_map.mp hmem
      obtain ⟨otherId, hget⟩ := ht.present other hother
      have hne := hfresh other hother
      rw [hget, ← idOf_of_get hget, hid] at hne
      exact hne (by simp)
    refine ⟨List.forall_mem_append.mpr ⟨ht.present, ?_⟩, ?_⟩
    · exact List.forall_mem_singleton.mpr ⟨id, hv⟩
    · rw [List.map_append, List.map_singleton, idOf_of_get hv]
      exact List.nodup_append.mpr ⟨ht.distinct, List.nodup_singleton id,
        fun a ha b hb hab => hnew (List.mem_singleton.mp hb ▸ hab ▸ ha)⟩
  · cases h

theorem keyedById_of_foldlM {rows : List (Except Unstorable Row)}
    (hkey : t.columns.find? (·.isKey) = some ⟨idName, .varchar, true⟩) (ht : t.KeyedById)
    (h : rows.foldlM (insertRow otherwise) t = .ok new)
    (hrows : ∀ row ∈ new.rows, row.Identified) : new.KeyedById := by
  induction rows generalizing t with
  | nil =>
    cases h
    exact ht
  | cons cells rows ih =>
    rw [List.foldlM_cons] at h
    obtain ⟨t₁, h₁, h⟩ := bind_eq_ok.mp h
    obtain ⟨row, rfl, rfl⟩ := insertRow_eq_ok h₁
    obtain ⟨added, rfl⟩ := foldlM_insertRow_eq_ok h
    have hidentified : row.Identified := hrows row (by simp)
    exact ih (t := { t with rows := t.rows ++ [row] }) hkey
      (keyedById_of_insertRow hkey ht hidentified h₁) h

theorem keyedById_of_insertInto {records : List Value}
    (hkey : t.columns.find? (·.isKey) = some ⟨idName, .varchar, true⟩) (ht : t.KeyedById)
    (h : insertInto t l records otherwise = .ok new)
    (hrows : ∀ row ∈ new.rows, row.Identified) : new.KeyedById := by
  unfold insertInto at h
  dsimp only at h
  split at h
  · split at h
    · cases h
    · exact keyedById_of_foldlM hkey ht h hrows
  · cases h

theorem Consistent.fits_of_mem (h : r.Consistent) (ht : t ∈ r.database.tables) :
    ∃ l ∈ r.layouts, t.name = l.name ∧ t.columns.Perm l.columns := by
  obtain ⟨l, hl, hfits⟩ := exists_left_of_mem h.fits.flip ht
  exact ⟨l, hl, hfits.name, hfits.columns⟩

theorem Consistent.find?_isKey (h : r.Consistent) (ht : t ∈ r.database.tables) :
    t.columns.find? (·.isKey) = some ⟨idName, .varchar, true⟩ := by
  obtain ⟨l, hl, _, hcolumns⟩ := h.fits_of_mem ht
  obtain ⟨u, hu, hnode, hlaid⟩ := Schema.exists_of_mem_layouts r.layouts_eq hl
  rw [h.registry] at hlaid
  have hsome : (t.columns.find? (·.isKey)).isSome := by
    rw [List.find?_isSome]
    obtain ⟨hmem, _⟩ := TableLayout.mem_of_column? (h.column?_id hl)
    exact ⟨_, hcolumns.mem_iff.mpr hmem, rfl⟩
  obtain ⟨c, hc⟩ := Option.isSome_iff_exists.mp hsome
  have hmem := hcolumns.mem_iff.mp (List.mem_of_find?_eq_some hc)
  rw [hc, hlaid.eq_of_isKey h.valid rfl hu hnode hmem (List.find?_some hc)]

/-- A store in a database whose rows are told apart by their ids. -/
structure Identifying (r : Relational) : Prop where
  consistent : r.Consistent
  keyed : ∀ t ∈ r.database.tables, t.KeyedById

theorem Identifying.identified (h : r.Identifying) : r.database.Each fun _ => Row.Identified := by
  intro t ht row hrow v hv
  obtain ⟨id, hid⟩ := (h.keyed t ht).present row hrow
  exact ⟨id, Option.some.inj (hv.symm.trans hid)⟩

theorem Identifying.insert (h : r.Identifying) (hr : r.insert n v = .ok r') : r'.Identifying := by
  have hidentified := h.consistent.identified_insert h.identified hr
  refine ⟨h.consistent.insert hr, ?_⟩
  obtain ⟨l, _, hr⟩ := bind_eq_ok.mp hr
  obtain ⟨records, _, hr⟩ := bind_eq_ok.mp hr
  split at hr
  · rename_i t ht
    obtain ⟨new, hnew, hr⟩ := bind_eq_ok.mp hr
    split at hr
    · rename_i d hd
      cases hr
      obtain ⟨t₁, ht₁, hn, t₂, ht₂, htables⟩ := Database.onTable_eq_some hd
      cases ht₂
      intro u hu
      have hrows := hidentified u hu
      rw [htables] at hu
      obtain ⟨u₀, hu₀, rfl⟩ := List.mem_map.mp hu
      have hmem := List.mem_of_find?_eq_some ht
      by_cases hsame : sameName u₀.name l.name = true
      · rw [if_pos hsame] at hrows ⊢
        exact keyedById_of_insertInto (h.consistent.find?_isKey hmem) (h.keyed t hmem) hnew hrows
      · rw [if_neg hsame]
        exact h.keyed u₀ hu₀
    · cases hr
  · cases hr

/-- Tables that stay have their ids as they were, and new ones have no rows. -/
theorem Identifying.change (h : r.Identifying) (c : SchemaChange) :
    ((Store.change c : Access Relational Bool).result r).2.Identifying := by
  have hold := each_change (R := fun name _ => name ∈ r.database.tables.map Table.name)
    (fun _ _ _ hname => hname) (fun t ht _ _ => List.mem_map_of_mem ht) c
  rcases h.consistent.change c with ⟨r', hresult, hr', hmade⟩ | ⟨outcome, hresult, _⟩
  · rw [hresult] at hold ⊢
    refine ⟨hr', fun t' ht' => ?_⟩
    by_cases hrows : t'.rows = []
    · exact ⟨by rw [hrows]; nofun, by rw [hrows]; exact .nil⟩
    obtain ⟨row, hrow⟩ := List.exists_mem_of_ne_nil _ hrows
    obtain ⟨t, ht, hname⟩ := List.mem_map.mp (hold t' ht' row hrow)
    have hid : ⟨idName, .varchar, true⟩ ∈ t.columns :=
      List.mem_of_find?_eq_some (h.consistent.find?_isKey ht)
    have hid' : ⟨idName, .varchar, true⟩ ∈ t'.columns :=
      List.mem_of_find?_eq_some (hr'.find?_isKey ht')
    refine keyedById_of_forall₂ (h.keyed t ht) ?_
    exact (hmade.keeps t ht t' ht' hname.symm).imp fun row row' hget =>
      hget ⟨idName, .varchar, true⟩ hid hid'
  · rw [hresult]
    exact h

theorem Identifying.of_create {rules : Validation.Rules} {s : Schema} (hs : s.Valid rules)
    (hr : rules.registry = .standard) (h : create .standard s = .ok r) : r.Identifying := by
  refine ⟨.of_create hs hr h, fun t ht => ?_⟩
  have hnone : t.rows = [] := by
    refine List.eq_nil_iff_forall_not_mem.mpr fun row hrow => ?_
    exact each_of_create (fun _ _ => False) h t ht row hrow
  exact ⟨by rw [hnone]; nofun, by rw [hnone]; exact .nil⟩

/-- Whatever is changed and inserted, rows are told apart by their ids. -/
theorem Reached.identifying (h : r₀.Reached r) (h₀ : r₀.Identifying) : r.Identifying := by
  induction h with
  | start => exact h₀
  | change _ c ih => exact ih.change c
  | @insert r _ n records ih =>
    rw [result_insertRecords]
    cases hinsert : r.insert n records with
    | ok r' => exact ih.insert hinsert
    | error e => exact ih

/-- A store from which the records of every type can be read, each by its id. -/
structure Readable (r : Relational) : Prop where
  column?_id : ∀ l ∈ r.layouts, l.column? idName = some ⟨idName, .varchar, true⟩
  exists_table : ∀ l ∈ r.layouts, ∃ t, r.database.table? l.name = some t ∧
    t.hasColumns l.columns = true ∧ t.KeyedById

theorem Identifying.readable (h : r.Identifying) : r.Readable := by
  refine ⟨fun l hl => h.consistent.column?_id hl, fun l hl => ?_⟩
  obtain ⟨t, ht, _, htable, hcolumns⟩ := h.consistent.exists_table hl
  exact ⟨t, htable, Table.hasColumns_of_subset fun _ hc => hcolumns.mem_iff.mpr hc, h.keyed t ht⟩

end Relational

end ObjectQuery
