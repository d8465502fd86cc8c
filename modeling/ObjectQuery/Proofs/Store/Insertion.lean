import Mathlib.Logic.Function.Basic
import ObjectQuery.Proofs.Outcome
import ObjectQuery.Proofs.Store.Layout
import ObjectQuery.Store.Relational

/-!
# Rows that are inserted

A store that is set up has an empty table for every layout. Inserting a record adds one row to one
table, and the row holds what the columns make of the entries of the record.
-/

set_option autoImplicit false

namespace ObjectQuery

open Outcome

theorem sameName_iff {a b : String} : sameName a b = true ↔ foldCase a = foldCase b :=
  beq_iff_eq

theorem sameName_self (a : String) : sameName a a = true := sameName_iff.mpr rfl

theorem distinctNames_iff {names : List String} :
    Database.distinctNames names = true ↔ (names.map foldCase).Nodup := by
  induction names with
  | nil => simp [Database.distinctNames]
  | cons n names ih =>
    have hfresh : names.any (sameName n) = false ↔ foldCase n ∉ names.map foldCase := by
      simp only [List.any_eq_false, sameName_iff, List.mem_map, not_exists, not_and,
        eq_comm (a := foldCase n)]
    rw [Database.distinctNames, Bool.and_eq_true, Bool.not_eq_true', hfresh, ih, List.map_cons,
      List.nodup_cons]

/-- Tables and columns that no one could take for each other. -/
structure Separate (layouts : List TableLayout) : Prop where
  tables : (layouts.map fun l => foldCase l.name).Nodup
  columns : ∀ l ∈ layouts, (l.columns.map fun c => foldCase c.name).Nodup

theorem Separate.eq_of_sameName {layouts : List TableLayout} (h : Separate layouts)
    {l l' : TableLayout} (hl : l ∈ layouts) (hl' : l' ∈ layouts)
    (hs : sameName l.name l'.name = true) : l = l' :=
  List.inj_on_of_nodup_map h.tables hl hl' (sameName_iff.mp hs)

/-- Tables that a database can have: besides being separate, none has a name that it keeps for
itself, a column with a name that is taken for something else, or too many columns. -/
structure Storable (layouts : List TableLayout) : Prop extends Separate layouts where
  unreserved : ∀ l ∈ layouts, Database.isReserved l.name = false
  understood : ∀ l ∈ layouts, ∀ c ∈ l.columns, isMisread c.name = false
  narrow : ∀ l ∈ layouts, l.columns.length ≤ Table.maxColumns

theorem storable_nil : Storable [] := ⟨⟨.nil, nofun⟩, nofun, nofun, nofun⟩

theorem Storable.sublist {ls layouts : List TableLayout} (h : Storable layouts)
    (hs : ls.Sublist layouts) : Storable ls where
  tables := h.tables.sublist (hs.map _)
  columns l hl := h.columns l (hs.subset hl)
  unreserved l hl := h.unreserved l (hs.subset hl)
  understood l hl := h.understood l (hs.subset hl)
  narrow l hl := h.narrow l (hs.subset hl)

namespace Database

variable {layouts : List TableLayout} {rows : String → List Row} {l : TableLayout}

/-- The database with a table for each layout, in which a table has the rows for its name. -/
def ofRows (layouts : List TableLayout) (rows : String → List Row) : Database :=
  ⟨layouts.map fun l => ⟨l.name, l.columns, rows l.name⟩⟩

theorem table?_ofRows (h : Separate layouts) (hl : l ∈ layouts) :
    (ofRows layouts rows).table? l.name = some ⟨l.name, l.columns, rows l.name⟩ := by
  have hfind : layouts.find? (fun l' => sameName l'.name l.name) = some l := by
    have hsome : (layouts.find? fun l' => sameName l'.name l.name).isSome := by
      rw [List.find?_isSome]
      exact ⟨l, hl, sameName_self l.name⟩
    obtain ⟨l', hfound⟩ := Option.isSome_iff_exists.mp hsome
    have hsame := List.find?_some hfound
    rw [hfound, h.eq_of_sameName (List.mem_of_find?_eq_some hfound) hl hsame]
  rw [table?, ofRows, List.find?_map, Function.comp_def, hfind]
  rfl

theorem onTable_ofRows (h : Separate layouts) (hl : l ∈ layouts) (new : List Row) :
    (ofRows layouts rows).onTable l.name (fun _ => some ⟨l.name, l.columns, new⟩) =
      some (ofRows layouts (Function.update rows l.name new)) := by
  rw [onTable, table?_ofRows h hl]
  simp only [Option.bind_eq_bind, Option.bind_some, ofRows, List.map_map, Option.pure_def,
    Option.some.injEq, Database.mk.injEq]
  apply List.map_congr_left
  intro l' hl'
  rw [Function.comp_apply]
  split
  · rename_i hsame
    obtain rfl := h.eq_of_sameName hl' hl hsame
    rw [Function.update_self]
  · rename_i hsame
    have hne : l'.name ≠ l.name := fun hname => hsame (hname ▸ sameName_self l'.name)
    rw [Function.update_of_ne hne]

/-- What it takes to create a table in a database. -/
structure Accepts (d : Database) (l : TableLayout) : Prop where
  fresh : ∀ t ∈ d.tables, foldCase t.name ≠ foldCase l.name
  columns : (l.columns.map fun c => foldCase c.name).Nodup
  unreserved : isReserved l.name = false
  understood : ∀ c ∈ l.columns, isMisread c.name = false
  narrow : l.columns.length ≤ Table.maxColumns

theorem canHave_iff {columns : List Column} : canHave columns = true ↔
    (columns.map fun c => foldCase c.name).Nodup ∧ (∀ c ∈ columns, isMisread c.name = false) ∧
      columns.length ≤ Table.maxColumns := by
  simp only [canHave, Bool.and_eq_true, distinctNames_iff, List.map_map, List.all_eq_true,
    Bool.not_eq_true', decide_eq_true_eq, and_assoc, Function.comp_def]

theorem createTable_eq_some {d d' : Database} : d.createTable l = some d' ↔
    d.Accepts l ∧ d' = ⟨d.tables ++ [⟨l.name, l.columns, []⟩]⟩ := by
  have hcond : ((d.table? l.name).isSome || isReserved l.name || !canHave l.columns) = false ↔
      d.Accepts l := by
    rw [Bool.or_eq_false_iff, Bool.or_eq_false_iff, Bool.not_eq_false', canHave_iff,
      Option.isSome_eq_false_iff, Option.isNone_iff_eq_none, table?, List.find?_eq_none]
    constructor
    · rintro ⟨⟨hfresh, hunreserved⟩, hcolumns, hunderstood, hnarrow⟩
      exact ⟨fun t ht hname => hfresh t ht (sameName_iff.mpr hname), hcolumns, hunreserved,
        hunderstood, hnarrow⟩
    · rintro ⟨hfresh, hcolumns, hunreserved, hunderstood, hnarrow⟩
      exact ⟨⟨fun t ht hname => hfresh t ht (sameName_iff.mp hname), hunreserved⟩, hcolumns,
        hunderstood, hnarrow⟩
  rw [createTable, ← hcond]
  split
  · rename_i h
    simp [h]
  · rename_i h
    simp [h, eq_comm]

/-- A table is accepted if it can be had beside those that are there. -/
theorem accepts_iff {d : Database} (hd : Storable layouts)
    (hnames : d.tables.map (·.name) = layouts.map (·.name)) :
    d.Accepts l ↔ Storable (layouts ++ [l]) := by
  have hfresh : (∀ t ∈ d.tables, foldCase t.name ≠ foldCase l.name) ↔
      ((layouts ++ [l]).map fun l => foldCase l.name).Nodup := by
    have hfolded : d.tables.map (fun t => foldCase t.name) =
        layouts.map fun l => foldCase l.name := by
      have h := congrArg (List.map foldCase) hnames
      rwa [List.map_map, List.map_map] at h
    rw [List.map_append, List.map_singleton, ← List.concat_eq_append, List.nodup_concat,
      and_iff_left hd.tables, ← hfolded, List.mem_map]
    simp only [not_exists, not_and, ne_eq]
  have heach {P : TableLayout → Prop} (hold : ∀ l' ∈ layouts, P l') (hnew : P l) :
      ∀ l' ∈ layouts ++ [l], P l' :=
    List.forall_mem_append.mpr ⟨hold, List.forall_mem_singleton.mpr hnew⟩
  constructor
  · rintro ⟨hl, hcolumns, hunreserved, hunderstood, hnarrow⟩
    exact ⟨⟨hfresh.mp hl, heach hd.columns hcolumns⟩, heach hd.unreserved hunreserved,
      heach hd.understood hunderstood, heach hd.narrow hnarrow⟩
  · intro h
    have hmem : l ∈ layouts ++ [l] := List.mem_append_right _ (List.mem_singleton_self l)
    exact ⟨hfresh.mpr h.tables, h.columns l hmem, h.unreserved l hmem, h.understood l hmem,
      h.narrow l hmem⟩

/-- Tables can be created one after the other exactly if a database can have all of them. -/
theorem foldlM_createTable_eq_some {d' : Database} {done : List TableLayout} (hd : Storable done) :
    layouts.foldlM createTable (ofRows done fun _ => []) = some d' ↔
      Storable (done ++ layouts) ∧ d' = ofRows (done ++ layouts) fun _ => [] := by
  induction layouts generalizing done with
  | nil => simp [hd, eq_comm]
  | cons l layouts ih =>
    have hnames : (ofRows done fun _ => []).tables.map (·.name) = done.map (·.name) := by
      rw [ofRows, List.map_map]
      rfl
    have hsnoc : (⟨(ofRows done fun _ => []).tables ++ [⟨l.name, l.columns, []⟩]⟩ : Database) =
        ofRows (done ++ [l]) fun _ => [] := by
      rw [ofRows, ofRows, List.map_append, List.map_singleton]
    rw [List.foldlM_cons, Option.bind_eq_bind, Option.bind_eq_some_iff, List.append_cons]
    simp only [createTable_eq_some, accepts_iff hd hnames, hsnoc]
    constructor
    · rintro ⟨_, ⟨hl, rfl⟩, hrest⟩
      exact (ih hl).mp hrest
    · rintro ⟨hall, rfl⟩
      have hl := hall.sublist (List.sublist_append_left _ _)
      exact ⟨_, ⟨hl, rfl⟩, (ih hl).mpr ⟨hall, rfl⟩⟩

end Database

namespace Relational

variable {reg : Registry} {s : Schema} {r : Relational} {ls : List TableLayout}

theorem withoutTables_eq_ok (h : withoutTables reg s = .ok r) :
    r.registry = reg ∧ r.schema = s ∧ r.database = .empty := by
  unfold withoutTables at h
  split at h
  · cases h
    exact ⟨rfl, rfl, rfl⟩
  · cases h

theorem withoutTables_eq (h : s.layouts reg = .ok ls) :
    withoutTables reg s = .ok ⟨reg, s, ls, .empty, h⟩ := by
  unfold withoutTables
  split
  · rename_i ls' h'
    cases h.symm.trans h'
    rfl
  · rename_i e h'
    cases h.symm.trans h'

/-- A store that is set up has an empty table for every layout. -/
theorem create_eq_ok (h : create reg s = .ok r) :
    r.registry = reg ∧ r.schema = s ∧ Storable r.layouts ∧
      r.database = .ofRows r.layouts fun _ => [] := by
  obtain ⟨r₀, h₀, htables⟩ := bind_eq_ok.mp h
  obtain ⟨rfl, rfl, hempty⟩ := withoutTables_eq_ok h₀
  split at htables
  · rename_i d hd
    cases htables
    rw [hempty] at hd
    obtain ⟨hstorable, hdatabase⟩ := (Database.foldlM_createTable_eq_some storable_nil).mp hd
    exact ⟨rfl, rfl, hstorable, hdatabase⟩
  · cases htables

theorem create_eq (hls : s.layouts reg = .ok ls) : create reg s =
    match ls.foldlM Database.createTable (.ofRows [] fun _ => []) with
    | some d => .ok ⟨reg, s, ls, d, hls⟩
    | none => .error (.failed (.fault .notCreated)) := by
  unfold create
  rw [withoutTables_eq hls, ok_bind]
  rfl

theorem exists_create (hls : s.layouts reg = .ok ls) (h : Storable ls) :
    ∃ r, create reg s = .ok r := by
  rw [create_eq hls, (Database.foldlM_createTable_eq_some storable_nil).mpr ⟨h, rfl⟩]
  exact ⟨_, rfl⟩

theorem create_eq_error (hls : s.layouts reg = .ok ls) (h : ¬Storable ls) :
    create reg s = .error (.failed (.fault .notCreated)) := by
  rw [create_eq hls]
  split
  · rename_i d hd
    exact absurd ((Database.foldlM_createTable_eq_some storable_nil).mp hd).1 h
  · rfl

end Relational

/-- A row holds what the columns make of the entries of a record, and nothing else. -/
def Stored (l : TableLayout) (record : Value) (row : Row) : Prop :=
  ∀ c ∈ l.columns, match record.required c.name with
    | .ok v => c.type.cell v = .ok (row.get c.name)
    | .error _ => row.get c.name = none

namespace Row

theorem get_cons (n m : String) (v : Value) (row : Row) :
    Row.get ((n, v) :: row) m = if foldCase n = foldCase m then some v else row.get m := by
  simp only [get, List.find?_cons]
  by_cases h : foldCase n = foldCase m
  · rw [sameName_iff.mpr h, if_pos h]
    rfl
  · rw [Bool.eq_false_iff.mpr fun hs => h (sameName_iff.mp hs), if_neg h]

end Row

namespace Relational

theorem rowOf_cons_eq_ok {c : Column} {v : Value} {values : List (Column × Value)} {row : Row}
    (h : rowOf ((c, v) :: values) = .ok row) :
    ∃ held rest, c.type.cell v = .ok held ∧ rowOf values = .ok rest ∧
      row = (held.map fun w => (c.name, w)).toList ++ rest := by
  obtain ⟨cells, hcells, h⟩ := bind_eq_ok.mp h
  cases h
  rw [List.mapM_cons] at hcells
  obtain ⟨cell, hcell, hcells⟩ := bind_eq_ok.mp hcells
  obtain ⟨held, hheld, hcell⟩ := bind_eq_ok.mp hcell
  cases hcell
  obtain ⟨rest, hrest, hcells⟩ := bind_eq_ok.mp hcells
  cases hcells
  refine ⟨held, rest.filterMap fun e => e.2.map fun v => (e.1, v), hheld, ?_, ?_⟩
  · rw [rowOf, hrest]
    rfl
  · cases held <;> rfl

theorem get_of_rowOf {cs : List Column} {v : Value} {values : List (Column × Value)} {row : Row}
    (hd : (cs.map fun c => foldCase c.name).Nodup) (hv : valuesOf cs v = some values)
    (h : rowOf values = .ok row) :
    (∀ c ∈ cs, ∃ w, v.required c.name = .ok w ∧ c.type.cell w = .ok (row.get c.name)) ∧
      ∀ n, foldCase n ∉ cs.map (fun c => foldCase c.name) → row.get n = none := by
  induction cs generalizing values row with
  | nil =>
    cases hv
    cases h
    exact ⟨by simp, fun n _ => rfl⟩
  | cons c cs ih =>
    obtain ⟨hfresh, hd⟩ := List.nodup_cons.mp hd
    rw [valuesOf, List.mapM_cons] at hv
    obtain ⟨pair, hpair, hv⟩ := Option.bind_eq_some_iff.mp hv
    obtain ⟨rest, hrest, hv⟩ := Option.bind_eq_some_iff.mp hv
    cases hv
    split at hpair
    · rename_i w hw
      cases hpair
      obtain ⟨held, row', hheld, hrow', rfl⟩ := rowOf_cons_eq_ok h
      obtain ⟨hget, hnone⟩ := ih hd hrest hrow'
      have hrow (n : String) : Row.get ((held.map fun w => (c.name, w)).toList ++ row') n =
          if foldCase c.name = foldCase n then held else row'.get n := by
        cases held with
        | some u => exact Row.get_cons ..
        | none =>
          split
          · rename_i hname
            exact hnone n (hname ▸ hfresh)
          · rfl
      constructor
      · intro d hd'
        rw [hrow]
        rcases List.mem_cons.mp hd' with rfl | hd'
        · rw [if_pos rfl]
          exact ⟨w, hw, hheld⟩
        · have hne : foldCase c.name ≠ foldCase d.name := fun hname =>
            hfresh (List.mem_map.mpr ⟨d, hd', hname.symm⟩)
          rw [if_neg hne]
          exact hget d hd'
      · intro n hn
        rw [List.map_cons, List.mem_cons, not_or] at hn
        rw [hrow, if_neg (Ne.symm hn.1)]
        exact hnone n hn.2
    · cases hpair

/-- The columns that are filled are those that the record has an entry for. -/
theorem stored_of_rowOf {l : TableLayout} {v : Value} {values : List (Column × Value)} {row : Row}
    (hd : (l.columns.map fun c => foldCase c.name).Nodup)
    (hv : valuesOf (filledColumns l v) v = some values) (h : rowOf values = .ok row) :
    Stored l v row := by
  have hsub : (filledColumns l v).Sublist l.columns := List.filter_sublist
  obtain ⟨hget, hnone⟩ := get_of_rowOf (hd.sublist (hsub.map _)) hv h
  intro c hc
  split
  · rename_i w hw
    have hfilled : c ∈ filledColumns l v := by
      rw [filledColumns, List.mem_filter, hw]
      exact ⟨hc, rfl⟩
    obtain ⟨u, hu, hcell⟩ := hget c hfilled
    cases hw.symm.trans hu
    exact hcell
  · rename_i e he
    apply hnone
    intro hmem
    obtain ⟨d, hd', hname⟩ := List.mem_map.mp hmem
    obtain ⟨hdl, hdv⟩ := List.mem_filter.mp hd'
    rw [List.inj_on_of_nodup_map hd hdl hc hname, he] at hdv
    cases hdv

theorem insertRow_eq_ok {otherwise : Fault} {t new : Table} {row : Except Unstorable Row}
    (h : insertRow otherwise t row = .ok new) :
    ∃ cells, row = .ok cells ∧ new = { t with rows := t.rows ++ [cells] } := by
  obtain ⟨cells, hcells, h⟩ := bind_eq_ok.mp h
  split at h
  · cases h
    exact ⟨cells, mapError_eq_ok.mp hcells, rfl⟩
  · cases h

theorem insertInto_eq_ok {t new : Table} {l : TableLayout} {v : Value} {otherwise : Fault}
    (hd : (l.columns.map fun c => foldCase c.name).Nodup)
    (h : insertInto t l [v] otherwise = .ok new) :
    ∃ row, Stored l v row ∧ new = { t with rows := t.rows ++ [row] } := by
  have hfirst : [v].head?.getD (.object []) = v := rfl
  unfold insertInto at h
  rw [hfirst] at h
  dsimp only at h
  rw [List.mapM_cons] at h
  cases hv : valuesOf (filledColumns l v) v with
  | none =>
    rw [hv] at h
    cases h
  | some values =>
    rw [hv] at h
    simp only [List.mapM_nil, Option.pure_def, Option.bind_eq_bind, Option.bind_some] at h
    split at h
    · cases h
    · obtain ⟨t', ht', h⟩ := bind_eq_ok.mp h
      cases h
      obtain ⟨row, hrow, rfl⟩ := insertRow_eq_ok ht'
      exact ⟨row, stored_of_rowOf hd hv hrow, rfl⟩

variable {r r' : Relational} {n : String} {l : TableLayout} {v : Value}
  {rows : String → List Row}

theorem layout_eq_ok (h : r.layout n = .ok l) : l ∈ r.layouts ∧ l.name = n := by
  unfold layout at h
  split at h
  · rename_i l' hfound
    cases h
    have hname := List.find?_some hfound
    exact ⟨List.mem_of_find?_eq_some hfound, beq_iff_eq.mp hname⟩
  · cases h

theorem exists_layout_of_mem (hl : l ∈ r.layouts) : ∃ l', r.layout l.name = .ok l' := by
  have hfound : (r.layouts.find? (·.name == l.name)).isSome := by
    rw [List.find?_isSome]
    exact ⟨l, hl, beq_iff_eq.mpr rfl⟩
  obtain ⟨l', hl'⟩ := Option.isSome_iff_exists.mp hfound
  exact ⟨l', by rw [layout, hl']⟩

theorem laidOut {i : Snapshot} (hs : r.schema = i.schema) (hr : r.registry = .standard)
    {t : ObjectType} (ht : i.schema.type? n = some t) (hl : r.layout n = .ok l) :
    t.isNode = true ∧ LaidOut i.schema .standard t l := by
  obtain ⟨hmem, hname⟩ := layout_eq_ok hl
  obtain ⟨u, hu, hnode, hlaid⟩ := Schema.exists_of_mem_layouts r.layouts_eq hmem
  rw [hs] at hu hlaid
  rw [hr] at hlaid
  obtain ⟨k, hk⟩ := i.valid.exists_name hu
  have hkn : k = n := by
    rw [← hname, hlaid.name, hk]
    rfl
  cases (i.valid.type?_of_mem hu (hkn ▸ hk)).symm.trans ht
  exact ⟨hnode, hlaid⟩

theorem exists_layout {i : Snapshot} (hs : r.schema = i.schema) (hr : r.registry = .standard)
    {t : ObjectType} (ht : i.schema.type? n = some t) (hn : t.isNode = true) :
    ∃ l, r.layout n = .ok l := by
  have hlayouts : i.schema.layouts .standard = .ok r.layouts := by
    rw [← hs, ← hr]
    exact r.layouts_eq
  obtain ⟨l, hmem, hlaid⟩ := Schema.exists_mem_layouts hlayouts (Schema.mem_of_type? ht) hn
  have hname : l.name = n := by
    rw [hlaid.name, Schema.type?_name ht]
    rfl
  exact hname ▸ exists_layout_of_mem hmem

/-- Inserting one record adds one row to the table for its type. -/
theorem insert_eq_ok (hs : Separate r.layouts) (hdb : r.database = .ofRows r.layouts rows)
    (hv : ∃ entries, v = .object entries) (h : r.insert n (.list [v]) = .ok r') :
    ∃ l row, r.layout n = .ok l ∧ Stored l v row ∧
      r' = { r with database := .ofRows r.layouts (Function.update rows n (rows n ++ [row])) } := by
  obtain ⟨entries, rfl⟩ := hv
  obtain ⟨l, hl, h⟩ := bind_eq_ok.mp h
  obtain ⟨records, hrecords, h⟩ := bind_eq_ok.mp h
  cases hrecords
  obtain ⟨hmem, hname⟩ := layout_eq_ok hl
  rw [hdb, Database.table?_ofRows hs hmem] at h
  obtain ⟨new, hnew, h⟩ := bind_eq_ok.mp h
  obtain ⟨row, hrow, rfl⟩ := insertInto_eq_ok (hs.columns l hmem) hnew
  refine ⟨l, row, hl, hrow, ?_⟩
  rw [Database.onTable_ofRows hs hmem] at h
  cases h
  rw [hname]

end Relational

end ObjectQuery
