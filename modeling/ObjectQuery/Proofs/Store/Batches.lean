import ObjectQuery.Proofs.Store.Paging

/-!
# Records that are inserted together

Records go into a table together, or none of them does. Which columns are filled is decided by the
first one. The others have to have an entry for each of these columns, and what else they have
entries for is lost.
-/

set_option autoImplicit false

namespace ObjectQuery

open Outcome

/-- The values that a column is for, null among them. -/
inductive ColumnType.Suits : ColumnType → Value → Prop where
  | null (t : ColumnType) : Suits t .null
  | varchar (s : String) : Suits .varchar (.text s)
  | text (s : String) : Suits .text (.text s)
  | integer {n : Int} (hn : Datum.fits n = true) : Suits .integer (.int n)
  | float {x : Binary64} (hx : x.isFinite = true) : Suits .float (.float x)
  | boolean (b : Bool) : Suits .boolean (.bool b)
  | datetime {m : Moment} (hm : m.isLocal = true) : Suits .datetime (.moment m)
  | json {v : Value} (hv : v.json?.isSome = true) (hn : ∀ n, v = .int n → Datum.fits n = true) :
    Suits .json v

/-- A column stores a value that it is for, and gives it back. -/
theorem ColumnType.Suits.exists_cell {t : ColumnType} {v : Value} (h : t.Suits v) :
    ∃ held, t.cell v = .ok held ∧ v.Alike (held.getD .null) := by
  have hscalar {s : Scalar} {held : Option Value} (hs : s.Holds v)
      (hc : (ColumnType.ofScalar s).cell v = .ok held) : v.Alike (held.getD .null) :=
    Scalar.Allows.alike (.inr hs) hc
  cases h with
  | null =>
    cases t with
    | json => exact ⟨some .null, rfl, .same⟩
    | _ => exact ⟨none, rfl, .same⟩
  | varchar s => exact ⟨_, rfl, .same⟩
  | text s => exact ⟨_, rfl, .same⟩
  | @integer n hn =>
    have hcell : ColumnType.cell .integer (.int n) = .ok (some (.int n)) := by
      rw [cell, Cell.asInteger, Datum.ofValue, Datum.ofInt, if_pos hn]
      rfl
    exact ⟨_, hcell, .same⟩
  | float hx => exact ⟨_, rfl, hscalar (.float hx) rfl⟩
  | boolean b => cases b <;> exact ⟨_, rfl, .same⟩
  | datetime hm => exact ⟨_, rfl, hscalar (.datetime hm) rfl⟩
  | json hv hn =>
    obtain ⟨s, hs⟩ := Option.isSome_iff_exists.mp hv
    have hcell : ∃ w, Cell.asStructured v = .ok (some w) := by
      rw [Cell.asStructured, hs]
      cases Cell.numberIn v <;> exact ⟨_, rfl⟩
    obtain ⟨w, hw⟩ := hcell
    exact ⟨some w, hw, Value.readsBack_of_fits hn w hw⟩

namespace Relational

variable {r r' r₀ : Relational} {l : TableLayout} {n id : String} {cs : List Column} {v : Value}
  {records : List Value} {t : Table} {row : Row} {rows : List Row} {otherwise : Fault}

/-- A row in which some columns are filled with what a record has for them, and no others. -/
structure Fills (cs : List Column) (v : Value) (row : Row) : Prop where
  cells : ∀ c ∈ cs, ∃ w, v.required c.name = .ok w ∧ c.type.cell w = .ok (row.get c.name)
  others : ∀ n, foldCase n ∉ cs.map (fun c => foldCase c.name) → row.get n = none

/-- Each record has entries for these columns. -/
def HaveEntries (cs : List Column) (records : List Value) : Prop :=
  ∀ v ∈ records, ∀ c ∈ cs, (v.required c.name).isOk = true

/-- What records have entries for are values that these columns are for. -/
def Suit (cs : List Column) (records : List Value) : Prop :=
  ∀ v ∈ records, ∀ c ∈ cs, ∀ w, v.required c.name = .ok w → c.type.Suits w

theorem exists_row (hd : (cs.map fun c => foldCase c.name).Nodup)
    (he : ∀ c ∈ cs, (v.required c.name).isOk = true)
    (hs : ∀ c ∈ cs, ∀ w, v.required c.name = .ok w → c.type.Suits w) :
    ∃ values row, valuesOf cs v = some values ∧ readable values = true ∧
      rowOf values = .ok row ∧ Fills cs v row := by
  obtain ⟨values, hvalues, hall⟩ := exists_valuesOf he
  have hcells : ∀ e ∈ values, ∃ held, e.1.type.cell e.2 = .ok held := by
    intro e hmem
    obtain ⟨hc, hrequired⟩ := hall e hmem
    obtain ⟨held, hheld, _⟩ := (hs e.1 hc e.2 hrequired).exists_cell
    exact ⟨held, hheld⟩
  obtain ⟨row, hrow⟩ := exists_rowOf hcells
  obtain ⟨hget, hnone⟩ := get_of_rowOf hd hvalues hrow
  refine ⟨values, row, hvalues, List.all_eq_true.mpr fun e hmem => ?_, hrow, hget, hnone⟩
  obtain ⟨held, hheld⟩ := hcells e hmem
  rw [hheld]
  rfl

theorem exists_rows (hd : (cs.map fun c => foldCase c.name).Nodup) (he : HaveEntries cs records)
    (hs : Suit cs records) : ∃ values rows, records.mapM (valuesOf cs) = some values ∧
      values.all readable = true ∧ values.map rowOf = rows.map .ok ∧
      List.Forall₂ (Fills cs) records rows := by
  induction records with
  | nil => exact ⟨[], [], rfl, rfl, rfl, .nil⟩
  | cons v records ih =>
    obtain ⟨hev, he⟩ := List.forall_mem_cons.mp he
    obtain ⟨hsv, hs⟩ := List.forall_mem_cons.mp hs
    obtain ⟨vs, row, hvs, hread, hrow, hfills⟩ := exists_row hd hev hsv
    obtain ⟨values, rows, hvalues, hreadable, hrows, hfill⟩ := ih he hs
    refine ⟨vs :: values, row :: rows, ?_, ?_, ?_, .cons hfills hfill⟩
    · rw [List.mapM_cons, hvs, hvalues]
      rfl
    · rw [List.all_cons, hread, hreadable, Bool.and_self]
    · rw [List.map_cons, List.map_cons, hrow, hrows]

theorem haveEntries_of_mapM {values : List (List (Column × Value))}
    (h : records.mapM (valuesOf cs) = some values) : HaveEntries cs records := by
  intro v hv c hc
  obtain ⟨vs, _, hvs⟩ := exists_left_of_mem (mapM_eq_some.mp h).flip hv
  obtain ⟨e, _, he⟩ := exists_left_of_mem (mapM_eq_some.mp hvs).flip hc
  split at he
  · rename_i w hw
    rw [hw]
    rfl
  · cases he

/-- A row is added if the table with it and others would be told apart by ids. -/
theorem admits_of_keyedById
    (hkey : t.columns.find? (·.isKey) = some ⟨idName, .varchar, true⟩)
    (hk : Table.KeyedById { t with rows := t.rows ++ row :: rows }) : admits t row = true := by
  obtain ⟨hpresent, hdistinct⟩ := hk
  obtain ⟨id, hid⟩ := hpresent row (List.mem_append_right _ List.mem_cons_self)
  rw [admits, hkey]
  dsimp only
  rw [hid, Option.any_some, Bool.not_eq_true', List.any_eq_false]
  intro other hother
  obtain ⟨otherId, hget⟩ := hpresent other (List.mem_append_left _ hother)
  have hne : idOf other ≠ idOf row := by
    rw [List.map_append, List.nodup_append] at hdistinct
    exact hdistinct.2.2 _ (List.mem_map_of_mem hother) _ List.mem_cons_self
  rw [idOf_of_get hget, idOf_of_get hid] at hne
  rw [hget, Option.any_some]
  simpa using hne

/-- Rows are added one after the other if all rows of the table that comes of it are told apart by
ids. -/
theorem foldlM_insertRow_ok (hkey : t.columns.find? (·.isKey) = some ⟨idName, .varchar, true⟩)
    (hk : Table.KeyedById { t with rows := t.rows ++ rows }) :
    (rows.map Except.ok).foldlM (insertRow otherwise) t =
      .ok { t with rows := t.rows ++ rows } := by
  induction rows generalizing t with
  | nil =>
    rw [List.append_nil]
    rfl
  | cons row rows ih =>
    have hrow : insertRow otherwise t (.ok row) = .ok { t with rows := t.rows ++ [row] } := by
      rw [insertRow, Except.mapError, ok_bind, if_pos (admits_of_keyedById hkey hk)]
      rfl
    have happend := List.append_cons t.rows row rows
    rw [happend] at hk
    rw [List.map_cons, List.foldlM_cons, hrow, ok_bind, happend]
    exact ih (t := { t with rows := t.rows ++ [row] }) hkey hk

/-- The record whose entries decide which columns are filled. -/
def lead (records : List Value) : Value := records.head?.getD (.object [])

/-- There are records, and they have entries for all columns that the first one has entries for. -/
structure Even (l : TableLayout) (records : List Value) : Prop where
  nonempty : records ≠ []
  haveEntries : HaveEntries (filledColumns l (lead records)) records

theorem insertInto_eq_error (hkey : t.columns.find? (·.isKey) = some ⟨idName, .varchar, true⟩)
    (h : ¬Even l records) : insertInto t l records otherwise = .error (.fault otherwise) := by
  have hrow : insertRow otherwise t (.ok []) = .error (.fault otherwise) := by
    have hadmits : admits t [] = false := by
      rw [admits, hkey]
      rfl
    rw [insertRow, Except.mapError, ok_bind, if_neg (by rw [hadmits]; exact Bool.false_ne_true)]
    rfl
  unfold insertInto
  dsimp only
  split
  · rename_i values hvalues
    have hnone : records = [] := by
      by_contra hne
      exact h ⟨hne, haveEntries_of_mapM hvalues⟩
    subst hnone
    rw [List.mapM_nil] at hvalues
    cases hvalues
    split
    · rfl
    · rw [List.isEmpty_nil, if_pos rfl, List.foldlM_cons, hrow]
      rfl
  · rfl

theorem insertInto_ok (hkey : t.columns.find? (·.isKey) = some ⟨idName, .varchar, true⟩)
    (hcolumns : t.hasColumns (filledColumns l (lead records)) = true) (hne : rows ≠ [])
    {values : List (List (Column × Value))}
    (hvalues : records.mapM (valuesOf (filledColumns l (lead records))) = some values)
    (hreadable : values.all readable = true) (hrows : values.map rowOf = rows.map .ok)
    (hk : Table.KeyedById { t with rows := t.rows ++ rows }) :
    insertInto t l records otherwise = .ok { t with rows := t.rows ++ rows } := by
  have hsome : values.isEmpty = false := by
    rw [List.isEmpty_eq_false_iff]
    rintro rfl
    exact hne (List.map_eq_nil_iff.mp hrows.symm)
  unfold insertInto
  dsimp only
  rw [← lead, hvalues]
  dsimp only
  rw [hcolumns, hreadable, hsome, if_neg (by decide), if_neg Bool.false_ne_true, hrows]
  exact foldlM_insertRow_ok hkey hk

/-- At most one row has a given id, and so it is the first one in any order. -/
theorem head?_sortedRows (h : (rows.map idOf).Nodup) (id : String) :
    (sortedRows (rows.filter (idOf · == id))).head? = rows.find? (idOf · == id) := by
  have hperm := sortedRows_perm (rows.filter (idOf · == id))
  cases hhead : (sortedRows (rows.filter (idOf · == id))).head? with
  | none =>
    rw [List.head?_eq_none_iff.mp hhead] at hperm
    exact (List.find?_eq_none.mpr (List.filter_eq_nil_iff.mp hperm.nil_eq.symm)).symm
  | some row =>
    obtain ⟨hrow, hid⟩ := List.mem_filter.mp (hperm.mem_iff.mp (List.mem_of_head? hhead))
    rw [← beq_iff_eq.mp hid, find?_of_mem h hrow]

theorem matching_id (ht : r.database.table? l.name = some t)
    (hcolumns : t.hasColumns l.columns = true)
    (hid : l.column? idName = some ⟨idName, .varchar, true⟩) (hk : t.KeyedById) (id : String) :
    r.matching l otherwise [⟨⟨idName, .varchar, true⟩, .text id⟩] =
      .ok (t.rows.filter (idOf · == id)) := by
  have hkey : t.hasColumns [⟨idName, .varchar, true⟩] = true := by
    rw [Table.hasColumns, List.all_eq_true] at hcolumns ⊢
    exact List.forall_mem_singleton.mpr (hcolumns _ (TableLayout.mem_of_column? hid).1)
  have htests : tests otherwise [⟨⟨idName, .varchar, true⟩, .text id⟩] =
      .ok [⟨⟨idName, .varchar, true⟩, .datum (.text id)⟩] := rfl
  rw [matching, ht]
  simp only [List.map_cons, List.map_nil, hkey, if_true, htests, ok_bind, pure_eq_ok]
  refine congrArg Except.ok (List.filter_congr fun row hrow => ?_)
  obtain ⟨rowId, hget⟩ := hk.present row hrow
  rw [List.all_cons, List.all_nil, Bool.and_true, Test.holds, hget, idOf_of_get hget]
  exact BEq.comm

theorem Readable.find_text (h : r.Readable) (hl : r.layout n = .ok l)
    (ht : r.database.table? l.name = some t) (id : String) :
    r.find n (.text id) = .ok ((t.rows.find? (idOf · == id)).map (record l)) := by
  obtain ⟨hmem, _⟩ := layout_eq_ok hl
  have hid := h.column?_id l hmem
  obtain ⟨t', ht', hcolumns, hkeyed⟩ := h.exists_table l hmem
  cases ht.symm.trans ht'
  have hcolumn : column l idName = .ok ⟨idName, .varchar, true⟩ := by
    rw [column, hid]
  rw [find, hl, ok_bind, hcolumn, ok_bind, Relational.rows, ht, Option.any_some, if_pos hcolumns,
    matching_id ht hcolumns hid hkeyed, ok_bind, pure_eq_ok, ok_bind]
  exact congrArg (fun o => Except.ok (o.map (record l))) (head?_sortedRows hkeyed.distinct id)

theorem gatherAll_eq (h : ∀ v ∈ records, ∃ entries, v = .object entries) :
    Record.gatherAll (.list records) = .ok records := by
  have hparts : (records.mapM fun part => do return .object (← Record.gather part) :
      Except Misuse (List Value)) = .ok (records.map fun v => v) := by
    refine mapM_ok fun v hv => ?_
    obtain ⟨entries, rfl⟩ := h v hv
    rfl
  rw [List.map_id'] at hparts
  exact hparts

/-- A table that takes the place of one of its name, and those of other names. -/
theorem table?_of_onTable {d d' : Database} {new : Table} {name : String}
    (h : d.onTable name (fun _ => some new) = some d') (hd' : d'.Distinct)
    (hnew : sameName new.name name = true) :
    d'.table? name = some new ∧ ∀ u ∈ d.tables, sameName u.name name = false →
      d'.table? u.name = some u := by
  obtain ⟨t, ht, htn, _, hsome, htables⟩ := Database.onTable_eq_some h
  cases hsome
  constructor
  · refine hd'.table?_of_mem ?_ hnew
    rw [htables]
    exact List.mem_map.mpr ⟨t, ht, if_pos htn⟩
  · intro u hu hun
    refine hd'.table?_of_mem ?_ (sameName_self u.name)
    rw [htables]
    exact List.mem_map.mpr ⟨u, hu, if_neg (by rw [hun]; exact Bool.false_ne_true)⟩

theorem insert_eq_error (hl : r.layout n = .ok l) (ht : r.database.table? l.name = some t)
    (hv : ∀ v ∈ records, ∃ entries, v = .object entries) {e : Failure}
    (hnew : insertInto t l records (.notInserted n) = .error e) :
    r.insert n (.list records) = .error e := by
  rw [Relational.insert, hl, ok_bind, gatherAll_eq hv, Except.mapError, ok_bind, ht]
  dsimp only
  rw [hnew, error_bind]

/-- Rows that are added to the table for a layout can be found there, and whatever is in other
tables is found as before. -/
theorem Identifying.exists_insert_ok (h : r.Identifying) (hl : r.layout n = .ok l)
    (ht : r.database.table? l.name = some t) (hv : ∀ v ∈ records, ∃ entries, v = .object entries)
    (hnew : insertInto t l records (.notInserted n) = .ok { t with rows := t.rows ++ rows }) :
    ∃ r', r.insert n (.list records) = .ok r' ∧
      (∀ id, r'.find n (.text id) =
        .ok (((t.rows ++ rows).find? (idOf · == id)).map (record l))) ∧
      ∀ m ≠ n, ∀ id, r'.find m (.text id) = r.find m (.text id) := by
  obtain ⟨hmem, hname⟩ := layout_eq_ok hl
  have hfound : r.database.tables.find? (sameName ·.name l.name) = some t := ht
  have hsame := List.find?_some hfound
  obtain ⟨d, hd⟩ : ∃ d, r.database.onTable l.name
      (fun _ => some { t with rows := t.rows ++ rows }) = some d := by
    rw [Database.onTable, ht]
    exact ⟨_, rfl⟩
  have hinsert : r.insert n (.list records) = .ok { r with database := d } := by
    rw [Relational.insert, hl, ok_bind, gatherAll_eq hv, Except.mapError, ok_bind, ht]
    dsimp only
    rw [hnew, ok_bind, hd]
    rfl
  have h' := h.insert hinsert
  have hdistinct := h'.consistent.fits.distinct h'.consistent.storable.toSeparate
  obtain ⟨hnewTable, hothers⟩ := table?_of_onTable hd hdistinct hsame
  refine ⟨_, hinsert, fun id => h'.readable.find_text hl hnewTable id, fun m hm id => ?_⟩
  cases hlm : r.layout m with
  | error e =>
    have hlm' : layout { r with database := d } m = .error e := hlm
    rw [find, find, hlm, hlm']
    rfl
  | ok l' =>
    obtain ⟨hmem', hname'⟩ := layout_eq_ok hlm
    obtain ⟨t', ht', hname'', htable, _⟩ := h.consistent.exists_table hmem'
    have hother : sameName t'.name l.name = false := by
      rw [Bool.eq_false_iff, hname'']
      intro hsame'
      have heq := h.consistent.storable.toSeparate.eq_of_sameName hmem' hmem hsame'
      exact hm (by rw [← hname', heq, hname])
    have htable' := hothers t' ht' hother
    rw [hname''] at htable'
    rw [h'.readable.find_text hlm htable' id, h.readable.find_text hlm htable id]

/-- What is found of a record of which some columns are filled: an entry for every column. -/
structure Kept (l : TableLayout) (cs : List Column) (given found : Value) : Prop where
  filled : ∀ c ∈ cs, ∃ v w,
    given.required c.name = .ok v ∧ found.required c.name = .ok w ∧ v.Alike w
  others : ∀ c ∈ l.columns, c ∉ cs → found.required c.name = .ok .null

/-- A record is found with all that it was given with, and with null in all other columns. -/
def Returned (r : Relational) (n : String) (l : TableLayout) (given : Value) : Prop :=
  ∃ found, r.find n (.text given.idText) = .ok (some found) ∧
    ∀ c ∈ l.columns, ∃ w, found.required c.name = .ok w ∧ (given.held c.name).Alike w

theorem Fills.get_id (h : Fills cs v row) (hv : HasId v)
    (hid : ⟨idName, .varchar, true⟩ ∈ cs) : row.get idName = some (.text v.idText) := by
  obtain ⟨w, hw, hcell⟩ := h.cells _ hid
  cases hv.required_eq.symm.trans hw
  have hkept : Except.ok (some (Value.text v.idText)) =
      (Except.ok (row.get idName) : Except Unstorable _) := hcell
  exact (Except.ok.inj hkept).symm

/-- The row for a record with an id. -/
structure RowFor (cs : List Column) (v : Value) (row : Row) : Prop extends Fills cs v row where
  id : row.get idName = some (.text v.idText)

theorem forall₂_rowFor (h : List.Forall₂ (Fills cs) records rows) (hk : Keyed records)
    (hid : ⟨idName, .varchar, true⟩ ∈ cs) : List.Forall₂ (RowFor cs) records rows :=
  ((List.forall₂_and_left _ _).mpr ⟨hk.hasId, h⟩).imp fun _ _ hv => ⟨hv.2, hv.2.get_id hv.1 hid⟩

theorem map_idOf_eq (h : List.Forall₂ (RowFor cs) records rows) :
    rows.map idOf = records.map Value.idText := by
  rw [← List.forall₂_eq_eq_eq, List.forall₂_map_left_iff, List.forall₂_map_right_iff]
  exact h.flip.imp fun row v hrow => idOf_of_get hrow.id

theorem keyedById_append (ht : t.KeyedById) (hk : Keyed records)
    (h : List.Forall₂ (RowFor cs) records rows)
    (hnew : ∀ v ∈ records, v.idText ∉ t.rows.map idOf) :
    Table.KeyedById { t with rows := t.rows ++ rows } := by
  constructor
  · refine List.forall_mem_append.mpr ⟨ht.present, fun row hrow => ?_⟩
    obtain ⟨v, _, hv⟩ := exists_left_of_mem h hrow
    exact ⟨v.idText, hv.id⟩
  · rw [List.map_append, map_idOf_eq h]
    refine List.nodup_append.mpr ⟨ht.distinct, hk.distinct, fun a ha b hb hab => ?_⟩
    obtain ⟨v, hv, rfl⟩ := List.mem_map.mp hb
    exact hnew v hv (hab ▸ ha)

/-- A record that is added is found by its id as what its row is read as. -/
theorem find?_append_of_mem (hk : Table.KeyedById { t with rows := t.rows ++ rows })
    (h : List.Forall₂ (RowFor cs) records rows) (hv : v ∈ records) :
    ∃ row, RowFor cs v row ∧ (t.rows ++ rows).find? (idOf · == v.idText) = some row := by
  obtain ⟨row, hrow, hfor⟩ := exists_left_of_mem h.flip hv
  refine ⟨row, hfor, ?_⟩
  rw [← idOf_of_get hfor.id]
  exact find?_of_mem hk.distinct (List.mem_append_right _ hrow)

theorem find?_append_of_not_mem (h : List.Forall₂ (RowFor cs) records rows)
    (hid : id ∉ records.map Value.idText) :
    (t.rows ++ rows).find? (idOf · == id) = t.rows.find? (idOf · == id) := by
  have hnone : rows.find? (idOf · == id) = none := by
    refine List.find?_eq_none.mpr fun row hrow hrowId => hid ?_
    rw [← map_idOf_eq h, ← beq_iff_eq.mp hrowId]
    exact List.mem_map_of_mem hrow
  rw [List.find?_append, hnone, Option.or_none]

theorem Fills.kept (h : Fills cs v row) (hd : (l.columns.map fun c => foldCase c.name).Nodup)
    (hcs : cs ⊆ l.columns)
    (hs : ∀ c ∈ cs, ∀ w, v.required c.name = .ok w → c.type.Suits w) :
    Kept l cs v (record l row) := by
  have hnames : (l.columns.map (·.name)).Nodup := by
    refine List.Nodup.of_map foldCase ?_
    rwa [List.map_map]
  constructor
  · intro c hc
    obtain ⟨w, hw, hcell⟩ := h.cells c hc
    obtain ⟨held, hheld, halike⟩ := (hs c hc w hw).exists_cell
    cases hheld.symm.trans hcell
    exact ⟨w, _, hw, required_record (TableLayout.column?_of_mem hnames (hcs hc)), halike⟩
  · intro c hc hfree
    have hnone : row.get c.name = none := by
      refine h.others c.name fun hmem => ?_
      obtain ⟨c', hc', hname⟩ := List.mem_map.mp hmem
      exact hfree (List.inj_on_of_nodup_map hd (hcs hc') hc hname ▸ hc')
    rw [required_record (TableLayout.column?_of_mem hnames hc), hnone, Option.getD_none]

/-- All of a record is found if it has nothing in the columns that are not filled. -/
theorem Kept.alike_iff {given found : Value} (h : Kept l cs given found) :
    (∀ c ∈ l.columns, ∃ w, found.required c.name = .ok w ∧ (given.held c.name).Alike w) ↔
      ∀ c ∈ l.columns, c ∉ cs → given.held c.name = .null := by
  constructor
  · intro hall c hc hfree
    obtain ⟨w, hw, halike⟩ := hall c hc
    cases (h.others c hc hfree).symm.trans hw
    exact halike.null_iff.mpr rfl
  · intro hnull c hc
    by_cases hfilled : c ∈ cs
    · obtain ⟨v, w, hv, hw, halike⟩ := h.filled c hfilled
      rw [Value.held_of_required_eq_ok hv]
      exact ⟨w, hw, halike⟩
    · rw [hnull c hc hfilled]
      exact ⟨.null, h.others c hc hfilled, .same⟩

/-- Records of a type none of which is stored yet, with distinct ids and values that the columns are
for. -/
structure Fresh (r : Relational) (n : String) (l : TableLayout) (records : List Value) : Prop where
  keyed : Keyed records
  suit : Suit l.columns records
  absent : ∀ v ∈ records, r.find n (.text v.idText) = .ok none

/-- A store to which some records were added. Each of them is found with what it has for the columns
that are filled, and whatever else is looked for is found as before. -/
structure Added (r : Relational) (n : String) (l : TableLayout) (records : List Value)
    (r' : Relational) : Prop where
  kept : ∀ v ∈ records, ∃ found, r'.find n (.text v.idText) = .ok (some found) ∧
    Kept l (filledColumns l (lead records)) v found
  others : ∀ m id, (m = n → id ∉ records.map Value.idText) →
    r'.find m (.text id) = r.find m (.text id)
  /-- What is lost is what a record has for columns that the first one has no entry for. -/
  returned_iff : (∀ v ∈ records, r'.Returned n l v) ↔ ∀ v ∈ records, ∀ c ∈ l.columns,
    c ∉ filledColumns l (lead records) → v.held c.name = .null

theorem lead_mem (hne : records ≠ []) : lead records ∈ records := by
  obtain ⟨v, rest, rfl⟩ := List.exists_cons_of_ne_nil hne
  exact List.mem_cons_self

theorem id_mem_filledColumns (hid : l.column? idName = some ⟨idName, .varchar, true⟩)
    (hv : HasId v) : ⟨idName, .varchar, true⟩ ∈ filledColumns l v := by
  refine List.mem_filter.mpr ⟨(TableLayout.mem_of_column? hid).1, ?_⟩
  rw [hv.required_eq]
  rfl

/-- The rows for records that are even are added to the table. -/
theorem Identifying.exists_insertInto_ok (h : r.Identifying) (hl : r.layout n = .ok l)
    (ht : t ∈ r.database.tables) (htable : r.database.table? l.name = some t)
    (hcolumns : t.columns.Perm l.columns) (hf : r.Fresh n l records) (he : Even l records) :
    ∃ rows, insertInto t l records otherwise = .ok { t with rows := t.rows ++ rows } ∧
      List.Forall₂ (RowFor (filledColumns l (lead records))) records rows ∧
      Table.KeyedById { t with rows := t.rows ++ rows } := by
  obtain ⟨hmem, _⟩ := layout_eq_ok hl
  have hcs : filledColumns l (lead records) ⊆ l.columns := List.filter_subset_self ..
  have hid : ⟨idName, .varchar, true⟩ ∈ filledColumns l (lead records) :=
    id_mem_filledColumns (h.consistent.column?_id hmem) (hf.keyed.hasId _ (lead_mem he.nonempty))
  have hd := h.consistent.storable.columns l hmem
  have hsuit : Suit (filledColumns l (lead records)) records := fun v hv c hc =>
    hf.suit v hv c (hcs hc)
  obtain ⟨values, rows, hvalues, hreadable, hrows, hfills⟩ :=
    exists_rows (hd.sublist (List.filter_sublist.map _)) he.haveEntries hsuit
  have hfor := forall₂_rowFor hfills hf.keyed hid
  have hnew : ∀ v ∈ records, v.idText ∉ t.rows.map idOf := by
    intro v hv hold
    obtain ⟨row, hrow, hrowId⟩ := List.mem_map.mp hold
    have habsent := hf.absent v hv
    rw [h.readable.find_text hl htable, ← hrowId,
      find?_of_mem (h.keyed t ht).distinct hrow] at habsent
    cases habsent
  have hkeyed := keyedById_append (h.keyed t ht) hf.keyed hfor hnew
  have hne : rows ≠ [] := by
    rintro rfl
    exact he.nonempty (List.forall₂_nil_right_iff.mp hfills)
  have hhas : t.hasColumns (filledColumns l (lead records)) = true :=
    Table.hasColumns_of_subset fun c hc => hcolumns.mem_iff.mpr (hcs hc)
  exact ⟨rows, insertInto_ok (h.consistent.find?_isKey ht) hhas hne hvalues hreadable hrows hkeyed,
    hfor, hkeyed⟩

theorem Added.of_kept
    (hkept : ∀ v ∈ records, ∃ found, r'.find n (.text v.idText) = .ok (some found) ∧
      Kept l (filledColumns l (lead records)) v found)
    (hothers : ∀ m id, (m = n → id ∉ records.map Value.idText) →
      r'.find m (.text id) = r.find m (.text id)) : r.Added n l records r' := by
  refine ⟨hkept, hothers, forall₂_congr fun v hv => ?_⟩
  obtain ⟨found, hfound, hk⟩ := hkept v hv
  rw [← hk.alike_iff]
  constructor
  · rintro ⟨found', hfound', hall⟩
    cases hfound.symm.trans hfound'
    exact hall
  · exact fun hall => ⟨found, hfound, hall⟩

theorem Identifying.insert_fresh (h : r.Identifying) (hl : r.layout n = .ok l)
    (hf : r.Fresh n l records) :
    (Even l records → ∃ r', (insertRecords n (.list records)).result r = (.ok (), r') ∧
      r.Added n l records r') ∧
    (¬Even l records →
      (insertRecords n (.list records)).result r = (.error (.fault (.notInserted n)), r)) := by
  obtain ⟨hmem, _⟩ := layout_eq_ok hl
  obtain ⟨t, ht, _, htable, hcolumns⟩ := h.consistent.exists_table hmem
  have hobjects : ∀ v ∈ records, ∃ entries, v = .object entries := fun v hv =>
    (hf.keyed.hasId v hv).exists_entries
  rw [result_insertRecords]
  constructor
  · intro heven
    obtain ⟨rows, hnew, hfor, hkeyed⟩ := h.exists_insertInto_ok hl ht htable hcolumns hf heven
    obtain ⟨r', hinsert, hfind, hothers⟩ := h.exists_insert_ok hl htable hobjects hnew
    refine ⟨r', by rw [hinsert], .of_kept (fun v hv => ?_) fun m id hid => ?_⟩
    · obtain ⟨row, hrow, hfound⟩ := find?_append_of_mem hkeyed hfor hv
      have hcs : filledColumns l (lead records) ⊆ l.columns := List.filter_subset_self ..
      refine ⟨record l row, by rw [hfind, hfound]; rfl, ?_⟩
      exact hrow.toFills.kept (h.consistent.storable.columns l hmem) hcs fun c hc =>
        hf.suit v hv c (hcs hc)
    · by_cases hm : m = n
      · subst hm
        rw [hfind, find?_append_of_not_mem hfor (hid rfl), h.readable.find_text hl htable]
      · exact hothers m hm id
  · intro heven
    rw [insert_eq_error hl htable hobjects
      (insertInto_eq_error (h.consistent.find?_isKey ht) heven)]

/-- Records that are inserted together are all stored or none is: they are stored if there are any
and each has entries for the columns that the first one has entries for. What a record has for other
columns is lost. -/
theorem Reached.insert_together {rules : Validation.Rules} {s : Schema} (hs : s.Valid rules)
    (hr : rules.registry = .standard) (hc : create .standard s = .ok r₀) (h : r₀.Reached r)
    {type : ObjectType} (ht : r.schema.type? n = some type) (hn : type.isNode = true) :
    ∃ l, r.layout n = .ok l ∧ ∀ records, r.Fresh n l records →
      (Even l records → ∃ r', (insertRecords n (.list records)).result r = (.ok (), r') ∧
        r.Added n l records r') ∧
      (¬Even l records →
        (insertRecords n (.list records)).result r = (.error (.fault (.notInserted n)), r)) := by
  have hidentifying := h.identifying (.of_create hs hr hc)
  obtain ⟨l, hmem, hlaid⟩ := Schema.exists_mem_layouts r.layouts_eq (Schema.mem_of_type? ht) hn
  have hname : l.name = n := by
    rw [hlaid.name, Schema.type?_name ht]
    rfl
  obtain ⟨l', hl'⟩ := exists_layout_of_mem hmem
  rw [hname] at hl'
  exact ⟨l', hl', fun records hf => hidentifying.insert_fresh hl' hf⟩

end Relational

namespace Library

def untitledFirst : List Value := [
  .object [("id", .text "a")],
  .object [("id", .text "b"), ("title", .text "B")]]

theorem exists_create_absent : ∃ r, Relational.create .standard schema = .ok r ∧
    r.schema.type? "Book" = some bookType ∧ r.layout "Book" = .ok bookLayout ∧
    ∀ v ∈ untitledFirst, r.find "Book" (.text v.idText) = .ok none := by
  obtain ⟨r, hcreate⟩ : ∃ r, Relational.create .standard schema = .ok r := ⟨_, rfl⟩
  have hvalid : schema.Valid .standard := by rfl
  have hreadable := (Relational.Identifying.of_create hvalid rfl hcreate).readable
  obtain ⟨_, hschema, hstorable, hdatabase⟩ := Relational.create_eq_ok hcreate
  have hlayout : r.layout "Book" = .ok bookLayout := by
    cases hcreate
    rfl
  have htable : r.database.table? bookLayout.name =
      some ⟨bookLayout.name, bookLayout.columns, []⟩ := by
    rw [hdatabase]
    exact Database.table?_ofRows hstorable.toSeparate (Relational.layout_eq_ok hlayout).1
  exact ⟨r, hcreate, by rw [hschema]; rfl, hlayout, fun v _ =>
    hreadable.find_text hlayout htable v.idText⟩

theorem fresh_of_perm {r : Relational} {records : List Value}
    (hrecords : records.Perm untitledFirst)
    (habsent : ∀ v ∈ untitledFirst, r.find "Book" (.text v.idText) = .ok none) :
    r.Fresh "Book" bookLayout records := by
  have hkeyed : Keyed untitledFirst :=
    ⟨List.forall_mem_cons.mpr ⟨⟨"a", rfl⟩, List.forall_mem_singleton.mpr ⟨"b", rfl⟩⟩, by decide⟩
  have htextual : ∀ c ∈ bookLayout.columns, c.type = .varchar ∨ c.type = .text := by decide
  refine ⟨hkeyed.perm hrecords, fun v hv c hc w hw => ?_, fun v hv =>
    habsent v (hrecords.mem_iff.mp hv)⟩
  have htext : ∃ s, w = .text s := by
    rcases List.mem_cons.mp (hrecords.mem_iff.mp hv) with rfl | hv
    · have hmem := Value.mem_of_required hw
      simp only [List.mem_singleton, Prod.mk.injEq] at hmem
      exact ⟨_, hmem.2⟩
    · obtain rfl := List.mem_singleton.mp hv
      have hmem := Value.mem_of_required hw
      simp only [List.mem_cons, List.not_mem_nil, or_false, Prod.mk.injEq] at hmem
      rcases hmem with ⟨_, rfl⟩ | ⟨_, rfl⟩ <;> exact ⟨_, rfl⟩
  obtain ⟨s, rfl⟩ := htext
  rcases htextual c hc with htype | htype
  · exact htype ▸ .varchar s
  · exact htype ▸ .text s

theorem even_untitledFirst : Relational.Even bookLayout untitledFirst :=
  ⟨List.cons_ne_nil _ _, by
    refine List.forall_mem_cons.mpr ⟨?_, List.forall_mem_singleton.mpr ?_⟩ <;> decide⟩

theorem not_even_reverse : ¬Relational.Even bookLayout untitledFirst.reverse := by
  intro h
  have htitle := h.haveEntries (.object [("id", .text "a")]) (by simp [untitledFirst])
    ⟨"title", .text, false⟩ (by decide)
  cases htitle

end Library

/-- The title of the second book is lost, and the other way round there is no book at all. -/
theorem library_books_together : Library.schema.Valid .standard ∧ ∃ r,
    Relational.create .standard Library.schema = .ok r ∧ r.Reached r ∧
      r.Fresh "Book" Library.bookLayout Library.untitledFirst ∧
      (∃ r', (Relational.insertRecords "Book" (.list Library.untitledFirst)).result r =
        (.ok (), r') ∧ r.Added "Book" Library.bookLayout Library.untitledFirst r') ∧
      r.Fresh "Book" Library.bookLayout Library.untitledFirst.reverse ∧
      (Relational.insertRecords "Book" (.list Library.untitledFirst.reverse)).result r =
        (.error (.fault (.notInserted "Book")), r) := by
  have hvalid : Library.schema.Valid .standard := by rfl
  obtain ⟨r, hcreate, htype, hlayout, habsent⟩ := Library.exists_create_absent
  have hfresh := Library.fresh_of_perm (.refl _) habsent
  have hreverse := Library.fresh_of_perm (List.reverse_perm _) habsent
  obtain ⟨l, hl, h⟩ := Relational.Reached.insert_together hvalid rfl hcreate .start htype rfl
  cases hlayout.symm.trans hl
  exact ⟨hvalid, r, hcreate, .start, hfresh, (h _ hfresh).1 Library.even_untitledFirst,
    hreverse, (h _ hreverse).2 Library.not_even_reverse⟩

/-- Two books are stored, and the second one is found without its title. -/
theorem library_title_lost : Library.schema.Valid .standard ∧ ∃ r r',
    Relational.create .standard Library.schema = .ok r ∧ r.Reached r ∧
      r.layout "Book" = .ok Library.bookLayout ∧
      r.Fresh "Book" Library.bookLayout Library.untitledFirst ∧
      (Relational.insertRecords "Book" (.list Library.untitledFirst)).result r = (.ok (), r') ∧
      ¬∀ v ∈ Library.untitledFirst, r'.Returned "Book" Library.bookLayout v := by
  have hvalid : Library.schema.Valid .standard := by rfl
  obtain ⟨r, hcreate, _, hlayout, habsent⟩ := Library.exists_create_absent
  have hfresh := Library.fresh_of_perm (.refl _) habsent
  have hidentifying := Relational.Identifying.of_create hvalid rfl hcreate
  obtain ⟨r', hresult, hadded⟩ := (hidentifying.insert_fresh hlayout hfresh).1
    Library.even_untitledFirst
  refine ⟨hvalid, r, r', hcreate, .start, hlayout, hfresh, hresult, fun hall => ?_⟩
  have hnull := hadded.returned_iff.mp hall (.object [("id", .text "b"), ("title", .text "B")])
    (by simp [Library.untitledFirst]) ⟨"title", .text, false⟩ (by decide) (by decide)
  cases hnull

end ObjectQuery
