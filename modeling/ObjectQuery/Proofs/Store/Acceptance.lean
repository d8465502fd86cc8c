import ObjectQuery.Proofs.Store.Rows

/-!
# What a database accepts

Records of types with an id are stored without failure if their ids are distinct and the columns can
hold what they have entries for. Asking for a text in a column does not fail either.
-/

set_option autoImplicit false

namespace ObjectQuery

open Outcome

namespace FieldKind

theorem name_of_isKey {k : FieldKind} {n : String} {c : Column} (h : k.column? n = some c)
    (hc : c.isKey = true) : c.name = idName := by
  cases k with
  | scalar s =>
    cases h
    exact beq_iff_eq.mp hc
  | _ =>
    cases h
    try cases hc

end FieldKind

namespace LaidOut

variable {rules : Validation.Rules} {s : Schema} {t : ObjectType} {l : TableLayout}

/-- The column of the id is the only key. -/
theorem eq_of_isKey (hl : LaidOut s .standard t l) (hv : s.Valid rules)
    (hr : rules.registry = .standard) (ht : t ∈ s.types) (hn : t.isNode = true) {c : Column}
    (hc : c ∈ l.columns) (hkey : c.isKey = true) : c = ⟨idName, .varchar, true⟩ := by
  obtain ⟨hid, _⟩ := TableLayout.mem_of_column? (hl.column?_id hv hr ht hn)
  refine List.inj_on_of_nodup_map hl.distinct hc hid ?_
  obtain ⟨cs, hcs, hcolumns⟩ := hl.columns
  rw [hcolumns] at hc
  rcases List.mem_append.mp hc with hc | hc
  · obtain ⟨m, f, k, _, _, hk⟩ := (hv.mem_columns_iff ht hcs).mp hc
    exact FieldKind.name_of_isKey hk hkey
  · obtain ⟨g, _, rfl⟩ := List.mem_map.mp hc
    cases hkey

theorem find?_isKey (hl : LaidOut s .standard t l) (hv : s.Valid rules)
    (hr : rules.registry = .standard) (ht : t ∈ s.types) (hn : t.isNode = true) :
    l.columns.find? (·.isKey) = some ⟨idName, .varchar, true⟩ := by
  obtain ⟨hid, _⟩ := TableLayout.mem_of_column? (hl.column?_id hv hr ht hn)
  have hsome : (l.columns.find? (·.isKey)).isSome := by
    rw [List.find?_isSome]
    exact ⟨_, hid, rfl⟩
  obtain ⟨c, hc⟩ := Option.isSome_iff_exists.mp hsome
  rw [hc, hl.eq_of_isKey hv hr ht hn (List.mem_of_find?_eq_some hc) (List.find?_some hc)]

end LaidOut

/-- Whether the columns of a table can hold what a record has entries for. -/
def TableLayout.Takes (l : TableLayout) (record : Value) : Prop :=
  ∀ c ∈ l.columns, ∀ v, record.required c.name = .ok v → ∃ held, c.type.cell v = .ok held

theorem Table.hasColumns_of_subset {t : Table} {cs : List Column} (h : cs ⊆ t.columns) :
    t.hasColumns cs = true := by
  rw [hasColumns, List.all_eq_true]
  intro c hc
  rw [hasColumn, List.any_eq_true]
  exact ⟨c, h hc, sameName_self c.name⟩

namespace Relational

variable {l : TableLayout} {record : Value} {n : String}

theorem exists_valuesOf {cs : List Column} (h : ∀ c ∈ cs, (record.required c.name).isOk = true) :
    ∃ values, valuesOf cs record = some values ∧
      ∀ e ∈ values, e.1 ∈ cs ∧ record.required e.1.name = .ok e.2 := by
  induction cs with
  | nil => exact ⟨[], rfl, by simp⟩
  | cons c cs ih =>
    obtain ⟨values, hvalues, hall⟩ := ih fun d hd => h d (List.mem_cons_of_mem c hd)
    have hc := h c List.mem_cons_self
    cases hv : record.required c.name with
    | error e =>
      rw [hv] at hc
      cases hc
    | ok v =>
      refine ⟨(c, v) :: values, ?_, ?_⟩
      · rw [valuesOf, List.mapM_cons, hv]
        rw [valuesOf] at hvalues
        rw [hvalues]
        rfl
      · intro e he
        rcases List.mem_cons.mp he with rfl | he
        · exact ⟨List.mem_cons_self, hv⟩
        · obtain ⟨hmem, hrequired⟩ := hall e he
          exact ⟨List.mem_cons_of_mem c hmem, hrequired⟩

theorem exists_rowOf {values : List (Column × Value)}
    (h : ∀ e ∈ values, ∃ held, e.1.type.cell e.2 = .ok held) : ∃ row, rowOf values = .ok row := by
  obtain ⟨cells, hcells⟩ := exists_mapM_ok (f := fun e : Column × Value => (do
    return (e.1.name, ← e.1.type.cell e.2) : Except Unstorable _)) fun e he => by
      obtain ⟨held, hheld⟩ := h e he
      exact ⟨(e.1.name, held), by rw [hheld]; rfl⟩
  exact ⟨_, by rw [rowOf, hcells]; rfl⟩

/-- One record goes into a table that fits it, unless its key is there. -/
theorem exists_insertInto {rows : List Row} {otherwise : Fault}
    (hd : (l.columns.map fun c => foldCase c.name).Nodup) (hf : l.Takes record)
    (ha : ∀ row, Stored l record row → admits ⟨l.name, l.columns, rows⟩ row = true) :
    ∃ new, insertInto ⟨l.name, l.columns, rows⟩ l [record] otherwise = .ok new := by
  have hfilled : ∀ c ∈ filledColumns l record, (record.required c.name).isOk = true :=
    fun c hc => (List.mem_filter.mp hc).2
  have hsub : filledColumns l record ⊆ l.columns := List.filter_subset_self ..
  obtain ⟨values, hvalues, hall⟩ := exists_valuesOf hfilled
  have hcells : ∀ e ∈ values, ∃ held, e.1.type.cell e.2 = .ok held := by
    intro e he
    obtain ⟨hmem, hrequired⟩ := hall e he
    exact hf e.1 (hsub hmem) e.2 hrequired
  have hreadable : readable values = true := by
    rw [readable, List.all_eq_true]
    intro e he
    obtain ⟨held, hheld⟩ := hcells e he
    rw [hheld]
    rfl
  obtain ⟨row, hrow⟩ := exists_rowOf hcells
  have hadmits := ha row (stored_of_rowOf hd hvalues hrow)
  have hcolumns : Table.hasColumns ⟨l.name, l.columns, rows⟩ (filledColumns l record) = true :=
    Table.hasColumns_of_subset hsub
  have hfirst : [record].head?.getD (.object []) = record := rfl
  refine ⟨⟨l.name, l.columns, rows ++ [row]⟩, ?_⟩
  unfold insertInto
  rw [hfirst]
  dsimp only
  rw [List.mapM_cons, hvalues]
  simp only [List.mapM_nil, Option.pure_def, Option.bind_eq_bind, Option.bind_some, hcolumns,
    List.all_cons, hreadable, List.all_nil, Bool.and_self, Bool.not_true, Bool.or_self,
    Bool.false_eq_true, if_false, List.isEmpty_cons, List.map_cons, List.map_nil, hrow]
  rw [List.foldlM_cons, insertRow]
  simp [hadmits, Except.mapError]

theorem exists_insert {r : Relational} {rows : String → List Row} (hs : Separate r.layouts)
    (hdb : r.database = .ofRows r.layouts rows) (hl : r.layout n = .ok l)
    (hv : ∃ entries, record = .object entries) (hf : l.Takes record)
    (ha : ∀ row, Stored l record row → admits ⟨l.name, l.columns, rows l.name⟩ row = true) :
    ∃ r', r.insert n (.list [record]) = .ok r' := by
  obtain ⟨entries, rfl⟩ := hv
  obtain ⟨hmem, _⟩ := layout_eq_ok hl
  obtain ⟨new, hnew⟩ : ∃ new, insertInto ⟨l.name, l.columns, rows l.name⟩ l [.object entries]
      (.notInserted n) = .ok new := exists_insertInto (hs.columns l hmem) hf ha
  obtain ⟨row, _, rfl⟩ := insertInto_eq_ok (hs.columns l hmem) hnew
  have hgathered : Record.gatherAll (.list [.object entries]) = .ok [.object entries] := rfl
  refine ⟨{ r with
    database := .ofRows r.layouts (Function.update rows l.name (rows l.name ++ [row])) }, ?_⟩
  unfold insert
  rw [hl, ok_bind, hgathered]
  simp only [Except.mapError, ok_bind, hdb, Database.table?_ofRows hs hmem, hnew,
    Database.onTable_ofRows hs hmem]
  rfl

end Relational

section Storing

variable {m : Memory} {r : Relational} {pairs : String → List (Value × Row)} {l : TableLayout}
  {record : Value} {n : String}

theorem Tabled.admits {ps : List (Value × Row)} {row : Row} (h : Tabled l ps)
    (hkey : l.columns.find? (·.isKey) = some ⟨idName, .varchar, true⟩) (hid : HasId record)
    (hrow : Stored l record row) (hfresh : ∀ p ∈ ps, p.1.idText ≠ record.idText) :
    Relational.admits ⟨l.name, l.columns, ps.map (·.2)⟩ row = true := by
  have hone : Tabled l [(record, row)] :=
    ⟨by simpa using hrow, ⟨by simpa using hid, List.nodup_singleton _⟩, h.key⟩
  have hget := hone.get_id List.mem_cons_self
  unfold Relational.admits
  simp only [hkey, hget, Option.any_some, Bool.not_eq_true', List.any_eq_false, List.mem_map]
  rintro _ ⟨p, hp, rfl⟩
  rw [h.get_id hp, Option.any_some, Value.equal_text_iff]
  exact fun heq => hfresh p hp (Value.text.inj heq)

/-- Storing records with distinct ids succeeds if the tables for their types can take them. -/
theorem Tallies.exists_store {i : Snapshot} {data : List (String × Value)}
    (hi : i.rules.registry = .standard) (h : Tallies m r pairs) (hs : r.schema = i.schema)
    (hr : r.registry = .standard) (hk : ∀ n, Keyed ((m.store data).recordsOf n))
    (hdata : ∀ e ∈ data, ∃ t, i.schema.type? e.1 = some t ∧ t.isNode = true ∧
      ∀ l, LaidOut i.schema .standard t l → l.Takes e.2) : ∃ r', r.store data = .ok r' := by
  induction data generalizing m r pairs with
  | nil => exact ⟨r, rfl⟩
  | cons e data ih =>
    obtain ⟨t, ht, hnode, htakes⟩ := hdata e List.mem_cons_self
    obtain ⟨l, hl⟩ := Relational.exists_layout hs hr ht hnode
    obtain ⟨_, hlaid⟩ := Relational.laidOut hs hr ht hl
    obtain ⟨hmem, hname⟩ := Relational.layout_eq_ok hl
    have htm := Schema.mem_of_type? ht
    have hrecords := hk e.1
    rw [Memory.recordsOf_store, List.filter_cons, if_pos (beq_self_eq_true e.1), List.map_cons,
      h.records] at hrecords
    have hid : HasId e.2 := hrecords.hasId e.2 (by simp)
    have htabled : Tabled l (pairs l.name) := by
      refine ⟨h.stored l hmem, ?_, hlaid.column?_id i.valid hi htm hnode⟩
      rw [hname]
      refine ⟨fun x hx => hrecords.hasId x (List.mem_append_left _ hx), ?_⟩
      exact hrecords.distinct.sublist ((List.sublist_append_left _ _).map _)
    have hfresh : ∀ p ∈ pairs l.name, p.1.idText ≠ e.2.idText := by
      intro p hp
      have hdistinct := hrecords.distinct
      rw [List.map_append, List.nodup_append] at hdistinct
      rw [hname] at hp
      exact hdistinct.2.2 _ (List.mem_map_of_mem (List.mem_map_of_mem hp)) _ (by simp)
    have hadmits : ∀ row, Stored l e.2 row → Relational.admits
        ⟨l.name, l.columns, (pairs l.name).map (·.2)⟩ row = true := fun row hrow =>
      htabled.admits (hlaid.find?_isKey i.valid hi htm hnode) hid hrow hfresh
    obtain ⟨r₁, h₁⟩ := Relational.exists_insert h.separate h.database hl hid.exists_entries
      (htakes l hlaid) hadmits
    obtain ⟨hs₁, hr₁, pairs₁, hpairs⟩ := h.insert hid.exists_entries h₁
    obtain ⟨r', hr'⟩ := ih hpairs (hs₁.trans hs) (hr₁.trans hr) hk
      fun d hd => hdata d (List.mem_cons_of_mem e hd)
    refine ⟨r', ?_⟩
    rw [Relational.store, List.foldlM_cons, h₁, ok_bind]
    exact hr'

end Storing

namespace Relational

variable {r : Relational} {l : TableLayout} {ps : List (Value × Row)} {n : String} {c : Column}

/-- The rows that hold a text in a column. -/
def rowsWith (c : Column) (s : String) (ps : List (Value × Row)) : List Row :=
  (ps.map (·.2)).filter fun row =>
    (Wanted.datum (c.type.adapt (.text s))).isHeld c.type (row.get c.name)

theorem matching_text (hp : r.Lists l ps) (hc : c ∈ l.columns) (otherwise : Fault) (s : String) :
    r.matching l otherwise [⟨c, .text s⟩] = .ok (rowsWith c s ps) := by
  have hcolumns : Table.hasColumns ⟨l.name, l.columns, ps.map (·.2)⟩ [c] = true :=
    Table.hasColumns_of_subset (by simpa using hc)
  have htest : Condition.test ⟨c, .text s⟩ = .ok ⟨c, .datum (c.type.adapt (.text s))⟩ := rfl
  unfold matching
  rw [hp.table]
  simp only [List.map_cons, List.map_nil, hcolumns, if_true, tests, List.any_cons, htest,
    List.any_nil, Bool.or_false, Bool.false_eq_true, if_false, List.mapM_cons, List.mapM_nil,
    Except.mapError, ok_bind, pure_eq_ok, List.all_cons, List.all_nil, Bool.and_true, Test.holds]
  rfl

theorem conditions_text {name s : String} (hc : l.column? name = some c) :
    conditions l [(name, .text s)] = .ok [⟨c, .text s⟩] := by
  rw [conditions, List.mapM_cons, column, hc]
  rfl

theorem countMany_text {name s : String} (hl : r.layout n = .ok l) (hp : r.Lists l ps)
    (hc : l.column? name = some c) :
    r.countMany n [(name, .text s)] = .ok (rowsWith c s ps).length := by
  obtain ⟨hmem, _⟩ := TableLayout.mem_of_column? hc
  rw [countMany, hl, ok_bind, conditions_text hc, ok_bind, count, matching_text hp hmem]
  rfl

theorem rows_text (hp : r.Lists l ps) (hc : c ∈ l.columns) (s : String) :
    r.rows l [⟨c, .text s⟩] =
      .ok ((rowsWith c s ps).mergeSort fun a b => decide (idOf a ≤ idOf b)) := by
  have hcolumns : Table.hasColumns ⟨l.name, l.columns, ps.map (·.2)⟩ l.columns = true :=
    Table.hasColumns_of_subset (List.Subset.refl _)
  rw [rows, hp.table, Option.any_some, hcolumns, if_pos rfl, matching_text hp hc]
  rfl

theorem exists_find {id : String} (hl : r.layout n = .ok l) (hp : r.Lists l ps) :
    ∃ found, r.find n (.text id) = .ok found := by
  obtain ⟨hmem, _⟩ := TableLayout.mem_of_column? hp.key
  have hcolumn : column l idName = .ok ⟨idName, .varchar, true⟩ := by
    rw [column, hp.key]
  rw [find, hl, ok_bind, hcolumn, ok_bind, rows_text hp hmem]
  exact ⟨_, rfl⟩

end Relational

end ObjectQuery
