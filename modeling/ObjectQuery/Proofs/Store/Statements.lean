import ObjectQuery.Proofs.Store.Insertion

/-!
# What statements do

Statements run one after the other up to the first that cannot be run. Statements that drop columns
can all be run if the columns are there and no two are the same; the tables are then without the
columns, and the rows hold in the other ones what they held.
-/

set_option autoImplicit false

namespace ObjectQuery

namespace Database

theorem run_append (d : Database) (xs ys : List Statement) :
    d.run (xs ++ ys) = match d.run xs with
      | (e, true) => e.run ys
      | (e, false) => (e, false) := by
  induction xs generalizing d with
  | nil => rfl
  | cons x xs ih =>
    rw [List.cons_append, run, run]
    cases x d with
    | none => rfl
    | some e => exact ih e

/-- Tables that no one could take for each other. -/
def Distinct (d : Database) : Prop := (d.tables.map fun t => foldCase t.name).Nodup

variable {d d' : Database} {t u : Table} {n : String}

theorem Distinct.eq_of_sameName (h : d.Distinct) (ht : t ∈ d.tables) (hu : u ∈ d.tables)
    (hs : sameName t.name u.name = true) : t = u :=
  List.inj_on_of_nodup_map h ht hu (sameName_iff.mp hs)

theorem Distinct.eq_of_named (h : d.Distinct) (ht : t ∈ d.tables) (hu : u ∈ d.tables)
    (htn : sameName t.name n = true) (hun : sameName u.name n = true) : t = u :=
  h.eq_of_sameName ht hu
    (sameName_iff.mpr ((sameName_iff.mp htn).trans (sameName_iff.mp hun).symm))

theorem Distinct.table?_of_mem (h : d.Distinct) (ht : t ∈ d.tables)
    (hn : sameName t.name n = true) : d.table? n = some t := by
  have hsome : (d.table? n).isSome := by
    rw [table?, List.find?_isSome]
    exact ⟨t, ht, hn⟩
  obtain ⟨u, hu⟩ := Option.isSome_iff_exists.mp hsome
  have hun := List.find?_some hu
  rw [hu, h.eq_of_named ht (List.mem_of_find?_eq_some hu) hn hun]

theorem onTable_eq_some {f : Table → Option Table} (h : d.onTable n f = some d') :
    ∃ t ∈ d.tables, sameName t.name n = true ∧ ∃ t', f t = some t' ∧
      d'.tables = d.tables.map fun u => if sameName u.name n then t' else u := by
  obtain ⟨t, ht, h⟩ := Option.bind_eq_some_iff.mp h
  obtain ⟨t', ht', h⟩ := Option.bind_eq_some_iff.mp h
  cases h
  rw [table?] at ht
  have hn := List.find?_some ht
  exact ⟨t, List.mem_of_find?_eq_some ht, hn, t', ht', rfl⟩

end Database

/-- A column, by the name of its table and its own. -/
structure ColumnName where
  table : String
  column : String

namespace ColumnName

/-- The statement that drops a column. -/
def drop (x : ColumnName) : Statement := (·.dropColumn x.table x.column)

/-- Whether two names are taken for the same column. -/
def same (x y : ColumnName) : Bool := sameName x.table y.table && sameName x.column y.column

/-- Whether a column of a table is among some columns. -/
def isIn (xs : List ColumnName) (table column : String) : Bool := xs.any (same ⟨table, column⟩)

theorem isIn_singleton (x : ColumnName) (table column : String) :
    isIn [x] table column = (sameName table x.table && sameName column x.column) := by
  simp [isIn, same]

theorem isIn_cons (x : ColumnName) (xs : List ColumnName) (table column : String) :
    isIn (x :: xs) table column = (isIn [x] table column || isIn xs table column) := by
  simp [isIn]

theorem isIn_congr {xs : List ColumnName} {table column column' : String}
    (h : foldCase column = foldCase column') :
    isIn xs table column = isIn xs table column' := by
  have hsame : same ⟨table, column⟩ = same ⟨table, column'⟩ := by
    funext x
    simp only [same, sameName, h]
  rw [isIn, isIn, hsame]

end ColumnName

def Table.without (t : Table) (xs : List ColumnName) : Table where
  name := t.name
  columns := t.columns.filter fun c => !ColumnName.isIn xs t.name c.name
  rows := t.rows.map fun row => row.filter fun e => !ColumnName.isIn xs t.name e.1

def Database.without (d : Database) (xs : List ColumnName) : Database :=
  ⟨d.tables.map (·.without xs)⟩

theorem Table.without_eq_self {t : Table} {x : ColumnName} (h : sameName t.name x.table = false) :
    t.without [x] = t := by
  obtain ⟨name, columns, rows⟩ := t
  simp only [Table.without, ColumnName.isIn_singleton, h, Bool.false_and, Bool.not_false,
    List.filter_true, List.map_id']

theorem Table.without_cons (t : Table) (x : ColumnName) (xs : List ColumnName) :
    (t.without [x]).without xs = t.without (x :: xs) := by
  simp only [Table.without, List.filter_filter, List.map_map, Function.comp_def,
    ColumnName.isIn_cons x xs, Bool.not_or, Bool.and_comm]

namespace Database

variable {d : Database} {t : Table}

theorem distinct_without (h : d.Distinct) (xs : List ColumnName) : (d.without xs).Distinct := by
  rw [Distinct, without, List.map_map]
  exact h

theorem drop_eq_some (h : d.Distinct) {x : ColumnName} (ht : t ∈ d.tables)
    (hn : sameName t.name x.table = true) (hc : t.hasColumn x.column = true) :
    x.drop d = some (d.without [x]) := by
  rw [ColumnName.drop, dropColumn, onTable, h.table?_of_mem ht hn]
  simp only [Option.bind_eq_bind, Option.bind_some, hc, if_true, Option.pure_def,
    Option.some.injEq, without, Database.mk.injEq]
  apply List.map_congr_left
  intro u hu
  split
  · rename_i hu'
    obtain rfl := h.eq_of_named ht hu hn hu'
    simp only [Table.without, ColumnName.isIn_singleton, hn, Bool.true_and]
  · rename_i hu'
    exact (Table.without_eq_self (Bool.eq_false_iff.mpr hu')).symm

/-- A column that is there. -/
def Has (d : Database) (x : ColumnName) : Prop :=
  ∃ t ∈ d.tables, sameName t.name x.table = true ∧ t.hasColumn x.column = true

theorem Has.without {x y : ColumnName} (h : d.Has y) (hxy : x.same y = false) :
    (d.without [x]).Has y := by
  obtain ⟨t, ht, hn, hc⟩ := h
  refine ⟨t.without [x], List.mem_map_of_mem ht, hn, ?_⟩
  obtain ⟨c, hmem, hname⟩ := List.any_eq_true.mp hc
  refine List.any_eq_true.mpr ⟨c, List.mem_filter.mpr ⟨hmem, ?_⟩, hname⟩
  rw [ColumnName.isIn_singleton, Bool.not_eq_true', Bool.eq_false_iff]
  intro hin
  obtain ⟨htable, hcolumn⟩ := Bool.and_eq_true_iff.mp hin
  have htables := (sameName_iff.mp htable).symm.trans (sameName_iff.mp hn)
  have hcolumns := (sameName_iff.mp hcolumn).symm.trans (sameName_iff.mp hname)
  rw [ColumnName.same, sameName_iff.mpr htables, sameName_iff.mpr hcolumns] at hxy
  cases hxy

/-- Columns that are there and differ can all be dropped. -/
theorem run_drops {xs : List ColumnName} (h : d.Distinct) (hxs : ∀ x ∈ xs, d.Has x)
    (hdiffer : xs.Pairwise fun x y => x.same y = false) :
    d.run (xs.map ColumnName.drop) = (d.without xs, true) := by
  induction xs generalizing d with
  | nil =>
    have hself : d.without [] = d := by
      simp [without, Table.without, ColumnName.isIn]
    rw [hself]
    rfl
  | cons x xs ih =>
    obtain ⟨⟨t, ht, hn, hc⟩, hrest⟩ := List.forall_mem_cons.mp hxs
    obtain ⟨hx, hdiffer⟩ := List.pairwise_cons.mp hdiffer
    have hleft : ∀ y ∈ xs, (d.without [x]).Has y := fun y hy => (hrest y hy).without (hx y hy)
    have hrun := ih (distinct_without h [x]) hleft hdiffer
    have hcons : (d.without [x]).without xs = d.without (x :: xs) := by
      simp only [without, List.map_map, Function.comp_def, Table.without_cons]
    rw [List.map_cons, run, drop_eq_some h ht hn hc]
    rw [← hcons]
    exact hrun

/-- A database with one more column in the tables of a name. -/
def adding (d : Database) (n : String) (c : Column) : Database :=
  ⟨d.tables.map fun t => if sameName t.name n then { t with columns := t.columns ++ [c] } else t⟩

theorem addColumn_eq (h : d.Distinct) {n : String} (ht : t ∈ d.tables)
    (hn : sameName t.name n = true) (c : Column) :
    d.addColumn n c = if t.accepts c then some (d.adding n c) else none := by
  unfold addColumn onTable
  rw [h.table?_of_mem ht hn]
  simp only [Option.bind_eq_bind, Option.bind_some]
  split
  · simp only [Option.bind_some, Option.pure_def, adding]
    rw [Option.some.injEq, Database.mk.injEq]
    refine List.map_congr_left fun u hu => ?_
    split
    · rename_i hun
      rw [h.eq_of_named hu ht hun hn]
    · rfl
  · rfl

/-- Whether tables that are still there hold in the columns that are still there what they held. -/
def Keeps (d d' : Database) : Prop :=
  ∀ t ∈ d.tables, ∀ t' ∈ d'.tables, t'.name = t.name →
    List.Forall₂ (fun row row' => ∀ c ∈ t.columns, c ∈ t'.columns →
      Row.get row' c.name = Row.get row c.name) t.rows t'.rows

end Database

/-- A row without the entries of some columns holds the rest. -/
theorem Row.get_filter {row : Row} {p : String → Bool}
    (hp : ∀ a b, foldCase a = foldCase b → p a = p b) {n : String} (hn : p n = true) :
    Row.get (row.filter fun e => p e.1) n = row.get n := by
  have hsame : (fun e : String × Value => decide (p e.1 = true ∧ sameName e.1 n = true)) =
      (sameName ·.1 n) := by
    funext e
    by_cases he : sameName e.1 n = true
    · simp [hp _ _ (sameName_iff.mp he), hn]
    · simp [he]
  rw [Row.get, Row.get, List.find?_filter]
  exact congrArg (fun q => (row.find? q).map (·.2)) hsame

namespace Database

variable {d d' : Database}

theorem Distinct.eq_of_name (h : d.Distinct) {t u : Table} (ht : t ∈ d.tables)
    (hu : u ∈ d.tables) (hn : t.name = u.name) : t = u :=
  h.eq_of_sameName ht hu (hn ▸ sameName_self t.name)

/-- Tables that are changed one by one. -/
theorem Distinct.keeps_map (h : d.Distinct) {f : Table → Table} {q : Table → Bool}
    (hname : ∀ t ∈ d.tables, (f t).name = t.name)
    (hrows : ∀ t ∈ d.tables, List.Forall₂ (fun row row' => ∀ c ∈ t.columns, c ∈ (f t).columns →
      Row.get row' c.name = Row.get row c.name) t.rows (f t).rows) :
    d.Keeps ⟨(d.tables.map f).filter q⟩ := by
  intro t ht t' ht' hn
  obtain ⟨u, hu, rfl⟩ := List.mem_map.mp (List.mem_filter.mp ht').1
  rw [hname u hu] at hn
  obtain rfl := h.eq_of_name hu ht hn
  exact hrows u hu

theorem Distinct.keeps_without (h : d.Distinct) (xs : List ColumnName) (q : Table → Bool) :
    d.Keeps ⟨(d.without xs).tables.filter q⟩ := by
  refine h.keeps_map (fun _ _ => rfl) fun t _ => ?_
  rw [Table.without, List.forall₂_map_right_iff, List.forall₂_same]
  intro row _ c _ hc
  refine Row.get_filter (p := fun n => !ColumnName.isIn xs t.name n) ?_ (List.mem_filter.mp hc).2
  intro a b hab
  rw [ColumnName.isIn_congr hab]

theorem Distinct.keeps_adding (h : d.Distinct) (n : String) (c : Column) :
    d.Keeps (d.adding n c) := by
  have hkeeps := h.keeps_map (q := fun _ => true)
    (f := fun t => if sameName t.name n then { t with columns := t.columns ++ [c] } else t)
    (fun t _ => by split <;> rfl) fun t _ => by
      split <;> exact List.forall₂_same.mpr fun _ _ _ _ _ => rfl
  rwa [List.filter_true] at hkeeps

theorem Distinct.keeps_self (h : d.Distinct) : d.Keeps d := by
  intro t ht t' ht' hn
  obtain rfl := h.eq_of_name ht' ht hn
  exact List.forall₂_same.mpr fun _ _ _ _ _ => rfl

end Database

end ObjectQuery
