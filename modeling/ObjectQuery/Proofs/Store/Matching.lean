import ObjectQuery.Proofs.Query.Backends
import ObjectQuery.Proofs.Store.Keys

/-!
# What filters find in a database

A filter looks into the column of its name for its value. A row meets filters if each finds what it
looks for in the row, and where the column is for a scalar, and both the row and the filter have
values of it, that is to say that the two values are equal. The rows of a table that meet filters
are those that the database finds, if the filters can be asked for at all.
-/

set_option autoImplicit false

namespace ObjectQuery

open Outcome

/-- Whether a value is found where a column of a type holds something, or nothing. -/
def ColumnType.finds (t : ColumnType) (v : Value) (held : Option Value) : Bool :=
  match t.wanted v with
  | .ok w => w.isHeld t held
  | .error _ => false

/-- Whether every filter has a column, in which its value can be looked for. -/
def Askable (l : TableLayout) (filters : Filters) : Prop :=
  ∀ f ∈ filters, ∃ c w, l.column? f.1 = some c ∧ c.type.wanted f.2 = .ok w

/-- Whether every filter finds its value in the column of its name. -/
def Row.meets (l : TableLayout) (filters : Filters) (row : Row) : Bool :=
  filters.all fun f => (l.column? f.1).any fun c => c.type.finds f.2 (row.get c.name)

/-- Whether a record holds under the name of every column what a row holds there, or null. -/
def TableLayout.Shows (l : TableLayout) (row : Row) (record : Value) : Prop :=
  ∀ c ∈ l.columns, record.required c.name = .ok ((row.get c.name).getD .null)

/-- Whether filters are for columns of scalars in which a row has values of those, each with a value
of the scalar or with null. -/
def Row.Typed (l : TableLayout) (filters : Filters) (row : Row) : Prop :=
  ∀ f ∈ filters, ∃ c s, l.column? f.1 = some c ∧ c.type = .ofScalar s ∧ s.Allows f.2 ∧
    ∀ v, row.get c.name = some v → s.Holds v

variable {l : TableLayout} {filters : Filters} {row : Row} {v : Value}

theorem Scalar.Holds.equal_null {s : Scalar} (h : s.Holds v) : v.equal .null = false := by
  cases h <;> rfl

/-- What is found in a column for a scalar is what is equal to the value that it holds, if any. -/
theorem Scalar.Allows.finds_eq {s : Scalar} {held : Option Value} {w : Wanted}
    (hv : s.Allows v) (hheld : ∀ u, held = some u → s.Holds u)
    (hw : (ColumnType.ofScalar s).wanted v = .ok w) :
    (ColumnType.ofScalar s).finds v held = (held.getD .null).equal v := by
  rw [ColumnType.finds, hw]
  dsimp only
  rcases hv with rfl | hv
  · cases hw
    cases held with
    | none => rfl
    | some u => exact (hheld u rfl).equal_null.symm
  · cases held with
    | none =>
      obtain ⟨hmissing, hnull⟩ := hv.isHeld_none hw
      exact hmissing.trans hnull.symm
    | some u => exact (hheld u rfl).isHeld_eq hv hw

theorem TableLayout.Shows.held_eq (h : l.Shows row v) {n : String} {c : Column}
    (hc : l.column? n = some c) : v.held n = (row.get c.name).getD .null := by
  obtain ⟨hmem, rfl⟩ := TableLayout.mem_of_column? hc
  exact Value.held_of_required_eq_ok (h c hmem)

/-- Where values are of the scalars of their columns, a row meets filters if its record holds what
they want. -/
theorem Row.Typed.meets_eq (h : row.Typed l filters) (hasked : Askable l filters)
    (hshows : l.Shows row v) : row.meets l filters = holdsAll filters v := by
  unfold Row.meets holdsAll
  rw [Bool.eq_iff_iff, List.all_eq_true, List.all_eq_true]
  refine forall₂_congr fun f hf => ?_
  obtain ⟨c, s, hc, htype, hallows, hheld⟩ := h f hf
  obtain ⟨c', w, hc', hw⟩ := hasked f hf
  cases hc.symm.trans hc'
  rw [htype] at hw
  rw [hc, Option.any_some, htype, hallows.finds_eq hheld hw, hshows.held_eq hc]

namespace Relational

variable {r : Relational} {n : String}

theorem shows_record (row : Row) : l.Shows row (record l row) := by
  intro c hc
  obtain ⟨c', hc'⟩ : ∃ c', l.column? c.name = some c' := by
    refine Option.isSome_iff_exists.mp (List.find?_isSome.mpr ⟨c, hc, ?_⟩)
    exact beq_iff_eq.mpr rfl
  exact required_record hc'

theorem layout_of_mem (hl : l ∈ r.layouts) : r.layout l.name = .ok l := by
  obtain ⟨l', hl'⟩ := exists_layout_of_mem hl
  obtain ⟨hmem, hname⟩ := layout_eq_ok hl'
  rw [hl', List.inj_on_of_nodup_map (Schema.nodup_layouts r.layouts_eq) hmem hl hname]

/-- Rows pass the tests for filters if they meet the filters. -/
theorem all_holds_eq_meets {cs : List Condition} {ts : List Test} {otherwise : Fault}
    (hcs : conditions l filters = .ok cs) (hts : tests otherwise cs = .ok ts) (row : Row) :
    (ts.all (·.holds row)) = row.meets l filters := by
  replace hcs := conditions_eq_ok hcs
  replace hts := tests_eq_ok hts
  unfold Row.meets
  induction hcs generalizing ts with
  | nil =>
    cases hts
    rfl
  | @cons f c filters cs hc _ ih =>
    obtain ⟨t, ts, ht, hrest, rfl⟩ := List.forall₂_cons_left_iff.mp hts
    obtain ⟨hcolumn, hwanted⟩ := hc
    obtain ⟨htest, hwanted'⟩ := ht
    rw [hwanted] at hwanted'
    rw [List.all_cons, List.all_cons, ih hrest, Test.holds, htest, hcolumn, Option.any_some,
      ColumnType.finds, hwanted']

theorem exists_conditions_of_askable (h : Askable l filters) :
    ∃ cs, conditions l filters = .ok cs ∧ ∀ c ∈ cs, ∃ t, c.test = .ok t := by
  obtain ⟨cs, hcs⟩ : ∃ cs, conditions l filters = .ok cs := by
    refine exists_mapM_ok fun f hf => ?_
    obtain ⟨c, _, hc, _⟩ := h f hf
    exact ⟨⟨c, f.2⟩, by rw [column, hc]; rfl⟩
  refine ⟨cs, hcs, fun c hc => ?_⟩
  obtain ⟨f, hf, hcolumn, hwanted⟩ := exists_left_of_mem (conditions_eq_ok hcs) hc
  obtain ⟨c', w, hc', hw⟩ := h f hf
  cases hcolumn.symm.trans hc'
  exact ⟨⟨c.column, w⟩, bind_eq_ok.mpr ⟨w, hwanted ▸ hw, rfl⟩⟩

/-- The rows that meet filters are found, if the filters can be asked for. -/
theorem exists_matching_of_askable (h : Askable l filters) {t : Table}
    (ht : r.database.table? l.name = some t) (hcolumns : t.hasColumns l.columns = true) :
    ∃ cs, conditions l filters = .ok cs ∧ ∀ otherwise,
      r.matching l otherwise cs = .ok (t.rows.filter (·.meets l filters)) := by
  obtain ⟨cs, hcs, hall⟩ := exists_conditions_of_askable h
  refine ⟨cs, hcs, fun otherwise => ?_⟩
  obtain ⟨ts, hts⟩ := exists_tests_of_forall hall otherwise
  have hasked : t.hasColumns (cs.map (·.column)) = true := by
    refine List.all_eq_true.mpr (List.forall_mem_map.mpr fun c hc => ?_)
    obtain ⟨f, _, hf, _⟩ := exists_left_of_mem (conditions_eq_ok hcs) hc
    exact List.all_eq_true.mp hcolumns c.column (TableLayout.mem_of_column? hf).1
  rw [matching, ht]
  dsimp only
  rw [if_pos hasked, hts, ok_bind, pure_eq_ok]
  exact congrArg Except.ok (List.filter_congr fun row _ => all_holds_eq_meets hcs hts row)

/-- Only what can be asked for is found. -/
theorem askable_of_matching {cs : List Condition} {otherwise : Fault} {rows : List Row}
    (hcs : conditions l filters = .ok cs) (h : r.matching l otherwise cs = .ok rows) :
    Askable l filters := by
  unfold matching at h
  split at h
  · cases h
  · split at h
    · obtain ⟨ts, hts, _⟩ := bind_eq_ok.mp h
      intro f hf
      obtain ⟨c, hc, hcolumn, hwanted⟩ := exists_left_of_mem (conditions_eq_ok hcs).flip hf
      obtain ⟨t, _, _, htest⟩ := exists_left_of_mem (tests_eq_ok hts).flip hc
      exact ⟨c.column, t.wanted, hcolumn, hwanted ▸ htest⟩
    · cases h

end Relational

end ObjectQuery
