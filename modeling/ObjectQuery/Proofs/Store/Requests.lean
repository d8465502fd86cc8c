import ObjectQuery.Proofs.Schema.Verdict
import ObjectQuery.Proofs.Store.Acceptance
import ObjectQuery.Proofs.Store.Contents
import ObjectQuery.Store.Requests

/-!
# What a database can be asked

A store whose tables are those for its schema answers what it is asked for, or it has no such table,
unless the request is one that it cannot answer: it asks for what a column holds that is not there,
or for more records than a number of 64 bits can say.
-/

set_option autoImplicit false

namespace ObjectQuery

open Outcome

/-- A value that can be looked for in a column of any type. -/
def Value.Comparable (v : Value) : Prop := ∀ t : ColumnType, ∃ wanted, t.wanted v = .ok wanted

namespace Value

theorem comparable_null : null.Comparable := fun _ => ⟨_, rfl⟩

theorem comparable_text (s : String) : (text s).Comparable := fun _ => ⟨_, rfl⟩

/-- An integer of 32 bits has 64 bits. -/
theorem comparable_int {n : Int} (h : Scalar.leastInt ≤ n ∧ n ≤ Scalar.greatestInt) :
    (int n).Comparable := by
  have hfits : Datum.fits n = true := by
    simp only [Scalar.leastInt, Scalar.greatestInt] at h
    simp only [Datum.fits, Bool.and_eq_true, decide_eq_true_eq]
    omega
  have hdatum : Datum.ofInt n = .ok (.number (.whole n)) := if_pos hfits
  intro t
  refine ⟨.datum (t.adapt (.number (.whole n))), ?_⟩
  rw [ColumnType.wanted, Datum.ofValue, hdatum]
  · rfl
  · rintro ⟨⟩
  · rintro _ ⟨⟩
  · rintro _ ⟨⟩

end Value

/-- Filters ask for values that can be looked for anywhere. -/
theorem Scalar.comparable_of_coerce {s : Scalar} {v w : Value} (h : s.coerce v = .ok w) :
    w.Comparable := by
  cases s with
  | id =>
    obtain ⟨_, _, rfl⟩ := map_eq_ok.mp (mapError_eq_ok.mp h)
    exact Value.comparable_text _
  | string =>
    obtain ⟨_, _, rfl⟩ := map_eq_ok.mp (mapError_eq_ok.mp h)
    exact Value.comparable_text _
  | int =>
    obtain ⟨n, hn, rfl⟩ := map_eq_ok.mp (mapError_eq_ok.mp h)
    unfold intOf at hn
    split at hn
    · split at hn
      · rename_i hrange
        cases hn
        exact Value.comparable_int hrange
      · cases hn
    · cases hn
  | boolean =>
    obtain ⟨_, _, rfl⟩ := map_eq_ok.mp (mapError_eq_ok.mp h)
    exact fun _ => ⟨_, rfl⟩
  | float =>
    unfold coerce at h
    dsimp only at h
    split at h
    · cases h
      exact fun _ => ⟨_, rfl⟩
    · cases h
    · cases h
  | datetime =>
    unfold coerce at h
    dsimp only at h
    split at h
    · cases h
      exact fun _ => ⟨_, rfl⟩
    · cases h
    · cases h

/-- The type that a request asks for records of, what they are to hold, and the page of them. -/
def Request.reading? : Request → Option (String × Filters × Page)
  | fetchMany n filters page => some (n, filters, page)
  | fetchRelated n field owner page => some (n, [(field, owner)], page)
  | countMany n filters => some (n, filters, {})
  | countRelated n field owner => some (n, [(field, owner)], {})
  | fetchById .. => none
  | change _ => none

namespace Relational

variable {r : Relational} {l : TableLayout} {n : String} {filters : Filters} {q : Request}
  {page : Page} {c : Call}

/-- What a request for records cannot be answered for. -/
inductive Unanswerable (r : Relational) (q : Request) : Misuse → Prop where
  | noColumn {n : String} {filters : Filters} {page : Page} {l : TableLayout}
      (hq : q.reading? = some (n, filters, page)) (hl : r.layout n = .ok l)
      (hf : ∃ f ∈ filters, l.column? f.1 = none) : Unanswerable r q .missingEntry
  | tooMany {n : String} {filters : Filters} {page : Page} {l : TableLayout} {k : Int}
      (hq : q.reading? = some (n, filters, page)) (hl : r.layout n = .ok l)
      (hf : ∀ f ∈ filters, (l.column? f.1).isSome) (hk : page.first = some (.int k))
      (hw : Datum.fits k = false) : Unanswerable r q .outOfRange

theorem Unanswerable.unique {m m' : Misuse} (h : r.Unanswerable q m) (h' : r.Unanswerable q m') :
    m = m' := by
  have hboth {n n' : String} {fs fs' : Filters} {page page' : Page} {l l' : TableLayout}
      (hq : q.reading? = some (n, fs, page)) (hq' : q.reading? = some (n', fs', page'))
      (hl : r.layout n = .ok l) (hl' : r.layout n' = .ok l')
      (hf : ∃ f ∈ fs, l.column? f.1 = none) (hf' : ∀ f ∈ fs', (l'.column? f.1).isSome) : False := by
    cases hq.symm.trans hq'
    cases hl.symm.trans hl'
    obtain ⟨f, hmem, hnone⟩ := hf
    have hsome := hf' f hmem
    rw [hnone] at hsome
    cases hsome
  cases h with
  | noColumn hq hl hf =>
    cases h' with
    | noColumn => rfl
    | tooMany hq' hl' hf' => exact (hboth hq hq' hl hl' hf hf').elim
  | tooMany hq hl hf =>
    cases h' with
    | noColumn hq' hl' hf' => exact (hboth hq' hq hl' hl hf' hf).elim
    | tooMany => rfl

/-- A request can be answered if its type has no table, or if the columns are there and the page is
not too long. -/
theorem answerable_of_layout (hq : q.reading? = some (n, filters, page))
    (h : ∀ l, r.layout n = .ok l → (∀ f ∈ filters, (l.column? f.1).isSome) ∧
      ∀ k, page.first = some (.int k) → Datum.fits k = true) (m : Misuse) :
    ¬r.Unanswerable q m := by
  intro hm
  cases hm with
  | noColumn hq' hl hf =>
    cases hq.symm.trans hq'
    obtain ⟨f, hmem, hnone⟩ := hf
    have hsome := (h _ hl).1 f hmem
    rw [hnone] at hsome
    cases hsome
  | tooMany hq' hl _ hk hw =>
    cases hq.symm.trans hq'
    rw [(h _ hl).2 _ hk] at hw
    cases hw

theorem answerable_of_not_reading (hq : q.reading? = none) (m : Misuse) : ¬r.Unanswerable q m := by
  intro hm
  cases hm with
  | noColumn hq' => cases hq.symm.trans hq'
  | tooMany hq' => cases hq.symm.trans hq'

/-- What a request comes to: an answer or a failure of the store, or, if it cannot be answered, what
it cannot be answered for. -/
inductive Answers {α : Type} (r : Relational) (q : Request) (Q : α → Prop) :
    Except Failure α → Prop where
  | answer {a : α} (ha : Q a) (hq : ∀ m, ¬r.Unanswerable q m) : Answers r q Q (.ok a)
  | fault {f : Fault} (hq : ∀ m, ¬r.Unanswerable q m) : Answers r q Q (.error (.fault f))
  | misuse {m : Misuse} (hm : r.Unanswerable q m) : Answers r q Q (.error (.misuse m))

theorem Answers.imp {α : Type} {Q R : α → Prop} {x : Except Failure α} (h : r.Answers q Q x)
    (hQ : ∀ a, Q a → R a) : r.Answers q R x := by
  cases h with
  | answer ha hq => exact .answer (hQ _ ha) hq
  | fault hq => exact .fault hq
  | misuse hm => exact .misuse hm

/-- A row of the table for a layout. -/
def HasRow (r : Relational) (l : TableLayout) (row : Row) : Prop :=
  ∃ t ∈ r.database.tables, t.name = l.name ∧ row ∈ t.rows

theorem Consistent.exists_table (h : r.Consistent) (hl : l ∈ r.layouts) :
    ∃ t ∈ r.database.tables, t.name = l.name ∧ r.database.table? l.name = some t ∧
      t.columns.Perm l.columns := by
  obtain ⟨t, ht, hfits⟩ := h.fits.exists_table hl
  refine ⟨t, ht, hfits.name, ?_, hfits.columns⟩
  exact (h.fits.distinct h.storable.toSeparate).table?_of_mem ht (hfits.name ▸ sameName_self t.name)

/-- Conditions on columns of a layout, each for a value that can be looked for. -/
def Testable (l : TableLayout) (cs : List Condition) : Prop :=
  ∀ c ∈ cs, c.column ∈ l.columns ∧ c.wanted.Comparable

theorem exists_tests_of_forall {cs : List Condition} (h : ∀ c ∈ cs, ∃ t, c.test = .ok t)
    (otherwise : Fault) : ∃ ts, tests otherwise cs = .ok ts := by
  unfold tests
  split
  · rename_i hunreadable
    obtain ⟨c, hc, hmatch⟩ := List.any_eq_true.mp hunreadable
    obtain ⟨t, ht⟩ := h c hc
    rw [ht] at hmatch
    cases hmatch
  · refine exists_mapM_ok fun c hc => ?_
    obtain ⟨t, ht⟩ := h c hc
    exact ⟨t, mapError_eq_ok.mpr ht⟩

theorem exists_tests {cs : List Condition} (h : Testable l cs) (otherwise : Fault) :
    ∃ ts, tests otherwise cs = .ok ts := by
  refine exists_tests_of_forall (fun c hc => ?_) otherwise
  obtain ⟨wanted, hwanted⟩ := (h c hc).2 c.column.type
  exact ⟨_, bind_eq_ok.mpr ⟨wanted, hwanted, rfl⟩⟩

theorem Consistent.exists_matching (h : r.Consistent) (hl : l ∈ r.layouts) {cs : List Condition}
    (hcs : Testable l cs) (otherwise : Fault) :
    ∃ found, r.matching l otherwise cs = .ok found ∧ ∀ row ∈ found, r.HasRow l row := by
  obtain ⟨t, ht, hname, htable, hperm⟩ := h.exists_table hl
  obtain ⟨ts, hts⟩ := exists_tests hcs otherwise
  have hcolumns : t.hasColumns (cs.map (·.column)) = true := by
    refine Table.hasColumns_of_subset fun column hcolumn => ?_
    obtain ⟨c, hc, rfl⟩ := List.mem_map.mp hcolumn
    exact hperm.mem_iff.mpr (hcs c hc).1
  refine ⟨t.rows.filter fun row => ts.all (·.holds row), ?_, fun row hrow => ?_⟩
  · unfold matching
    rw [htable]
    dsimp only
    rw [if_pos hcolumns, hts]
    rfl
  · exact ⟨t, ht, hname, List.mem_of_mem_filter hrow⟩

theorem Consistent.exists_rows (h : r.Consistent) (hl : l ∈ r.layouts) {cs : List Condition}
    (hcs : Testable l cs) : ∃ found, r.rows l cs = .ok found ∧ ∀ row ∈ found, r.HasRow l row := by
  obtain ⟨t, _, _, htable, hperm⟩ := h.exists_table hl
  obtain ⟨found, hfound, hrows⟩ := h.exists_matching hl hcs .notQueried
  have hcolumns : t.hasColumns l.columns = true :=
    Table.hasColumns_of_subset fun _ hc => hperm.mem_iff.mpr hc
  refine ⟨found.mergeSort fun a b => decide (idOf a ≤ idOf b), ?_, fun row hrow => ?_⟩
  · rw [rows, htable, Option.any_some, if_pos hcolumns, hfound]
    rfl
  · exact hrows row ((List.mergeSort_perm found _).mem_iff.mp hrow)

theorem conditions_eq_error (hf : ∃ f ∈ filters, l.column? f.1 = none) :
    conditions l filters = .error (.misuse .missingEntry) := by
  have hone (f : String × Value) (hnone : l.column? f.1 = none) :
      (do return ⟨← column l f.1, f.2⟩ : Except Failure Condition) =
        .error (.misuse .missingEntry) := by
    rw [column, hnone]
    rfl
  induction filters with
  | nil =>
    obtain ⟨_, hmem, _⟩ := hf
    cases hmem
  | cons g filters ih =>
    rw [conditions, mapM_cons_eq_error]
    obtain ⟨f, hmem, hnone⟩ := hf
    cases hg : l.column? g.1 with
    | none => exact .inl (hone g hg)
    | some column =>
      rcases List.mem_cons.mp hmem with rfl | hmem
      · rw [hg] at hnone
        cases hnone
      · refine .inr ⟨⟨⟨column, g.2⟩, ?_⟩, ih ⟨f, hmem, hnone⟩⟩
        rw [Relational.column, hg]
        rfl

theorem exists_conditions (hf : ∀ f ∈ filters, (l.column? f.1).isSome)
    (hv : ∀ f ∈ filters, f.2.Comparable) :
    ∃ cs, conditions l filters = .ok cs ∧ Testable l cs := by
  obtain ⟨cs, hcs⟩ := exists_mapM_ok (f := fun f : String × Value => (do
      return ⟨← column l f.1, f.2⟩ : Except Failure Condition)) fun f hmem => by
    obtain ⟨column, hcolumn⟩ := Option.isSome_iff_exists.mp (hf f hmem)
    exact ⟨⟨column, f.2⟩, by rw [Relational.column, hcolumn]; rfl⟩
  refine ⟨cs, hcs, fun c hc => ?_⟩
  obtain ⟨f, hmem, hcolumn, hwanted⟩ := exists_left_of_mem (conditions_eq_ok hcs) hc
  exact ⟨(TableLayout.mem_of_column? hcolumn).1, hwanted ▸ hv f hmem⟩

/-- Either a column is not there, or all of them are. -/
theorem lacks_or_hasAll (l : TableLayout) (filters : Filters) :
    (∃ f ∈ filters, l.column? f.1 = none) ∨ ∀ f ∈ filters, (l.column? f.1).isSome := by
  by_cases h : ∀ f ∈ filters, (l.column? f.1).isSome
  · exact .inr h
  · push Not at h
    obtain ⟨f, hmem, hnone⟩ := h
    exact .inl ⟨f, hmem, by simpa using hnone⟩

theorem layout_eq_error {e : Failure} (h : r.layout n = .error e) : e = .fault (.noTable n) := by
  unfold layout at h
  split at h
  · cases h
  · cases h
    rfl

theorem Consistent.answers_find (h : r.Consistent) (hq : q.reading? = none) (n id : String) :
    r.Answers q (fun found => ∀ v ∈ found, ∃ l row, r.layout n = .ok l ∧ r.HasRow l row ∧
      v = record l row) (r.find n (.text id)) := by
  unfold find
  cases hl : r.layout n with
  | error e =>
    cases layout_eq_error hl
    exact .fault (answerable_of_not_reading hq)
  | ok l =>
    obtain ⟨hmem, _⟩ := layout_eq_ok hl
    have hid := h.column?_id hmem
    have hcs : Testable l [⟨⟨idName, .varchar, true⟩, .text id⟩] :=
      List.forall_mem_singleton.mpr ⟨(TableLayout.mem_of_column? hid).1, Value.comparable_text id⟩
    obtain ⟨found, hfound, hrows⟩ := h.exists_rows hmem hcs
    rw [ok_bind, column, hid, ok_bind, hfound]
    refine .answer (fun v hv => ?_) (answerable_of_not_reading hq)
    obtain ⟨row, hrow, rfl⟩ := Option.map_eq_some_iff.mp hv
    exact ⟨l, row, rfl, hrows row (List.mem_of_head? hrow), rfl⟩

/-- Records are asked for by conditions, unless their table or a column is not there. -/
theorem answers_of_conditions {α : Type} {Q : α → Prop}
    {f : TableLayout → List Condition → Except Failure α}
    (hq : q.reading? = some (n, filters, page)) (hv : ∀ f ∈ filters, f.2.Comparable)
    (hf : ∀ l cs, r.layout n = .ok l → (∀ f ∈ filters, (l.column? f.1).isSome) → Testable l cs →
      r.Answers q Q (f l cs)) :
    r.Answers q Q (do
      let l ← r.layout n
      f l (← conditions l filters)) := by
  cases hl : r.layout n with
  | error e =>
    cases layout_eq_error hl
    exact .fault (answerable_of_layout hq fun l hl' => by rw [hl] at hl'; cases hl')
  | ok l =>
    rw [ok_bind]
    rcases lacks_or_hasAll l filters with hlacks | hall
    · rw [conditions_eq_error hlacks]
      exact .misuse (.noColumn hq hl hlacks)
    · obtain ⟨cs, hcs, htestable⟩ := exists_conditions hall hv
      rw [hcs]
      exact hf l cs hl hall htestable

theorem Consistent.exists_count (h : r.Consistent) (hl : l ∈ r.layouts) {cs : List Condition}
    (hcs : Testable l cs) : ∃ total, r.count l cs = .ok total := by
  obtain ⟨found, hfound, _⟩ := h.exists_matching hl hcs (.notCounted l.name)
  exact ⟨found.length, by rw [count, hfound]; rfl⟩

theorem Consistent.answers_countMany (h : r.Consistent)
    (hq : q.reading? = some (n, filters, {})) (hv : ∀ f ∈ filters, f.2.Comparable) :
    r.Answers q (fun _ => True) (r.countMany n filters) := by
  refine answers_of_conditions hq hv fun l cs hl hall hcs => ?_
  obtain ⟨total, htotal⟩ := h.exists_count (layout_eq_ok hl).1 hcs
  rw [htotal]
  refine .answer trivial (answerable_of_layout hq fun l' hl' => ?_)
  cases hl.symm.trans hl'
  exact ⟨hall, nofun⟩

namespace Slice

theorem exists_rest (c : Call) (rows : List Row) :
    ∃ rest, (c.afterId?.map Value.text).elim (pure rows) (rowsAfter · rows) = .ok rest ∧
      rest ⊆ rows := by
  cases c.afterId? with
  | none => exact ⟨rows, rfl, List.Subset.refl rows⟩
  | some id => exact ⟨_, rfl, List.filter_subset_self _⟩

theorem exists_firstOf {k : Int} (h : Datum.fits k = true) (rows : List Row) :
    ∃ shown, firstOf k rows = .ok shown ∧ shown ⊆ rows := by
  rw [firstOf, h]
  by_cases hk : k < 0
  · exact ⟨rows, if_pos hk, List.Subset.refl rows⟩
  · exact ⟨_, if_neg hk, List.take_subset _ rows⟩

/-- A page can be cut off unless it is to have more records than a number of 64 bits can say. -/
theorem cut_of (c : Call) (rows : List Row) :
    (∃ shown, (mk (c.afterId?.map .text) (c.firstCount?.map Int.ofNat)).cut rows = .ok shown ∧
      shown ⊆ rows ∧ ∀ k, (Page.of c).first = some (.int k) → Datum.fits k = true) ∨
    (mk (c.afterId?.map .text) (c.firstCount?.map Int.ofNat)).cut rows =
        .error (.misuse .outOfRange) ∧
      ∃ k, (Page.of c).first = some (.int k) ∧ Datum.fits k = false := by
  obtain ⟨rest, hrest, hsub⟩ := exists_rest c rows
  rw [cut, hrest, ok_bind, Page.of]
  cases c.firstCount? with
  | none =>
    refine .inl ⟨rest, rfl, hsub, fun k hk => ?_⟩
    cases hk
  | some count =>
    cases hfits : Datum.fits count with
    | true =>
      obtain ⟨shown, hshown, hfirst⟩ := exists_firstOf hfits rest
      refine .inl ⟨shown, hshown, List.Subset.trans hfirst hsub, fun k hk => ?_⟩
      cases hk
      exact hfits
    | false =>
      refine .inr ⟨?_, count, rfl, hfits⟩
      show firstOf count rest = _
      rw [firstOf, hfits]
      rfl

end Slice

theorem Consistent.answers_fetch (h : r.Consistent) (c : Call)
    (hq : q.reading? = some (n, filters, .of c)) (hv : ∀ f ∈ filters, f.2.Comparable) :
    r.Answers q (fun found => ∀ v ∈ found.records, ∃ l row, r.layout n = .ok l ∧
      r.HasRow l row ∧ v = record l row) (r.fetch n filters (.of c)) := by
  refine answers_of_conditions hq hv fun l cs hl hall hcs => ?_
  obtain ⟨hmem, _⟩ := layout_eq_ok hl
  obtain ⟨total, htotal⟩ := h.exists_count hmem hcs
  obtain ⟨found, hfound, hrows⟩ := h.exists_rows hmem hcs
  have hid := h.column?_id hmem
  rw [htotal, ok_bind, column, hid, ok_bind, Slice.ofPage_of, Except.mapError, ok_bind, hfound,
    ok_bind]
  rcases Slice.cut_of c found with ⟨shown, hshown, hsub, hfits⟩ | ⟨herror, k, hk, hwide⟩
  · rw [hshown]
    refine .answer (List.forall_mem_map.mpr fun row hrow => ?_) ?_
    · exact ⟨l, row, hl, hrows row (hsub hrow), rfl⟩
    · refine answerable_of_layout hq fun l' hl' => ?_
      cases hl.symm.trans hl'
      exact ⟨hall, hfits⟩
  · rw [herror]
    exact .misuse (.tooMany hq hl hall hk hwide)

/-- What a change that can be judged is not made for is a failure of the store. -/
theorem Consistent.prepare_faults (h : r.Consistent) {change : SchemaChange}
    (hc : change.Judgeable) : FailsWith (∃ f, · = .fault f) (r.prepare change) := by
  obtain ⟨outcome, houtcome⟩ := h.valid.exists_applyValidated hc
  rw [← h.registry] at houtcome
  obtain ⟨spots, hspots⟩ := h.valid.exists_referring change
  rw [prepare, houtcome, hspots]
  cases outcome with
  | error refusal => exact failsWith_ok none
  | ok s =>
    dsimp only [Except.mapError, ok_bind]
    split
    · exact failsWith_error ⟨.notChanged, rfl⟩
    · exact failsWith_ok _

end Relational

end ObjectQuery
