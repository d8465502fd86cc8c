import Mathlib.Algebra.Order.Floor.Div
import ObjectQuery.Proofs.Store.Matching

/-!
# Reading page by page

Whoever asks for one page after the other, each after the last record of the one before it, and
stops at a page without records has then seen every record once, in order of the ids. What carries
this is that the records after an id are the rest of those in order, behind the record of that id,
and so the pages cut a list into parts of one size. It holds of every store whose pages are made
like that.
-/

set_option autoImplicit false

namespace ObjectQuery

open Outcome

section Walks

variable {σ : Type} {fetch : Page → Access σ Fetched} {size total : Nat} {s : σ}
  {after : Option Value} {pages : List Fetched}

/-- The pages that are seen by whoever asks for one after the other, each after the last record of
the one before it, up to the first one without records. -/
inductive Walk (fetch : Page → Access σ Fetched) (size : Nat) (s : σ) :
    Option Value → List Fetched → Prop where
  | stop {after : Option Value} {page : Fetched}
      (hpage : (fetch ⟨some (.int size), after⟩).Yields s page) (hnone : page.records = []) :
      Walk fetch size s after [page]
  | next {after : Option Value} {page : Fetched} {last id : Value} {pages : List Fetched}
      (hpage : (fetch ⟨some (.int size), after⟩).Yields s page)
      (hlast : page.records.getLast? = some last) (hid : last.required idName = .ok id)
      (hrest : Walk fetch size s (some id) pages) : Walk fetch size s after (page :: pages)

theorem Access.Yields.unique {α : Type} {x : Access σ α} {a b : α} (ha : x.Yields s a)
    (hb : x.Yields s b) : a = b := by
  have heq := ha.symm.trans hb
  exact Except.ok.inj (Prod.mk.inj heq).1

theorem Walk.unique {pages' : List Fetched} (h : Walk fetch size s after pages)
    (h' : Walk fetch size s after pages') : pages = pages' := by
  induction h generalizing pages' with
  | stop hpage hnone =>
    cases h' with
    | stop hpage' => rw [hpage.unique hpage']
    | next hpage' hlast' =>
      rw [← hpage.unique hpage', hnone] at hlast'
      cases hlast'
  | next hpage hlast hid _ ih =>
    cases h' with
    | stop hpage' hnone' =>
      rw [hpage.unique hpage', hnone'] at hlast
      cases hlast
    | next hpage' hlast' hid' hrest' =>
      obtain rfl := hpage.unique hpage'
      cases hlast.symm.trans hlast'
      cases hid.symm.trans hid'
      rw [ih hrest']

/-- Pages that show some records, all but the last one as many as there is room for. -/
structure Covers (size total : Nat) (records : List Value) (pages : List Fetched) : Prop where
  shown : pages.flatMap (·.records) = records
  number : pages.length = records.length ⌈/⌉ size
  counts : ∀ page ∈ pages, page.count = total
  nonempty : ∀ page ∈ pages, page.records ≠ []
  full : ∀ page ∈ pages.dropLast, page.records.length = size

theorem covers_nil (size total : Nat) : Covers size total [] [] :=
  ⟨rfl, by simp, nofun, nofun, nofun⟩

theorem Covers.cons (hsize : 1 ≤ size) {records : List Value} (hne : records ≠ [])
    (h : Covers size total (records.drop size) pages) :
    Covers size total records (⟨records.take size, total⟩ :: pages) := by
  have hlength : 0 < records.length := List.length_pos_iff.mpr hne
  refine ⟨?_, ?_, ?_, ?_, ?_⟩
  · rw [List.flatMap_cons, h.shown, List.take_append_drop]
  · have hnumber := h.number
    rw [List.length_drop, Nat.ceilDiv_eq_add_pred_div] at hnumber
    rw [List.length_cons, hnumber, Nat.ceilDiv_eq_add_pred_div]
    rcases Nat.lt_or_ge size records.length with hlt | hle
    · rw [← Nat.add_div_right _ hsize]
      congr 1
      omega
    · rw [Nat.sub_eq_zero_of_le hle, Nat.div_eq_of_lt (by omega), Nat.div_eq_of_lt_le] <;> omega
  · exact List.forall_mem_cons.mpr ⟨rfl, h.counts⟩
  · refine List.forall_mem_cons.mpr ⟨?_, h.nonempty⟩
    rw [Ne, List.take_eq_nil_iff, not_or]
    exact ⟨by omega, hne⟩
  · cases pages with
    | nil => nofun
    | cons page pages =>
      rw [List.dropLast_cons_of_ne_nil (List.cons_ne_nil _ _)]
      refine List.forall_mem_cons.mpr ⟨?_, h.full⟩
      -- There is something left for the next page, so this one is full.
      have hrest : records.drop size ≠ [] := by
        rw [← h.shown, List.flatMap_cons]
        exact List.append_ne_nil_of_left_ne_nil (h.nonempty page List.mem_cons_self) _
      rw [Ne, List.drop_eq_nil_iff, Nat.not_le] at hrest
      exact List.length_take_of_le hrest.le

/-- What comes after an id. -/
def beyond (after : Option String) (records : List Value) : List Value :=
  match after with
  | some id => records.filter fun r => decide (id < r.idText)
  | none => records

/-- A list in which ids go up. -/
def Climbs (records : List Value) : Prop := records.Pairwise fun a b => a.idText < b.idText

theorem beyond_append {before rest : List Value} (h : Climbs (before ++ rest)) :
    beyond (before.getLast?.map Value.idText) (before ++ rest) = rest := by
  rcases List.eq_nil_or_concat before with rfl | ⟨before, last, rfl⟩
  · rfl
  · obtain ⟨hbefore, _, hacross⟩ := List.pairwise_append.mp h
    rw [List.concat_eq_append] at hbefore hacross ⊢
    obtain ⟨_, _, hlast⟩ := List.pairwise_append.mp hbefore
    rw [List.getLast?_concat, Option.map_some, beyond, List.filter_append]
    have hnone : (before ++ [last]).filter (fun r => decide (last.idText < r.idText)) = [] := by
      refine List.filter_eq_nil_iff.mpr fun r hr => ?_
      rw [decide_eq_true_eq, not_lt]
      rcases List.mem_append.mp hr with hr | hr
      · exact (hlast r hr last (List.mem_singleton_self last)).le
      · rw [List.mem_singleton.mp hr]
    have hall : rest.filter (fun r => decide (last.idText < r.idText)) = rest :=
      List.filter_eq_self.mpr fun r hr => decide_eq_true (hacross last (by simp) r hr)
    rw [hnone, hall, List.nil_append]

/-- Where every page is cut off the records after an id, reading on from any record shows the ones
that are left. -/
theorem Walk.exists_covers (hsize : 1 ≤ size) {found : List Value} (hids : ∀ r ∈ found, HasId r)
    (hclimbs : Climbs found)
    (hfetch : ∀ after : Option String, (fetch ⟨some (.int size), after.map .text⟩).Yields s
      ⟨(beyond after found).take size, found.length⟩)
    (before rest : List Value) (hsplit : found = before ++ rest) :
    ∃ pages, Walk fetch size s ((before.getLast?.map Value.idText).map .text)
        (pages ++ [⟨[], found.length⟩]) ∧ Covers size found.length rest pages := by
  -- Every page that is not the last one shortens what is left.
  induction hleft : rest.length using Nat.strong_induction_on generalizing before rest with
  | _ left ih =>
    have hpage := hfetch (before.getLast?.map Value.idText)
    rw [hsplit, beyond_append (hsplit ▸ hclimbs), ← hsplit] at hpage
    by_cases hne : rest = []
    · subst hne
      rw [List.take_nil] at hpage
      exact ⟨[], .stop hpage rfl, covers_nil _ _⟩
    · have htake : rest.take size ≠ [] := by
        rw [Ne, List.take_eq_nil_iff, not_or]
        exact ⟨by omega, hne⟩
      have hlength := List.length_pos_iff.mpr hne
      obtain ⟨pages, hwalk, hcovers⟩ := ih (rest.drop size).length
        (by rw [← hleft, List.length_drop]; omega) (before ++ rest.take size) (rest.drop size)
        (by rw [List.append_assoc, List.take_append_drop, hsplit]) rfl
      have hlast := List.getLast?_eq_some_getLast htake
      rw [List.getLast?_append_of_ne_nil _ htake, hlast] at hwalk
      refine ⟨_, .next hpage hlast ?_ hwalk, hcovers.cons hsize hne⟩
      refine (hids _ ?_).required_eq
      rw [hsplit]
      exact List.mem_append_right _ (List.take_subset size rest (List.getLast_mem htake))

/-- Reading page by page shows some records, each once and in order of their ids. -/
def Paged (fetch : Page → Access σ Fetched) (size : Nat) (s : σ) (found : List Value) : Prop :=
  ∃ records pages, records.Perm found ∧ Climbs records ∧
    Covers size found.length records pages ∧
    ∀ walked, Walk fetch size s none walked ↔ walked = pages ++ [⟨[], found.length⟩]

theorem Paged.of_slices (hsize : 1 ≤ size) {found records : List Value} (hperm : records.Perm found)
    (hids : ∀ r ∈ records, HasId r) (hclimbs : Climbs records)
    (hfetch : ∀ after : Option String, (fetch ⟨some (.int size), after.map .text⟩).Yields s
      ⟨(beyond after records).take size, records.length⟩) : Paged fetch size s found := by
  obtain ⟨pages, hwalk, hcovers⟩ := Walk.exists_covers hsize hids hclimbs hfetch [] records rfl
  rw [hperm.length_eq] at hwalk hcovers
  refine ⟨records, pages, hperm, hclimbs, hcovers, fun walked => ?_⟩
  constructor
  · exact fun h => h.unique hwalk
  · rintro rfl
    exact hwalk

end Walks

namespace Memory

variable {m : Memory} {n : String} {size : Nat}

theorem fetch_slice (h : Keyed (m.recordsOf n)) (filters : Filters) (size : Nat)
    (after : Option String) : m.fetch n filters ⟨some (.int size), after.map .text⟩ =
      .ok ⟨(beyond after (inOrder ((m.recordsOf n).filter (holdsAll filters)))).take size,
        (inOrder ((m.recordsOf n).filter (holdsAll filters))).length⟩ := by
  have hselect : m.select n filters =
      .ok (inOrder ((m.recordsOf n).filter (holdsAll filters))) := select_eq h filters
  have hkeyed : Keyed (inOrder ((m.recordsOf n).filter (holdsAll filters))) := (h.filter _).inOrder
  generalize inOrder ((m.recordsOf n).filter (holdsAll filters)) = found at hselect hkeyed ⊢
  have hpage : pageOf ⟨some (.int size), after.map .text⟩ found =
      .ok ((beyond after found).take size) := by
    cases after with
    | none => rfl
    | some id =>
      have hafter : (found.filterM fun r => do isBefore (.text id) (← r.required idName) :
          Except Misuse (List Value)) = .ok (beyond (some id) found) :=
        filterM_ok fun r hr => by rw [(hkeyed.hasId r hr).required_eq]; simp [isBefore]
      rw [pageOf, Option.map_some]
      dsimp only
      rw [hafter]
      rfl
  rw [fetch, hselect, ok_bind, hpage, ok_bind, pure_eq_ok]

theorem climbs_inOrder {records : List Value} (h : Keyed records) : Climbs (inOrder records) := by
  refine ((ascends_inOrder records).and (List.pairwise_map.mp h.inOrder.distinct)).imp ?_
  rintro a b ⟨hle, hne⟩
  exact lt_of_le_of_ne hle hne

theorem paged_fetch (h : Keyed (m.recordsOf n)) (hsize : 1 ≤ size) (filters : Filters) :
    Paged (fun page => ask (·.fetch n filters page)) size m
      ((m.recordsOf n).filter (holdsAll filters)) := by
  have hkeyed := h.filter (holdsAll filters)
  have hclimbs := climbs_inOrder hkeyed
  refine .of_slices hsize (inOrder_perm _) hkeyed.inOrder.hasId hclimbs fun after => ?_
  exact yields_ask (fetch_slice h filters size after)

end Memory

namespace Relational

variable {r : Relational} {l : TableLayout} {n : String} {filters : Filters}
  {cs : List Condition} {rows : List Row} {row : Row} {size : Nat}

/-- The records that meet filters, in the order of insertion. -/
def found (r : Relational) (n : String) (filters : Filters) : Except Failure (List Value) := do
  let l ← r.layout n
  let cs ← conditions l filters
  return (← r.matching l (.notCounted l.name) cs).map (record l)

/-- As many are counted as are found. -/
theorem countMany_eq_found (r : Relational) (n : String) (filters : Filters) :
    r.countMany n filters = (r.found n filters).map List.length := by
  unfold countMany found count
  cases r.layout n with
  | error e => rfl
  | ok l =>
    rw [ok_bind, ok_bind]
    cases conditions l filters with
    | error e => rfl
    | ok cs =>
      rw [ok_bind, ok_bind]
      cases r.matching l (.notCounted l.name) cs with
      | error e => rfl
      | ok rows => exact congrArg Except.ok (List.length_map _).symm

theorem tests_otherwise {otherwise otherwise' : Fault} {ts : List Test}
    (h : tests otherwise cs = .ok ts) : tests otherwise' cs = .ok ts := by
  unfold tests at h ⊢
  split at h
  · cases h
  · rename_i hreadable
    rw [if_neg hreadable]
    refine mapM_eq_ok.mpr ((mapM_eq_ok.mp h).imp fun c t ht => ?_)
    exact mapError_eq_ok.mpr (mapError_eq_ok.mp ht)

theorem matching_otherwise {otherwise otherwise' : Fault}
    (h : r.matching l otherwise cs = .ok rows) : r.matching l otherwise' cs = .ok rows := by
  unfold matching at h ⊢
  split at h
  · cases h
  · split at h
    · rename_i hcolumns
      obtain ⟨ts, hts, h⟩ := bind_eq_ok.mp h
      rw [if_pos hcolumns, tests_otherwise hts]
      exact h
    · cases h

/-- Rows in order of their ids. -/
def sortedRows (rows : List Row) : List Row := rows.mergeSort fun a b => decide (idOf a ≤ idOf b)

theorem sortedRows_perm (rows : List Row) : (sortedRows rows).Perm rows :=
  List.mergeSort_perm rows _

/-- Rows after an id. -/
def rowsBeyond (after : Option String) (rows : List Row) : List Row :=
  match after with
  | some id => rows.filter fun row => decide (id < idOf row)
  | none => rows

/-- Rows that can be counted can be read, and they are told apart by their ids. -/
theorem Readable.rows_eq (h : r.Readable) (hl : l ∈ r.layouts)
    (hrows : r.matching l (.notCounted l.name) cs = .ok rows) :
    r.rows l cs = .ok (sortedRows rows) ∧
      (∀ row ∈ sortedRows rows, ∃ id, row.get idName = some (.text id)) ∧
      ((sortedRows rows).map idOf).Nodup := by
  obtain ⟨t, htable, hcolumns, hkeyed⟩ := h.exists_table l hl
  have hread : r.matching l .notQueried cs = .ok rows := matching_otherwise hrows
  have hsub : rows.Sublist t.rows := by
    unfold matching at hrows
    rw [htable] at hrows
    dsimp only at hrows
    split at hrows
    · obtain ⟨ts, _, hrows⟩ := bind_eq_ok.mp hrows
      cases hrows
      exact List.filter_sublist
    · cases hrows
  refine ⟨?_, fun row hrow => ?_, ?_⟩
  · rw [Relational.rows, htable, Option.any_some, if_pos hcolumns, hread]
    rfl
  · exact hkeyed.present row (hsub.subset ((sortedRows_perm rows).mem_iff.mp hrow))
  · exact ((sortedRows_perm rows).map _).nodup_iff.mpr (hkeyed.distinct.sublist (hsub.map _))

theorem held_id_record (hl : l.column? idName = some ⟨idName, .varchar, true⟩) {id : String}
    (h : row.get idName = some (.text id)) : (record l row).held idName = .text id := by
  rw [record, Value.held, lookup_record hl, h]
  rfl

/-- A record that a row is read as has the id of the row. -/
theorem idText_record (hl : l.column? idName = some ⟨idName, .varchar, true⟩)
    (h : ∃ id, row.get idName = some (.text id)) : (record l row).idText = idOf row := by
  obtain ⟨id, hid⟩ := h
  rw [Value.idText, held_id_record hl hid, idOf_of_get hid]
  rfl

theorem beyond_record (hl : l.column? idName = some ⟨idName, .varchar, true⟩)
    (h : ∀ row ∈ rows, ∃ id, row.get idName = some (.text id)) (after : Option String) :
    beyond after (rows.map (record l)) = (rowsBeyond after rows).map (record l) := by
  cases after with
  | none => rfl
  | some id =>
    rw [beyond, List.filter_map]
    refine congrArg (List.map (record l)) (List.filter_congr fun row hrow => ?_)
    rw [Function.comp_apply, idText_record hl (h row hrow)]

theorem Slice.cut_eq {size : Nat} (hfits : Datum.fits size = true) (after : Option String)
    (rows : List Row) : (mk (after.map .text) (some size)).cut rows =
      .ok ((rowsBeyond after rows).take size) := by
  have hfirst (rest : List Row) : firstOf size rest = .ok (rest.take size) := by
    rw [firstOf, hfits, if_neg (by decide), if_neg (by omega)]
    rfl
  cases after with
  | none => exact hfirst rows
  | some id => exact hfirst (rows.filter fun row => decide (id < idOf row))

theorem Slice.ofPage_sized (size : Nat) (after : Option String) :
    Slice.ofPage ⟨some (.int size), after.map .text⟩ = .ok ⟨after.map .text, some size⟩ := by
  cases after <;> rfl

/-- A page is what is cut off the rows that are found, in order of their ids. -/
theorem Readable.fetch_eq_cut (h : r.Readable) (hl : r.layout n = .ok l)
    (hcs : conditions l filters = .ok cs) (hrows : r.matching l (.notCounted l.name) cs = .ok rows)
    {page : Page} {slice : Slice} (hslice : Slice.ofPage page = .ok slice) :
    r.fetch n filters page = (do
      let shown ← slice.cut (sortedRows rows)
      return ⟨shown.map (record l), rows.length⟩) := by
  obtain ⟨hmem, _⟩ := layout_eq_ok hl
  obtain ⟨hsorted, _, _⟩ := h.rows_eq hmem hrows
  have hcount : r.count l cs = .ok rows.length := by
    rw [count, hrows]
    rfl
  have hcolumn : column l idName = .ok ⟨idName, .varchar, true⟩ := by
    rw [column, h.column?_id l hmem]
  rw [fetch, hl, ok_bind, hcs, ok_bind, hcount, ok_bind, hcolumn, ok_bind, hslice,
    Except.mapError, ok_bind, hsorted, ok_bind]

/-- A page is cut off the records after an id. -/
theorem Readable.fetch_slice (h : r.Readable) (hl : r.layout n = .ok l)
    (hcs : conditions l filters = .ok cs) (hrows : r.matching l (.notCounted l.name) cs = .ok rows)
    (hfits : Datum.fits size = true) (after : Option String) :
    r.fetch n filters ⟨some (.int size), after.map .text⟩ =
      .ok ⟨(beyond after ((sortedRows rows).map (record l))).take size,
        ((sortedRows rows).map (record l)).length⟩ := by
  obtain ⟨hmem, _⟩ := layout_eq_ok hl
  obtain ⟨_, hpresent, _⟩ := h.rows_eq hmem hrows
  rw [h.fetch_eq_cut hl hcs hrows (Slice.ofPage_sized size after), Slice.cut_eq hfits, ok_bind,
    pure_eq_ok, beyond_record (h.column?_id l hmem) hpresent, List.map_take, List.length_map,
    (sortedRows_perm rows).length_eq]

/-- What rows in order are read as has ids that go up. -/
theorem Readable.climbs_rows (h : r.Readable) (hl : l ∈ r.layouts)
    (hrows : r.matching l (.notCounted l.name) cs = .ok rows) :
    (∀ v ∈ (sortedRows rows).map (record l), HasId v) ∧
      Climbs ((sortedRows rows).map (record l)) := by
  have hid := h.column?_id l hl
  obtain ⟨_, hpresent, hdistinct⟩ := h.rows_eq hl hrows
  constructor
  · refine List.forall_mem_map.mpr fun row hrow => ?_
    obtain ⟨id, hget⟩ := hpresent row hrow
    exact ⟨id, held_id_record hid hget⟩
  · refine List.pairwise_map.mpr (List.Pairwise.imp_of_mem ?_
      ((Sorting.ascends_mergeSort idOf rows).and (List.pairwise_map.mp hdistinct)))
    rintro a b ha hb ⟨hle, hne⟩
    rw [idText_record hid (hpresent a ha), idText_record hid (hpresent b hb)]
    exact lt_of_le_of_ne hle hne

/-- Where nothing can be found there is no page either. -/
theorem fetch_eq_error {e : Failure} (h : r.found n filters = .error e) (page : Page) :
    r.fetch n filters page = .error e := by
  unfold found at h
  unfold fetch count
  cases hl : r.layout n with
  | error e' =>
    rw [hl, error_bind, Except.error.injEq] at h
    rw [error_bind, h]
  | ok l =>
    rw [hl, ok_bind] at h
    rw [ok_bind]
    cases hcs : conditions l filters with
    | error e' =>
      rw [hcs, error_bind, Except.error.injEq] at h
      rw [error_bind, h]
    | ok cs =>
      rw [hcs, ok_bind] at h
      rw [ok_bind]
      cases hrows : r.matching l (.notCounted l.name) cs with
      | error e' =>
        rw [hrows, error_bind, Except.error.injEq] at h
        rw [error_bind, error_bind, h]
      | ok rows =>
        rw [hrows] at h
        cases h

/-- What is found are the records of the rows that meet the filters. -/
theorem Readable.found_eq_ok (h : r.Readable) (hl : l ∈ r.layouts) (hasked : Askable l filters) :
    ∃ t, r.database.table? l.name = some t ∧
      r.found l.name filters = .ok ((t.rows.filter (·.meets l filters)).map (record l)) := by
  obtain ⟨t, htable, hcolumns, _⟩ := h.exists_table l hl
  obtain ⟨cs, hcs, hmatching⟩ := exists_matching_of_askable hasked htable hcolumns
  refine ⟨t, htable, ?_⟩
  rw [found, layout_of_mem hl, ok_bind, hcs, ok_bind, hmatching, ok_bind, pure_eq_ok]

/-- What can be found was asked for. -/
theorem askable_of_found {records : List Value} (h : r.found n filters = .ok records) :
    ∃ l ∈ r.layouts, l.name = n ∧ Askable l filters := by
  obtain ⟨l, hl, h⟩ := bind_eq_ok.mp h
  obtain ⟨cs, hcs, h⟩ := bind_eq_ok.mp h
  obtain ⟨rows, hrows, _⟩ := bind_eq_ok.mp h
  obtain ⟨hmem, hname⟩ := layout_eq_ok hl
  exact ⟨l, hmem, hname, askable_of_matching hcs hrows⟩

/-- Reading the records of a type page by page, which shows those of the rows of its table that meet
filters. No page is had if there is no table, or if the filters cannot be asked for. -/
structure Pages (fetch : Page → Access Relational Fetched) (size : Nat) (r : Relational)
    (n : String) (filters : Filters) : Prop where
  shown : ∀ l ∈ r.layouts, l.name = n → Askable l filters → ∃ t found,
    r.database.table? n = some t ∧
      List.Forall₂ l.Shows (t.rows.filter (·.meets l filters)) found ∧ Paged fetch size r found
  failing : (∀ l ∈ r.layouts, l.name = n → ¬Askable l filters) → ∀ page, ∃ e,
    (fetch page).result r = (.error e, r)

theorem Readable.paged_fetch (h : r.Readable) (hsize : 1 ≤ size) (hfits : Datum.fits size = true)
    {records : List Value} (hfound : r.found n filters = .ok records) :
    Paged (fun page => ask (·.fetch n filters page)) size r records := by
  obtain ⟨l, hl, hfound⟩ := bind_eq_ok.mp hfound
  obtain ⟨cs, hcs, hfound⟩ := bind_eq_ok.mp hfound
  obtain ⟨rows, hrows, hfound⟩ := bind_eq_ok.mp hfound
  cases hfound
  obtain ⟨hids, hclimbs⟩ := h.climbs_rows (layout_eq_ok hl).1 hrows
  exact .of_slices hsize ((sortedRows_perm rows).map _) hids hclimbs fun after =>
    yields_ask (h.fetch_slice hl hcs hrows hfits after)

theorem Readable.pages_fetch (h : r.Readable) (hsize : 1 ≤ size) (hfits : Datum.fits size = true)
    (n : String) (filters : Filters) :
    Pages (fun page => ask (·.fetch n filters page)) size r n filters := by
  constructor
  · rintro l hl rfl hasked
    obtain ⟨t, htable, hfound⟩ := h.found_eq_ok hl hasked
    refine ⟨t, _, htable, ?_, h.paged_fetch hsize hfits hfound⟩
    exact List.forall₂_map_right_iff.mpr (List.forall₂_same.mpr fun row _ => shows_record row)
  · intro hnone page
    cases hfound : r.found n filters with
    | ok records =>
      obtain ⟨l, hl, hname, hasked⟩ := askable_of_found hfound
      exact absurd hasked (hnone l hl hname)
    | error e => exact ⟨e, by rw [result_ask, fetch_eq_error hfound]⟩

end Relational

/-- Whoever reads page by page sees every record that is found once, in order of the ids, and how
many there are on every page. What is found in a database are the rows with the values that filters
want, wherever values are of the scalar of their column. -/
theorem Store.paged_by_id {size : Nat} (hsize : 1 ≤ size) :
    (∀ r : Relational, r.Readable → Datum.fits size = true → ∀ n,
      (∀ filters, Relational.Pages (Store.fetchMany n filters) size r n filters) ∧
      ∀ field owner,
        Relational.Pages (Store.fetchRelated n field owner) size r n [(field, owner)]) ∧
    (∀ (l : TableLayout) (filters : Filters) (row : Row) (v : Value), Askable l filters →
      row.Typed l filters → l.Shows row v → row.meets l filters = holdsAll filters v) ∧
    ∀ (m : Memory) (n : String), Keyed (m.recordsOf n) →
      (∀ filters, Paged (Store.fetchMany n filters) size m
        ((m.recordsOf n).filter (holdsAll filters))) ∧
      ∀ field owner, Paged (Store.fetchRelated n field owner) size m
        ((m.recordsOf n).filter (holdsAll [(field, owner)])) := by
  refine ⟨fun r hr hfits n => ?_, fun l filters row v hasked htyped hshows => ?_, fun m n hm => ?_⟩
  · exact ⟨fun filters => hr.pages_fetch hsize hfits n filters,
      fun field owner => hr.pages_fetch hsize hfits n [(field, owner)]⟩
  · exact htyped.meets_eq hasked hshows
  · exact ⟨fun filters => Memory.paged_fetch hm hsize filters,
      fun field owner => Memory.paged_fetch hm hsize [(field, owner)]⟩

namespace Library

def bookLayout : TableLayout where
  name := "Book"
  columns := [⟨"id", .varchar, true⟩, ⟨"title", .text, false⟩, ⟨"author", .varchar, false⟩]

/-- A row without an author, and three by two authors. -/
def bookRows : List Row := [
  [("id", .text "d"), ("title", .text "B")],
  [("id", .text "c"), ("title", .text "B"), ("author", .text "a")],
  [("id", .text "b"), ("author", .text "a")],
  [("id", .text "e"), ("title", .text "B"), ("author", .text "f")]]

def bookRecords : Value := .list (bookRows.map fun row => .object [
  ("id", (row.get "id").getD .null),
  ("title", (row.get "title").getD .null),
  ("author", (row.get "author").getD .null)])

def byTitle : Filters := [("title", .text "B")]

def byAuthor : Filters := [("author", .text "a")]

end Library

/-- Three books with a title, and two by an author, are seen on pages of two records. -/
theorem library_paged : ∃ r : Relational, r.Readable ∧ Library.bookLayout ∈ r.layouts ∧
    r.database.table? "Book" = some ⟨"Book", Library.bookLayout.columns, Library.bookRows⟩ ∧
    Askable Library.bookLayout Library.byTitle ∧
    (∀ row ∈ Library.bookRows, row.Typed Library.bookLayout Library.byTitle ∧
      ∀ v, Library.bookLayout.Shows row v →
        row.meets Library.bookLayout Library.byTitle = holdsAll Library.byTitle v) ∧
    (Library.bookRows.filter (·.meets Library.bookLayout Library.byTitle)).length = 3 ∧
    Relational.Pages (Store.fetchMany "Book" Library.byTitle) 2 r "Book" Library.byTitle ∧
    (Library.bookRows.filter (·.meets Library.bookLayout Library.byAuthor)).length = 2 ∧
    Relational.Pages (Store.fetchRelated "Book" "author" (.text "a")) 2 r "Book" Library.byAuthor ∧
    Keyed (Library.memory.recordsOf "Book") ∧
    Paged (Store.fetchRelated "Book" "author" (.text "a")) 2 Library.memory
      ((Library.memory.recordsOf "Book").filter (holdsAll Library.byAuthor)) := by
  obtain ⟨r₀, hcreate⟩ : ∃ r₀, Relational.create .standard Library.schema = .ok r₀ := ⟨_, rfl⟩
  have hvalid : Library.schema.Valid .standard := by rfl
  have hstart : r₀.Reached r₀ := .start
  have hreached := hstart.insert "Book" Library.bookRecords
  have hreadable := (hreached.identifying (.of_create hvalid rfl hcreate)).readable
  have hasked : Askable Library.bookLayout Library.byTitle :=
    List.forall_mem_singleton.mpr ⟨⟨"title", .text, false⟩, .datum (.text "B"), rfl, rfl⟩
  have htyped : ∀ row ∈ Library.bookRows, row.Typed Library.bookLayout Library.byTitle := by
    intro row hrow
    refine List.forall_mem_singleton.mpr
      ⟨⟨"title", .text, false⟩, .string, rfl, rfl, .inr (.string "B"), fun v hv => ?_⟩
    simp only [Library.bookRows, List.mem_cons, List.not_mem_nil, or_false] at hrow
    rcases hrow with rfl | rfl | rfl | rfl <;> cases hv <;> exact .string "B"
  have hbooks : Keyed (Library.memory.recordsOf "Book") := by
    refine ⟨fun r hr => ?_, by decide +kernel⟩
    rcases List.mem_cons.mp hr with rfl | hr
    · exact ⟨"c", rfl⟩
    · exact ⟨"b", List.mem_singleton.mp hr ▸ rfl⟩
  have hsize : 1 ≤ 2 := Nat.le_succ 1
  obtain ⟨hdatabase, hmeets, hmemory⟩ := Store.paged_by_id hsize
  obtain ⟨hmany, hrelated⟩ := hdatabase _ hreadable rfl "Book"
  refine ⟨_, hreadable, ?_, ?_, hasked, fun row hrow => ⟨htyped row hrow, fun v =>
    hmeets _ _ row v hasked (htyped row hrow)⟩, by decide +kernel, hmany _, by decide +kernel,
    hrelated "author" (.text "a"), hbooks, (hmemory _ "Book" hbooks).2 "author" (.text "a")⟩
  · cases hcreate
    decide +kernel
  · cases hcreate
    rfl

end ObjectQuery
