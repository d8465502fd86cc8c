import ObjectQuery.Proofs.Plan.Selections
import ObjectQuery.Proofs.Store.Tally

/-!
# What stores in a database recall

The rows of a table are asked for as records are in memory, and if there is an answer, it is made of
the rows for the same records, in the same order. What the columns are asked for has to be a value
of the scalar that they are for.
-/

set_option autoImplicit false

namespace ObjectQuery

open Outcome

section Cells

variable {l : TableLayout} {record : Value} {row : Row} {c : Column} {s : Scalar}

theorem Value.held_of_required_eq_ok {name : String} {v : Value}
    (h : record.required name = .ok v) : record.held name = v := by
  unfold required at h
  split at h
  · split at h
    · rename_i hv
      cases h
      rw [held, hv]
      rfl
    · cases h
  · cases h

theorem Value.mem_of_required {entries : List (String × Value)} {name : String} {v : Value}
    (h : (Value.object entries).required name = .ok v) : (name, v) ∈ entries := by
  simp only [required] at h
  split at h
  · rename_i hv
    cases h
    obtain ⟨_, _, rfl, _⟩ := List.lookup_eq_some_iff.mp hv
    simp
  · cases h

theorem Value.held_of_required_eq_error {name : String} {e : Misuse}
    (h : record.required name = .error e) : record.held name = .null := by
  unfold required at h
  split at h
  · split at h
    · cases h
    · rename_i hv
      rw [held, hv]
      rfl
  · rename_i hne
    unfold held
    split
    · exact absurd rfl (hne _)
    · rfl

/-- A column for a scalar holds what it makes of the value in the record, null if there is none. -/
theorem Stored.cell_eq (h : Stored l record row) (hc : c ∈ l.columns)
    (ht : c.type = .ofScalar s) :
    (ColumnType.ofScalar s).cell (record.held c.name) = .ok (row.get c.name) := by
  have hcell := h c hc
  split at hcell
  · rename_i v hv
    rw [Value.held_of_required_eq_ok hv, ← ht]
    exact hcell
  · rename_i e he
    rw [Value.held_of_required_eq_error he, Scalar.cell_null, hcell]

end Cells

/-- The records of a type, each with its row of a table. -/
structure Tabled (l : TableLayout) (ps : List (Value × Row)) : Prop where
  stored : ∀ p ∈ ps, Stored l p.1 p.2
  keyed : Keyed (ps.map (·.1))
  key : l.column? idName = some ⟨idName, .varchar, true⟩

/-- Records with their rows, in order of their ids. -/
def byId (ps : List (Value × Row)) : List (Value × Row) :=
  ps.mergeSort fun p q => decide (p.1.idText ≤ q.1.idText)

theorem mem_byId {ps : List (Value × Row)} {p : Value × Row} : p ∈ byId ps ↔ p ∈ ps :=
  (List.mergeSort_perm ps _).mem_iff

theorem map_fst_byId (ps : List (Value × Row)) :
    (byId ps).map (·.1) = inOrder (ps.map (·.1)) :=
  List.map_mergeSort fun _ _ _ _ => rfl

namespace Tabled

variable {l : TableLayout} {ps qs : List (Value × Row)} {p : Value × Row}

theorem sublist (h : Tabled l ps) (hq : qs.Sublist ps) : Tabled l qs :=
  ⟨fun p hp => h.stored p (hq.subset hp),
    ⟨fun r hr => h.keyed.hasId r ((hq.map _).subset hr),
      h.keyed.distinct.sublist ((hq.map _).map _)⟩, h.key⟩

theorem hasId (h : Tabled l ps) (hp : p ∈ ps) : HasId p.1 :=
  h.keyed.hasId p.1 (List.mem_map_of_mem hp)

theorem get_id (h : Tabled l ps) (hp : p ∈ ps) : p.2.get idName = some (.text p.1.idText) := by
  obtain ⟨hmem, _⟩ := TableLayout.mem_of_column? h.key
  have hcell := (h.stored p hp).cell_eq hmem (s := .id) rfl
  rw [(h.hasId hp).held_eq] at hcell
  have hkept : Except.ok (some (Value.text p.1.idText)) =
      (Except.ok (p.2.get idName) : Except Unstorable _) := hcell
  exact (Except.ok.inj hkept).symm

theorem idOf_eq (h : Tabled l ps) (hp : p ∈ ps) : Relational.idOf p.2 = p.1.idText := by
  rw [Relational.idOf, h.get_id hp]
  rfl

theorem map_snd_byId (h : Tabled l ps) :
    (byId ps).map (·.2) = (ps.map (·.2)).mergeSort
      fun a b => decide (Relational.idOf a ≤ Relational.idOf b) := by
  apply List.map_mergeSort
  intro p hp q hq
  rw [h.idOf_eq hp, h.idOf_eq hq]

end Tabled

/-- Filters by fields that hold a scalar, each with one of its values. -/
def Filterable (l : TableLayout) (ps : List (Value × Row)) (filters : Filters) : Prop :=
  ∀ f ∈ filters, ∀ c, l.column? f.1 = some c → ∃ s : Scalar, c.type = .ofScalar s ∧
    s.Holds f.2 ∧ ∀ p ∈ ps, s.Allows (p.1.held f.1)

/-- Whether a record holds what all filters want. -/
def holdsAll (filters : Filters) (record : Value) : Bool :=
  filters.all fun f => (record.held f.1).equal f.2

namespace Relational

variable {l : TableLayout} {c : Column} {n : String} {filters : Filters} {otherwise : Fault}

theorem column_eq_ok (h : column l n = .ok c) : l.column? n = some c := by
  unfold column at h
  split at h
  · rename_i hc
    cases h
    exact hc
  · cases h

theorem conditions_eq_ok {cs : List Condition} (h : conditions l filters = .ok cs) :
    List.Forall₂ (fun f c => l.column? f.1 = some c.column ∧ c.wanted = f.2) filters cs := by
  refine (mapM_eq_ok.mp h).imp fun f c hc => ?_
  obtain ⟨column, hcolumn, hc⟩ := bind_eq_ok.mp hc
  cases hc
  exact ⟨column_eq_ok hcolumn, rfl⟩

theorem tests_eq_ok {cs : List Condition} {ts : List Test} (h : tests otherwise cs = .ok ts) :
    List.Forall₂ (fun c t => t.column = c.column ∧ c.column.type.wanted c.wanted = .ok t.wanted)
      cs ts := by
  unfold tests at h
  split at h
  · cases h
  · refine (mapM_eq_ok.mp h).imp fun c t ht => ?_
    obtain ⟨wanted, hwanted, ht⟩ := bind_eq_ok.mp (mapError_eq_ok.mp ht)
    cases ht
    exact ⟨rfl, hwanted⟩

/-- Rows pass the tests for filters if their records hold what the filters want. -/
theorem all_holds_eq {ps : List (Value × Row)} {cs : List Condition} {ts : List Test}
    {p : Value × Row} (hp : Stored l p.1 p.2) (hmem : p ∈ ps) (hf : Filterable l ps filters)
    (hcs : conditions l filters = .ok cs) (hts : tests otherwise cs = .ok ts) :
    (ts.all (·.holds p.2)) = holdsAll filters p.1 := by
  replace hcs := conditions_eq_ok hcs
  replace hts := tests_eq_ok hts
  unfold holdsAll
  induction hcs generalizing ts with
  | nil =>
    cases hts
    rfl
  | @cons f c filters cs hc _ ih =>
    obtain ⟨t, ts, ht, hrest, rfl⟩ := List.forall₂_cons_left_iff.mp hts
    obtain ⟨hcolumn, hwanted⟩ := hc
    obtain ⟨htest, hwanted'⟩ := ht
    obtain ⟨s, htype, hholds, hallows⟩ := hf f List.mem_cons_self c.column hcolumn
    obtain ⟨hcl, hname⟩ := TableLayout.mem_of_column? hcolumn
    have hcell := hp.cell_eq hcl htype
    rw [hname] at hcell
    have hheld : t.holds p.2 = (p.1.held f.1).equal f.2 := by
      rw [htype, hwanted] at hwanted'
      rw [Test.holds, htest, htype, hname]
      exact (hallows p hmem).isHeld_eq hcell hholds hwanted'
    rw [List.all_cons, List.all_cons, hheld,
      ih (fun g hg => hf g (List.mem_cons_of_mem f hg)) hrest]

end Relational

namespace Relational

variable {l : TableLayout} {n : String} {filters : Filters} {c : Call}

theorem Slice.ofPage_of (c : Call) :
    Slice.ofPage (.of c) = .ok ⟨c.afterId?.map .text, c.firstCount?.map Int.ofNat⟩ := by
  unfold Page.of Slice.ofPage
  cases c.afterId? <;> cases c.firstCount? <;> rfl

theorem Slice.firstOf_eq_ok {count : Nat} {rows shown : List Row}
    (h : firstOf (.ofNat count) rows = .ok shown) : shown = rows.take count := by
  unfold firstOf at h
  split at h
  · cases h
  · rw [if_neg (by simp)] at h
    cases h
    rfl

theorem Slice.cut_eq_ok {rows shown : List Row}
    (h : (Slice.mk (c.afterId?.map .text) (c.firstCount?.map Int.ofNat)).cut rows = .ok shown) :
    shown = c.windowBy idOf rows := by
  obtain ⟨rest, hrest, h⟩ := bind_eq_ok.mp h
  have hafter : rest = c.restBy idOf rows := by
    unfold Call.restBy
    cases hid : c.afterId? with
    | none =>
      rw [hid] at hrest
      cases hrest
      rfl
    | some id =>
      rw [hid] at hrest
      cases hrest
      rfl
  unfold Call.windowBy
  rw [← hafter]
  cases hfirst : c.firstCount? with
  | none =>
    rw [hfirst] at h
    cases h
    rfl
  | some count =>
    rw [hfirst] at h
    exact firstOf_eq_ok h

variable {r : Relational} {ps : List (Value × Row)}

theorem result_ask {α : Type} (f : Relational → Except Failure α) (r : Relational) :
    (ask f).result r = match f r with
      | .ok a => (.ok a, r)
      | .error e => (.error e, r) := by
  show (match f r with
    | .ok a => pure a
    | .error e => throw e : Access Relational α).result r = _
  cases f r <;> rfl

theorem yields_ask {α : Type} {f : Relational → Except Failure α} {a : α} (h : f r = .ok a) :
    (ask f).Yields r a := by
  unfold Access.Yields
  rw [result_ask, h]

/-- A table of a store has rows for these records. -/
structure Lists (r : Relational) (l : TableLayout) (ps : List (Value × Row)) : Prop
    extends Tabled l ps where
  table : r.database.table? l.name = some ⟨l.name, l.columns, ps.map (·.2)⟩

/-- The records that meet filters, with their rows and in order. -/
def meeting (filters : Filters) (ps : List (Value × Row)) : List (Value × Row) :=
  byId (ps.filter fun p => holdsAll filters p.1)

theorem Lists.meeting (h : r.Lists l ps) (filters : Filters) : Tabled l (meeting filters ps) := by
  have hfilter := h.toTabled.sublist (List.filter_sublist (p := fun p => holdsAll filters p.1))
  refine ⟨fun p hp => hfilter.stored p (mem_byId.mp hp), ?_, h.key⟩
  rw [Relational.meeting, map_fst_byId]
  exact hfilter.keyed.inOrder

theorem matching_eq_ok {otherwise : Fault} {cs : List Condition} {found : List Row}
    (hp : r.Lists l ps) (hf : Filterable l ps filters) (hcs : conditions l filters = .ok cs)
    (h : r.matching l otherwise cs = .ok found) :
    found = (ps.filter fun p => holdsAll filters p.1).map (·.2) := by
  unfold matching at h
  rw [hp.table] at h
  dsimp only at h
  split at h
  · obtain ⟨ts, hts, h⟩ := bind_eq_ok.mp h
    cases h
    rw [List.filter_map]
    congr 1
    apply List.filter_congr
    intro p hmem
    exact all_holds_eq (hp.stored p hmem) hmem hf hcs hts
  · cases h

theorem count_eq_ok {cs : List Condition} {total : Nat} (hp : r.Lists l ps)
    (hf : Filterable l ps filters) (hcs : conditions l filters = .ok cs)
    (h : r.count l cs = .ok total) : total = (meeting filters ps).length := by
  obtain ⟨found, hfound, h⟩ := bind_eq_ok.mp h
  cases h
  rw [matching_eq_ok hp hf hcs hfound, List.length_map, meeting, byId, List.length_mergeSort]

theorem rows_eq_ok {cs : List Condition} {found : List Row} (hp : r.Lists l ps)
    (hf : Filterable l ps filters) (hcs : conditions l filters = .ok cs)
    (h : r.rows l cs = .ok found) : found = (meeting filters ps).map (·.2) := by
  unfold rows at h
  split at h
  · obtain ⟨all, hall, h⟩ := bind_eq_ok.mp h
    cases h
    rw [matching_eq_ok hp hf hcs hall, meeting,
      (hp.toTabled.sublist List.filter_sublist).map_snd_byId]
  · cases h

theorem countMany_eq_ok {total : Nat} (hl : r.layout n = .ok l) (hp : r.Lists l ps)
    (hf : Filterable l ps filters) (h : r.countMany n filters = .ok total) :
    total = (meeting filters ps).length := by
  unfold countMany at h
  rw [hl, ok_bind] at h
  obtain ⟨cs, hcs, h⟩ := bind_eq_ok.mp h
  exact count_eq_ok hp hf hcs h

/-- A page holds the rows for the records of the window that the call asks for. -/
theorem fetch_eq_ok {fetched : Fetched} (hl : r.layout n = .ok l) (hp : r.Lists l ps)
    (hf : Filterable l ps filters) (h : r.fetch n filters (.of c) = .ok fetched) :
    fetched = ⟨(c.windowBy (fun p => p.1.idText) (meeting filters ps)).map fun p => record l p.2,
      (meeting filters ps).length⟩ := by
  unfold fetch at h
  rw [hl, ok_bind] at h
  obtain ⟨cs, hcs, h⟩ := bind_eq_ok.mp h
  obtain ⟨total, htotal, h⟩ := bind_eq_ok.mp h
  obtain ⟨_, _, h⟩ := bind_eq_ok.mp h
  obtain ⟨slice, hslice, h⟩ := bind_eq_ok.mp h
  obtain ⟨found, hfound, h⟩ := bind_eq_ok.mp h
  obtain ⟨shown, hshown, h⟩ := bind_eq_ok.mp h
  cases h
  rw [Slice.ofPage_of] at hslice
  cases hslice
  have hkeys : ∀ p ∈ meeting filters ps, idOf p.2 = p.1.idText := fun p hmem =>
    (hp.meeting filters).idOf_eq hmem
  rw [count_eq_ok hp hf hcs htotal, Slice.cut_eq_ok hshown, rows_eq_ok hp hf hcs hfound,
    Call.windowBy_map, Call.windowBy_congr hkeys, List.map_map]
  rfl

theorem find_eq_ok {id : String} {found : Option Value} (hl : r.layout n = .ok l)
    (hp : r.Lists l ps) (h : r.find n (.text id) = .ok found) :
    found = (meeting [(idName, .text id)] ps).head?.map fun p => record l p.2 := by
  have hf : Filterable l ps [(idName, .text id)] := by
    intro f hf c hc
    obtain rfl := List.mem_singleton.mp hf
    cases hp.key.symm.trans hc
    refine ⟨.id, rfl, .id id, fun p hmem => .inr ?_⟩
    rw [(hp.hasId hmem).held_eq]
    exact .id p.1.idText
  unfold find at h
  rw [hl, ok_bind] at h
  obtain ⟨c, hc, h⟩ := bind_eq_ok.mp h
  obtain ⟨found, hfound, h⟩ := bind_eq_ok.mp h
  cases h
  have hcs : conditions l [(idName, .text id)] = .ok [⟨c, .text id⟩] := by
    rw [conditions, List.mapM_cons, hc]
    rfl
  rw [rows_eq_ok hp hf hcs hfound, List.head?_map, Option.map_map]
  rfl

end Relational

section Records

variable {m : Memory} {n : String} {ps : List (Value × Row)}

theorem map_fst_meeting (filters : Filters) (ps : List (Value × Row)) :
    (Relational.meeting filters ps).map (·.1) =
      inOrder ((ps.map (·.1)).filter (holdsAll filters)) := by
  rw [Relational.meeting, map_fst_byId, List.filter_map]
  rfl

theorem Memory.select_eq_meeting (hr : m.recordsOf n = ps.map (·.1)) (hk : Keyed (ps.map (·.1)))
    (filters : Filters) :
    m.select n filters = .ok ((Relational.meeting filters ps).map (·.1)) := by
  rw [map_fst_meeting, Memory.select_eq (hr ▸ hk), hr]
  rfl

theorem Memory.fetch_eq_meeting (hr : m.recordsOf n = ps.map (·.1)) (hk : Keyed (ps.map (·.1)))
    (filters : Filters) (c : Call) :
    m.fetch n filters (.of c) =
      .ok ⟨(c.windowBy (fun p => p.1.idText) (Relational.meeting filters ps)).map (·.1),
        (Relational.meeting filters ps).length⟩ := by
  have hfound : (Relational.meeting filters ps).map (·.1) = inOrder ((m.recordsOf n).filter
      fun r => filters.all fun f => (r.held f.1).equal f.2) := by
    rw [map_fst_meeting, hr]
    rfl
  rw [Page.of, Memory.fetch_eq (hr ▸ hk) filters c hfound, List.length_map,
    Call.window_eq_windowBy, Call.windowBy_map]

theorem Memory.find_eq_meeting (hr : m.recordsOf n = ps.map (·.1)) (hk : Keyed (ps.map (·.1)))
    (id : String) :
    m.find n (.text id) =
      .ok ((Relational.meeting [(idName, .text id)] ps).head?.map (·.1)) := by
  have hmeets : ∀ r ∈ ps.map (·.1), holdsAll [(idName, .text id)] r = (r.idText == id) := by
    intro r hmem
    simp [holdsAll, (hk.hasId r hmem).held_eq]
  rw [Memory.find_eq (hr ▸ hk), hr, ← List.head?_map, map_fst_meeting,
    List.filter_congr hmeets, ← hk.filter_inOrder, List.head?_filter,
    hk.find?_perm (inOrder_perm _)]

end Records

end ObjectQuery
