import ObjectQuery.Proofs.Store.Paging

/-!
# How many records there are

A page comes with the number of all records that it is a page of, and a store can be asked for this
number alone. It says the same both times, and it can always count by fetching an empty page. Where
the ids of records are distinct texts, they go up along a page, and there is a page whenever there
is a number.
-/

set_option autoImplicit false

namespace ObjectQuery

open Outcome

section Totals

variable {σ : Type} {s : σ}

/-- A store that is asked for pages or for a number says the number with every page, and with an
empty page whatever it says when it counts. -/
structure Tallying (fetch : Page → Access σ Fetched) (count : Access σ Nat) (s : σ) : Prop where
  page : ∀ page f, (fetch page).Yields s f → count.Yields s f.count
  empty : (do return (← fetch Store.emptyPage).count : Access σ Nat).result s = count.result s

/-- A page that is there if its records can be counted, in the order of their ids. -/
structure Orderly (fetch : Access σ Fetched) (count : Access σ Nat) (s : σ) : Prop where
  total : (fetch.result s).1.map Fetched.count = (count.result s).1
  climbs : ∀ f, fetch.Yields s f → ∃ ids : List String,
    f.records.mapM (·.required idName) = .ok (ids.map Value.text) ∧ ids.Pairwise (· < ·)

theorem exists_ids {records : List Value} (hids : ∀ v ∈ records, HasId v) (h : Climbs records) :
    ∃ ids : List String, (records.mapM (·.required idName) : Except Misuse _) =
      .ok (ids.map Value.text) ∧ ids.Pairwise (· < ·) := by
  refine ⟨records.map Value.idText, ?_, List.pairwise_map.mpr h⟩
  rw [List.map_map]
  exact mapM_ok fun v hv => (hids v hv).required_eq

/-- What is asked for the records of an owner needs the id of the owner first. -/
theorem Tallying.of_owner {fetch : Value → Page → Access σ Fetched} {count : Value → Access σ Nat}
    (h : ∀ owner, Tallying (fetch owner) (count owner) s) (id : Except Misuse Value) :
    Tallying (fun page => do fetch (← Access.ofExcept id) page)
      (do count (← Access.ofExcept id)) s := by
  cases id with
  | ok owner => exact h owner
  | error m =>
    refine ⟨fun page f hf => ?_, rfl⟩
    cases hf

theorem Orderly.of_owner {fetch : Value → Access σ Fetched} {count : Value → Access σ Nat}
    (h : ∀ owner, Orderly (fetch owner) (count owner) s) (id : Except Misuse Value) :
    Orderly (do fetch (← Access.ofExcept id)) (do count (← Access.ofExcept id)) s := by
  cases id with
  | ok owner => exact h owner
  | error m =>
    refine ⟨rfl, fun f hf => ?_⟩
    cases hf

end Totals

namespace Memory

variable {m : Memory} {n : String} {filters : Filters} {page : Page} {f : Fetched}

theorem result_ask {α : Type} (f : Memory → Except Misuse α) (m : Memory) :
    (ask f).result m = ((f m).mapError .misuse, m) := by
  show (do Access.ofExcept (f (← get)) : Access Memory α).result m = _
  rw [Access.result_bind]
  show (Access.ofExcept (f m)).result m = _
  cases f m <;> rfl

theorem yields_ask_iff {α : Type} {f : Memory → Except Misuse α} {a : α} :
    (ask f).Yields m a ↔ f m = .ok a := by
  rw [Access.Yields, result_ask, Prod.mk.injEq, mapError_eq_ok, and_iff_left rfl]

theorem fetch_eq_ok (h : m.fetch n filters page = .ok f) :
    ∃ found, m.select n filters = .ok found ∧ pageOf page found = .ok f.records ∧
      f.count = found.length := by
  obtain ⟨found, hfound, h⟩ := bind_eq_ok.mp h
  obtain ⟨shown, hshown, h⟩ := bind_eq_ok.mp h
  cases h
  exact ⟨found, hfound, hshown, rfl⟩

theorem fetch_emptyPage (m : Memory) (n : String) (filters : Filters) :
    m.fetch n filters Store.emptyPage = (do return ⟨[], (← m.select n filters).length⟩) := by
  rw [fetch]
  cases m.select n filters with
  | error e => rfl
  | ok found => rfl

/-- A store in memory counts what it selects, page or no page. -/
theorem tallying (m : Memory) (n : String) (filters : Filters) :
    Tallying (fun page => ask (·.fetch n filters page))
      (ask fun m => return (← m.select n filters).length) m := by
  refine ⟨fun page f h => ?_, ?_⟩
  · obtain ⟨found, hfound, _, hcount⟩ := fetch_eq_ok (yields_ask_iff.mp h)
    refine yields_ask ?_
    rw [hfound, hcount]
    rfl
  · rw [Access.result_bind, result_ask, result_ask, fetch_emptyPage]
    cases m.select n filters with
    | error e => rfl
    | ok found => rfl

theorem orderly (h : Keyed (m.recordsOf n)) (filters : Filters) (c : Call) :
    Orderly (ask (·.fetch n filters (.of c))) (ask fun m => return (← m.select n filters).length)
      m := by
  have hkeyed := h.filter (holdsAll filters)
  have hselect : m.select n filters =
      .ok (inOrder ((m.recordsOf n).filter (holdsAll filters))) := select_eq h filters
  have hfetch : m.fetch n filters (.of c) =
      .ok ⟨c.window (inOrder ((m.recordsOf n).filter (holdsAll filters))),
        (inOrder ((m.recordsOf n).filter (holdsAll filters))).length⟩ := fetch_eq h filters c rfl
  refine ⟨?_, fun f hf => ?_⟩
  · rw [result_ask, result_ask, hfetch, hselect]
    rfl
  · cases hfetch.symm.trans (yields_ask_iff.mp hf)
    exact exists_ids (hkeyed.inOrder.window c).hasId
      ((climbs_inOrder hkeyed).sublist (c.window_sublist _))

end Memory

namespace Relational

variable {r : Relational} {n : String} {filters : Filters} {page : Page} {f : Fetched} {c : Call}

theorem yields_ask_iff {α : Type} {f : Relational → Except Failure α} {a : α} :
    (ask f).Yields r a ↔ f r = .ok a := by
  rw [Access.Yields, result_ask]
  cases f r <;> simp

theorem countMany_of_fetch (h : r.fetch n filters page = .ok f) :
    r.countMany n filters = .ok f.count := by
  obtain ⟨l, hl, h⟩ := bind_eq_ok.mp h
  obtain ⟨cs, hcs, h⟩ := bind_eq_ok.mp h
  obtain ⟨total, htotal, h⟩ := bind_eq_ok.mp h
  obtain ⟨_, _, h⟩ := bind_eq_ok.mp h
  obtain ⟨_, _, h⟩ := bind_eq_ok.mp h
  obtain ⟨_, _, h⟩ := bind_eq_ok.mp h
  obtain ⟨_, _, h⟩ := bind_eq_ok.mp h
  cases h
  rw [countMany, hl, ok_bind, hcs, ok_bind, htotal]

/-- What is found can be fetched in pages, and what cannot be found cannot be counted either. -/
theorem Readable.map_count_fetch (h : r.Readable) (n : String) (filters : Filters) {slice : Slice}
    (hslice : Slice.ofPage page = .ok slice)
    (hcut : ∀ rows, ∃ shown, slice.cut rows = .ok shown) :
    (r.fetch n filters page).map Fetched.count = r.countMany n filters := by
  rw [countMany_eq_found]
  cases hfound : r.found n filters with
  | error e =>
    rw [fetch_eq_error hfound]
    rfl
  | ok found =>
    obtain ⟨l, hl, hfound⟩ := bind_eq_ok.mp hfound
    obtain ⟨cs, hcs, hfound⟩ := bind_eq_ok.mp hfound
    obtain ⟨rows, hrows, hfound⟩ := bind_eq_ok.mp hfound
    cases hfound
    obtain ⟨shown, hshown⟩ := hcut (sortedRows rows)
    rw [h.fetch_eq_cut hl hcs hrows hslice, hshown]
    exact congrArg Except.ok (List.length_map _).symm

theorem Readable.fetch_climbs (h : r.Readable) (hf : r.fetch n filters (.of c) = .ok f) :
    ∃ ids : List String, (f.records.mapM (·.required idName) : Except Misuse _) =
      .ok (ids.map Value.text) ∧ ids.Pairwise (· < ·) := by
  obtain ⟨l, hl, hrest⟩ := bind_eq_ok.mp hf
  obtain ⟨cs, hcs, hrest⟩ := bind_eq_ok.mp hrest
  obtain ⟨_, htotal, _⟩ := bind_eq_ok.mp hrest
  obtain ⟨rows, hrows, _⟩ := bind_eq_ok.mp htotal
  obtain ⟨hids, hclimbs⟩ := h.climbs_rows (layout_eq_ok hl).1 hrows
  rw [h.fetch_eq_cut hl hcs hrows (Slice.ofPage_of c)] at hf
  obtain ⟨shown, hshown, hf⟩ := bind_eq_ok.mp hf
  cases hf
  have hsub : (shown.map (record l)).Sublist ((sortedRows rows).map (record l)) := by
    rw [Slice.cut_eq_ok hshown]
    exact Call.windowBy_sublist.map _
  exact exists_ids (fun v hv => hids v (hsub.subset hv)) (hclimbs.sublist hsub)

theorem Readable.tallying (h : r.Readable) (n : String) (filters : Filters) :
    Tallying (fun page => ask (·.fetch n filters page)) (ask (·.countMany n filters)) r := by
  refine ⟨fun page f hf => yields_ask (countMany_of_fetch (yields_ask_iff.mp hf)), ?_⟩
  have hzero : Datum.fits (0 : Nat) = true := rfl
  have hcount : (r.fetch n filters Store.emptyPage).map Fetched.count = r.countMany n filters :=
    h.map_count_fetch n filters (Slice.ofPage_sized 0 none)
      fun rows => ⟨_, Slice.cut_eq hzero none rows⟩
  rw [Access.result_bind, result_ask, result_ask, ← hcount]
  cases r.fetch n filters Store.emptyPage with
  | error e => rfl
  | ok f => rfl

theorem Readable.orderly (h : r.Readable) (n : String) (filters : Filters)
    (hfits : ∀ k, (Page.of c).first = some (.int k) → Datum.fits k = true) :
    Orderly (ask (·.fetch n filters (.of c))) (ask (·.countMany n filters)) r := by
  have hcount : (r.fetch n filters (.of c)).map Fetched.count = r.countMany n filters := by
    refine h.map_count_fetch n filters (Slice.ofPage_of c) fun rows => ?_
    rcases Slice.cut_of c rows with ⟨shown, hshown, _⟩ | ⟨_, k, hk, hwide⟩
    · exact ⟨shown, hshown⟩
    · rw [hfits k hk] at hwide
      cases hwide
  refine ⟨?_, fun f hf => h.fetch_climbs (yields_ask_iff.mp hf)⟩
  rw [result_ask, result_ask, ← hcount]
  cases r.fetch n filters (.of c) with
  | error e => rfl
  | ok f => rfl

end Relational

end ObjectQuery
