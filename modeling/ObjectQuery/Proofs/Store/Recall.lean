import ObjectQuery.Proofs.Query.Answer
import ObjectQuery.Proofs.Schema.Validity
import ObjectQuery.Proofs.Store.Order

/-!
# What stores in memory recall

Of records with distinct texts as ids, a store in memory finds the one of an id, and gives pages of
those that meet filters in order of their ids. None of this can fail.
-/

set_option autoImplicit false

namespace ObjectQuery

open Outcome Sorting

variable {r : Value} {rs : List Value} {n id : String}

theorem HasId.held_eq (h : HasId r) : r.held idName = .text r.idText := by
  obtain ⟨id, hid⟩ := h
  rw [Value.idText, hid, Value.text?_text, Option.getD_some]

theorem HasId.exists_entries (h : HasId r) : ∃ entries, r = .object entries := by
  obtain ⟨id, hid⟩ := h
  cases r with
  | object entries => exact ⟨entries, rfl⟩
  | _ => cases hid

theorem HasId.entry_eq (h : HasId r) (name : String) : r.entry name = .ok (r.held name) := by
  obtain ⟨entries, rfl⟩ := h.exists_entries
  rfl

theorem HasId.required_eq (h : HasId r) : r.required idName = .ok (.text r.idText) := by
  have hid := h.held_eq
  obtain ⟨entries, rfl⟩ := h.exists_entries
  simp only [Value.held] at hid
  simp only [Value.required]
  split
  · rename_i v hv
    rw [hv, Option.getD_some] at hid
    rw [hid]
  · rename_i hv
    simp [hv] at hid

/-- Records with distinct ids. -/
structure Keyed (rs : List Value) : Prop where
  hasId : ∀ r ∈ rs, HasId r
  distinct : (rs.map Value.idText).Nodup

theorem Keyed.filter (h : Keyed rs) (p : Value → Bool) : Keyed (rs.filter p) :=
  ⟨fun r hr => h.hasId r (List.mem_of_mem_filter hr),
    h.distinct.sublist (List.filter_sublist.map Value.idText)⟩

theorem inOrder_perm (rs : List Value) : (inOrder rs).Perm rs := List.mergeSort_perm rs _

theorem mem_inOrder : r ∈ inOrder rs ↔ r ∈ rs := (inOrder_perm rs).mem_iff

theorem ascends_inOrder (rs : List Value) : Ascends Value.idText (inOrder rs) :=
  ascends_mergeSort Value.idText rs

theorem Keyed.perm (h : Keyed rs) {xs : List Value} (hp : xs.Perm rs) : Keyed xs :=
  ⟨fun r hr => h.hasId r (hp.mem_iff.mp hr), (hp.map Value.idText).nodup_iff.mpr h.distinct⟩

theorem Keyed.inOrder (h : Keyed rs) : Keyed (ObjectQuery.inOrder rs) := h.perm (inOrder_perm rs)

/-- Whatever ascends by id is in the one order that there is. -/
theorem Keyed.eq_inOrder (h : Keyed rs) {xs : List Value} (hp : xs.Perm rs)
    (ha : Ascends Value.idText xs) : xs = ObjectQuery.inOrder rs :=
  ha.eq_of_perm (ascends_inOrder rs) (hp.trans (inOrder_perm rs).symm)
    ((hp.map Value.idText).nodup_iff.mpr h.distinct)

theorem Keyed.filter_inOrder (h : Keyed rs) (p : Value → Bool) :
    (ObjectQuery.inOrder rs).filter p = ObjectQuery.inOrder (rs.filter p) :=
  (h.filter p).eq_inOrder ((inOrder_perm rs).filter p) ((ascends_inOrder rs).filter p)

/-- What is found by a key that nothing else in a list has. -/
theorem find?_of_mem {α : Type} {key : α → String} {xs : List α} {x : α}
    (h : (xs.map key).Nodup) (hx : x ∈ xs) : xs.find? (key · == key x) = some x := by
  obtain ⟨y, hy⟩ : ∃ y, xs.find? (key · == key x) = some y := by
    rw [← Option.isSome_iff_exists, List.find?_isSome]
    exact ⟨x, hx, BEq.rfl⟩
  have hkey := List.find?_some hy
  rw [hy, List.inj_on_of_nodup_map h (List.mem_of_find?_eq_some hy) hx (beq_iff_eq.mp hkey)]

/-- Of records with distinct ids at most one has a given id. -/
theorem Keyed.find?_eq_some_iff (h : Keyed rs) :
    rs.find? (·.idText == id) = some r ↔ r ∈ rs ∧ r.idText = id := by
  constructor
  · intro hfind
    have hid := List.find?_some hfind
    exact ⟨List.mem_of_find?_eq_some hfind, beq_iff_eq.mp hid⟩
  · rintro ⟨hr, rfl⟩
    exact find?_of_mem h.distinct hr

theorem Keyed.find?_perm (h : Keyed rs) {xs : List Value} (hp : xs.Perm rs) (id : String) :
    xs.find? (·.idText == id) = rs.find? (·.idText == id) := by
  refine Option.ext fun r => ?_
  rw [(h.perm hp).find?_eq_some_iff, h.find?_eq_some_iff, hp.mem_iff]

/-- What is left of a list after the key that a call begins after. -/
def Call.restBy {α : Type} (c : Call) (key : α → String) (xs : List α) : List α :=
  match c.afterId? with
  | some id => xs.filter fun x => decide (id < key x)
  | none => xs

/-- The part of a list in order that a call asks to be shown, by the keys of its elements. -/
def Call.windowBy {α : Type} (c : Call) (key : α → String) (xs : List α) : List α :=
  match c.firstCount? with
  | some n => (c.restBy key xs).take n
  | none => c.restBy key xs

section Windows

variable {α β : Type} {c : Call} {key : α → String} {xs : List α}

theorem Call.window_eq_windowBy (c : Call) (rs : List Value) :
    c.window rs = c.windowBy Value.idText rs := rfl

theorem Call.restBy_sublist : (c.restBy key xs).Sublist xs := by
  unfold restBy
  cases c.afterId? with
  | none => exact .refl _
  | some id => exact List.filter_sublist

theorem Call.windowBy_sublist : (c.windowBy key xs).Sublist xs := by
  unfold windowBy
  cases c.firstCount? with
  | none => exact restBy_sublist
  | some n => exact (List.take_sublist n _).trans restBy_sublist

theorem Call.windowBy_map (f : β → α) (ys : List β) :
    c.windowBy key (ys.map f) = (c.windowBy (fun y => key (f y)) ys).map f := by
  have hrest : c.restBy key (ys.map f) = (c.restBy (fun y => key (f y)) ys).map f := by
    unfold restBy
    cases c.afterId? with
    | none => rfl
    | some id => exact List.filter_map
  unfold windowBy
  rw [hrest]
  cases c.firstCount? with
  | none => rfl
  | some n => rw [List.map_take]

theorem Call.windowBy_congr {key' : α → String} (h : ∀ x ∈ xs, key x = key' x) :
    c.windowBy key xs = c.windowBy key' xs := by
  have hrest : c.restBy key xs = c.restBy key' xs := by
    unfold restBy
    cases c.afterId? with
    | none => rfl
    | some id => exact List.filter_congr fun x hx => by rw [h x hx]
  unfold windowBy
  rw [hrest]

end Windows

namespace Memory

variable {m : Memory}

theorem sorted_eq (h : Keyed rs) : sorted rs = .ok (inOrder rs) := by
  have hkeyed : (rs.mapM fun r => do return (← r.required idName, r) :
      Except Misuse (List (Value × Value))) = .ok (rs.map fun r => (.text r.idText, r)) :=
    mapM_ok fun r hr => by rw [(h.hasId r hr).required_eq]; rfl
  have hbefore : ∀ a ∈ rs.map fun r => (Value.text r.idText, r),
      ∀ b ∈ rs.map fun r => (Value.text r.idText, r),
      isBefore a.1 b.1 = .ok (decide (a.2.idText < b.2.idText)) := by
    intro a ha b hb
    obtain ⟨r, _, rfl⟩ := List.mem_map.mp ha
    obtain ⟨q, _, rfl⟩ := List.mem_map.mp hb
    simp [isBefore]
  obtain ⟨ys, hys, hperm, hasc⟩ := sort_ok hbefore
  have horder : ys.map (·.2) = inOrder rs := by
    refine h.eq_inOrder ?_ (List.pairwise_map.mpr hasc)
    simpa [Function.comp_def] using hperm.map (·.2)
  rw [sorted, hkeyed, ok_bind, hys, ok_bind, horder, pure_eq_ok]

theorem meets_eq (h : HasId r) (filters : Filters) :
    meets filters r = .ok (filters.all fun f => (r.held f.1).equal f.2) :=
  allM_ok fun f _ => by rw [h.entry_eq]; rfl

theorem select_eq (h : Keyed (m.recordsOf n)) (filters : Filters) :
    m.select n filters =
      .ok (inOrder ((m.recordsOf n).filter fun r => filters.all fun f =>
        (r.held f.1).equal f.2)) := by
  rw [select, sorted_eq h, ok_bind, filterM_ok fun r hr => meets_eq (h.inOrder.hasId r hr) filters,
    h.filter_inOrder]

/-- Nothing but a text can be the id of a record. -/
theorem find_eq_bind (h : Keyed (m.recordsOf n)) (v : Value) :
    m.find n v = .ok (v.text?.bind fun id => (m.recordsOf n).find? (·.idText == id)) := by
  have hfilter : ((inOrder (m.recordsOf n)).filterM fun r => do
      return (← r.required idName).equal v : Except Misuse (List Value)) =
      .ok ((inOrder (m.recordsOf n)).filter fun r => v.spells r.idText) :=
    filterM_ok fun r hr => by
      rw [(h.inOrder.hasId r hr).required_eq, ok_bind, pure_eq_ok, Value.text_equal_eq]
  rw [find, sorted_eq h, ok_bind, hfilter, ok_bind, pure_eq_ok, List.head?_filter]
  cases v with
  | text id =>
    rw [Value.text?_text, Option.bind_some, ← h.find?_perm (inOrder_perm _)]
    simp only [Value.spells_text, BEq.comm]
  | _ => exact congrArg Except.ok (List.find?_eq_none.mpr fun r _ => Bool.false_ne_true)

theorem find_eq (h : Keyed (m.recordsOf n)) (id : String) :
    m.find n (.text id) = .ok ((m.recordsOf n).find? (·.idText == id)) :=
  find_eq_bind h (.text id)

/-- The page that a call chooses shows the window of the call. -/
theorem pageOf_eq (h : Keyed rs) (c : Call) :
    pageOf ⟨c.firstCount?.map fun n => .int n, c.afterId?.map .text⟩ rs = .ok (c.window rs) := by
  unfold pageOf Call.window
  have hafter (id : String) : (rs.filterM fun r => do
      isBefore (.text id) (← r.required idName) : Except Misuse (List Value)) =
      .ok (rs.filter fun r => decide (id < r.idText)) :=
    filterM_ok fun r hr => by rw [(h.hasId r hr).required_eq]; simp [isBefore]
  cases c.afterId? <;> cases c.firstCount? <;> simp [hafter, countOf, firstOf]

theorem fetch_eq (h : Keyed (m.recordsOf n)) (filters : Filters) (c : Call)
    {found : List Value} (hf : found = inOrder ((m.recordsOf n).filter fun r =>
      filters.all fun f => (r.held f.1).equal f.2)) :
    m.fetch n filters ⟨c.firstCount?.map fun n => .int n, c.afterId?.map .text⟩ =
      .ok ⟨c.window found, found.length⟩ := by
  subst hf
  rw [fetch, select_eq h, ok_bind, pageOf_eq (h.filter _).inOrder, ok_bind, pure_eq_ok]

theorem yields_ask {α : Type} {f : Memory → Except Misuse α} {a : α} (h : f m = .ok a) :
    (ask f).Yields m a := by
  show (ask f).result m = _
  rw [ask, Access.result_bind]
  exact Access.yields_ofExcept h m

end Memory

/-- A page is presented with the id of each record as its cursor. -/
theorem fetchedRecord_eq (h : Keyed rs) (count : Nat) :
    fetchedRecord ⟨rs, count⟩
      = .ok (connectionRecord rs count (rs.map fun r => .text r.idText)) := by
  have hids : (rs.mapM (·.required idName) : Except Misuse (List Value)) =
      .ok (rs.map fun r => .text r.idText) :=
    mapM_ok fun r hr => (h.hasId r hr).required_eq
  rw [fetchedRecord, hids, ok_bind, pure_eq_ok]

theorem Call.window_sublist (c : Call) (rs : List Value) : (c.window rs).Sublist rs := by
  rw [window_eq_windowBy]
  exact windowBy_sublist

theorem Call.window_subset (c : Call) (rs : List Value) : c.window rs ⊆ rs :=
  (c.window_sublist rs).subset

theorem Keyed.window (h : Keyed rs) (c : Call) : Keyed (c.window rs) :=
  ⟨fun r hr => h.hasId r (c.window_subset rs hr),
    h.distinct.sublist ((c.window_sublist rs).map Value.idText)⟩

end ObjectQuery
