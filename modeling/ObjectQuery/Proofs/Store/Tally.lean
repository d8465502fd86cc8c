import ObjectQuery.Proofs.Store.Cells
import ObjectQuery.Proofs.Store.Insertion
import ObjectQuery.Proofs.Store.Recall

/-!
# Two stores with the same records

Records are stored in memory and in a database, one after the other. Every record in memory then has
a row of its own, at the same place among those of its type, that holds the cells for its entries.
-/

set_option autoImplicit false

namespace ObjectQuery

open Outcome

/-- What a record can hold in a field of a kind, if the field is stored. -/
def FieldKind.Stores : FieldKind → Value → Prop
  | scalar s, v => s.Allows v
  | reference _ isNode, v => if isNode then Scalar.id.Allows v else v.ReadsBack
  | connection .., _ => False
  | scalarList _, v => v.ReadsBack
  | objectList _, v => v.ReadsBack

namespace Snapshot

/-- A record of a type with an id and entries for nothing but stored fields. -/
structure Conforms (i : Snapshot) (t : ObjectType) (record : Value) : Prop where
  hasId : HasId record
  entries : ∀ name v, record.required name = .ok v →
    (∃ f k, t.field? name = some f ∧ i.schema.kindOf f = .ok k ∧ k.Stores v) ∨
      (t.field? name = none ∧ i.hasBuiltIn t name = true ∧ v.ReadsBack)

/-- Records, each with the name of its type, that no two of one type have the same id of. -/
structure Admits (i : Snapshot) (data : List (String × Value)) : Prop where
  conform : ∀ e ∈ data, ∃ t, i.schema.type? e.1 = some t ∧ t.isNode = true ∧ i.Conforms t e.2
  distinct : (data.map fun e => (e.1, e.2.idText)).Nodup

end Snapshot

namespace Memory

def empty (s : Schema) : Memory := { schema := s, records := [] }

/-- Stores records, one after the other. -/
def store (m : Memory) (data : List (String × Value)) : Memory :=
  data.foldl (fun m e => m.insert e.1 e.2) m

theorem recordsOf_insert (m : Memory) (n : String) (v : Value) :
    (m.insert n v).recordsOf = Function.update m.recordsOf n (m.recordsOf n ++ [v]) := by
  funext k
  by_cases hk : k = n
  · subst hk
    rw [Function.update_self, insert, recordsOf_withRecords]
  · rw [Function.update_of_ne hk]
    have hne : (k == n) = false := beq_false_of_ne hk
    simp only [recordsOf, insert, withRecords, List.lookup_cons, hne]
    congr 1
    induction m.records with
    | nil => rfl
    | cons e es ih =>
      rw [List.filter_cons]
      split
      · rw [List.lookup_cons, List.lookup_cons, ih]
      · rename_i he
        have he : e.1 = n := by simpa using he
        rw [ih, List.lookup_cons, he, hne]

theorem recordsOf_store (m : Memory) (data : List (String × Value)) (n : String) :
    (m.store data).recordsOf n = m.recordsOf n ++ (data.filter (·.1 == n)).map (·.2) := by
  induction data generalizing m with
  | nil => simp [store]
  | cons e data ih =>
    have hstep : m.store (e :: data) = (m.insert e.1 e.2).store data := rfl
    rw [hstep, ih, recordsOf_insert, List.filter_cons]
    by_cases he : e.1 = n
    · subst he
      rw [Function.update_self, if_pos (beq_self_eq_true _), List.map_cons, List.append_assoc,
        List.singleton_append]
    · rw [Function.update_of_ne (Ne.symm he), if_neg (by simpa using he)]

end Memory

/-- Stores records, one after the other. -/
def Relational.store (r : Relational) (data : List (String × Value)) : Except Failure Relational :=
  data.foldlM (fun r e => r.insert e.1 (.list [e.2])) r

section Records

variable {i : Snapshot} {m : Memory} {data : List (String × Value)} {n : String}

theorem Snapshot.Admits.conforms (h : i.Admits data) {t : ObjectType}
    (ht : i.schema.type? n = some t) {record : Value}
    (hr : record ∈ ((Memory.empty i.schema).store data).recordsOf n) : i.Conforms t record := by
  rw [Memory.recordsOf_store] at hr
  obtain ⟨e, he, rfl⟩ := List.mem_map.mp (show record ∈ (data.filter (·.1 == n)).map (·.2) from hr)
  obtain ⟨hmem, hname⟩ := List.mem_filter.mp he
  obtain ⟨u, hu, _, hconforms⟩ := h.conform e hmem
  rw [beq_iff_eq.mp hname, ht] at hu
  cases hu
  exact hconforms

theorem Snapshot.Admits.keyed (h : i.Admits data) (n : String) :
    Keyed (((Memory.empty i.schema).store data).recordsOf n) := by
  have hrecords : ((Memory.empty i.schema).store data).recordsOf n =
      (data.filter (·.1 == n)).map (·.2) :=
    Memory.recordsOf_store ..
  rw [hrecords]
  constructor
  · intro r hr
    obtain ⟨e, he, rfl⟩ := List.mem_map.mp hr
    obtain ⟨_, _, _, hconforms⟩ := h.conform e (List.mem_of_mem_filter he)
    exact hconforms.hasId
  · have hsub : ((data.filter (·.1 == n)).map fun e => (e.1, e.2.idText)).Nodup :=
      h.distinct.sublist (List.filter_sublist.map _)
    rw [List.map_map]
    apply List.Nodup.of_map (fun id => (n, id))
    rw [List.map_map]
    convert hsub using 1
    apply List.map_congr_left
    intro e he
    have hname := beq_iff_eq.mp (List.mem_filter.mp he).2
    rw [Function.comp_apply, Function.comp_apply, hname]

end Records

/-- The records of a store in memory, each with the row that a store in a database has for it. -/
structure Tallies (m : Memory) (r : Relational) (pairs : String → List (Value × Row)) : Prop where
  separate : Separate r.layouts
  database : r.database = .ofRows r.layouts fun n => (pairs n).map (·.2)
  records : ∀ n, m.recordsOf n = (pairs n).map (·.1)
  stored : ∀ l ∈ r.layouts, ∀ p ∈ pairs l.name, Stored l p.1 p.2

namespace Tallies

variable {m : Memory} {r r' : Relational} {pairs : String → List (Value × Row)} {n : String}
  {v : Value}

theorem insert (h : Tallies m r pairs) (hv : ∃ entries, v = .object entries)
    (hr : r.insert n (.list [v]) = .ok r') :
    r'.schema = r.schema ∧ r'.registry = r.registry ∧
      ∃ pairs', Tallies (m.insert n v) r' pairs' := by
  obtain ⟨l, row, hl, hrow, rfl⟩ := Relational.insert_eq_ok h.separate h.database hv hr
  obtain ⟨hmem, hname⟩ := Relational.layout_eq_ok hl
  refine ⟨rfl, rfl, Function.update pairs n (pairs n ++ [(v, row)]), h.separate, ?_, ?_, ?_⟩
  · apply congrArg (Database.ofRows r.layouts)
    funext k
    by_cases hk : k = n
    · subst hk
      simp
    · simp [Function.update_of_ne hk]
  · intro k
    rw [Memory.recordsOf_insert]
    by_cases hk : k = n
    · subst hk
      simp [h.records]
    · rw [Function.update_of_ne hk, Function.update_of_ne hk, h.records]
  · intro l' hl' p hp
    by_cases hk : l'.name = n
    · rw [hk, Function.update_self] at hp
      rcases List.mem_append.mp hp with hp | hp
      · exact h.stored l' hl' p (hk ▸ hp)
      · obtain rfl := List.mem_singleton.mp hp
        have hsame : sameName l'.name l.name = true := by
          rw [hk, hname]
          exact sameName_self n
        rw [h.separate.eq_of_sameName hl' hmem hsame]
        exact hrow
    · rw [Function.update_of_ne hk] at hp
      exact h.stored l' hl' p hp

theorem store {data : List (String × Value)} (h : Tallies m r pairs)
    (hv : ∀ e ∈ data, ∃ entries, e.2 = .object entries) (hr : r.store data = .ok r') :
    r'.schema = r.schema ∧ r'.registry = r.registry ∧
      ∃ pairs', Tallies (m.store data) r' pairs' := by
  induction data generalizing m r pairs with
  | nil =>
    cases hr
    exact ⟨rfl, rfl, pairs, h⟩
  | cons e data ih =>
    rw [Relational.store, List.foldlM_cons] at hr
    obtain ⟨r₁, h₁, hr⟩ := bind_eq_ok.mp hr
    obtain ⟨hs, hreg, pairs₁, hpairs⟩ := h.insert (hv e List.mem_cons_self) h₁
    have hrest := ih hpairs (fun d hd => hv d (List.mem_cons_of_mem e hd)) hr
    rwa [hs, hreg] at hrest

/-- A store that is set up tallies with one without any records. -/
theorem create {reg : Registry} {s : Schema} (h : Relational.create reg s = .ok r) :
    r.schema = s ∧ r.registry = reg ∧ Tallies (.empty s) r fun _ => [] := by
  obtain ⟨hreg, hs, hstorable, hdatabase⟩ := Relational.create_eq_ok h
  exact ⟨hs, hreg, hstorable.toSeparate, hdatabase, fun n => rfl, by simp⟩

end Tallies

end ObjectQuery
