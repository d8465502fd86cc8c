import ObjectQuery.Proofs.Query.Agreement
import ObjectQuery.Proofs.Store.Rows

/-!
# Results from memory and from a database

A query that changes nothing has the same results from a store in memory as from a store in a
database in which the same records are stored. The induction is on calls and lists of calls: what is
presented from a record in memory is also presented from the row for it.
-/

set_option autoImplicit false

namespace ObjectQuery

open Outcome Access

namespace Relational

variable {l : TableLayout} {row : Row} {name : String} {c : Column}

theorem lookup_columns {α : Type} (columns : List Column) (f : Column → α) (name : String) :
    (columns.map fun c => (c.name, f c)).lookup name =
      (columns.find? (·.name == name)).map f := by
  induction columns with
  | nil => rfl
  | cons c columns ih =>
    rw [List.map_cons, List.lookup_cons, List.find?_cons, ih]
    by_cases hname : c.name = name
    · rw [beq_iff_eq.mpr hname, beq_iff_eq.mpr hname.symm]
      rfl
    · rw [beq_false_of_ne hname, beq_false_of_ne (Ne.symm hname)]

theorem lookup_record (h : l.column? name = some c) :
    (l.columns.map fun c => (c.name, (row.get c.name).getD .null)).lookup name =
      some ((row.get name).getD .null) := by
  obtain ⟨_, hname⟩ := TableLayout.mem_of_column? h
  rw [TableLayout.column?] at h
  rw [lookup_columns l.columns fun c => (row.get c.name).getD .null, h, Option.map_some, hname]

theorem required_record (h : l.column? name = some c) :
    (record l row).required name = .ok ((row.get name).getD .null) := by
  simp only [record, Value.required, lookup_record h]

theorem entry_record (h : l.column? name = some c) :
    (record l row).entry name = .ok ((row.get name).getD .null) := by
  simp only [record, Value.entry, lookup_record h, Option.getD_some]

end Relational

namespace Snapshot.Conforms

variable {i : Snapshot} {t : ObjectType} {record : Value} {n : String} {f : Field} {k : FieldKind}

/-- What a record has an entry for is what the field can hold. -/
theorem stores (h : i.Conforms t record) (hf : t.field? n = some f)
    (hk : i.schema.kindOf f = .ok k) {v : Value} (hv : record.required n = .ok v) :
    k.Stores v := by
  rcases h.entries n v hv with ⟨g, k', hg, hk', hstores⟩ | ⟨hnone, _, _⟩
  · cases hf.symm.trans hg
    cases hk.symm.trans hk'
    exact hstores
  · rw [hf] at hnone
    cases hnone

theorem allows (h : i.Conforms t record) {s : Scalar} (hf : t.field? n = some f)
    (hk : i.schema.kindOf f = .ok k) (hs : ∀ v, k.Stores v → s.Allows v) :
    s.Allows (record.held n) := by
  cases hv : record.required n with
  | ok v =>
    rw [Value.held_of_required_eq_ok hv]
    exact hs v (h.stores hf hk hv)
  | error e => exact .inl (Value.held_of_required_eq_error hv)

end Snapshot.Conforms

section Cells

variable {l : TableLayout} {record : Value} {row : Row} {name : String} {c : Column}

/-- A column for a scalar gives back what the record holds. -/
theorem Stored.alike_scalar {s : Scalar} (h : Stored l record row) (hc : l.column? name = some c)
    (ht : c.type = .ofScalar s) (hs : s.Allows (record.held name)) :
    (record.held name).Alike ((row.get name).getD .null) := by
  obtain ⟨hmem, hname⟩ := TableLayout.mem_of_column? hc
  have hcell := h.cell_eq hmem ht
  rw [hname] at hcell
  exact hs.alike hcell

/-- A column for structured values gives back what it is assumed to. -/
theorem Stored.alike_structured (h : Stored l record row) (hc : l.column? name = some c)
    (ht : c.type = .json) (hr : ∀ v, record.required name = .ok v → v.ReadsBack) :
    (record.held name).Alike ((row.get name).getD .null) := by
  obtain ⟨hmem, hname⟩ := TableLayout.mem_of_column? hc
  have hcell := h c hmem
  rw [hname, ht] at hcell
  split at hcell
  · rename_i v hv
    rw [Value.held_of_required_eq_ok hv]
    exact (hr v hv).alike hcell
  · rename_i e he
    rw [Value.held_of_required_eq_error he, hcell]
    exact .same

end Cells

/-- A store in memory and one in a database for the tables of a schema, with the same records. -/
structure Paired (i : Snapshot) (m : Memory) (r : Relational)
    (pairs : String → List (Value × Row)) : Prop where
  registry : i.rules.registry = .standard
  schema : r.schema = i.schema
  tables : r.registry = .standard
  tallies : Tallies m r pairs
  keyed : ∀ n, Keyed (m.recordsOf n)
  conforms : ∀ {n t}, i.schema.type? n = some t → ∀ x ∈ m.recordsOf n, i.Conforms t x

namespace Paired

variable {i : Snapshot} {m : Memory} {r : Relational} {pairs : String → List (Value × Row)}
  {n : String} {t : ObjectType} {l : TableLayout} {p : Value × Row}

/-- Storing the same records in both leaves two stores with the same records. -/
theorem exists_of_store {data : List (String × Value)} {created : Relational}
    (hi : i.rules.registry = .standard) (hdata : i.Admits data)
    (hcreate : Relational.create .standard i.schema = .ok created)
    (hstore : created.store data = .ok r) :
    ∃ pairs, Paired i ((Memory.empty i.schema).store data) r pairs := by
  obtain ⟨hschema, htables, htallies⟩ := Tallies.create hcreate
  have hobjects : ∀ e ∈ data, ∃ entries, e.2 = .object entries := by
    intro e he
    obtain ⟨_, _, _, hconforms⟩ := hdata.conform e he
    exact hconforms.hasId.exists_entries
  obtain ⟨hs, ht, pairs, hpairs⟩ := htallies.store hobjects hstore
  exact ⟨pairs, hi, hs.trans hschema, ht.trans htables, hpairs, hdata.keyed,
    fun ht _ hx => hdata.conforms ht hx⟩

theorem laidOut (hb : Paired i m r pairs) (ht : i.schema.type? n = some t)
    (hl : r.layout n = .ok l) : t.isNode = true ∧ LaidOut i.schema .standard t l :=
  Relational.laidOut hb.schema hb.tables ht hl

/-- The rows of the table for a type are those of its records. -/
theorem lists (hb : Paired i m r pairs) (ht : i.schema.type? n = some t)
    (hl : r.layout n = .ok l) : r.Lists l (pairs n) := by
  obtain ⟨hnode, hlaid⟩ := hb.laidOut ht hl
  obtain ⟨hmem, hname⟩ := Relational.layout_eq_ok hl
  have hkeyed := hb.keyed n
  rw [hb.tallies.records] at hkeyed
  refine ⟨⟨?_, hkeyed, hlaid.column?_id i.valid hb.registry (Schema.mem_of_type? ht) hnode⟩, ?_⟩
  · rw [← hname]
    exact hb.tallies.stored l hmem
  · rw [hb.tallies.database, Database.table?_ofRows hb.tallies.separate hmem, hname]

theorem conforms_fst (hb : Paired i m r pairs) (ht : i.schema.type? n = some t)
    (hp : p ∈ pairs n) : i.Conforms t p.1 := by
  apply hb.conforms ht
  rw [hb.tallies.records]
  exact List.mem_map_of_mem hp

/-- Both stores present the key of a record. -/
theorem required_id (hb : Paired i m r pairs) (ht : i.schema.type? n = some t)
    (hl : r.layout n = .ok l) (hp : p ∈ pairs n) :
    p.1.required idName = .ok (.text p.1.idText) ∧
      (Relational.record l p.2).required idName = .ok (.text p.1.idText) := by
  have hlists := hb.lists ht hl
  refine ⟨(hlists.hasId hp).required_eq, ?_⟩
  rw [Relational.required_record hlists.key, hlists.get_id hp, Option.getD_some]

end Paired

/-- No connection that can be selected is of a type that is called like a list. The field at its
other end would be taken for a list. -/
def Schema.Unlisted (s : Schema) : Prop :=
  ∀ t, s.type? listMarker = some t → ∀ f ∈ t.declared, f.isConnection = true →
    f.name = .text typenameName

structure Backed (i : Snapshot) (m : Memory) (r : Relational)
    (pairs : String → List (Value × Row)) : Prop extends Paired i m r pairs where
  unlisted : i.schema.Unlisted

namespace Backed

variable {i : Snapshot} {m : Memory} {r : Relational} {pairs : String → List (Value × Row)}
  {n name : String} {t u : ObjectType} {l : TableLayout} {p : Value × Row} {f : Field}
  {k : FieldKind} {c : Column}

/-- What a row is presented with in a stored field is what the record holds there. -/
theorem entry_alike (hb : Backed i m r pairs) (ht : i.schema.type? n = some t)
    (hl : r.layout n = .ok l) (hp : p ∈ pairs n) (hf : t.field? name = some f)
    (hk : i.schema.kindOf f = .ok k) (hc : k.column? name = some c) :
    ∀ v w, p.1.entry name = .ok v → (Relational.record l p.2).entry name = .ok w → v.Alike w := by
  have hconforms := hb.conforms_fst ht hp
  have hstored := (hb.lists ht hl).stored p hp
  have hcolumn : l.column? name = some c := by
    rw [(hb.laidOut ht hl).2.column?_eq i.valid hb.registry (Schema.mem_of_type? ht) hf hk, hc]
  intro v w hv hw
  rw [hconforms.hasId.entry_eq] at hv
  rw [Relational.entry_record hcolumn] at hw
  cases hv
  cases hw
  cases k with
  | scalar s =>
    cases hc
    exact hstored.alike_scalar hcolumn rfl (hconforms.allows hf hk fun v hv => hv)
  | reference owner isNode =>
    cases isNode with
    | true =>
      cases hc
      exact hstored.alike_scalar (s := .id) hcolumn rfl (hconforms.allows hf hk fun v hv => hv)
    | false =>
      cases hc
      exact hstored.alike_structured hcolumn rfl fun v hv => hconforms.stores hf hk hv
  | connection => cases hc
  | scalarList =>
    cases hc
    exact hstored.alike_structured hcolumn rfl fun v hv => hconforms.stores hf hk hv
  | objectList =>
    cases hc
    exact hstored.alike_structured hcolumn rfl fun v hv => hconforms.stores hf hk hv

theorem entry_builtIn_alike (hb : Backed i m r pairs) (ht : i.schema.type? n = some t)
    (hl : r.layout n = .ok l) (hp : p ∈ pairs n) (hf : t.field? name = none)
    (hbuiltIn : i.hasBuiltIn t name = true) :
    ∀ v w, p.1.entry name = .ok v → (Relational.record l p.2).entry name = .ok w → v.Alike w := by
  have hconforms := hb.conforms_fst ht hp
  rw [Snapshot.hasBuiltIn, hb.registry] at hbuiltIn
  have hcolumn := (hb.laidOut ht hl).2.column?_builtIn hbuiltIn
  intro v w hv hw
  rw [hconforms.hasId.entry_eq] at hv
  rw [Relational.entry_record hcolumn] at hw
  cases hv
  cases hw
  refine ((hb.lists ht hl).stored p hp).alike_structured hcolumn rfl fun v hv => ?_
  rcases hconforms.entries name v hv with ⟨g, _, hg, _, _⟩ | ⟨_, _, hreads⟩
  · rw [hf] at hg
    cases hg
  · exact hreads

end Backed

theorem agree_ask {α β : Type} {R : α → β → Prop} {m : Memory} {r : Relational}
    {f : Memory → Except Misuse α} {g : Relational → Except Failure β}
    (h : ∀ a b, f m = .ok a → g r = .ok b → R a b) :
    Agree R (Memory.ask f) m (Relational.ask g) r := by
  intro a b m' r' ha hb
  cases hf : f m with
  | error e =>
    have hm : (Memory.ask f).result m = (ofExcept (f m)).result m := rfl
    rw [hm, hf] at ha
    cases ha
  | ok a' =>
    rw [Memory.yields_ask hf] at ha
    cases ha
    cases hg : g r with
    | error e =>
      rw [Relational.result_ask, hg] at hb
      cases hb
    | ok b' =>
      rw [Relational.yields_ask hg] at hb
      cases hb
      exact ⟨rfl, rfl, h _ _ hf hg⟩

/-- A record in memory, and what its row is presented from. -/
inductive SameRecord (r : Relational) (n : String) (ps : List (Value × Row)) :
    Value → Value → Prop where
  | mk {l : TableLayout} {p : Value × Row} (hl : r.layout n = .ok l) (hp : p ∈ ps) :
      SameRecord r n ps p.1 (Relational.record l p.2)

/-- A page of records in memory, and one of their rows. -/
inductive SamePage (r : Relational) (n : String) (ps : List (Value × Row)) :
    Fetched → Fetched → Prop where
  | mk {l : TableLayout} {qs : List (Value × Row)} (count : Nat) (hl : r.layout n = .ok l)
      (hq : ∀ p ∈ qs, p ∈ ps) : SamePage r n ps ⟨qs.map (·.1), count⟩
        ⟨qs.map fun p => Relational.record l p.2, count⟩

theorem Relational.mem_of_mem_meeting {filters : Filters} {ps : List (Value × Row)}
    {p : Value × Row} (h : p ∈ meeting filters ps) : p ∈ ps :=
  List.mem_of_mem_filter (mem_byId.mp h)

namespace Backed

variable {i : Snapshot} {m : Memory} {r : Relational} {pairs : String → List (Value × Row)}
  {n : String} {t : ObjectType} {filters : Filters}

theorem agree_find (hb : Backed i m r pairs) (ht : i.schema.type? n = some t) (id : String) :
    Agree (Option.Rel (SameRecord r n (pairs n)))
      (Store.fetchById n (.text id) : Access Memory _) m
      (Store.fetchById n (.text id) : Access Relational _) r := by
  refine agree_ask fun a b ha hb' => ?_
  obtain ⟨l, hl, _⟩ := bind_eq_ok.mp hb'
  have hlists := hb.lists ht hl
  rw [Memory.find_eq_meeting (hb.tallies.records n) hlists.keyed] at ha
  cases ha
  rw [Relational.find_eq_ok hl hlists hb']
  cases hhead : (Relational.meeting [(idName, .text id)] (pairs n)).head? with
  | none => exact .none
  | some p => exact .some (.mk hl (Relational.mem_of_mem_meeting (List.mem_of_head? hhead)))

theorem agree_fetchMany (hb : Backed i m r pairs) (ht : i.schema.type? n = some t)
    (hf : ∀ l, r.layout n = .ok l → Filterable l (pairs n) filters) (c : Call) :
    Agree (SamePage r n (pairs n)) (Store.fetchMany n filters (.of c) : Access Memory _) m
      (Store.fetchMany n filters (.of c) : Access Relational _) r := by
  refine agree_ask fun a b ha hb' => ?_
  obtain ⟨l, hl, _⟩ := bind_eq_ok.mp hb'
  have hlists := hb.lists ht hl
  rw [Memory.fetch_eq_meeting (hb.tallies.records n) hlists.keyed] at ha
  cases ha
  rw [Relational.fetch_eq_ok hl hlists (hf l hl) hb']
  exact .mk _ hl fun p hp => Relational.mem_of_mem_meeting (Call.windowBy_sublist.subset hp)

theorem agree_countMany (hb : Backed i m r pairs) (ht : i.schema.type? n = some t)
    (hf : ∀ l, r.layout n = .ok l → Filterable l (pairs n) filters) :
    Agree (fun a b => a = b ∧ ∃ l, r.layout n = .ok l)
      (Store.countMany n filters : Access Memory _) m
      (Store.countMany n filters : Access Relational _) r := by
  refine agree_ask fun a b ha hb' => ?_
  obtain ⟨l, hl, _⟩ := bind_eq_ok.mp hb'
  have hlists := hb.lists ht hl
  rw [Memory.select_eq_meeting (hb.tallies.records n) hlists.keyed] at ha
  cases ha
  rw [Relational.countMany_eq_ok hl hlists (hf l hl) hb', List.length_map]
  exact ⟨rfl, l, hl⟩

/-- A page, without its records if only their number is asked for. -/
theorem agree_page (hb : Backed i m r pairs) (ht : i.schema.type? n = some t)
    (hf : ∀ l, r.layout n = .ok l → Filterable l (pairs n) filters) (c : Call)
    (outputs : List Output) :
    Agree (SamePage r n (pairs n))
      (if needsRecords outputs then Store.fetchMany n filters (.of c)
        else do return ⟨[], ← Store.countMany n filters⟩ : Access Memory Fetched) m
      (if needsRecords outputs then Store.fetchMany n filters (.of c)
        else do return ⟨[], ← Store.countMany n filters⟩ : Access Relational Fetched) r := by
  split
  · exact hb.agree_fetchMany ht hf c
  · refine (hb.agree_countMany ht hf).bind fun a b hab => ?_
    obtain ⟨rfl, l, hl⟩ := hab
    exact agree_pure (@SamePage.mk r n (pairs n) l [] a hl (by simp))

end Backed

/-- What no record of a store is needed for: metadata, and objects that are part of a record. -/
inductive Context.Local : Context → Prop where
  | embedded {i : Snapshot} {t : ObjectType} (ht : t ∈ i.schema.types) (hn : t.isNode = false) :
      Local (.object (.data i) t)
  | metadata {t : ObjectType} : Local (.object .metadata t)
  | connection {parent : String} {t : ObjectType} : Local (.connection parent .metadata t)
  | edges {t : ObjectType} : Local (.edges .metadata t)

section Local

variable {i : Snapshot} {t u : ObjectType} {c : Call} {context inner : Context} {source : Source}
  {n : String} {f : Field}

theorem Snapshot.local_of_select (ht : t ∈ i.schema.types) (hn : t.isNode = false)
    (h : i.select t c = .ok (.nested inner source)) : inner.Local ∧ source.Inner := by
  cases i.selects_of_select h with
  | embedded _ hf hk hu =>
    have hnode := Schema.isNode_of_reference hk hu
    exact ⟨.embedded (Schema.mem_of_type? hu) hnode, .embedded⟩
  | objectList _ hf hk hu =>
    obtain ⟨w, hw, hnode⟩ := i.valid.embedded_of_objectList ht (ObjectType.mem_of_field? hf) hk
    cases hu.symm.trans hw
    exact ⟨.embedded (Schema.mem_of_type? hu) hnode, .embedded⟩
  | related _ hf hk _ =>
    rw [i.valid.isNode_of_related ht (ObjectType.mem_of_field? hf) hk] at hn
    cases hn
  | connection _ hf hk _ =>
    obtain ⟨hc, _⟩ := Schema.connection_of_kindOf hk
    rw [(i.valid.connects ht (ObjectType.mem_of_field? hf) hc).1] at hn
    cases hn

theorem Metadata.local_of_select (h : Metadata.select t c = .ok (.nested inner source)) :
    inner.Local ∧ source.Inner := by
  cases Metadata.selects_of_select h with
  | listed => exact ⟨.connection, .listed⟩
  | objectList => exact ⟨.metadata, .embedded⟩
  | object => exact ⟨.metadata, .embedded⟩

/-- Where no record of a store is needed, none is needed further in. -/
theorem Context.Local.of_select (hc : context.Local)
    (h : context.select c = .ok (.nested inner source)) : inner.Local ∧ source.Inner := by
  cases hc with
  | embedded ht hn => exact Snapshot.local_of_select ht hn h
  | metadata => exact Metadata.local_of_select h
  | connection =>
    cases Context.ofConnection_of_select h with
    | nodes => exact ⟨.metadata, .embedded⟩
    | edges => exact ⟨.edges, .embedded⟩
  | edges =>
    cases Context.ofEdges_of_select h with
    | node => exact ⟨.metadata, .embedded⟩

end Local

/-- What an edge is presented from. -/
def edgeRecord (cursor record : Value) : Value := .object [("cursor", cursor), ("node", record)]

/-- What is presented in a context from the two stores. -/
inductive Twin (i : Snapshot) (r : Relational) (pairs : String → List (Value × Row)) :
    Context → Value → Value → Prop where
  | object {n : String} {t : ObjectType} {x y : Value} (ht : i.schema.type? n = some t)
      (h : SameRecord r n (pairs n) x y) : Twin i r pairs (.object (.data i) t) x y
  | connection {parent n : String} {t : ObjectType} {l : TableLayout} {qs : List (Value × Row)}
      (count : Nat) (cursor : Value × Row → Value) (ht : i.schema.type? n = some t)
      (hl : r.layout n = .ok l) (hq : ∀ p ∈ qs, p ∈ pairs n) :
      Twin i r pairs (.connection parent (.data i) t)
        (connectionRecord (qs.map (·.1)) count (qs.map cursor))
        (connectionRecord (qs.map fun p => Relational.record l p.2) count (qs.map cursor))
  | edge {n : String} {t : ObjectType} {x y : Value} (cursor : Value)
      (ht : i.schema.type? n = some t) (h : SameRecord r n (pairs n) x y) :
      Twin i r pairs (.edges (.data i) t) (edgeRecord cursor x) (edgeRecord cursor y)
  | inner {context : Context} {x y : Value} (hc : context.Local) (h : x.Alike y) :
      Twin i r pairs context x y

theorem entry_edgesName {α : Type} (qs : List α) (count : Nat) (cursor shown : α → Value) :
    (connectionRecord (qs.map shown) count (qs.map cursor)).entry edgesName =
      .ok (.list (qs.map fun q => edgeRecord (cursor q) (shown q))) := by
  simp only [connectionRecord, List.zipWith_map_left, List.zipWith_map_right, List.zipWith_self]
  rfl

namespace Backed

variable {i : Snapshot} {m : Memory} {r : Relational} {pairs : String → List (Value × Row)}
  {n : String} {t u : ObjectType} {f : Field} {c : Call} {context inner : Context} {source : Source}
  {outputs : List Output} {path : Path} {limit : Int} {depth : Nat} {x y : Value}

/-- The fields at the other end of connections hold ids. -/
theorem filterable_reverse (hb : Backed i m r pairs) (ht : i.schema.type? n = some t)
    (hf : f ∈ t.declared) (hc : f.isConnection = true) (hn : f.name ≠ .text typenameName)
    {k reverse : String} {g : Field} (hg : Schema.Connects i.schema t f k reverse u g)
    (owner : String) (l : TableLayout) (hl : r.layout k = .ok l) :
    Filterable l (pairs k) [(reverse, .text owner)] := by
  intro e he column hcolumn
  obtain rfl := List.mem_singleton.mp he
  have htm := Schema.mem_of_type? ht
  obtain ⟨kind, hk⟩ := i.valid.exists_kindOf (Schema.mem_of_type? hg.target)
    (ObjectType.mem_of_field? hg.field)
  have hlist : t.name ≠ .text listMarker := fun hname =>
    hn (hb.unlisted t (i.valid.type?_of_mem htm hname) f hf hc)
  rw [(hb.laidOut hg.target hl).2.column?_eq i.valid hb.registry (Schema.mem_of_type? hg.target)
    hg.field hk] at hcolumn
  have hnode := (i.valid.connects htm hf hc).1
  rcases i.valid.kindOf_reverse htm hg hlist hk with ⟨_, _, rfl⟩ | ⟨owner', rfl⟩
  · cases hcolumn
  · rw [hnode] at hcolumn hk
    cases hcolumn
    refine ⟨.id, rfl, .id owner, fun p hp => ?_⟩
    exact (hb.conforms_fst hg.target hp).allows hg.field hk fun v hv => hv

theorem filterable_filters (hb : Backed i m r pairs) (ht : i.schema.type? n = some t)
    {named : List (String × Argument)} {fs : Filters}
    (h : Compile.filters (Compile.filterable i t) named = .ok fs) (l : TableLayout)
    (hl : r.layout n = .ok l) : Filterable l (pairs n) fs := by
  intro e he column hcolumn
  obtain ⟨g, s, v, hg, hk, hv⟩ := Compile.mem_filters (Schema.mem_of_type? ht) h he
  rw [(hb.laidOut ht hl).2.column?_eq i.valid hb.registry (Schema.mem_of_type? ht) hg hk]
    at hcolumn
  cases hcolumn
  refine ⟨s, rfl, Scalar.holds_of_coerce hv, fun p hp => ?_⟩
  exact (hb.conforms_fst ht hp).allows hg hk fun v hv => hv

/-- A leaf shows the same of both records. -/
theorem agree_leafSelection (hb : Backed i m r pairs) (hx : Twin i r pairs context x y)
    {leaf : Leaf} (hs : context.select c = .ok (.leaf leaf)) :
    Agree Result.Alike (Output.evaluate x (.leaf c.name leaf) : Access Memory _) m
      (Output.evaluate y (.leaf c.name leaf) : Access Relational _) r := by
  cases leaf with
  | typeName name =>
    rw [Output.evaluate, Output.evaluate]
    exact agree_pure (.value .same)
  | field name =>
    apply Output.agree_leaf
    cases hx with
    | object ht h =>
      obtain ⟨hl, hp⟩ := h
      cases Snapshot.selects_of_select hs with
      | builtIn _ hf hbuiltIn => exact hb.entry_builtIn_alike ht hl hp hf hbuiltIn
      | scalar _ hf hk => exact hb.entry_alike ht hl hp hf hk rfl
      | scalarList _ hf hk => exact hb.entry_alike ht hl hp hf hk rfl
    | connection count cursor =>
      cases Context.ofConnection_of_select hs with
      | count =>
        intro v w hv hw
        cases hv
        cases hw
        exact .same
    | edge cursor =>
      cases Context.ofEdges_of_select hs with
      | cursor =>
        intro v w hv hw
        cases hv
        cases hw
        exact .same
    | inner hc h =>
      intro v w hv hw
      rw [h.entry_eq hv hw]
      exact .same

theorem sameRecord_ne_null (hb : Backed i m r pairs) (ht : i.schema.type? n = some t)
    (h : SameRecord r n (pairs n) x y) : x ≠ .null ∧ y ≠ .null := by
  cases h with
  | mk hl hp =>
    obtain ⟨entries, hentries⟩ := (hb.conforms_fst ht hp).hasId.exists_entries
    exact ⟨by simp [hentries], by simp [Relational.record]⟩

theorem fetchedRecord_map {qs : List (Value × Row)} {shown : Value × Row → Value} (count : Nat)
    (h : ∀ p ∈ qs, (shown p).required idName = .ok (.text p.1.idText)) :
    fetchedRecord ⟨qs.map shown, count⟩ =
      .ok (connectionRecord (qs.map shown) count (qs.map fun p => .text p.1.idText)) := by
  have hids : ((qs.map shown).mapM (·.required idName) : Except Misuse (List Value)) =
      .ok (qs.map fun p => .text p.1.idText) := by
    rw [List.mapM_map]
    exact mapM_ok h
  rw [fetchedRecord, hids, ok_bind, pure_eq_ok]

theorem pagesAlike (hb : Backed i m r pairs) (ht : i.schema.type? n = some t) {parent : String}
    (hp : ∀ x y, Twin i r pairs (.connection parent (.data i) t) x y →
      Output.Alike outputs m r x y) {f g : Fetched} (h : SamePage r n (pairs n) f g) :
    Output.PagesAlike outputs m r f g := by
  intro a b ha hb'
  cases h with
  | @mk l qs count hl hq =>
    rw [fetchedRecord_map count fun p hmem => (hb.required_id ht hl (hq p hmem)).1] at ha
    rw [fetchedRecord_map count fun p hmem => (hb.required_id ht hl (hq p hmem)).2] at hb'
    cases ha
    cases hb'
    exact hp _ _ (.connection count _ ht hl hq)

theorem agree_relatedField (hb : Backed i m r pairs) (ht : i.schema.type? n = some t)
    (h : SameRecord r n (pairs n) x y) {name target typeName : String}
    (hf : t.field? name = some f) (hk : i.schema.kindOf f = .ok (.reference target true))
    (hu : i.schema.type? target = some u)
    (hp : ∀ x y, Twin i r pairs (.object (.data i) u) x y → Output.Alike outputs m r x y) :
    Agree Result.Alike
      (Output.evaluate x (.nested name (.related name target) typeName outputs) : Access Memory _) m
      (Output.evaluate y (.nested name (.related name target) typeName outputs) :
        Access Relational _) r := by
  obtain ⟨hl, hmem⟩ := h
  have hconforms := hb.conforms_fst ht hmem
  refine Output.agree_related fun v w hv hw => ?_
  have hvw := hb.entry_alike ht hl hmem hf hk rfl v w hv hw
  refine ⟨hvw.null_iff, fun hne => ?_⟩
  have hallows := hconforms.allows (s := .id) hf hk fun v hv => hv
  rw [hconforms.hasId.entry_eq] at hv
  cases hv
  rcases hallows with hnull | hholds
  · exact absurd hnull hne
  · obtain ⟨id, hid⟩ := hholds.exists_text
    rw [hid, hvw.eq_of_text hid]
    refine (hb.agree_find hu id).imp fun a b hab => ?_
    cases hab with
    | none => exact .none
    | some hab => exact .some (hp _ _ (.object hu hab))

theorem agree_connectionField (hb : Backed i m r pairs) (ht : i.schema.type? n = some t)
    (h : SameRecord r n (pairs n) x y) {target : String} {reverse : Value} {typeName : String}
    (hn : c.name ≠ typenameName) (hf : t.field? c.name = some f)
    (hk : i.schema.kindOf f = .ok (.connection (.text target) reverse))
    (hu : i.schema.type? target = some u)
    (hp : ∀ x y, Twin i r pairs (.connection c.name (.data i) u) x y →
      Output.Alike outputs m r x y) :
    Agree Result.Alike
      (Output.evaluate x (.nested c.name (.connection target reverse.inline (.of c)) typeName
        outputs) : Access Memory _) m
      (Output.evaluate y (.nested c.name (.connection target reverse.inline (.of c)) typeName
        outputs) : Access Relational _) r := by
  obtain ⟨hl, hmem⟩ := h
  obtain ⟨hc, htarget, hreverse⟩ := Schema.connection_of_kindOf hk
  have hdeclared := ObjectType.mem_of_field? hf
  have hname : f.name ≠ .text typenameName := fun h =>
    hn (Value.text.inj ((ObjectType.field?_name hf).symm.trans h))
  obtain ⟨_, _, _, _, _, hg⟩ := i.valid.connects (Schema.mem_of_type? ht) hdeclared hc
  cases htarget.trans hg.ofType
  cases hu.symm.trans hg.target
  cases hreverse.trans hg.reverseName
  -- both stores look for the key of the record, whatever else they make of it
  obtain ⟨hx, hy⟩ := hb.required_id ht hl hmem
  refine Output.agree_connection fun v w hv hw => ?_
  cases hx.symm.trans hv
  cases hy.symm.trans hw
  refine (hb.agree_page hu (hb.filterable_reverse ht hdeclared hc hname hg _) c outputs).imp ?_
  exact fun f g hfg => hb.pagesAlike hu hp hfg

/-- What is nested in a record is presented alike if what it leads to is. -/
theorem agree_nestedField (hb : Backed i m r pairs) (ht : i.schema.type? n = some t)
    (h : SameRecord r n (pairs n) x y) (hs : i.Selects t c (.nested inner source))
    {typeName : String} (hp : ∀ x y, Twin i r pairs inner x y → Output.Alike outputs m r x y) :
    Agree Result.Alike
      (Output.evaluate x (.nested c.name source typeName outputs) : Access Memory _) m
      (Output.evaluate y (.nested c.name source typeName outputs) : Access Relational _) r := by
  cases hs with
  | embedded _ hf hk hu =>
    obtain ⟨hl, hmem⟩ := h
    have hlocal : Context.Local (.object (.data i) _) :=
      .embedded (Schema.mem_of_type? hu) (Schema.isNode_of_reference hk hu)
    refine Output.agree_embedded fun v w hv hw => ?_
    exact Output.presented_of_alike (hb.entry_alike ht hl hmem hf hk rfl v w hv hw)
      fun v w hvw => hp v w (.inner hlocal hvw)
  | objectList _ hf hk hu =>
    obtain ⟨hl, hmem⟩ := h
    obtain ⟨u, hu', hnode⟩ := i.valid.embedded_of_objectList (Schema.mem_of_type? ht)
      (ObjectType.mem_of_field? hf) hk
    cases hu.symm.trans hu'
    refine Output.agree_items fun v w hv hw => ?_
    exact Output.listsPresented_of_alike (hb.entry_alike ht hl hmem hf hk rfl v w hv hw)
      fun v w hvw => hp v w (.inner (.embedded (Schema.mem_of_type? hu) hnode) hvw)
  | related _ hf hk hu =>
    rw [Schema.label_eq hu]
    exact hb.agree_relatedField ht h hf hk hu hp
  | connection hn hf hk hu =>
    rw [Schema.label_eq hu]
    exact hb.agree_connectionField ht h hn hf hk hu hp

/-- What a nested selection leads to is the same for both stores. -/
theorem agree_nestedSelection (hb : Backed i m r pairs) (hx : Twin i r pairs context x y)
    (hs : context.select c = .ok (.nested inner source)) {typeName : String}
    (hp : ∀ x y, Twin i r pairs inner x y → Output.Alike outputs m r x y) :
    Agree Result.Alike
      (Output.evaluate x (.nested c.name source typeName outputs) : Access Memory _) m
      (Output.evaluate y (.nested c.name source typeName outputs) : Access Relational _) r := by
  cases hx with
  | object ht h => exact hb.agree_nestedField ht h (Snapshot.selects_of_select hs) hp
  | @connection _ n t l qs count cursor ht hl hq =>
    cases Context.ofConnection_of_select hs with
    | nodes =>
      refine Output.agree_items fun v w hv hw => ?_
      cases hv
      cases hw
      refine Output.listsPresented_map fun p hmem => ?_
      obtain ⟨hne, hne'⟩ := hb.sameRecord_ne_null ht (.mk hl (hq p hmem))
      exact .object hne hne' (hp _ _ (.object ht (.mk hl (hq p hmem))))
    | edges =>
      refine Output.agree_items fun v w hv hw => ?_
      rw [entry_edgesName] at hv hw
      cases hv
      cases hw
      refine Output.listsPresented_map fun p hmem => ?_
      exact .object nofun nofun (hp _ _ (.edge _ ht (.mk hl (hq p hmem))))
  | @edge n t x y cursor ht h =>
    cases Context.ofEdges_of_select hs with
    | node =>
      refine Output.agree_embedded fun v w hv hw => ?_
      cases hv
      cases hw
      obtain ⟨hne, hne'⟩ := hb.sameRecord_ne_null ht h
      exact .object hne hne' (hp _ _ (.object ht h))
  | inner hc h =>
    obtain ⟨hinner, hsource⟩ := hc.of_select hs
    exact Output.agree_inner hsource h fun v w hvw => hp v w (.inner hinner hvw)

mutual

theorem agree_output (hb : Backed i m r pairs) :
    (c : Call) → ∀ {context path depth o}, context.output limit path depth c = .ok o →
      ∀ x y, Twin i r pairs context x y →
      Agree Result.Alike (Output.evaluate x o : Access Memory _) m
        (Output.evaluate y o : Access Relational _) r
  | .mk name arguments selections location, context, path, depth, o, h, x, y, hx => by
    rcases Context.output_eq_ok h with ⟨l, hs, rfl⟩ | ⟨inner, source, os, hs, hos, rfl⟩
    · exact hb.agree_leafSelection hx hs
    · exact hb.agree_nestedSelection hx hs (alike_outputs hb selections hos)

/-- What selections are compiled to presents the same from both stores. -/
theorem alike_outputs (hb : Backed i m r pairs) :
    (cs : List Call) → ∀ {context path depth outputs},
      context.outputs limit path depth cs = .ok outputs →
      ∀ x y, Twin i r pairs context x y → Output.Alike outputs m r x y
  | [], context, path, depth, outputs, h, x, y, hx => by
    cases h
    exact agree_pure .nil
  | c :: cs, context, path, depth, outputs, h, x, y, hx => by
    obtain ⟨o, rest, ho, hrest, rfl⟩ := Context.outputs_cons_eq_ok h
    unfold Output.Alike
    rw [Output.evaluateAll, Output.evaluateAll]
    refine (agree_output hb c ho x y hx).bind fun a b hab => ?_
    refine Agree.bind (alike_outputs hb cs hrest x y hx) fun as bs habs => ?_
    exact agree_pure (.cons hab habs)

end

theorem agree_present (hb : Backed i m r pairs) {projection : Projection}
    (h : context.project limit c = .ok projection) (hx : Twin i r pairs context x y) :
    Agree Result.Alike (projection.present x : Access Memory _) m
      (projection.present y : Access Relational _) r :=
  Agree.bind (hb.alike_outputs c.selections (Context.project_eq_ok h) x y hx)
    fun _ _ hab => agree_pure (.object hab)

theorem agree_node (hb : Backed i m r pairs) {p : CallPlan}
    (h : Compile.node i limit c = .ok p) : Agree Result.Alike p.run m p.run r := by
  obtain ⟨n, _, id, t, projection, _, _, ht, _, hproject, rfl⟩ := Compile.node_eq_ok h
  unfold CallPlan.run
  rw [Schema.label_eq ht]
  refine (hb.agree_find ht id).bind fun a b hab => ?_
  cases hab with
  | none => exact agree_pure (.value .same)
  | some hab => exact hb.agree_present hproject (.object ht hab)

theorem agree_nodes (hb : Backed i m r pairs) {p : CallPlan}
    (h : Compile.nodes i limit c = .ok p) : Agree Result.Alike p.run m p.run r := by
  obtain ⟨n, t, fs, projection, _, ht, _, hfs, hproject, rfl⟩ := Compile.nodes_eq_ok h
  unfold CallPlan.run
  rw [Schema.label_eq ht]
  refine (hb.agree_page ht (hb.filterable_filters ht hfs) c projection.outputs).bind
    fun f g hfg => ?_
  have hpages := hb.pagesAlike ht
    (hb.alike_outputs c.selections (Context.project_eq_ok hproject)) hfg
  refine (agree_ofExcept hpages).bind fun a b hab => ?_
  exact Agree.bind hab fun _ _ hab => agree_pure (.object hab)

/-- Metadata is presented as it is. -/
theorem agree_introspection (hb : Backed i m r pairs) {t : ObjectType} {projection : Projection}
    (h : (Context.object .metadata t).project limit c = .ok projection) (record : Value) :
    Agree Result.Alike (CallPlan.introspection record projection).run m
      (CallPlan.introspection record projection).run r :=
  hb.agree_present h (.inner .metadata .same)

end Backed

/-- A call that changes nothing: for records, or for the schema. -/
def Call.Asks (c : Call) : Prop := ∀ o, Operation.ofName? c.name = some o → o.isMutation = false

theorem Backed.agree_call {i : Snapshot} {m : Memory} {r : Relational}
    {pairs : String → List (Value × Row)} {credentials : Credentials} {limit : Int} {c : Call}
    {p : CallPlan} (hb : Backed i m r pairs) (hc : c.Asks)
    (h : Compile.call credentials i limit c = .ok p) : Agree Result.Alike p.run m p.run r := by
  unfold Compile.call at h
  split at h
  · cases h
  · rename_i o ho
    obtain ⟨_, _, h⟩ := bind_eq_ok.mp h
    have hreads := hc o ho
    cases o with
    | schema =>
      obtain ⟨_, _, h⟩ := bind_eq_ok.mp h
      obtain ⟨_, _, h⟩ := bind_eq_ok.mp h
      obtain ⟨projection, hproject, h⟩ := bind_eq_ok.mp h
      cases h
      exact hb.agree_introspection hproject _
    | type =>
      obtain ⟨_, _, h⟩ := bind_eq_ok.mp h
      obtain ⟨_, _, h⟩ := bind_eq_ok.mp h
      obtain ⟨_, _, h⟩ := bind_eq_ok.mp h
      split at h
      · cases h
      · obtain ⟨projection, hproject, h⟩ := bind_eq_ok.mp h
        cases h
        exact hb.agree_introspection hproject _
    | nodes => exact hb.agree_nodes h
    | node => exact hb.agree_node h
    | _ => cases hreads

/-- The results from a store in memory and from one in a database are alike, value by value, if the
same records are stored in both and neither fails. -/
theorem Query.results_alike {credentials : Credentials} {i : Snapshot} {limit : Int} {q : Query}
    {p : Plan} {data : List (String × Value)} {created r r' : Relational} {m' : Memory}
    {as bs : List Result} (hi : i.rules.registry = .standard)
    (hlist : i.schema.Unlisted) (hdata : i.Admits data)
    (hcreate : Relational.create .standard i.schema = .ok created)
    (hstore : created.store data = .ok r) (hq : ∀ c ∈ q, c.Asks)
    (hp : q.compile credentials i limit = .ok p)
    (hm : p.run.result ((Memory.empty i.schema).store data) = (.ok as, m'))
    (hr : p.run.result r = (.ok bs, r')) : List.Forall₂ Result.Alike as bs := by
  obtain ⟨pairs, hpairs⟩ := Paired.exists_of_store hi hdata hcreate hstore
  have hb : Backed i ((Memory.empty i.schema).store data) r pairs := ⟨hpairs, hlist⟩
  have hcalls : ∀ plan ∈ p, Agree Result.Alike plan.run ((Memory.empty i.schema).store data)
      plan.run r := by
    intro plan hplan
    obtain ⟨c, hc, hcompiled⟩ := exists_of_mem_mapM hp hplan
    exact hb.agree_call (hq c hc) hcompiled
  obtain ⟨_, _, halike⟩ := agree_mapM (List.forall₂_same.mpr hcalls) as bs m' r' hm hr
  exact halike

end ObjectQuery
