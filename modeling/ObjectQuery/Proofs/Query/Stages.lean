import ObjectQuery.Proofs.Plan.Metadata
import ObjectQuery.Proofs.Query.Backends
import ObjectQuery.Proofs.Schema.Relations
import ObjectQuery.Proofs.Store.Recording
import ObjectQuery.Proofs.Store.Requests

/-!
# What a run on a database can rely on

While a plan is run on a database, its calls may change the schema that it was made for. Whatever
they change, the rows that are left hold what the fields of the plan's schema can hold. So each
request is answered, or the database fails, or the request is one that cannot be answered; and there
is always a reason for the last in the query or in the change of the schema.
-/

set_option autoImplicit false

namespace ObjectQuery

open Outcome

namespace Relational

variable {l : TableLayout} {row : Row} {name : String}

theorem held_record (l : TableLayout) (row : Row) (name : String) :
    (record l row).held name = .null ∨
      (record l row).held name = (row.get name).getD .null := by
  cases hc : l.column? name with
  | some c =>
    refine .inr ?_
    simp only [record, Value.held, lookup_record hc, Option.getD_some]
  | none =>
    refine .inl ?_
    have hnone := lookup_columns l.columns (fun c => (row.get c.name).getD .null) name
    rw [TableLayout.column?] at hc
    rw [hc] at hnone
    simp only [record, Value.held, hnone, Option.map_none, Option.getD_none]

/-- Whether what is stored for a type are objects of the type. -/
def WellShaped (r : Relational) : Prop :=
  ∀ n t l, r.schema.type? n = some t → r.layout n = .ok l → ∀ row, r.HasRow l row →
    Shaped r.schema t (record l row)

end Relational

/-- A row that records of the type that its table is called like can be made of. -/
structure Row.Suits (i : Snapshot) (n : String) (row : Row) : Prop where
  identified : row.Identified
  fits : ∀ t name f k, i.schema.type? n = some t → t.field? name = some f →
    i.schema.kindOf f = .ok k → Fits i.schema k ((row.get name).getD .null)

theorem Row.droppable_suits (i : Snapshot) : Database.Droppable (Row.Suits i) := by
  intro n row column h
  refine ⟨droppable_identified n row column h.identified, fun t name f k ht hf hk => ?_⟩
  rw [get_drop]
  split
  · exact .null
  · exact h.fits t name f k ht hf hk

/-- A value that a selection on objects can be presented from. Records with an id have one that can
be looked for. -/
inductive Has (i : Snapshot) : Realm → ObjectType → Value → Prop where
  | data {t : ObjectType} {v : Value} (ht : t ∈ i.schema.types) (hv : Shaped i.schema t v)
      (hid : t.isNode → ∃ id, v.required idName = .ok id ∧ id.Comparable) : Has i (.data i) t v
  | metadata {t : ObjectType} {v : Value} (h : Metadata.Describes t v) : Has i .metadata t v

/-- A store in a database that a plan made against a snapshot can be run on, whatever has been
changed since. -/
structure Stage (i : Snapshot) (r : Relational) : Prop where
  consistent : r.Consistent
  rows : r.database.Each (Row.Suits i)

namespace Stage

variable {i : Snapshot} {r : Relational} {n : String} {t : ObjectType} {l : TableLayout} {row : Row}

/-- A store whose records are objects of their types. -/
theorem of_wellShaped (h : r.Consistent) (hid : r.database.Each fun _ => Row.Identified)
    (hr : r.WellShaped) (hs : r.schema = i.schema) (hi : i.rules.registry = .standard) :
    Stage i r := by
  refine ⟨h, fun table htable row hrow => ⟨hid table htable row hrow, ?_⟩⟩
  intro t name f k ht hf hk
  obtain ⟨l₀, hl₀, hfits⟩ := exists_left_of_mem h.fits.flip htable
  -- The table is that for the type of its name.
  obtain ⟨l, hl⟩ : ∃ l, r.layout table.name = .ok l :=
    hfits.name ▸ Relational.exists_layout_of_mem hl₀
  have hname := (Relational.layout_eq_ok hl).2
  have hshaped := hr table.name t l (hs ▸ ht) hl row ⟨table, htable, hname.symm, hrow⟩
  rw [hs] at hshaped
  have hlaid := (Relational.laidOut hs h.registry ht hl).2
  have hcolumn := hlaid.column?_eq i.valid hi (Schema.mem_of_type? ht) hf hk
  have hheld := hshaped.fits hf hk
  cases hc : k.column? name with
  | some c =>
    rw [hc] at hcolumn
    simp only [Relational.record, Value.held, Relational.lookup_record hcolumn,
      Option.getD_some] at hheld
    exact hheld
  | none =>
    cases k with
    | connection => exact .connection
    | _ => cases hc

theorem has (h : Stage i r) (ht : i.schema.type? n = some t) (hl : r.layout n = .ok l)
    (hrow : r.HasRow l row) : Has i (.data i) t (Relational.record l row) := by
  obtain ⟨table, htable, hname, hmem⟩ := hrow
  obtain ⟨hlayout, hn⟩ := Relational.layout_eq_ok hl
  have hsuits := h.rows table htable row hmem
  rw [hname, hn] at hsuits
  refine .data (Schema.mem_of_type? ht) (.object fun name f k hf hk => ?_) fun _ => ?_
  · have hheld := Relational.held_record l row name
    rw [Relational.record] at hheld
    rcases hheld with hheld | hheld
    · rw [hheld]
      exact .null
    · rw [hheld]
      exact hsuits.fits t name f k ht hf hk
  · refine ⟨_, Relational.required_record (h.consistent.column?_id hlayout), ?_⟩
    cases hget : row.get idName with
    | none => exact Value.comparable_null
    | some v =>
      obtain ⟨id, rfl⟩ := hsuits.identified v hget
      exact Value.comparable_text id

end Stage

/-- Whether a call or a selection within it asks for more records than a number of 64 bits can
say. -/
inductive Call.Overlong : Call → Prop where
  | here {c : Call} {n : Nat} (h : c.firstCount? = some n) (hn : Datum.fits n = false) : Overlong c
  | within {c d : Call} (h : d ∈ c.selections) (hd : Overlong d) : Overlong c

/-- Whether a type that is itself called like a connection declares one. -/
def Schema.ConnectsConnection (s : Schema) : Prop :=
  ∃ t ∈ s.types, t.name = .text connectionMarker ∧ ∃ f ∈ t.declared, f.isConnection = true

/-- What can be the reason, in a run of a query that was compiled against a snapshot, for a request
that cannot be answered. A column is missing because the schema is another one by now, or because it
had a connection from a type that is called like one. -/
def Snapshot.Explains (i : Snapshot) (q : Query) (r : Relational) : Misuse → Prop
  | .missingEntry => r.schema ≠ i.schema ∨ i.schema.ConnectsConnection
  | .outOfRange => ∃ c ∈ q, c.Overlong
  | _ => False

/-- Filters for records of a type that can be asked for in the tables that it was laid out with. -/
structure Snapshot.Asks (i : Snapshot) (t : ObjectType) (filters : Filters) : Prop where
  comparable : ∀ f ∈ filters, f.2.Comparable
  columns : ¬i.schema.ConnectsConnection → ∀ l, LaidOut i.schema .standard t l →
    ∀ f ∈ filters, (l.column? f.1).isSome

namespace Snapshot

variable {i : Snapshot} {q : Query} {r : Relational} {request : Request} {n : String}
  {t u : ObjectType} {f : Field} {filters : Filters} {page : Page} {m : Misuse} {c : Call}

theorem asks_filters (hi : i.rules.registry = .standard) (ht : t ∈ i.schema.types)
    {named : List (String × Argument)}
    (h : Compile.filters (Compile.filterable i t) named = .ok filters) : i.Asks t filters := by
  constructor
  · intro e he
    obtain ⟨_, _, _, _, _, hv⟩ := Compile.mem_filters ht h he
    exact Scalar.comparable_of_coerce hv
  · intro _ l hl e he
    obtain ⟨g, s, v, hg, hk, _⟩ := Compile.mem_filters ht h he
    rw [hl.column?_eq i.valid hi ht hg hk]
    rfl

/-- The field at the other end of a connection is stored, unless the connection is from a type that
is called like one. -/
theorem asks_reverse (hi : i.rules.registry = .standard) (ht : t ∈ i.schema.types)
    (hf : f ∈ t.declared) {reverse : Value}
    (hk : i.schema.kindOf f = .ok (.connection (.text n) reverse)) (hu : i.schema.type? n = some u)
    {owner : Value} (howner : owner.Comparable) : i.Asks u [(reverse.inline, owner)] := by
  refine ⟨List.forall_mem_singleton.mpr howner, fun hconnects l hl => ?_⟩
  obtain ⟨_, u', g, hfar, hg⟩ := i.valid.exists_farEnd ht hf hk
  cases hu.symm.trans hfar.type
  have hum := Schema.mem_of_type? hu
  obtain ⟨r, hr, hfield⟩ := Option.bind_eq_some_iff.mp hfar.field
  obtain rfl := Value.text?_eq_some_iff.mp hr
  obtain ⟨k, hkind⟩ := i.valid.exists_kindOf hum (ObjectType.mem_of_field? hfield)
  have hcolumn : l.column? r = k.column? r := hl.column?_eq i.valid hi hum hfield hkind
  refine List.forall_mem_singleton.mpr ?_
  show (l.column? r).isSome
  rw [hcolumn]
  cases k with
  | connection =>
    have hmarker := Value.spells_iff.mp (Schema.connection_of_kindOf hkind).1
    have hc := (Schema.connection_of_kindOf hk).1
    exact absurd ⟨t, ht, hg.symm.trans hmarker, f, hf, hc⟩ hconnects
  | _ => rfl

/-- There is a reason for a request that cannot be answered. -/
theorem explains (hs : r.Consistent) (ht : i.schema.type? n = some t) (ha : i.Asks t filters)
    (hq : request.reading? = some (n, filters, page))
    (hp : ∀ k, page.first = some (.int k) → Datum.fits k = false → ∃ c ∈ q, c.Overlong)
    (h : r.Unanswerable request m) : i.Explains q r m := by
  cases h with
  | noColumn hq' hl hf =>
    cases hq.symm.trans hq'
    by_contra hno
    obtain ⟨hschema, hconnects⟩ := not_or.mp hno
    obtain ⟨_, hlaid⟩ := Relational.laidOut (not_not.mp hschema) hs.registry ht hl
    obtain ⟨f, hmem, hnone⟩ := hf
    have hsome := ha.columns hconnects _ hlaid f hmem
    rw [hnone] at hsome
    cases hsome
  | tooMany hq' _ _ hk hw =>
    cases hq.symm.trans hq'
    exact hp _ hk hw

theorem overlong_of_page (hc : c.Overlong → ∃ d ∈ q, d.Overlong) (k : Int)
    (hk : (Page.of c).first = some (.int k)) (hw : Datum.fits k = false) :
    ∃ d ∈ q, d.Overlong := by
  rw [Page.of] at hk
  cases hcount : c.firstCount? with
  | none =>
    rw [hcount] at hk
    cases hk
  | some count =>
    rw [hcount] at hk
    cases hk
    exact hc (.here hcount hw)

end Snapshot

namespace Recorded

variable {r : Relational} {t : Recorded Relational} {request : Request} {m m' : Misuse}

/-- The last request to a store is one that it cannot answer. -/
def Blames (t : Recorded Relational) (m : Misuse) : Prop :=
  ∃ request, t.requests.getLast? = some request ∧ t.store.Unanswerable request m

theorem blames_append {requests : List Request} :
    (⟨r, requests ++ [request]⟩ : Recorded Relational).Blames m ↔ r.Unanswerable request m := by
  simp [Blames]

theorem Blames.unique (h : t.Blames m) (h' : t.Blames m') : m = m' := by
  obtain ⟨request, hlast, hm⟩ := h
  obtain ⟨_, hlast', hm'⟩ := h'
  cases hlast.symm.trans hlast'
  exact hm.unique hm'

end Recorded

/-- What a run on a database comes to: a result, a failure of the database, or the last request is
to blame, with a reason for it. -/
inductive Settled {α : Type} (i : Snapshot) (q : Query) (Q : α → Prop) :
    Except Failure α × Recorded Relational → Prop where
  | result {a : α} {t : Recorded Relational} (ha : Q a) (ht : Stage i t.store)
      (hb : ∀ m, ¬t.Blames m) : Settled i q Q (.ok a, t)
  | fault {f : Fault} {t : Recorded Relational} (hb : ∀ m, ¬t.Blames m) :
      Settled i q Q (.error (.fault f), t)
  | misuse {m : Misuse} {t : Recorded Relational} (hb : t.Blames m)
      (hm : i.Explains q t.store m) : Settled i q Q (.error (.misuse m), t)

/-- A run comes to something, from any stage at which nothing is to blame yet. -/
def Access.Settles {α : Type} (i : Snapshot) (q : Query) (x : Access (Recorded Relational) α)
    (Q : α → Prop) : Prop :=
  ∀ s : Recorded Relational, Stage i s.store → (∀ m, ¬s.Blames m) → Settled i q Q (x.result s)

namespace Access

variable {α β : Type} {i : Snapshot} {q : Query} {Q : α → Prop} {R : β → Prop}

theorem settles_pure {a : α} (ha : Q a) : (pure a : Access (Recorded Relational) α).Settles i q Q :=
  fun _ hs hb => .result ha hs hb

theorem Settles.bind {x : Access (Recorded Relational) α}
    {f : α → Access (Recorded Relational) β} (hx : x.Settles i q Q)
    (hf : ∀ a, Q a → (f a).Settles i q R) : (x >>= f).Settles i q R := by
  intro s hs hb
  rw [result_bind]
  have hsettled := hx s hs hb
  generalize x.result s = outcome at hsettled
  cases hsettled with
  | result ha ht hb => exact hf _ ha _ ht hb
  | fault hb => exact .fault hb
  | misuse hb hm => exact .misuse hb hm

theorem settles_ofExcept {x : Except Misuse α} {a : α} {f : α → Access (Recorded Relational) β}
    (hx : x = .ok a) (hf : (f a).Settles i q R) : (ofExcept x >>= f).Settles i q R := by
  rw [hx, ofExcept_ok, pure_bind]
  exact hf

theorem settles_mapM {xs : List β} {f : β → Access (Recorded Relational) α}
    (h : ∀ x ∈ xs, (f x).Settles i q fun _ => True) :
    (xs.mapM f).Settles i q fun _ => True := by
  induction xs with
  | nil => exact settles_pure trivial
  | cons x xs ih =>
    rw [List.mapM_cons]
    refine (h x List.mem_cons_self).bind fun _ _ => ?_
    refine (ih fun y hy => h y (List.mem_cons_of_mem x hy)).bind fun _ _ => ?_
    exact settles_pure trivial

/-- A question to the database is settled if it has an answer or there is a reason. -/
theorem settles_ask {request : Request} {f : Relational → Except Failure α}
    (h : ∀ r, Stage i r → r.Answers request Q (f r))
    (hm : ∀ r m, Stage i r → r.Unanswerable request m → i.Explains q r m) :
    (Recorded.ask request (Relational.ask f)).Settles i q Q := by
  intro s hs _
  have hanswers := h s.store hs
  rw [Recorded.result_ask, Relational.result_ask]
  generalize f s.store = answer at hanswers
  cases hanswers with
  | answer ha hq => exact .result ha hs fun m hb => hq m (Recorded.blames_append.mp hb)
  | fault hq => exact .fault fun m hb => hq m (Recorded.blames_append.mp hb)
  | misuse hu => exact .misuse (Recorded.blames_append.mpr hu) (hm s.store _ hs hu)

end Access

section Requests

variable {i : Snapshot} {q : Query} {request : Request} {n : String} {t : ObjectType}
  {filters : Filters} {page : Page} {c : Call}

open Access

theorem settles_fetchById (ht : i.schema.type? n = some t) (id : String) :
    (Store.fetchById n (.text id) : Access (Recorded Relational) _).Settles i q fun found =>
      ∀ v ∈ found, Has i (.data i) t v := by
  refine settles_ask (fun r hr => ?_) fun r m _ hm => ?_
  · refine (hr.consistent.answers_find rfl n id).imp fun found hfound v hv => ?_
    obtain ⟨l, row, hl, hrow, rfl⟩ := hfound v hv
    exact hr.has ht hl hrow
  · exact absurd hm (Relational.answerable_of_not_reading rfl m)

theorem settles_fetch (ht : i.schema.type? n = some t) (ha : i.Asks t filters)
    (hc : c.Overlong → ∃ d ∈ q, d.Overlong) (hq : request.reading? = some (n, filters, .of c)) :
    (Recorded.ask request (Relational.ask (·.fetch n filters (.of c)))).Settles i q fun found =>
      ∀ v ∈ found.records, Has i (.data i) t v := by
  refine settles_ask (fun r hr => ?_) fun r m hr hm => ?_
  · refine (hr.consistent.answers_fetch c hq ha.comparable).imp fun found hfound v hv => ?_
    obtain ⟨l, row, hl, hrow, rfl⟩ := hfound v hv
    exact hr.has ht hl hrow
  · exact i.explains hr.consistent ht ha hq (Snapshot.overlong_of_page hc) hm

theorem settles_count (ht : i.schema.type? n = some t) (ha : i.Asks t filters)
    (hq : request.reading? = some (n, filters, {})) :
    (Recorded.ask request (Relational.ask (·.countMany n filters))).Settles i q fun _ => True := by
  refine settles_ask (fun r hr => hr.consistent.answers_countMany hq ha.comparable) ?_
  exact fun r m hr hm => i.explains hr.consistent ht ha hq nofun hm

theorem settles_change {change : SchemaChange} (hc : change.Judgeable) :
    (Store.change change : Access (Recorded Relational) Bool).Settles i q fun _ => True := by
  intro s hs _
  have hblames (r : Relational) (m : Misuse) :
      ¬(⟨r, s.requests ++ [.change change]⟩ : Recorded Relational).Blames m := fun hb =>
    Relational.answerable_of_not_reading rfl m (Recorded.blames_append.mp hb)
  have hstage : Stage i ((Store.change change : Access Relational Bool).result s.store).2 :=
    ⟨(Relational.Reached.start.change change).consistent hs.consistent,
      Relational.each_change (Row.droppable_suits i) hs.rows change⟩
  have hfaults := hs.consistent.prepare_faults hc
  show Settled i q _ ((Recorded.ask (.change change) (Store.change change)).result s)
  rw [Recorded.result_ask]
  generalize hrun : (Store.change change : Access Relational Bool).result s.store = ran at hstage
  obtain ⟨outcome, r⟩ := ran
  cases outcome with
  | ok made => exact .result trivial hstage (hblames r)
  | error e =>
    obtain ⟨f, rfl⟩ : ∃ f, e = .fault f := by
      rw [Relational.result_change] at hrun
      split at hrun
      · rename_i hprepare
        cases hrun
        exact hfaults _ hprepare
      · cases hrun
      · split at hrun <;> cases hrun
        exact ⟨_, rfl⟩
    exact .fault (hblames r)

theorem settles_fetchRelated (ht : i.schema.type? n = some t) {reverse : String} {owner : Value}
    (ha : i.Asks t [(reverse, owner)]) (hc : c.Overlong → ∃ d ∈ q, d.Overlong)
    (outputs : List Output) :
    (Output.fetchRelated outputs n reverse (.of c) owner :
      Access (Recorded Relational) _).Settles i q fun found =>
        ∀ v ∈ found.records, Has i (.data i) t v := by
  unfold Output.fetchRelated
  split
  · exact settles_fetch ht ha hc rfl
  · exact (settles_count ht ha rfl).bind fun _ _ => settles_pure nofun

theorem settles_fetchMany (ht : i.schema.type? n = some t) (ha : i.Asks t filters)
    (hc : c.Overlong → ∃ d ∈ q, d.Overlong) (p : Projection) :
    (p.fetch n filters (.of c) : Access (Recorded Relational) _).Settles i q fun found =>
      ∀ v ∈ found.records, Has i (.data i) t v := by
  unfold Projection.fetch
  split
  · exact settles_fetch ht ha hc rfl
  · exact (settles_count ht ha rfl).bind fun _ _ => settles_pure nofun

theorem exists_fetchedRecord {found : Fetched} (hn : t.isNode)
    (h : ∀ v ∈ found.records, Has i (.data i) t v) : ∃ cursors,
      fetchedRecord found = .ok (connectionRecord found.records found.count cursors) := by
  obtain ⟨cursors, hcursors⟩ := exists_mapM_ok (f := fun v : Value => v.required idName)
    fun v hv => by
      cases h v hv with
      | data _ _ hid =>
        obtain ⟨id, hrequired, _⟩ := hid hn
        exact ⟨id, hrequired⟩
  exact ⟨cursors, by rw [fetchedRecord, hcursors, ok_bind]; rfl⟩

end Requests

end ObjectQuery
