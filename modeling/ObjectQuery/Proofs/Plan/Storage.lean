import ObjectQuery.Proofs.Plan.Planning
import ObjectQuery.Proofs.Query.Execution
import ObjectQuery.Proofs.Store.Tables

/-!
# What plans need of a store

Wherever a plan asks for records, there is a table for them: it asks by columns of that table, and
what relates records to others is only projected from records that have an id. The kinds of fields
carry this: a filter is by a field of one scalar, a reference leads to a node, and the other end of
a connection is a reference back to the node that has the connection.
-/

set_option autoImplicit false

namespace ObjectQuery

open Outcome

/-- Whether the named type is a node type, which declares an id. -/
def Schema.Identifies (s : Schema) (n : String) : Prop :=
  ∃ t f, s.type? n = some t ∧ t.isNode = true ∧ t.field? idName = some f ∧
    s.kindOf f = .ok (.scalar .id)

/-- Whether what is projected from a record of a type can be looked up in tables. -/
def Source.InStore (s : Schema) (ls : List TableLayout) (owner : String) : Source → Prop
  | embedded .. => True
  | listed .. => True
  | related field target =>
    s.Identifies owner ∧ Stores ls owner [idName, field] ∧ Stores ls target [idName]
  | connection target reverse _ =>
    s.Identifies owner ∧ Stores ls owner [idName] ∧ Stores ls target [idName, reverse]

def Output.InStore (s : Schema) (ls : List TableLayout) (owner : String) : Output → Prop
  | leaf .. => True
  | nested _ source _ _ => source.InStore s ls owner

/-- Whether all of what a projection and those within it are made of can be looked up. -/
def Projection.InStore (s : Schema) (ls : List TableLayout) (p : Projection) : Prop :=
  ∀ e ∈ p.arena, ∀ o ∈ e.2.outputs, o.InStore s ls e.2.typeName

/-- Whether the records that a call is for can be looked up. -/
def CallPlan.InStore (ls : List TableLayout) : CallPlan → Prop
  | fetchNode typeName _ _ => Stores ls typeName [idName]
  | fetchNodes typeName filters _ _ => Stores ls typeName (idName :: filters.map Prod.fst)
  | introspection .. => True
  | mutation .. => True

/-- What is selected on in a plan for a snapshot. -/
def Realm.Of (i : Snapshot) (t : ObjectType) : Realm → Prop
  | .data j => j = i ∧ t ∈ i.schema.types
  | .metadata => True

def Context.Of (i : Snapshot) : Context → Prop
  | object realm t => realm.Of i t
  | connection _ realm t => realm.Of i t
  | edges realm t => realm.Of i t

/-- A snapshot in which every relation leads back, and the tables for it. -/
structure Snapshot.Housed (i : Snapshot) (ls : List TableLayout) : Prop where
  registry : i.rules.registry = .standard
  markerFree : i.schema.MarkerFree
  layouts : i.schema.layouts .standard = .ok ls

section

variable {i : Snapshot} {ls : List TableLayout} {t : ObjectType} {c : Call}
  {context inner : Context}
  {source : Source} {limit : Int}

/-- A node type is stored with its id and with what else has a column. -/
theorem Snapshot.Housed.stores (h : i.Housed ls) {n : String} (ht : i.schema.type? n = some t)
    (hn : t.isNode = true) (fields : List String) (hfields : ∀ m ∈ fields, ∃ f k,
      t.field? m = some f ∧ i.schema.kindOf f = .ok k ∧ (k.column? m).isSome) :
    i.schema.Identifies t.label ∧ Stores ls t.label (idName :: fields) := by
  obtain ⟨f, hf, hk⟩ := i.valid.exists_idField h.registry (Schema.mem_of_type? ht) hn
  rw [Schema.label_eq ht]
  refine ⟨⟨t, f, ht, hn, hf, hk⟩, i.valid.stores h.registry h.layouts ht hn ?_⟩
  exact List.forall_mem_cons.mpr ⟨⟨f, _, hf, hk, rfl⟩, hfields⟩

theorem Snapshot.Housed.inStore_of_select (h : i.Housed ls) (ht : t ∈ i.schema.types)
    (hs : i.select t c = .ok (.nested inner source)) :
    source.InStore i.schema ls t.label ∧ inner.Of i := by
  obtain ⟨owner, howner⟩ := i.valid.exists_name ht
  have htype := i.valid.type?_of_mem ht howner
  cases Snapshot.selects_of_select hs with
  | embedded _ _ _ hu => exact ⟨trivial, rfl, Schema.mem_of_type? hu⟩
  | objectList _ _ _ hu => exact ⟨trivial, rfl, Schema.mem_of_type? hu⟩
  | @related f n u _ hf hk hu =>
    have hnode := i.valid.isNode_of_related ht (ObjectType.mem_of_field? hf) hk
    obtain ⟨hid, hstores⟩ := h.stores htype hnode [c.name]
      (List.forall_mem_singleton.mpr ⟨f, _, hf, hk, rfl⟩)
    have htarget := h.stores hu (Schema.isNode_of_reference hk hu) []
      (List.forall_mem_nil _)
    exact ⟨⟨hid, hstores, htarget.2⟩, rfl, Schema.mem_of_type? hu⟩
  | @connection f n reverse u _ hf hk hu =>
    have hmem := ObjectType.mem_of_field? hf
    obtain ⟨hnode, _⟩ := i.valid.exists_farEnd ht hmem hk
    obtain ⟨w, g, hfar, owner', _, hback⟩ := i.valid.connectionInverted
      (fun u hu hmarker => absurd hmarker (h.markerFree u hu)) ht hmem _ _ hk
    cases hu.symm.trans hfar.type
    obtain ⟨r, hr, hg⟩ := Option.bind_eq_some_iff.mp hfar.field
    cases Value.text?_eq_some_iff.mp hr
    obtain ⟨hid, hstores⟩ := h.stores htype hnode [] (List.forall_mem_nil _)
    have htarget := h.stores hu hfar.isNode [r]
      (List.forall_mem_singleton.mpr ⟨g, _, hg, hback, rfl⟩)
    exact ⟨⟨hid, hstores, htarget.2⟩, rfl, Schema.mem_of_type? hu⟩

/-- Whatever is selected can be looked up, and the selections in it are on the snapshot again. -/
theorem Context.Of.inStore_of_select (hc : context.Of i) (h : i.Housed ls)
    (hs : context.select c = .ok (.nested inner source)) :
    source.InStore i.schema ls context.typeName ∧ inner.Of i := by
  cases context with
  | object realm t =>
    cases realm with
    | data j =>
      obtain ⟨rfl, ht⟩ := hc
      exact h.inStore_of_select ht hs
    | metadata =>
      cases Metadata.selects_of_select hs with
      | listed => exact ⟨trivial, trivial⟩
      | objectList => exact ⟨trivial, trivial⟩
      | object => exact ⟨trivial, trivial⟩
  | connection parent realm t =>
    cases Context.ofConnection_of_select hs with
    | nodes => exact ⟨trivial, hc⟩
    | edges => exact ⟨trivial, hc⟩
  | edges realm t =>
    cases Context.ofEdges_of_select hs with
    | node => exact ⟨trivial, hc⟩

mutual

theorem Context.Of.inStore_of_output {context : Context} (hc : context.Of i) (h : i.Housed ls)
    (path place : Path) (depth : Nat) :
    (c : Call) → (o : Output) → context.output limit path depth c = .ok o →
      o.InStore i.schema ls context.typeName ∧ ∀ e ∈ Projection.arenaOf place o,
        ∀ o ∈ e.2.outputs, o.InStore i.schema ls e.2.typeName
  | .mk name arguments selections location, o, ho => by
    rcases Context.output_eq_ok ho with ⟨l, _, rfl⟩ | ⟨inner, source, os, hs, hos, rfl⟩
    · exact ⟨trivial, List.forall_mem_nil _⟩
    · obtain ⟨hsource, hinner⟩ := hc.inStore_of_select h hs
      obtain ⟨hblock, hwithin⟩ :=
        hinner.inStore_of_outputs h _ (place ++ [name]) _ selections os hos
      exact ⟨hsource, List.forall_mem_cons.mpr ⟨hblock, hwithin⟩⟩

theorem Context.Of.inStore_of_outputs {context : Context} (hc : context.Of i) (h : i.Housed ls)
    (path place : Path) (depth : Nat) :
    (cs : List Call) → (os : List Output) → context.outputs limit path depth cs = .ok os →
      (∀ o ∈ os, o.InStore i.schema ls context.typeName) ∧ ∀ e ∈ Projection.arenaOfAll place os,
        ∀ o ∈ e.2.outputs, o.InStore i.schema ls e.2.typeName
  | [], os, hos => by
    cases hos
    exact ⟨List.forall_mem_nil _, List.forall_mem_nil _⟩
  | c :: cs, os, hos => by
    obtain ⟨o, rest, ho, hrest, rfl⟩ := Context.outputs_cons_eq_ok hos
    obtain ⟨hfirst, hwithin⟩ := hc.inStore_of_output h path place depth c o ho
    obtain ⟨hothers, hwithins⟩ := hc.inStore_of_outputs h path place depth cs rest hrest
    refine ⟨List.forall_mem_cons.mpr ⟨hfirst, hothers⟩, ?_⟩
    rw [Projection.arenaOfAll]
    exact List.forall_mem_append.mpr ⟨hwithin, hwithins⟩

end

theorem Context.Of.inStore_of_project (hc : context.Of i) (h : i.Housed ls) {p : Projection}
    (hp : context.project limit c = .ok p) : p.InStore i.schema ls := by
  obtain ⟨_, _, hp⟩ := bind_eq_ok.mp hp
  obtain ⟨os, hos, hp⟩ := bind_eq_ok.mp hp
  cases hp
  obtain ⟨hblock, hwithin⟩ := hc.inStore_of_outputs h [] [] 1 c.selections os hos
  exact List.forall_mem_cons.mpr ⟨hblock, hwithin⟩

theorem Compile.Planned.inStore {p : CallPlan} (hp : Planned i limit c p) (h : i.Housed ls) :
    p.InStore ls ∧ p.projection.InStore i.schema ls := by
  cases hp with
  | @node n id t projection ht hn hp =>
    have hstores := h.stores ht hn [] (List.forall_mem_nil _)
    have hcontext : (Context.object (.data i) t).Of i := ⟨rfl, Schema.mem_of_type? ht⟩
    exact ⟨hstores.2, hcontext.inStore_of_project h hp⟩
  | @nodes n t fs projection ht hn hfs hp =>
    have hmem := Schema.mem_of_type? ht
    have hstores := h.stores ht hn (fs.map Prod.fst) <| by
      refine List.forall_mem_map.mpr fun e he => ?_
      obtain ⟨f, s, _, hf, hk, _⟩ := mem_filters hmem hfs he
      exact ⟨f, _, hf, hk, rfl⟩
    have hcontext : (Context.connection c.name (.data i) t).Of i := ⟨rfl, hmem⟩
    exact ⟨hstores.2, hcontext.inStore_of_project h hp⟩
  | @introspection t record projection _ hp =>
    have hcontext : (Context.object .metadata t).Of i := trivial
    exact ⟨trivial, hcontext.inStore_of_project h hp⟩
  | @mutation m t projection _ _ _ hp =>
    have hcontext : (Context.object .metadata t).Of i := trivial
    exact ⟨trivial, hcontext.inStore_of_project h hp⟩

end

/-- Whatever a plan asks a store for, there are tables and columns for it. -/
theorem Query.plan_inStore {credentials : Credentials} {i : Snapshot} {limit : Int} {q : Query}
    {p : Plan} (hi : i.rules.registry = .standard) (hm : i.schema.MarkerFree)
    (h : q.compile credentials i limit = .ok p) :
    ∃ ls, i.schema.layouts .standard = .ok ls ∧
      ∀ plan ∈ p, plan.InStore ls ∧ plan.projection.InStore i.schema ls := by
  have hhoused : i.Housed _ := ⟨hi, hm, i.valid.layouts_eq_ok hi⟩
  refine ⟨_, hhoused.layouts, fun plan hplan => ?_⟩
  obtain ⟨c, _, hc⟩ := exists_of_mem_mapM h hplan
  exact (Compile.planned_of_call hc).inStore hhoused

theorem library_plan_inStore : ∃ p ls,
    Library.query.compile {} Library.snapshot defaultLimit = .ok p ∧
      Library.schema.layouts .standard = .ok ls ∧
      ∀ plan ∈ p, plan.InStore ls ∧ plan.projection.InStore Library.schema ls := by
  have hcompiled : ∃ p, Library.query.compile {} Library.snapshot defaultLimit = .ok p := ⟨_, rfl⟩
  have hmarkerFree : Library.snapshot.schema.MarkerFree := by
    simp [Schema.MarkerFree, ObjectType.CalledLikeMarker, Library.snapshot, Library.schema,
      Library.userType, Library.addressType, Library.authorType, Library.bookType,
      connectionMarker, listMarker]
  obtain ⟨p, hp⟩ := hcompiled
  obtain ⟨ls, hls, hstored⟩ := Query.plan_inStore rfl hmarkerFree hp
  exact ⟨p, ls, hp, hls, hstored⟩

end ObjectQuery
