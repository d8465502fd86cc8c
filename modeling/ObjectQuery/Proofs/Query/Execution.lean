import ObjectQuery.Proofs.Plan.Calls
import ObjectQuery.Proofs.Store.Recall

/-!
# Plans give the answers to their queries

Running the plan for a query that only reads, on a store in memory, gives the answer to each call of
the query, in order, and nothing fails. What a selection is compiled to is presented from a record
that stands for what the selection is made on; the induction is on calls and lists of calls.
-/

set_option autoImplicit false

namespace ObjectQuery

open Outcome

namespace Subject

/-- The record that selections on a subject are presented from. -/
def record : Subject → Value
  | object _ r => r
  | connection _ count shown =>
    connectionRecord shown count (shown.map fun r => .text r.idText)
  | edge _ r => .object [("cursor", .text r.idText), ("node", r)]

/-- A subject that selections in a context can be made on. -/
inductive On (i : Snapshot) : Context → Subject → Prop where
  | object {t : ObjectType} {r : Value} (ht : t ∈ i.schema.types) (hr : Shaped i.schema t r)
      (hid : t.isNode → HasId r) : On i (.object (.data i) t) (.object t r)
  | connection {parent : String} {t : ObjectType} {count : Nat} {shown : List Value}
      (ht : t ∈ i.schema.types) (hr : ∀ r ∈ shown, Shaped i.schema t r ∧ HasId r) :
      On i (.connection parent (.data i) t) (.connection t count shown)
  | edge {t : ObjectType} {r : Value} (ht : t ∈ i.schema.types) (hr : Shaped i.schema t r)
      (hid : HasId r) : On i (.edges (.data i) t) (.edge t r)

end Subject

theorem Shaped.exists_entries {s : Schema} {t : ObjectType} {r : Value} (h : Shaped s t r) :
    ∃ entries, r = .object entries := by
  cases h with
  | @object _ entries _ => exact ⟨entries, rfl⟩

theorem Shaped.entry_eq {s : Schema} {t : ObjectType} {r : Value} (h : Shaped s t r)
    (name : String) : r.entry name = .ok (r.held name) := by
  obtain ⟨entries, rfl⟩ := h.exists_entries
  rfl

theorem Shaped.fits {s : Schema} {t : ObjectType} {r : Value} (h : Shaped s t r) {name : String}
    {f : Field} {k : FieldKind} (hf : t.field? name = some f) (hk : s.kindOf f = .ok k) :
    Fits s k (r.held name) := by
  cases h with
  | object h => exact h name f k hf hk

theorem Value.isNull_eq_false {v : Value} (h : v ≠ .null) : v.isNull = false := by
  cases v with
  | null => exact absurd rfl h
  | _ => rfl

namespace Output

theorem unlessNull_of_ne {σ : Type} {v : Value} (h : v ≠ .null)
    (present : Value → Access σ Result) : unlessNull v present = present v := by
  unfold unlessNull
  split
  · exact absurd rfl h
  · rfl

section Sources

variable {σ : Type} [Store σ] {s : σ} {record v : Value} {name field typeName : String}
  {outputs : List Output} {shown : List (String × Result)}

theorem yields_leaf (h : record.entry field = .ok v) :
    (evaluate record (.leaf name (.field field)) : Access σ Result).Yields s (.value v) := by
  exact (Access.yields_ofExcept h s).bind (Access.yields_pure _ s)

theorem yields_embedded_null {isList : Bool} (h : record.entry field = .ok .null) :
    (evaluate record (.nested name (.embedded field isList) typeName outputs) :
      Access σ Result).Yields s .null := by
  exact (Access.yields_ofExcept h s).bind (Access.yields_pure _ s)

theorem yields_embedded (h : record.entry field = .ok v) (hv : v ≠ .null)
    (hs : (evaluateAll v outputs : Access σ _).Yields s shown) :
    (evaluate record (.nested name (.embedded field false) typeName outputs) :
      Access σ Result).Yields s (.object shown) := by
  refine (Access.yields_ofExcept h s).bind ?_
  rw [unlessNull_of_ne hv]
  exact hs.bind (Access.yields_pure _ s)

theorem yields_items {α : Type} {xs : List α} (item : α → Value)
    {present : α → List (String × Result)} (h : record.entry field = .ok (.list (xs.map item)))
    (hs : ∀ x ∈ xs, item x ≠ .null →
      (evaluateAll (item x) outputs : Access σ _).Yields s (present x)) :
    (evaluate record (.nested name (.embedded field true) typeName outputs) :
      Access σ Result).Yields s
      (.list (xs.map fun x => if (item x).isNull then .null else .object (present x))) := by
  refine (Access.yields_ofExcept h s).bind ?_
  refine (Access.yields_ofExcept (x := Value.parts (.list (xs.map item))) rfl s).bind ?_
  rw [List.mapM_map]
  refine (Access.yields_mapM fun x hx => ?_).bind (Access.yields_pure _ s)
  by_cases hnull : item x = .null
  · simp only [Function.comp_apply, hnull]
    exact Access.yields_pure _ s
  · rw [Function.comp_apply, unlessNull_of_ne hnull, Value.isNull_eq_false hnull,
      if_neg Bool.false_ne_true]
    exact (hs x hx hnull).bind (Access.yields_pure _ s)

theorem yields_related_null {target : String} (h : record.entry field = .ok .null) :
    (evaluate record (.nested name (.related field target) typeName outputs) :
      Access σ Result).Yields s .null := by
  exact (Access.yields_ofExcept h s).bind (Access.yields_pure _ s)

theorem yields_related_none {target : String} (h : record.entry field = .ok v) (hv : v ≠ .null)
    (hf : (Store.fetchById target v : Access σ _).Yields s none) :
    (evaluate record (.nested name (.related field target) typeName outputs) :
      Access σ Result).Yields s .null := by
  refine (Access.yields_ofExcept h s).bind ?_
  rw [unlessNull_of_ne hv]
  exact hf.bind (Access.yields_pure _ s)

theorem yields_related {target : String} {found : Value} (h : record.entry field = .ok v)
    (hv : v ≠ .null) (hf : (Store.fetchById target v : Access σ _).Yields s (some found))
    (hs : (evaluateAll found outputs : Access σ _).Yields s shown) :
    (evaluate record (.nested name (.related field target) typeName outputs) :
      Access σ Result).Yields s (.object shown) := by
  refine (Access.yields_ofExcept h s).bind ?_
  rw [unlessNull_of_ne hv]
  exact hf.bind (hs.bind (Access.yields_pure _ s))

theorem yields_connection {target reverse : String} {page : Page} {owner presented : Value}
    {fetched : Fetched} (h : record.required idName = .ok owner)
    (hf : (fetchRelated outputs target reverse page owner : Access σ _).Yields s fetched)
    (hp : fetchedRecord fetched = .ok presented)
    (hs : (evaluateAll presented outputs : Access σ _).Yields s shown) :
    (evaluate record (.nested name (.connection target reverse page) typeName outputs) :
      Access σ Result).Yields s (.object shown) := by
  refine (Access.yields_ofExcept h s).bind (hf.bind ?_)
  exact (Access.yields_ofExcept hp s).bind (hs.bind (Access.yields_pure _ s))

theorem yields_nil : (evaluateAll record [] : Access σ _).Yields s [] := Access.yields_pure _ s

theorem yields_cons {o : Output} {x : Result} (ho : (evaluate record o : Access σ _).Yields s x)
    (hos : (evaluateAll record outputs : Access σ _).Yields s shown) :
    (evaluateAll record (o :: outputs) : Access σ _).Yields s ((o.name, x) :: shown) := by
  exact ho.bind (hos.bind (Access.yields_pure _ s))

end Sources

end Output

section Runs

variable {σ : Type} [Store σ] {s : σ} {record : Value} {n id label : String}
  {outputs : List Output} {shown : List (String × Result)}

theorem CallPlan.yields_fetchNode
    (hf : (Store.fetchById n (.text id) : Access σ _).Yields s (some record))
    (hs : (Output.evaluateAll record outputs : Access σ _).Yields s shown) :
    (run (.fetchNode n id ⟨label, outputs⟩) : Access σ _).Yields s (.object shown) :=
  hf.bind (hs.bind (Access.yields_pure _ s))

theorem Plan.yields_singleton {p : CallPlan} {x : Result}
    (h : (p.run : Access σ _).Yields s x) : (run [p] : Access σ _).Yields s [x] :=
  h.bind (Access.Yields.bind (Access.yields_pure _ s) (Access.yields_pure _ s))

end Runs

/-- What a store in memory holds, for a schema. -/
def Memory.world (m : Memory) (s : Schema) : World := ⟨s, m.recordsOf⟩

section Contexts

variable {m : Memory} {i : Snapshot} {t u : ObjectType} {c : Call} {context inner : Context}
  {source : Source} {outputs : List Output} {path : Path} {limit : Int} {depth : Nat}
  {parent n : String}

theorem Schema.label_eq {s : Schema} (h : s.type? n = some t) : t.label = n := by
  rw [ObjectType.label, Schema.type?_name h]
  rfl

/-- Outputs present selections if they do so on every subject. -/
def Presents (m : Memory) (i : Snapshot) (context : Context) (selections : List Call)
    (outputs : List Output) : Prop :=
  ∀ x, x.On i context → (Output.evaluateAll x.record outputs : Access Memory _).Yields m
    ((m.world i.schema).showsAll x selections)

theorem World.Sound.keyed {w : World} (hw : w.Sound) (ht : w.schema.type? n = some t)
    (hn : t.isNode) : Keyed (w.records n) :=
  ⟨hw.hasId ht hn, hw.distinct ht hn⟩

/-- The selections on a connection that nothing but a number is shown of do not depend on the
records. -/
theorem showsAll_count {w : World} {realm : Realm} {cs : List Call} (count : Nat)
    (shown : List Value)
    (h : (Context.connection parent realm t).outputs limit path depth cs = .ok outputs)
    (hn : needsRecords outputs = false) :
    w.showsAll (.connection t count shown) cs = w.showsAll (.connection t count []) cs := by
  rw [needsRecords_eq_false_iff] at hn
  induction cs generalizing outputs with
  | nil => rfl
  | cons c cs ih =>
    obtain ⟨o, rest, ho, hrest, rfl⟩ := Context.outputs_cons_eq_ok h
    rw [World.showsAll, World.showsAll, ih hrest fun p hp => hn p (List.mem_cons_of_mem o hp)]
    rcases Context.output_eq_ok ho with ⟨l, hs, rfl⟩ | ⟨inner, source, os, _, _, rfl⟩
    · cases Context.ofConnection_of_select hs with
      | count hname =>
        obtain ⟨name, arguments, selections, location⟩ := c
        have hname : name = countName := hname
        simp only [World.shows, hname, if_true]
    · have hnested := hn _ List.mem_cons_self
      cases hnested

/-- The records of a page, unless nothing but their number is needed. -/
def fetchedFor (outputs : List Output) (shown : List Value) (count : Nat) : Fetched :=
  if needsRecords outputs then ⟨shown, count⟩ else ⟨[], count⟩

theorem yields_fetched {cs : List Call} {shown : List Value} (count : Nat)
    (h : (Context.connection parent (.data i) t).outputs limit path depth cs = .ok outputs)
    (hp : Presents m i (.connection parent (.data i) t) cs outputs) (ht : t ∈ i.schema.types)
    (hk : Keyed shown) (hr : ∀ r ∈ shown, Shaped i.schema t r) :
    ∃ presented, fetchedRecord (fetchedFor outputs shown count) = .ok presented ∧
      (Output.evaluateAll presented outputs : Access Memory _).Yields m
        ((m.world i.schema).showsAll (.connection t count shown) cs) := by
  unfold fetchedFor
  cases hn : needsRecords outputs with
  | true =>
    refine ⟨_, fetchedRecord_eq hk count, ?_⟩
    exact hp (.connection t count shown) (.connection ht fun r h => ⟨hr r h, hk.hasId r h⟩)
  | false =>
    refine ⟨connectionRecord [] count [], rfl, ?_⟩
    rw [showsAll_count count shown h hn]
    exact hp (.connection t count []) (.connection ht (by simp))

theorem yields_byId (hw : (m.world i.schema).Sound) (ht : i.schema.type? n = some t)
    (hn : t.isNode) (id : String) : (Store.fetchById n (.text id) : Access Memory _).Yields m
      ((m.world i.schema).byId? n id) :=
  Memory.yields_ask (Memory.find_eq (hw.keyed ht hn) id)

theorem Memory.countMany_eq {filters : Filters} {found : List Value} (hk : Keyed (m.recordsOf n))
    (hf : found = inOrder ((m.recordsOf n).filter fun r => filters.all fun f =>
      (r.held f.1).equal f.2)) :
    (do return (← m.select n filters).length : Except Misuse Nat) = .ok found.length := by
  rw [Memory.select_eq hk, ok_bind, pure_eq_ok, hf]

theorem yields_fetch (projection : Projection) {filters : Filters} {found : List Value}
    (hk : Keyed (m.recordsOf n)) (hf : found = inOrder ((m.recordsOf n).filter fun r =>
      filters.all fun f => (r.held f.1).equal f.2)) :
    (projection.fetch n filters (.of c) : Access Memory _).Yields m
      (fetchedFor projection.outputs (c.window found) found.length) := by
  unfold Projection.fetch fetchedFor
  split
  · exact Memory.yields_ask (Memory.fetch_eq hk filters c hf)
  · exact (Memory.yields_ask (Memory.countMany_eq hk hf)).bind (Access.yields_pure _ m)

theorem yields_fetchRelated (hk : Keyed (m.recordsOf n)) (outputs : List Output)
    (reverse owner : String) :
    (Output.fetchRelated outputs n reverse (.of c) (.text owner) : Access Memory _).Yields m
      (fetchedFor outputs (c.window ((m.world i.schema).holding n reverse owner))
        ((m.world i.schema).holding n reverse owner).length) := by
  have hf : (m.world i.schema).holding n reverse owner = inOrder ((m.recordsOf n).filter fun r =>
      [(reverse, Value.text owner)].all fun f => (r.held f.1).equal f.2) := by
    simp [World.holding, Value.equal_text_eq, Memory.world]
  unfold Output.fetchRelated fetchedFor
  split
  · exact Memory.yields_ask (Memory.fetch_eq hk _ c hf)
  · exact (Memory.yields_ask (Memory.countMany_eq hk hf)).bind (Access.yields_pure _ m)

theorem World.Sound.holding {w : World} (hw : w.Sound) (ht : w.schema.type? n = some t)
    (hn : t.isNode) (reverse owner : String) :
    Keyed (w.holding n reverse owner) ∧
      ∀ r ∈ w.holding n reverse owner, Shaped w.schema t r := by
  refine ⟨((hw.keyed ht hn).filter _).inOrder, fun r hr => ?_⟩
  exact hw.shaped ht hn r (List.mem_of_mem_filter (mem_inOrder.mp hr))

section Fields

variable {f : Field} {r : Value} {typeName : String}

theorem yields_embeddedField (hr : Shaped i.schema t r) (hn : c.name ≠ typenameName)
    (hf : t.field? c.name = some f) (hk : i.schema.kindOf f = .ok (.reference n false))
    (hu : i.schema.type? n = some u)
    (hp : Presents m i (.object (.data i) u) c.selections outputs) :
    (Output.evaluate r (.nested c.name (.embedded c.name false) typeName outputs) :
      Access Memory _).Yields m ((m.world i.schema).shows (.object t r) c) := by
  rw [World.shows_embedded hn (World.kind?_eq hf hk) hu]
  have hentry := hr.entry_eq c.name
  have hfits := hr.fits hf hk
  generalize r.held c.name = v at hentry hfits
  cases hfits with
  | null => exact Output.yields_embedded_null hentry
  | embedded hw hv =>
    cases hu.symm.trans hw
    have hnode := Schema.isNode_of_reference hk hu
    obtain ⟨entries, rfl⟩ := hv.exists_entries
    refine Output.yields_embedded hentry (by simp) (hp (.object u _) ?_)
    exact .object (Schema.mem_of_type? hu) hv (by simp [hnode])

theorem yields_objectListField (ht : t ∈ i.schema.types) (hr : Shaped i.schema t r)
    (hn : c.name ≠ typenameName) (hf : t.field? c.name = some f)
    (hk : i.schema.kindOf f = .ok (.objectList n)) (hu : i.schema.type? n = some u)
    (hp : Presents m i (.object (.data i) u) c.selections outputs) :
    (Output.evaluate r (.nested c.name (.embedded c.name true) typeName outputs) :
      Access Memory _).Yields m ((m.world i.schema).shows (.object t r) c) := by
  rw [World.shows_objectList hn (World.kind?_eq hf hk) hu]
  have hentry := hr.entry_eq c.name
  have hfits := hr.fits hf hk
  generalize r.held c.name = v at hentry hfits
  cases hfits with
  | null => exact Output.yields_embedded_null hentry
  | objectList hw hv =>
    cases hu.symm.trans hw
    obtain ⟨w, hw, hnode⟩ := i.valid.embedded_of_objectList ht (ObjectType.mem_of_field? hf) hk
    cases hu.symm.trans hw
    refine Output.yields_items id (by rwa [List.map_id]) fun item hitem hne =>
      hp (.object u item) ?_
    exact .object (Schema.mem_of_type? hu) (hv item hitem hne) (by simp [hnode])

theorem yields_relatedField (hw : (m.world i.schema).Sound) (hr : Shaped i.schema t r)
    (hn : c.name ≠ typenameName) (hf : t.field? c.name = some f)
    (hk : i.schema.kindOf f = .ok (.reference n true)) (hu : i.schema.type? n = some u)
    (hp : Presents m i (.object (.data i) u) c.selections outputs) :
    (Output.evaluate r (.nested c.name (.related c.name u.label) typeName outputs) :
      Access Memory _).Yields m ((m.world i.schema).shows (.object t r) c) := by
  rw [World.shows_related hn (World.kind?_eq hf hk) hu, Schema.label_eq hu]
  have hnode := Schema.isNode_of_reference hk hu
  have hentry := hr.entry_eq c.name
  have hfits := hr.fits hf hk
  generalize r.held c.name = v at hentry hfits
  cases hfits with
  | null => exact Output.yields_related_null hentry
  | @related _ id =>
    have hfound := yields_byId hw hu hnode id
    rw [Value.text?_text, Option.bind_some]
    cases hid : (m.world i.schema).byId? n id with
    | none =>
      rw [hid] at hfound
      exact Output.yields_related_none hentry (by simp) hfound
    | some found =>
      rw [hid] at hfound
      have hmem := List.mem_of_find?_eq_some hid
      refine Output.yields_related hentry (by simp) hfound (hp (.object u found) ?_)
      exact .object (Schema.mem_of_type? hu) (hw.shaped hu hnode found hmem) fun _ =>
        hw.hasId hu hnode found hmem

theorem yields_connectionField (hw : (m.world i.schema).Sound) (ht : t ∈ i.schema.types)
    (hid : t.isNode → HasId r) (hn : c.name ≠ typenameName)
    (hf : t.field? c.name = some f) {reverse : Value}
    (hk : i.schema.kindOf f = .ok (.connection (.text n) reverse))
    (hu : i.schema.type? n = some u)
    (h : (Context.connection c.name (.data i) u).outputs limit path depth c.selections =
      .ok outputs)
    (hp : Presents m i (.connection c.name (.data i) u) c.selections outputs) :
    (Output.evaluate r (.nested c.name (.connection u.label reverse.inline (.of c)) typeName
      outputs) : Access Memory _).Yields m ((m.world i.schema).shows (.object t r) c) := by
  obtain ⟨hc, htarget, hreverse⟩ := Schema.connection_of_kindOf hk
  obtain ⟨hnode, n', name, u', g, hg⟩ := i.valid.connects ht (ObjectType.mem_of_field? hf) hc
  cases htarget.trans hg.ofType
  cases hu.symm.trans hg.target
  cases hreverse.trans hg.reverseName
  have hid := hid hnode
  obtain ⟨hkeyed, hshaped⟩ := hw.holding hu hg.isNode name r.idText
  obtain ⟨presented, hfetched, hshown⟩ := yields_fetched
    ((m.world i.schema).holding n name r.idText).length h hp (Schema.mem_of_type? hu)
    (hkeyed.window c) fun q hq => hshaped q (Call.window_subset c _ hq)
  rw [World.shows_connection hn (World.kind?_eq hf hk) hu, Schema.label_eq hu]
  exact Output.yields_connection hid.required_eq
    (yields_fetchRelated (hw.keyed hu hg.isNode) outputs name r.idText) hfetched hshown

end Fields

theorem Shaped.ne_null {s : Schema} {r : Value} (h : Shaped s t r) : r ≠ .null := by
  obtain ⟨entries, rfl⟩ := h.exists_entries
  simp

/-- The edges of a connection stand for its records. -/
theorem entry_edges (t : ObjectType) (count : Nat) (shown : List Value) :
    (Subject.connection t count shown).record.entry edgesName =
      .ok (.list (shown.map fun r => (Subject.edge t r).record)) := by
  simp only [Subject.record, connectionRecord, List.zipWith_map_left, List.zipWith_self]
  rfl

/-- A leaf presents what the selection shows. -/
theorem yields_leafSelection {x : Subject} {l : Leaf} (hx : x.On i context)
    (hs : context.select c = .ok (.leaf l)) :
    (Output.evaluate x.record (.leaf c.name l) : Access Memory _).Yields m
      ((m.world i.schema).shows x c) := by
  cases hx with
  | @object t r ht hr hid =>
    cases Snapshot.selects_of_select hs with
    | typeName hn =>
      rw [World.shows_typeName hn]
      exact Access.yields_pure _ m
    | builtIn hn hf _ =>
      rw [World.shows_builtIn hn hf]
      exact Output.yields_leaf (hr.entry_eq c.name)
    | scalar hn hf hk =>
      rw [World.shows_held hn (World.kind?_eq hf hk) (.inl rfl)]
      exact Output.yields_leaf (hr.entry_eq c.name)
    | scalarList hn hf hk =>
      rw [World.shows_held hn (World.kind?_eq hf hk) (.inr rfl)]
      exact Output.yields_leaf (hr.entry_eq c.name)
  | connection ht hr =>
    obtain ⟨name, arguments, selections, location⟩ := c
    cases Context.ofConnection_of_select hs with
    | count hn =>
      rw [World.shows, if_pos (show name = countName from hn)]
      exact Output.yields_leaf rfl
  | edge ht hr hid =>
    obtain ⟨name, arguments, selections, location⟩ := c
    cases Context.ofEdges_of_select hs with
    | cursor hn =>
      rw [World.shows, if_pos (show name = cursorName from hn)]
      exact Output.yields_leaf rfl

/-- A nested output presents what the selection shows if its outputs present the selections. -/
theorem yields_nestedSelection (hw : (m.world i.schema).Sound) {x : Subject} (hx : x.On i context)
    (hs : context.select c = .ok (.nested inner source))
    (h : inner.outputs limit path depth c.selections = .ok outputs)
    (hp : Presents m i inner c.selections outputs) :
    (Output.evaluate x.record (.nested c.name source inner.typeName outputs) :
      Access Memory _).Yields m ((m.world i.schema).shows x c) := by
  cases hx with
  | object ht hr hid =>
    cases Snapshot.selects_of_select hs with
    | embedded hn hf hk hu => exact yields_embeddedField hr hn hf hk hu hp
    | objectList hn hf hk hu => exact yields_objectListField ht hr hn hf hk hu hp
    | related hn hf hk hu => exact yields_relatedField hw hr hn hf hk hu hp
    | connection hn hf hk hu => exact yields_connectionField hw ht hid hn hf hk hu h hp
  | @connection _ t count shown ht hr =>
    obtain ⟨name, arguments, selections, location⟩ := c
    cases Context.ofConnection_of_select hs with
    | nodes hn =>
      obtain rfl : name = nodesName := hn
      have hitems : (shown.map fun r =>
            Result.object ((m.world i.schema).showsAll (.object t r) selections)) =
          shown.map fun r => if r.isNull then .null
            else .object ((m.world i.schema).showsAll (.object t r) selections) :=
        List.map_congr_left fun r hmem => by
          rw [Value.isNull_eq_false (hr r hmem).1.ne_null, if_neg Bool.false_ne_true]
      rw [World.shows, if_neg (by decide), if_pos rfl, hitems]
      refine Output.yields_items id (by rw [List.map_id]; rfl) fun r hmem _ => ?_
      exact hp (.object t r) (.object ht (hr r hmem).1 fun _ => (hr r hmem).2)
    | edges hn =>
      obtain rfl : name = edgesName := hn
      exact Output.yields_items _ (entry_edges t count shown) fun r hmem _ =>
        hp (.edge t r) (.edge ht (hr r hmem).1 (hr r hmem).2)
  | @edge t r ht hr hid =>
    obtain ⟨name, arguments, selections, location⟩ := c
    cases Context.ofEdges_of_select hs with
    | node hn =>
      obtain rfl : name = nodeName := hn
      exact Output.yields_embedded rfl hr.ne_null (hp (.object t r) (.object ht hr fun _ => hid))

mutual

theorem yields_shows (hw : (m.world i.schema).Sound) :
    (c : Call) → ∀ {context path depth o}, context.output limit path depth c = .ok o →
      ∀ x, x.On i context →
      (Output.evaluate x.record o : Access Memory _).Yields m ((m.world i.schema).shows x c)
  | .mk name arguments selections location, context, path, depth, o, h, x, hx => by
    rcases Context.output_eq_ok h with ⟨l, hs, rfl⟩ | ⟨inner, source, os, hs, hos, rfl⟩
    · exact yields_leafSelection hx hs
    · exact yields_nestedSelection hw hx hs hos (presents_outputs hw selections hos)

/-- What selections are compiled to presents them. -/
theorem presents_outputs (hw : (m.world i.schema).Sound) :
    (cs : List Call) → ∀ {context path depth outputs},
      context.outputs limit path depth cs = .ok outputs → Presents m i context cs outputs
  | [], context, path, depth, outputs, h, x, hx => by
    cases h
    exact Output.yields_nil
  | c :: cs, context, path, depth, outputs, h, x, hx => by
    obtain ⟨o, rest, ho, hrest, rfl⟩ := Context.outputs_cons_eq_ok h
    rw [World.showsAll, ← Context.output_name ho]
    exact Output.yields_cons (yields_shows hw c ho x hx) (presents_outputs hw cs hrest x hx)

end

theorem yields_node {p : CallPlan} (hw : (m.world i.schema).Sound)
    (h : Compile.node i limit c = .ok p) : p.run.Yields m ((m.world i.schema).node c) := by
  obtain ⟨n, a, id, t, projection, hargs, hid, ht, hnode, hproject, rfl⟩ := Compile.node_eq_ok h
  have hsch : (m.world i.schema).schema = i.schema := rfl
  have hfound := yields_byId hw ht hnode id
  rw [World.node, hargs]
  simp only [hsch, ht, hid, Except.toOption, Option.bind_some]
  rw [CallPlan.run, Schema.label_eq ht]
  cases hr : (m.world i.schema).byId? n id with
  | none =>
    rw [hr] at hfound
    exact hfound.bind (Access.yields_pure _ m)
  | some r =>
    rw [hr] at hfound
    have hmem := List.mem_of_find?_eq_some hr
    refine hfound.bind (Access.Yields.bind ?_ (Access.yields_pure _ m))
    refine presents_outputs hw c.selections (Context.project_eq_ok hproject) (.object t r) ?_
    exact .object (Schema.mem_of_type? ht) (hw.shaped ht hnode r hmem) fun _ =>
      hw.hasId ht hnode r hmem

theorem yields_nodes {p : CallPlan} (hw : (m.world i.schema).Sound)
    (h : Compile.nodes i limit c = .ok p) : p.run.Yields m ((m.world i.schema).nodes c) := by
  obtain ⟨n, t, fs, projection, hargs, ht, hnode, hfs, hproject, rfl⟩ := Compile.nodes_eq_ok h
  have hsch : (m.world i.schema).schema = i.schema := rfl
  have hmem := Schema.mem_of_type? ht
  have hkeyed := hw.keyed ht hnode
  have hfound : inOrder (((m.world i.schema).records n).filter ((m.world i.schema).meets t c)) =
      inOrder ((m.recordsOf n).filter fun r => fs.all fun f => (r.held f.1).equal f.2) := by
    simp only [Compile.filters_all hsch hmem hfs, Memory.world]
  rw [World.nodes, hargs]
  simp only [hsch, ht]
  rw [CallPlan.run, Schema.label_eq ht]
  generalize hf : inOrder (((m.world i.schema).records n).filter
    ((m.world i.schema).meets t c)) = found at hfound ⊢
  have hfetch := yields_fetch (c := c) projection hkeyed hfound
  have houtputs := Context.project_eq_ok hproject
  have hk : Keyed found := by
    rw [hfound]
    exact (hkeyed.filter _).inOrder
  have hshaped : ∀ r ∈ c.window found, Shaped i.schema t r := fun r hr => by
    have hr := c.window_subset found hr
    rw [hfound, mem_inOrder] at hr
    exact hw.shaped ht hnode r (List.mem_of_mem_filter hr)
  obtain ⟨presented, hfetched, hshown⟩ := yields_fetched found.length houtputs
    (presents_outputs hw c.selections houtputs) hmem (hk.window c) hshaped
  refine hfetch.bind ((Access.yields_ofExcept hfetched m).bind ?_)
  exact hshown.bind (Access.yields_pure _ m)

/-- A call for one record or for records. -/
def Call.Reads (c : Call) : Prop := c.name = Operation.node.name ∨ c.name = Operation.nodes.name

theorem yields_call {credentials : Credentials} {p : CallPlan} (hw : (m.world i.schema).Sound)
    (hc : c.Reads) (h : Compile.call credentials i limit c = .ok p) :
    p.run.Yields m ((m.world i.schema).answer c) := by
  unfold Compile.call at h
  unfold World.answer
  rcases hc with hc | hc
  · rw [Operation.ofName?_eq_some_iff.mpr hc] at h
    obtain ⟨_, _, h⟩ := bind_eq_ok.mp h
    rw [if_pos hc]
    exact yields_node hw h
  · rw [Operation.ofName?_eq_some_iff.mpr hc] at h
    obtain ⟨_, _, h⟩ := bind_eq_ok.mp h
    rw [if_neg (by rw [hc]; decide)]
    exact yields_nodes hw h

end Contexts

/-- Running the plan for a query that only reads gives the answer to each of its calls. -/
theorem Query.run_compiled_eq_answers {credentials : Credentials} {i : Snapshot} {limit : Int}
    {q : Query} {p : Plan} {m : Memory} (hw : (m.world i.schema).Sound)
    (hq : ∀ c ∈ q, c.Reads) (hp : q.compile credentials i limit = .ok p) :
    p.run.result m = (.ok (q.map (m.world i.schema).answer), m) := by
  have hall := mapM_eq_ok.mp hp
  clear hp
  show Access.Yields (p.mapM CallPlan.run) m _
  induction hall with
  | nil => exact Access.yields_pure _ m
  | @cons c p q ps hc _ ih =>
    rw [List.mapM_cons, List.map_cons]
    have hrest := ih fun d hd => hq d (List.mem_cons_of_mem c hd)
    exact (yields_call hw (hq c List.mem_cons_self) hc).bind
      (hrest.bind (Access.yields_pure _ m))

namespace Library

def userType : ObjectType where
  name := .text "User"
  members := .ofFields [idField]
  interfaces := .list [.text nodeInterface]

def addressType : ObjectType where
  name := .text "Address"
  members := .ofFields [{ name := .text "street", type := .text "string" }]

def authorType : ObjectType where
  name := .text "Author"
  members := .ofFields [
    idField,
    { name := .text "home", type := .text "Address" },
    { name := .text "books", type := .text connectionMarker, ofType := .text "Book",
      reverseName := .text "author" }]
  interfaces := .list [.text nodeInterface]

def bookType : ObjectType where
  name := .text "Book"
  members := .ofFields [
    idField,
    { name := .text "title", type := .text "string" },
    { name := .text "author", type := .text "Author", reverseName := .text "books" }]
  interfaces := .list [.text nodeInterface]

def schema : Schema := ⟨[userType, addressType, authorType, bookType]⟩

def snapshot : Snapshot where
  schema := schema
  rules := .standard
  kinds := schema.kinds.toOption.getD []
  valid := by rfl
  kinds_eq := by rfl

def memory : Memory where
  schema := schema
  records := [
    ("Author", [.object [("id", .text "a"), ("home", .object [("street", .text "Elm")])]]),
    ("Book", [
      .object [("id", .text "c"), ("author", .text "a")],
      .object [("id", .text "b"), ("title", .text "B"), ("author", .text "a")]])]

def call (name : String) (arguments : List (Option String × Atom)) (selections : List Call) :
    Call :=
  .mk name (arguments.map fun a => ⟨a.2, a.1, .start⟩) selections .start

/-- One author by id, with the first of the books, and how many books have a title. -/
def query : Query := [
  call "node" [(none, .name "Author"), (none, .string "a")] [
    call "home" [] [call "street" [] []],
    call "books" [(some "first", .number (.whole 1))] [
      call "count" [] [],
      call "nodes" [] [call "title" [] [], call "author" [] [call "__typename" [] []]],
      call "edges" [] [call "cursor" [] []]]],
  call "nodes" [(none, .name "Book"), (some "title", .string "B")] [call "count" [] []]]

def answers : List Result := [
  .object [
    ("home", .object [("street", .value (.text "Elm"))]),
    ("books", .object [
      ("count", .value (.int 2)),
      ("nodes", .list [.object [
        ("title", .value (.text "B")),
        ("author", .object [("__typename", .value (.text "Author"))])]]),
      ("edges", .list [.object [("cursor", .value (.text "b"))]])])],
  .object [("count", .value (.int 1))]]

theorem mem_of_type? {n : String} {t : ObjectType} (h : schema.type? n = some t) :
    (n, t) ∈ [("User", userType), ("Address", addressType), ("Author", authorType),
      ("Book", bookType)] := by
  have ht := Schema.mem_of_type? h
  have hn := Schema.type?_name h
  simp only [schema, List.mem_cons, List.not_mem_nil, or_false] at ht
  rcases ht with rfl | rfl | rfl | rfl <;> cases hn <;> simp

theorem shaped_address (entries : List (String × Value)) :
    Shaped schema addressType (.object entries) := by
  refine .object fun name f k hf hk => ?_
  have hmem : f ∈ addressType.declared := ObjectType.mem_of_field? hf
  simp only [addressType, ObjectType.declared, Members.fields?_ofFields, Option.getD_some,
    List.mem_singleton] at hmem
  subst hmem
  cases hk
  exact .scalar

theorem shaped_author (street : Value) : Shaped schema authorType
    (.object [("id", .text "a"), ("home", .object [("street", street)])]) := by
  refine .object fun name f k hf hk => ?_
  have hmem : f ∈ authorType.declared := ObjectType.mem_of_field? hf
  have hname := ObjectType.field?_name hf
  simp only [authorType, ObjectType.declared, Members.fields?_ofFields, Option.getD_some,
    List.mem_cons, List.not_mem_nil, or_false] at hmem
  rcases hmem with rfl | rfl | rfl <;> cases hk <;> cases hname
  · exact .scalar
  · exact .embedded rfl (shaped_address _)
  · exact .connection

theorem shaped_book {entries : List (String × Value)}
    (h : (Value.object entries).held "author" = .text "a") :
    Shaped schema bookType (.object entries) := by
  refine .object fun name f k hf hk => ?_
  have hmem : f ∈ bookType.declared := ObjectType.mem_of_field? hf
  have hname := ObjectType.field?_name hf
  simp only [bookType, ObjectType.declared, Members.fields?_ofFields, Option.getD_some,
    List.mem_cons, List.not_mem_nil, or_false] at hmem
  rcases hmem with rfl | rfl | rfl <;> cases hk <;> cases hname
  · exact .scalar
  · exact .scalar
  · rw [h]
    exact .related

theorem sound : (memory.world schema).Sound := by
  constructor
  · intro n t ht hnode r hr
    have hmem := mem_of_type? ht
    simp only [List.mem_cons, Prod.mk.injEq, List.not_mem_nil, or_false] at hmem
    rcases hmem with ⟨rfl, rfl⟩ | ⟨rfl, rfl⟩ | ⟨rfl, rfl⟩ | ⟨rfl, rfl⟩
    · cases hr
    · cases hnode
    · obtain rfl := List.mem_singleton.mp (show r ∈ [_] from hr)
      exact shaped_author _
    · rcases List.mem_pair.mp (show r ∈ [_, _] from hr) with rfl | rfl
      · exact shaped_book rfl
      · exact shaped_book rfl
  · intro n t ht hnode r hr
    have hmem := mem_of_type? ht
    simp only [List.mem_cons, Prod.mk.injEq, List.not_mem_nil, or_false] at hmem
    rcases hmem with ⟨rfl, rfl⟩ | ⟨rfl, rfl⟩ | ⟨rfl, rfl⟩ | ⟨rfl, rfl⟩
    · cases hr
    · cases hnode
    · obtain rfl := List.mem_singleton.mp (show r ∈ [_] from hr)
      exact ⟨"a", rfl⟩
    · rcases List.mem_pair.mp (show r ∈ [_, _] from hr) with rfl | rfl
      · exact ⟨"c", rfl⟩
      · exact ⟨"b", rfl⟩
  · intro n t ht hnode
    have hmem := mem_of_type? ht
    simp only [List.mem_cons, Prod.mk.injEq, List.not_mem_nil, or_false] at hmem
    rcases hmem with ⟨rfl, rfl⟩ | ⟨rfl, rfl⟩ | ⟨rfl, rfl⟩ | ⟨rfl, rfl⟩
    · exact .nil
    · cases hnode
    · exact List.nodup_singleton _
    · show ["c", "b"].Nodup
      decide

theorem reads : ∀ c ∈ query, c.Reads := by
  intro c hc
  rcases List.mem_pair.mp (show c ∈ [_, _] from hc) with rfl | rfl
  · exact .inl rfl
  · exact .inr rfl

/-- The books are shown in the order of their ids. -/
theorem inOrder_books : inOrder (memory.recordsOf "Book") = (memory.recordsOf "Book").reverse := by
  have hkeyed : Keyed (memory.recordsOf "Book") :=
    sound.keyed (n := "Book") (t := bookType) rfl rfl
  refine (hkeyed.eq_inOrder (List.reverse_perm _) ?_).symm
  refine List.pairwise_pair.mpr ?_
  decide

theorem answers_eq : query.map (memory.world schema).answer = answers := by
  have hquery : query.map (memory.world schema).answer = [
      .object [
        ("home", .object [("street", .value (.text "Elm"))]),
        ("books", .object ((memory.world schema).showsAll
          (.connection bookType (inOrder (memory.recordsOf "Book")).length
            ((query.flatMap Call.selections)[1].window (inOrder (memory.recordsOf "Book"))))
          (query.flatMap Call.selections)[1].selections))],
      .object [("count", .value (.int (inOrder [(memory.recordsOf "Book")[1]]).length))]] := rfl
  rw [hquery, inOrder_books, inOrder, List.mergeSort_singleton]
  rfl

end Library

set_option maxRecDepth 4000 in
theorem library_answers :
    (Library.memory.world Library.schema).Sound ∧ (∀ c ∈ Library.query, c.Reads) ∧
      ∃ p, Library.query.compile {} Library.snapshot defaultLimit = .ok p ∧
        p.run.result Library.memory = (.ok Library.answers, Library.memory) := by
  have hcompiled : ∃ p, Library.query.compile {} Library.snapshot defaultLimit = .ok p := ⟨_, rfl⟩
  obtain ⟨p, hp⟩ := hcompiled
  refine ⟨Library.sound, Library.reads, p, hp, ?_⟩
  rw [← Library.answers_eq]
  exact Query.run_compiled_eq_answers Library.sound Library.reads hp

end ObjectQuery
