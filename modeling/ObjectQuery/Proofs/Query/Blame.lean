import ObjectQuery.Proofs.Plan.Planning
import ObjectQuery.Proofs.Query.Stages

/-!
# What queries on a database fail on

A plan that is run on a database gives results or fails with the database, unless the last request
that it made is one that cannot be answered: for records by a column that is gone, or for more
records than a number of 64 bits can say. What selections are presented from never fails, since it
is of the shape that the schema says; the induction is on calls and lists of calls.
-/

set_option autoImplicit false

namespace ObjectQuery

open Outcome Access

/-- A value that selections in a context can be presented from. -/
inductive Context.Reads (i : Snapshot) : Context → Value → Prop where
  | object {realm : Realm} {t : ObjectType} {v : Value} (h : Has i realm t v) :
      Reads i (.object realm t) v
  | connection {parent : String} {realm : Realm} {t : ObjectType} {records : List Value}
      (h : ∀ v ∈ records, Has i realm t v) (count : Nat) (cursors : List Value) :
      Reads i (.connection parent realm t) (connectionRecord records count cursors)
  | edges {realm : Realm} {t : ObjectType} {v : Value} (h : Has i realm t v) (cursor : Value) :
      Reads i (.edges realm t) (edgeRecord cursor v)

/-- What a source gives of a value can be presented in a context, or asked for. -/
inductive Source.Gives (i : Snapshot) (q : Query) (v : Value) : Context → Source → Prop where
  | null {inner : Context} {field : String} {isList : Bool} (he : v.entry field = .ok .null) :
      Gives i q v inner (.embedded field isList)
  | object {inner : Context} {field : String} {w : Value} (he : v.entry field = .ok w)
      (hw : inner.Reads i w) : Gives i q v inner (.embedded field false)
  | items {inner : Context} {field : String} {items : List Value}
      (he : v.entry field = .ok (.list items))
      (hw : ∀ item ∈ items, item ≠ .null → inner.Reads i item) :
      Gives i q v inner (.embedded field true)
  | listed {parent field : String} {realm : Realm} {u : ObjectType} {items : List Value}
      (he : v.entry field = .ok (.list items)) (hw : ∀ item ∈ items, Has i realm u item) :
      Gives i q v (.connection parent realm u) (.listed field)
  | unrelated {inner : Context} {field target : String} (he : v.entry field = .ok .null) :
      Gives i q v inner (.related field target)
  | related {field target id : String} {u : ObjectType} (he : v.entry field = .ok (.text id))
      (hu : i.schema.type? target = some u) :
      Gives i q v (.object (.data i) u) (.related field target)
  | connection {parent target reverse : String} {u : ObjectType} {owner : Value} {c : Call}
      (ho : v.required idName = .ok owner) (hu : i.schema.type? target = some u) (hn : u.isNode)
      (ha : i.Asks u [(reverse, owner)]) (hc : c.Overlong → ∃ d ∈ q, d.Overlong) :
      Gives i q v (.connection parent (.data i) u) (.connection target reverse (.of c))

section Selecting

variable {i : Snapshot} {q : Query} {context inner : Context} {source : Source} {t : ObjectType}
  {c : Call} {v : Value}

theorem Context.Reads.exists_entries (h : context.Reads i v) : ∃ entries, v = .object entries := by
  cases h with
  | object h =>
    cases h with
    | data _ hv => exact hv.exists_entries
    | metadata h => exact h.exists_entries
  | connection => exact ⟨_, rfl⟩
  | edges => exact ⟨_, rfl⟩

theorem Snapshot.gives_of_select (hi : i.rules.registry = .standard)
    (hc : c.Overlong → ∃ d ∈ q, d.Overlong) (ht : t ∈ i.schema.types) (hv : Shaped i.schema t v)
    (hid : t.isNode → ∃ id, v.required idName = .ok id ∧ id.Comparable)
    (hs : i.select t c = .ok (.nested inner source)) : source.Gives i q v inner := by
  have hentry := hv.entry_eq c.name
  cases Snapshot.selects_of_select hs with
  | embedded _ hf hk hu =>
    have hfits := hv.fits hf hk
    generalize v.held c.name = w at hentry hfits
    cases hfits with
    | null => exact .null hentry
    | embedded hw hv =>
      cases hu.symm.trans hw
      have hnode := Schema.isNode_of_reference hk hu
      exact .object hentry (.object (.data (Schema.mem_of_type? hu) hv (by simp [hnode])))
  | objectList _ hf hk hu =>
    have hfits := hv.fits hf hk
    generalize v.held c.name = w at hentry hfits
    cases hfits with
    | null => exact .null hentry
    | objectList hw hitems =>
      cases hu.symm.trans hw
      obtain ⟨_, hw, hnode⟩ := i.valid.embedded_of_objectList ht (ObjectType.mem_of_field? hf) hk
      cases hu.symm.trans hw
      refine .items hentry fun item hitem hne => .object ?_
      exact .data (Schema.mem_of_type? hu) (hitems item hitem hne) (by simp [hnode])
  | related _ hf hk hu =>
    have hfits := hv.fits hf hk
    generalize v.held c.name = w at hentry hfits
    rw [Schema.label_eq hu]
    cases hfits with
    | null => exact .unrelated hentry
    | related => exact .related hentry hu
  | connection _ hf hk hu =>
    have hmem := ObjectType.mem_of_field? hf
    obtain ⟨hnode, u, _, hfar, _⟩ := i.valid.exists_farEnd ht hmem hk
    cases hu.symm.trans hfar.type
    obtain ⟨owner, ho, howner⟩ := hid hnode
    rw [Schema.label_eq hu]
    exact .connection ho hu hfar.isNode (Snapshot.asks_reverse hi ht hmem hk hu howner) hc

theorem Metadata.gives_of_select (hv : Metadata.Describes t v)
    (hs : Metadata.select t c = .ok (.nested inner source)) : source.Gives i q v inner := by
  have hentry := hv.entry_eq c.name
  cases Metadata.selects_of_select hs with
  | @listed f u hf hc hu =>
    have hleads := hv.leads hf (by rw [leadsTo?, if_pos hc]) hu
    generalize v.held c.name = w at hentry hleads
    cases hleads with
    | list _ h => exact .listed hentry fun item hitem => .metadata (h item hitem)
    | null hl => simp [hc] at hl
    | object hl => simp [hc] at hl
  | @objectList f u hf hc hl hscalar hu =>
    have hleads := hv.leads hf (by simp [leadsTo?, Scalar.isNamedBy, hc, hl, hscalar]) hu
    generalize v.held c.name = w at hentry hleads
    cases hleads with
    | list _ h => exact .items hentry fun item hitem _ => .object (.metadata (h item hitem))
    | null hl' => simp [hl] at hl'
    | object hl' => simp [hl] at hl'
  | @object f u hf hc hl hscalar hu =>
    have hleads := hv.leads hf (by simp [leadsTo?, Scalar.isNamedBy, hc, hl, hscalar]) hu
    generalize v.held c.name = w at hentry hleads
    cases hleads with
    | list hl' => simp [hc, hl] at hl'
    | null => exact .null hentry
    | object _ h => exact .object hentry (.object (.metadata h))

/-- Whatever is selected, there is something to present or to ask for. -/
theorem Context.Reads.gives (h : context.Reads i v) (hi : i.rules.registry = .standard)
    (hc : c.Overlong → ∃ d ∈ q, d.Overlong) (hs : context.select c = .ok (.nested inner source)) :
    source.Gives i q v inner := by
  cases h with
  | object h =>
    cases h with
    | data ht hv hid => exact Snapshot.gives_of_select hi hc ht hv hid hs
    | metadata h => exact Metadata.gives_of_select h hs
  | @connection _ _ _ records h count cursors =>
    cases Context.ofConnection_of_select hs with
    | nodes => exact .items rfl fun v hv _ => .object (h v hv)
    | edges =>
      refine .items rfl fun edge hedge _ => ?_
      rw [← List.map_uncurry_zip_eq_zipWith] at hedge
      obtain ⟨⟨cursor, v⟩, hmem, rfl⟩ := List.mem_map.mp hedge
      exact .edges (h v (List.of_mem_zip hmem).2) cursor
  | edges h =>
    cases Context.ofEdges_of_select hs with
    | node => exact .object rfl (.object h)

end Selecting

section Presenting

variable {i : Snapshot} {q : Query} {inner : Context} {source : Source} {v : Value}
  {outputs : List Output} {limit : Int}

theorem listRecord_list (items : List Value) : listRecord (.list items) =
    .ok (connectionRecord items items.length (positions items.length)) := by
  cases items <;> rfl

theorem Source.Gives.settles (h : source.Gives i q v inner)
    (hall : ∀ w, inner.Reads i w → (Output.evaluateAll w outputs :
      Access (Recorded Relational) _).Settles i q fun _ => True) (name typeName : String) :
    (Output.evaluate v (.nested name source typeName outputs) :
      Access (Recorded Relational) Result).Settles i q fun _ => True := by
  have hobject {w : Value} (hw : inner.Reads i w) : ((do
      return Result.object (← Output.evaluateAll w outputs)) :
        Access (Recorded Relational) Result).Settles i q fun _ => True :=
    (hall w hw).bind fun _ _ => settles_pure trivial
  have hunlessNull {w : Value} (hw : w ≠ .null → inner.Reads i w) : (Output.unlessNull w fun w => do
      return Result.object (← Output.evaluateAll w outputs) :
        Access (Recorded Relational) Result).Settles i q fun _ => True := by
    unfold Output.unlessNull
    split
    · exact settles_pure trivial
    · rename_i hne
      exact hobject (hw hne)
  cases h with
  | null he => exact settles_ofExcept he (settles_pure trivial)
  | object he hw => exact settles_ofExcept he (hunlessNull fun _ => hw)
  | items he hw =>
    refine settles_ofExcept he (settles_ofExcept rfl ?_)
    refine (settles_mapM fun item hitem => ?_).bind fun _ _ => settles_pure trivial
    exact hunlessNull (hw item hitem)
  | listed he hw =>
    refine settles_ofExcept he (settles_ofExcept (listRecord_list _) ?_)
    exact hobject (.connection hw _ _)
  | unrelated he => exact settles_ofExcept he (settles_pure trivial)
  | related he hu =>
    refine settles_ofExcept he ((settles_fetchById hu _).bind fun found hfound => ?_)
    cases found with
    | none => exact settles_pure trivial
    | some found => exact hobject (.object (hfound found rfl))
  | connection ho hu hn ha hc =>
    refine settles_ofExcept ho ?_
    refine (settles_fetchRelated hu ha hc outputs).bind fun found hfound => ?_
    obtain ⟨cursors, hcursors⟩ := exists_fetchedRecord hn hfound
    exact settles_ofExcept hcursors (hobject (.connection hfound _ _))

mutual

theorem settles_evaluate (hi : i.rules.registry = .standard) (context : Context) (path : Path)
    (depth : Nat) : (c : Call) → (o : Output) → context.output limit path depth c = .ok o →
      (c.Overlong → ∃ d ∈ q, d.Overlong) → ∀ v, context.Reads i v →
        (o.evaluate v : Access (Recorded Relational) Result).Settles i q fun _ => True
  | .mk name arguments selections location, o, h, hc, v, hv => by
    rw [Context.output] at h
    obtain ⟨selected, hselect, h⟩ := bind_eq_ok.mp h
    cases selected with
    | leaf l =>
      cases h
      obtain ⟨entries, rfl⟩ := hv.exists_entries
      cases l with
      | field f => exact settles_pure trivial
      | typeName n => exact settles_pure trivial
    | nested inner source =>
      obtain ⟨_, _, h⟩ := bind_eq_ok.mp h
      obtain ⟨os, hos, h⟩ := bind_eq_ok.mp h
      cases h
      refine (hv.gives hi hc hselect).settles (fun w hw => ?_) name inner.typeName
      exact settles_evaluateAll hi inner (path ++ [name]) (depth + 1) selections os hos
        (fun d hd hlong => hc (.within hd hlong)) w hw

theorem settles_evaluateAll (hi : i.rules.registry = .standard) (context : Context) (path : Path)
    (depth : Nat) : (cs : List Call) → (os : List Output) →
      context.outputs limit path depth cs = .ok os →
      (∀ c ∈ cs, c.Overlong → ∃ d ∈ q, d.Overlong) → ∀ v, context.Reads i v →
        (Output.evaluateAll v os : Access (Recorded Relational) _).Settles i q fun _ => True
  | [], os, h, hc, v, hv => by
    cases h
    exact settles_pure trivial
  | c :: cs, os, h, hc, v, hv => by
    obtain ⟨o, rest, ho, hrest, rfl⟩ := Context.outputs_cons_eq_ok h
    obtain ⟨hfirst, hothers⟩ := List.forall_mem_cons.mp hc
    rw [Output.evaluateAll]
    refine (settles_evaluate hi context path depth c o ho hfirst v hv).bind fun _ _ => ?_
    refine (settles_evaluateAll hi context path depth cs rest hrest hothers v hv).bind
      fun _ _ => ?_
    exact settles_pure trivial

end

theorem settles_present (hi : i.rules.registry = .standard) {context : Context} {c : Call}
    {p : Projection} (hc : c.Overlong → ∃ d ∈ q, d.Overlong) (hp : context.project limit c = .ok p)
    (hv : context.Reads i v) :
    (p.present v : Access (Recorded Relational) Result).Settles i q fun _ => True := by
  have hall := settles_evaluateAll hi context [] 1 c.selections p.outputs
    (Context.project_eq_ok hp) (fun d hd hlong => hc (.within hd hlong)) v hv
  exact hall.bind fun _ _ => settles_pure trivial

end Presenting

theorem Compile.Planned.settles {i : Snapshot} {q : Query} {limit : Int} {c : Call} {p : CallPlan}
    (h : Compile.Planned i limit c p) (hi : i.rules.registry = .standard)
    (hc : c.Overlong → ∃ d ∈ q, d.Overlong) :
    (p.run : Access (Recorded Relational) Result).Settles i q fun _ => True := by
  cases h with
  | node ht hn hp =>
    rw [Schema.label_eq ht]
    refine (settles_fetchById ht _).bind fun found hfound => ?_
    cases found with
    | none => exact settles_pure trivial
    | some found => exact settles_present hi hc hp (.object (hfound found rfl))
  | nodes ht hn hfs hp =>
    have ha := Snapshot.asks_filters hi (Schema.mem_of_type? ht) hfs
    rw [Schema.label_eq ht]
    refine (settles_fetchMany ht ha hc _).bind fun found hfound => ?_
    obtain ⟨cursors, hcursors⟩ := exists_fetchedRecord hn hfound
    exact settles_ofExcept hcursors (settles_present hi hc hp (.connection hfound _ _))
  | introspection hr hp => exact settles_present hi hc hp (.object (.metadata hr))
  | mutation hk hm ht hp =>
    refine (settles_change hk.judgeable).bind fun made _ => ?_
    refine settles_present hi hc hp (.object (.metadata ?_))
    cases made with
    | true => exact Metadata.describes_result ht true (hk.describes hm)
    | false => exact Metadata.describes_result ht false nofun

namespace Query

variable {credentials : Credentials} {i : Snapshot} {limit : Int} {q : Query} {p : Plan}

theorem settles_run (h : q.compile credentials i limit = .ok p)
    (hi : i.rules.registry = .standard) :
    (p.run : Access (Recorded Relational) _).Settles i q fun _ => True := by
  refine settles_mapM fun call hcall => ?_
  obtain ⟨c, hc, hplanned⟩ := exists_of_mem_mapM h hcall
  exact (Compile.planned_of_call hplanned).settles hi fun hlong => ⟨c, hc, hlong⟩

/-- A query that is compiled against the schema of a store in a database, and run where all that is
stored are objects of their types, has results or fails with the database, unless the last request
to the store is one that it cannot answer. It cannot answer a request because the schema was changed
on the way, or a type called like a connection has one, or because the query asks for more records
than a number of 64 bits can say. -/
theorem misused_iff_blamed {rules : Validation.Rules} {s : Schema} {r₀ r : Relational}
    (hs : s.Valid rules) (hr : rules.registry = .standard)
    (hcreate : Relational.create .standard s = .ok r₀) (hreached : r₀.Reached r)
    (hshaped : r.WellShaped) (hschema : r.schema = i.schema) (hi : i.rules.registry = .standard)
    (hq : q.compile credentials i limit = .ok p) :
    (∀ m, (p.run.result r).1 = .error (.misuse m) ↔
        (p.run.result (⟨r, []⟩ : Recorded Relational)).2.Blames m) ∧
      ∀ m, (p.run.result r).1 = .error (.misuse m) → i.Explains q (p.run.result r).2 m := by
  have h₀ := Relational.Consistent.of_create hs hr hcreate
  have hidentified := hreached.identified h₀ (Relational.each_of_create _ hcreate)
  have hstage := Stage.of_wellShaped (hreached.consistent h₀) hidentified hshaped hschema hi
  have hsettled := settles_run hq hi ⟨r, []⟩ hstage nofun
  obtain ⟨more, hrecorded⟩ := p.echoes_run r []
  rw [hrecorded] at hsettled ⊢
  generalize (p.run.result r).1 = outcome at hsettled ⊢
  cases hsettled with
  | result _ _ hb => exact ⟨fun m => iff_of_false nofun (hb m), nofun⟩
  | fault hb => exact ⟨fun m => iff_of_false nofun (hb m), nofun⟩
  | misuse hb hm =>
    refine ⟨fun m => ⟨fun h => ?_, fun h => ?_⟩, fun m h => ?_⟩
    · cases h
      exact hb
    · rw [hb.unique h]
    · cases h
      exact hm

end Query

namespace Users

def userType : ObjectType where
  name := .text userTypeName
  members := .ofFields [idField, { name := .text "name", type := .text "string" }]
  interfaces := .list [.text nodeInterface]

def schema : Schema := ⟨[userType]⟩

def snapshot : Snapshot where
  schema := schema
  rules := .standard
  kinds := schema.kinds.toOption.getD []
  valid := by rfl
  kinds_eq := by rfl

def records : Value := .list [
  .object [(idName, .text "a"), ("name", .text "Ann")],
  .object [(idName, .text "b"), ("name", .text "Bob")]]

/-- How many users are called Ann. -/
def counting : Call :=
  Library.call "nodes" [(none, .name userTypeName), (some "name", .string "Ann")]
    [Library.call "count" [] []]

/-- Takes the names away. -/
def removing : Call :=
  Library.call "removeField" [(none, .name userTypeName), (none, .name "name")]
    [Library.call "success" [] []]

/-- The first users. -/
def listing (count : Nat) : Call :=
  Library.call "nodes" [(none, .name userTypeName), (some "first", .number (.whole count))]
    [Library.call "nodes" [] [Library.call "id" [] []]]

/-- All that a user has are scalars. -/
theorem wellShaped {r : Relational} (h : r.schema = schema) : r.WellShaped := by
  intro n t l ht _ row _
  rw [h] at ht ⊢
  obtain rfl := List.mem_singleton.mp (Schema.mem_of_type? ht)
  refine .object fun name f k hf hk => ?_
  have hmem : f ∈ userType.declared := ObjectType.mem_of_field? hf
  simp only [userType, ObjectType.declared, Members.fields?_ofFields, Option.getD_some] at hmem
  rcases List.mem_pair.mp hmem with rfl | rfl <;> cases hk <;> exact .scalar

end Users

theorem users_counted : ∃ r₀ r p, Relational.create .standard Users.schema = .ok r₀ ∧
    r₀.Reached r ∧ Query.compile {} Users.snapshot defaultLimit [Users.counting] = .ok p ∧
    (p.run.result r).1 = .ok [.object [("count", .value (.int 1))]] ∧
    ∀ m, ¬(p.run.result (⟨r, []⟩ : Recorded Relational)).2.Blames m := by
  obtain ⟨r₀, hcreate⟩ : ∃ r₀, Relational.create .standard Users.schema = .ok r₀ := ⟨_, rfl⟩
  obtain ⟨p, hplan⟩ : ∃ p, Query.compile {} Users.snapshot defaultLimit [Users.counting] = .ok p :=
    ⟨_, rfl⟩
  have hvalid : Users.schema.Valid .standard := by rfl
  have hstart : r₀.Reached r₀ := .start
  have hreached := hstart.insert userTypeName Users.records
  have hschema : ((Relational.insertRecords userTypeName Users.records).result r₀).2.schema =
      Users.schema := by
    cases hcreate
    rfl
  have hresult : (p.run.result
      ((Relational.insertRecords userTypeName Users.records).result r₀).2).1 =
        .ok [.object [("count", .value (.int 1))]] := by
    cases hcreate
    cases hplan
    rfl
  refine ⟨r₀, _, p, hcreate, hreached, hplan, hresult, fun m hb => ?_⟩
  have hblame := (Query.misused_iff_blamed hvalid rfl hcreate hreached (Users.wellShaped hschema)
    hschema rfl hplan).1
  cases hresult.symm.trans ((hblame m).mpr hb)

/-- The names are gone when users are looked for by one. -/
example : ∃ r p, Relational.create .standard Users.schema = .ok r ∧
    Query.compile ⟨none, true⟩ Users.snapshot defaultLimit [Users.removing, Users.counting] =
      .ok p ∧ (p.run.result r).1 = .error (.misuse .missingEntry) :=
  ⟨_, _, rfl, rfl, rfl⟩

/-- The number of users that are asked for has more than 64 bits. -/
theorem users_overflow : ∃ r p, Relational.create .standard Users.schema = .ok r ∧
    Query.compile {} Users.snapshot defaultLimit [Users.listing (2 ^ 63)] = .ok p ∧
    (p.run.result r).1 = .error (.misuse .outOfRange) :=
  ⟨_, _, rfl, rfl, rfl⟩

end ObjectQuery
