import ObjectQuery.Proofs.Plan.Failures
import ObjectQuery.Proofs.Query.BothEnds

/-!
# Records by what a field holds

Every field of one scalar can be filtered by and selected: the records in which it holds what the
scalar makes of an argument are listed in order of their ids, each with what it holds. Only a field
that is called like an argument for a page, or like the name of the type, is not to be had so.
-/

set_option autoImplicit false

namespace ObjectQuery

open Outcome Access

/-- A question is what the records are of a type in which a field holds a value, and what they hold
in it. The queries that ask it may stand anywhere. -/
def Query.AsksWhere (q : Query) (typeName fieldName : String) (a : Atom) : Prop :=
  ∃ c, q = [c] ∧ c.name = "nodes" ∧
    (c.arguments.map fun b => (b.name, b.value)) =
      [(none, .name typeName), (some fieldName, a)] ∧
    Call.sameAll c.selections [.plain nodesName [.plain fieldName []]] = true

def Query.ofFilter (typeName fieldName : String) (a : Atom) : Query :=
  [.mk "nodes" [⟨.name typeName, none, .start⟩, ⟨a, some fieldName, .start⟩]
    [.plain nodesName [.plain fieldName []]] .start]

theorem Query.ofFilter_asksWhere (typeName fieldName : String) (a : Atom) :
    (ofFilter typeName fieldName a).AsksWhere typeName fieldName a :=
  ⟨_, rfl, rfl, rfl, Call.sameAll_refl _⟩

section Plans

variable {i : Snapshot} {limit : Int} {t : ObjectType} {f : Field} {c : Call} {q : Query}
  {n name : String} {a : Atom} {s : Scalar} {v : Value}

/-- With a type that is in order, all depends on what the one argument by name chooses and on the
selections. -/
theorem Compile.nodes_of_named (limit : Int)
    (harguments : c.arguments.map (fun b => (b.name, b.value)) =
      [(none, .name n), (some name, a)])
    (ht : i.schema.type? n = some t) (hnode : t.isNode = true)
    (hallowed : name ∈ Page.argumentNames ++ (filterable i t).map (·.1)) :
    ∃ y : Argument, y.value = a ∧ nodes i limit c = do
      let page ← Page.ofArguments c [(name, y)]
      let filters ← filters (filterable i t) [(name, y)]
      return .fetchNodes t.label filters page
        (← (Context.connection c.name (.data i) t).project limit c) := by
  obtain ⟨x, rest, hx, hxa, hrest⟩ := List.map_eq_cons_iff.mp harguments
  obtain ⟨y, nothing, rfl, hya, hnothing⟩ := List.map_eq_cons_iff.mp hrest
  obtain rfl := List.map_eq_nil_iff.mp hnothing
  obtain ⟨hxn, hxv⟩ := Prod.mk.inj hxa
  obtain ⟨hyn, rfl⟩ := Prod.mk.inj hya
  have hone : c.onePositional = .ok x := by
    have hpositional : c.positional = [x] := by
      simp [Call.positional, hx, Argument.isPositional, hxn, hyn]
    rw [Call.onePositional, hpositional]
  have hnamed : c.namedArguments = [(name, y)] := by simp [Call.namedArguments, hx, hxn, hyn]
  have hallowed : c.allowing (Page.argumentNames ++ (filterable i t).map (·.1)) =
      .ok [(name, y)] := by
    refine Call.allowing_eq_ok.mpr ⟨hnamed.symm, fun b hb => ?_⟩
    rw [hnamed, List.mem_singleton] at hb
    exact hb ▸ hallowed
  have htype : typeArgument c x = .ok n := Call.nameIn_eq_ok.mpr hxv
  refine ⟨y, rfl, ?_⟩
  rw [nodes, hone]
  simp only [ok_bind, hallowed, htype, nodeType_eq_ok.mpr ⟨ht, hnode⟩]

/-- An argument by another name than those for pages leaves the page whole. -/
theorem Page.ofArguments_other {y : Argument} (hpage : name ∉ argumentNames) :
    ofArguments c [(name, y)] = .ok ⟨none, none⟩ := by
  have hnone (other : String) (ho : other ∈ argumentNames) :
      [(name, y)].lookup other = none := by
    have hne : (other == name) = false := beq_false_of_ne (ne_of_mem_of_not_mem ho hpage)
    rw [List.lookup_cons, hne]
    rfl
  have hfirst := hnone firstName List.mem_cons_self
  have hafter := hnone afterName (List.mem_cons_of_mem _ List.mem_cons_self)
  rw [ofArguments, hfirst, hafter]
  rfl

theorem Compile.filters_of_asks {y : Argument} (ht : t ∈ i.schema.types)
    (h : Asks i t (name, y) s) : filters (filterable i t) [(name, y)] = do
      return [(name, ← (s.coerce y.value.value).mapError CompileError.coercion)] := by
  rw [filters, List.mapM_cons, filter?_of_asks ht h]
  cases s.coerce y.value.value <;> rfl

/-- With a type and a filter that are in order, all depends on the selections. -/
theorem Compile.nodes_eq
    (harguments : c.arguments.map (fun b => (b.name, b.value)) =
      [(none, .name n), (some name, a)])
    (ht : i.schema.type? n = some t) (hnode : t.isNode = true) (hf : t.field? name = some f)
    (hk : i.schema.kindOf f = .ok (.scalar s)) (hpage : name ∉ Page.argumentNames)
    (hv : s.coerce a.value = .ok v) :
    nodes i limit c = do
      return .fetchNodes t.label [(name, v)] ⟨none, none⟩
        (← (Context.connection c.name (.data i) t).project limit c) := by
  have hmem := Schema.mem_of_type? ht
  have hasks (y : Argument) : Asks i t (name, y) s := ⟨hpage, f, hf, hk⟩
  obtain ⟨y, rfl, hnodes⟩ := nodes_of_named limit harguments ht hnode
    ((mem_allowed (a := (name, ⟨a, none, .start⟩)) hmem).mpr (.inr ⟨s, hasks _⟩))
  rw [hnodes, Page.ofArguments_other hpage, filters_of_asks hmem (hasks y), hv]
  rfl

/-- What a block with the records and the field of each is compiled to. -/
def filteredOutput (t : ObjectType) (name : String) : Output :=
  .nested nodesName (.embedded nodesName true) t.label [.leaf name (.field name)]

theorem Query.AsksWhere.compile_eq {credentials : Credentials} (hq : q.AsksWhere n name a)
    (ht : i.schema.type? n = some t) (hnode : t.isNode = true) (hf : t.field? name = some f)
    (hk : i.schema.kindOf f = .ok (.scalar s)) (hpage : name ∉ Page.argumentNames)
    (hname : name ≠ typenameName) (hv : s.coerce a.value = .ok v) (hlimit : 2 ≤ limit) :
    q.compile credentials i limit = .ok [.fetchNodes n [(name, v)] ⟨none, none⟩
      ⟨n ++ connectionMarker, [filteredOutput t name]⟩] := by
  obtain ⟨c, rfl, hcname, harguments, hselections⟩ := hq
  have hos : (Context.connection c.name (.data i) t).outputs limit [] 1 c.selections =
      .ok [filteredOutput t name] :=
    Context.outputs_of_cons (fun d hd => output_nodes_of (Call.block_singleton _) (by omega)
      (fun _ => outputs_scalar hname hf hk) hd) (fun _ => Context.outputs_of_nil) hselections
  have hblock : c.checkBlock limit [] 1 = .ok () :=
    Call.checkBlock_of_sameAll hselections (Call.block_singleton _) (by omega)
  have htypeName : (Context.connection c.name (.data i) t).typeName = n ++ connectionMarker :=
    congrArg (· ++ connectionMarker) (Schema.label_eq ht)
  have hcall : Compile.call credentials i limit c = .ok (.fetchNodes n [(name, v)] ⟨none, none⟩
      ⟨n ++ connectionMarker, [filteredOutput t name]⟩) := by
    rw [Compile.call, hcname]
    show Compile.nodes i limit c = _
    rw [Compile.nodes_eq harguments ht hnode hf hk hpage hv, Context.project, hblock, hos,
      htypeName, Schema.label_eq ht]
    rfl
  rw [compile, List.mapM_cons, hcall]
  rfl

end Plans

/-- The records of a type in which a field holds a value, in order of their ids. -/
def Memory.matching (m : Memory) (typeName fieldName : String) (v : Value) : List Value :=
  inOrder ((m.recordsOf typeName).filter fun r => (r.held fieldName).equal v)

/-- What is presented of a record if a field is all that is asked for. -/
def fieldShown (name : String) (r : Value) : Result := .object [(name, .value (r.held name))]

/-- Every query that asks for the records in which a field holds what an argument stands for has a
plan, which lists these records with what they hold and leaves the store as it is. -/
def Reaches (credentials : Credentials) (i : Snapshot) (limit : Int) (m : Memory)
    (typeName fieldName : String) (a : Atom) (v : Value) : Prop :=
  ∀ q : Query, q.AsksWhere typeName fieldName a →
    ∃ p, q.compile credentials i limit = .ok p ∧ p.run.result m =
      (.ok [.object [(nodesName,
        .list ((m.matching typeName fieldName v).map (fieldShown fieldName)))]], m)

section Answers

variable {credentials : Credentials} {i : Snapshot} {limit : Int} {m : Memory} {t : ObjectType}
  {f : Field} {n name : String} {a : Atom} {s : Scalar} {v : Value}

/-- Listing records with anything of theirs gives the window that a call chooses. -/
theorem yields_listing {filters : Filters} {found : List Value} {os : List Output}
    {present : Value → List (String × Result)} (h : Keyed (m.recordsOf n)) (c : Call)
    (hfound : found = inOrder ((m.recordsOf n).filter fun r =>
      filters.all fun f => (r.held f.1).equal f.2))
    (hshown : ∀ r, HasId r → (Output.evaluateAll r os : Access Memory _).Yields m (present r))
    (typeName label : String) :
    (CallPlan.run (.fetchNodes n filters (.of c)
        ⟨typeName, [.nested nodesName (.embedded nodesName true) label os]⟩) :
      Access Memory Result).Yields m
        (.object [(nodesName, .list ((c.window found).map fun r => .object (present r)))]) := by
  have hk : Keyed (c.window found) := by
    rw [hfound]
    exact (h.filter _).inOrder.window c
  have hfetch := yields_fetch (c := c)
    ⟨typeName, [.nested nodesName (.embedded nodesName true) label os]⟩ h hfound
  have hlisted (count : Nat) (cursors : List Value) : (Output.evaluateAll
      (connectionRecord (c.window found) count cursors)
      [.nested nodesName (.embedded nodesName true) label os] : Access Memory _).Yields m
        [(nodesName, .list ((c.window found).map fun r => .object (present r)))] :=
    Output.yields_cons (yields_nodes_of (fun r hr => (hk.hasId r hr).ne_null)
      (fun r hr => hshown r (hk.hasId r hr)) count cursors _) Output.yields_nil
  refine hfetch.bind ((Access.yields_ofExcept (fetchedRecord_eq hk _) m).bind ?_)
  exact (hlisted _ _).bind (Access.yields_pure _ m)

theorem yields_field (name : String) {r : Value} (hr : HasId r) :
    (Output.evaluateAll r [.leaf name (.field name)] : Access Memory _).Yields m
      [(name, .value (r.held name))] :=
  Output.yields_cons (Output.yields_leaf (hr.entry_eq name)) Output.yields_nil

/-- Every field of one scalar is reached, but for one that is called like an argument for a page or
like the name of the type. -/
theorem Snapshot.reaches_scalar (credentials : Credentials) (ht : i.schema.type? n = some t)
    (hnode : t.isNode = true) (hf : t.field? name = some f)
    (hk : i.schema.kindOf f = .ok (.scalar s)) (hpage : name ∉ Page.argumentNames)
    (hname : name ≠ typenameName) (hrecords : Keyed (m.recordsOf n))
    (hv : s.coerce a.value = .ok v) (hlimit : 2 ≤ limit) :
    Reaches credentials i limit m n name a v := by
  intro q hq
  have hmatching : m.matching n name v = inOrder ((m.recordsOf n).filter fun r =>
      [(name, v)].all fun f => (r.held f.1).equal f.2) := by
    simp only [Memory.matching, List.all_cons, List.all_nil, Bool.and_true]
  refine ⟨_, hq.compile_eq ht hnode hf hk hpage hname hv hlimit, Plan.yields_singleton ?_⟩
  -- Without a bound on either side the page is all of the records.
  exact yields_listing hrecords (.plain nodesName []) hmatching (fun _ => yields_field name) _ _

/-- What is reached is what the query by itself comes to. -/
theorem Reaches.shown_eq {p : Plan} {shown : List Result} {m' : Memory}
    (h : Reaches credentials i limit m n name a v)
    (hp : (Query.ofFilter n name a).compile credentials i limit = .ok p)
    (hrun : p.run.result m = (.ok shown, m')) :
    shown = [.object [(nodesName, .list ((m.matching n name v).map (fieldShown name)))]] := by
  obtain ⟨p', hp', hrun'⟩ := h _ (Query.ofFilter_asksWhere n name a)
  cases hp.symm.trans hp'
  exact Except.ok.inj (congrArg Prod.fst (hrun.symm.trans hrun'))

end Answers

namespace Tickets

/-- Tickets with seats, and with fields that are called like arguments for a page and like the name
of the type. -/
def ticketType : ObjectType where
  name := .text "Ticket"
  members := .ofFields [
    idField,
    { name := .text "seats", type := .text "int" },
    { name := .text firstName, type := .text "int" },
    { name := .text afterName, type := .text "string" },
    { name := .text typenameName, type := .text "int" }]
  interfaces := .list [.text nodeInterface]

def schema : Schema := ⟨[Library.userType, ticketType]⟩

def snapshot : Snapshot where
  schema := schema
  rules := .standard
  kinds := schema.kinds.toOption.getD []
  valid := by rfl
  kinds_eq := by rfl

def ticket (id : String) (seats first : Int) (after : String) (typename : Int) : Value :=
  .object [("id", .text id), ("seats", .int seats), (firstName, .int first),
    (afterName, .text after), (typenameName, .int typename)]

def a : Value := ticket "a" 2 2 "b" 7

def b : Value := ticket "b" 2 1 "a" 8

def c : Value := ticket "c" 5 3 "c" 9

def memory : Memory where
  schema := schema
  records := [("Ticket", [b, c, a])]

theorem keyed : Keyed (memory.recordsOf "Ticket") := by
  refine ⟨fun r hr => ?_, by decide⟩
  replace hr : r ∈ [b, c, a] := hr
  simp only [List.mem_cons, List.not_mem_nil, or_false] at hr
  rcases hr with rfl | rfl | rfl
  · exact ⟨"b", rfl⟩
  · exact ⟨"c", rfl⟩
  · exact ⟨"a", rfl⟩

/-- A call with an argument by name. -/
def asking (name : String) (value : Atom) : Call :=
  .mk "nodes" [⟨value, some name, .start⟩] [] .start

theorem inOrder_all : inOrder (memory.recordsOf "Ticket") = [a, b, c] := by
  refine (keyed.eq_inOrder (List.perm_append_comm : ([a] ++ [b, c]).Perm ([b, c] ++ [a])) ?_).symm
  show List.Pairwise (fun x y => x.idText ≤ y.idText) [a, b, c]
  decide

theorem matching_seats : memory.matching "Ticket" "seats" (.int 2) = [a, b] := by
  have hfiltered : ((memory.recordsOf "Ticket").filter fun r =>
      (r.held "seats").equal (.int 2)) = [b, a] := rfl
  have hkeyed : Keyed [b, a] := hfiltered ▸ keyed.filter _
  rw [Memory.matching, hfiltered]
  refine (hkeyed.eq_inOrder (.swap b a []) (List.pairwise_pair.mpr ?_)).symm
  decide

end Tickets

theorem tickets_by_seats : 2 ≤ defaultLimit ∧ Keyed (Tickets.memory.recordsOf "Ticket") ∧
    ∃ p, (Query.ofFilter "Ticket" "seats" (.number (.whole 2))).compile {} Tickets.snapshot
        defaultLimit = .ok p ∧
      p.run.result Tickets.memory = (.ok [.object [(nodesName, .list [
        .object [("seats", .value (.int 2))], .object [("seats", .value (.int 2))]])]],
          Tickets.memory) := by
  have hlimit : 2 ≤ defaultLimit := by decide
  have hreaches : Reaches {} Tickets.snapshot defaultLimit Tickets.memory "Ticket" "seats"
      (.number (.whole 2)) (.int 2) :=
    Snapshot.reaches_scalar {} rfl rfl rfl rfl (by decide) (by decide) Tickets.keyed rfl hlimit
  obtain ⟨p, hp, hrun⟩ := hreaches _ (Query.ofFilter_asksWhere _ _ _)
  rw [Tickets.matching_seats] at hrun
  exact ⟨hlimit, Tickets.keyed, p, hp, hrun⟩

/-- The fields that are captured, each with an argument and the value that it stands for. -/
def Tickets.captured : List (String × Atom × Value) := [
  (firstName, .number (.whole 1), .int 1),
  (afterName, .string "c", .text "c"),
  (typenameName, .number (.whole 7), .int 7)]

/-- Two of the arguments choose a page, and what is selected under the third name is that of the
type. -/
theorem tickets_not_reached :
    Tickets.schema.type? "Ticket" = some Tickets.ticketType ∧ Tickets.ticketType.isNode = true ∧
      Keyed (Tickets.memory.recordsOf "Ticket") ∧
      ∀ e ∈ Tickets.captured,
        (∃ f s, Tickets.ticketType.field? e.1 = some f ∧
          Tickets.schema.kindOf f = .ok (.scalar s) ∧ s.coerce e.2.1.value = .ok e.2.2) ∧
        ¬Reaches {} Tickets.snapshot defaultLimit Tickets.memory "Ticket" e.1 e.2.1 e.2.2 := by
  have hall : [Tickets.a, Tickets.b, Tickets.c] = inOrder
      ((Tickets.memory.recordsOf "Ticket").filter fun r =>
        ([] : Filters).all fun f => (r.held f.1).equal f.2) :=
    Tickets.inOrder_all.symm
  refine ⟨rfl, rfl, Tickets.keyed, ?_⟩
  simp only [Tickets.captured, List.forall_mem_cons, List.not_mem_nil, false_implies, implies_true,
    and_true]
  refine ⟨⟨⟨_, .int, rfl, rfl, rfl⟩, fun h => ?_⟩, ⟨⟨_, .string, rfl, rfl, rfl⟩, fun h => ?_⟩,
    ⟨_, .int, rfl, rfl, rfl⟩, fun h => ?_⟩
  · have hmatching : Tickets.memory.matching "Ticket" firstName (.int 1) = [Tickets.b] :=
      List.mergeSort_singleton _
    have hrun := yields_listing Tickets.keyed (Tickets.asking firstName (.number (.whole 1))) hall
      (fun _ => yields_field firstName) "TicketConnection" "Ticket"
    have hshown := h.shown_eq rfl (Plan.yields_singleton hrun)
    rw [hmatching] at hshown
    cases hshown
  · have hmatching : Tickets.memory.matching "Ticket" afterName (.text "c") = [Tickets.c] :=
      List.mergeSort_singleton _
    have hrun := yields_listing Tickets.keyed (Tickets.asking afterName (.string "c")) hall
      (fun _ => yields_field afterName) "TicketConnection" "Ticket"
    have hshown := h.shown_eq rfl (Plan.yields_singleton hrun)
    rw [hmatching] at hshown
    cases hshown
  · have hmatching : Tickets.memory.matching "Ticket" typenameName (.int 7) = [Tickets.a] :=
      List.mergeSort_singleton _
    have hfound : [Tickets.a] = inOrder ((Tickets.memory.recordsOf "Ticket").filter fun r =>
        [(typenameName, Value.int 7)].all fun f => (r.held f.1).equal f.2) :=
      (List.mergeSort_singleton _).symm
    have hshow (r : Value) : (Output.evaluateAll r [.leaf typenameName (.typeName "Ticket")] :
        Access Memory _).Yields Tickets.memory [(typenameName, .value (.text "Ticket"))] :=
      Output.yields_cons (Access.yields_pure _ _) Output.yields_nil
    have hrun := yields_listing Tickets.keyed (.plain nodesName []) hfound (fun r _ => hshow r)
      "TicketConnection" "Ticket"
    have hshown := h.shown_eq rfl (Plan.yields_singleton hrun)
    rw [hmatching] at hshown
    cases hshown

end ObjectQuery
