import ObjectQuery.Proofs.Calendar.Midnight
import ObjectQuery.Proofs.Number.Range
import ObjectQuery.Proofs.Plan.Calls
import ObjectQuery.Proofs.Plan.Refusals
import ObjectQuery.Proofs.Query.Acceptance
import ObjectQuery.Proofs.Query.RoundTrip
import ObjectQuery.Proofs.Schema.Verdict

/-!
# What queries fail with

A query either has a plan, or whoever makes it is told why not, but for two things. Its text may
have an integer with too many digits. And a filter on a field of floating point numbers may ask for
an integer that no such number is close to, or one on a field of moments for the midnight that ends
the last day of the calendar.
-/

set_option autoImplicit false

namespace ObjectQuery

open Outcome

namespace Mutation

variable {i : Snapshot} {c : Call} {change : SchemaChange}

theorem told_existing (i : Snapshot) (c : Call) (n : String) :
    FailsWith CompileError.Told (existing i c n) := by
  unfold existing
  split
  · exact failsWith_ok _
  · exact c.told_refuse _

theorem told_result (h : change.Judgeable) : FailsWith CompileError.Told (result i c change) := by
  obtain ⟨outcome, houtcome⟩ := i.valid.exists_applyValidated h
  unfold result
  rw [houtcome]
  cases outcome with
  | ok s => exact failsWith_ok s
  | error refusal => exact c.told_refuse _

theorem told_readNamed {α : Type} {named : List (String × Argument)} {names : List String}
    {read : String → Argument → Except CompileError α}
    (h : ∀ name a, FailsWith CompileError.Told (read name a)) :
    FailsWith CompileError.Told (readNamed named names read) :=
  failsWith_mapM fun a _ => (h a.1 a.2).bind fun _ _ => failsWith_ok _

theorem told_createType : FailsWith CompileError.Told (createType i c) := by
  unfold createType
  refine c.told_onePositional.bind fun _ _ => (c.told_nameIn _ _).bind fun typeName _ => ?_
  refine (c.told_allowing _).bind fun named _ => ?_
  dsimp only
  split
  · exact (c.told_refuse _).bind nofun
  · refine (told_readNamed fun name a => c.told_textIn a name).bind fun texts _ => ?_
    exact (told_result (SchemaChange.judgeable_created _ _ _)).bind fun _ _ => failsWith_ok _

theorem told_deleteType : FailsWith CompileError.Told (deleteType i c) := by
  unfold deleteType
  refine c.told_onePositional.bind fun _ _ => (c.told_allowing _).bind fun _ _ => ?_
  refine (c.told_nameIn _ _).bind fun typeName _ => (told_existing i c _).bind fun _ _ => ?_
  have hchange : (SchemaChange.deleteType (.text typeName)).Judgeable := rfl
  exact (told_result hchange).bind fun _ _ => failsWith_ok _

theorem told_addField : FailsWith CompileError.Told (addField i c) := by
  unfold addField
  refine c.told_threePositional.bind fun _ _ => (c.told_allowing _).bind fun named _ => ?_
  refine (c.told_nameIn _ _).bind fun typeName _ => (told_existing i c _).bind fun _ _ => ?_
  refine (told_readNamed fun name a => c.told_textIn a name).bind fun texts _ => ?_
  refine (told_readNamed fun _ a => a.told_flag).bind fun flags _ => ?_
  refine (c.told_nameIn _ _).bind fun fieldName _ => (c.told_nameIn _ _).bind fun type _ => ?_
  exact (told_result (SchemaChange.judgeable_addField rfl rfl)).bind fun _ _ => failsWith_ok _

theorem told_removeField : FailsWith CompileError.Told (removeField i c) := by
  unfold removeField
  refine c.told_twoPositional.bind fun _ _ => (c.told_allowing _).bind fun _ _ => ?_
  refine (c.told_nameIn _ _).bind fun typeName _ => (c.told_nameIn _ _).bind fun fieldName _ => ?_
  refine (told_existing i c _).bind fun old _ => ?_
  dsimp only
  split
  · exact (c.told_refuse _).bind nofun
  · have hchange : (SchemaChange.removeField (.text typeName) (.text fieldName)).Judgeable := rfl
    exact (told_result hchange).bind fun _ _ => failsWith_ok _

end Mutation

namespace Compile

variable {i : Snapshot} {limit : Int} {c : Call}

theorem told_nodeType (i : Snapshot) (c : Call) (n : String) :
    FailsWith CompileError.Told (nodeType i c n) := by
  refine (Mutation.told_existing i c n).bind fun t _ => ?_
  split
  · exact failsWith_ok t
  · exact c.told_refuse _

theorem told_node : FailsWith CompileError.Told (node i limit c) := by
  refine c.told_twoPositional.bind fun given _ => (c.told_allowing _).bind fun _ _ => ?_
  refine (c.told_nameIn _ _).bind fun n _ => (told_nodeType i c n).bind fun t ht => ?_
  refine given.2.told_id.bind fun _ _ => ?_
  have hsound : (Context.object (.data i) t).Sound := Schema.mem_of_type? (nodeType_eq_ok.mp ht).1
  exact hsound.told_project.bind fun _ _ => failsWith_ok _

/-- Metadata of any type that it has can be selected on. -/
theorem told_projectMetadata {t : ObjectType} (ht : t ∈ Metadata.types) :
    FailsWith CompileError.Told ((Context.object .metadata t).project limit c) := by
  have hsound : (Context.object .metadata t).Sound := ht
  exact hsound.told_project

theorem told_schema : FailsWith CompileError.Told (schema i limit c) := by
  refine c.told_noPositional.bind fun _ _ => (c.told_allowing _).bind fun _ _ => ?_
  exact (told_projectMetadata (by simp [Metadata.types])).bind fun _ _ => failsWith_ok _

theorem told_type : FailsWith CompileError.Told (type i limit c) := by
  refine c.told_onePositional.bind fun _ _ => (c.told_allowing _).bind fun _ _ => ?_
  refine (c.told_nameIn _ _).bind fun n _ => ?_
  split
  · exact c.told_refuse _
  · exact (told_projectMetadata (by simp [Metadata.types])).bind fun _ _ => failsWith_ok _

theorem told_mutation {resultType : ObjectType} (h : resultType ∈ Metadata.types) (m : Mutation) :
    FailsWith CompileError.Told (mutation limit resultType c m) :=
  (told_projectMetadata h).bind fun _ _ => failsWith_ok _

theorem told_operation {o : Operation} (ho : o ≠ .nodes) :
    FailsWith CompileError.Told (operation i limit c o) := by
  have hschema : Metadata.schemaResultType ∈ Metadata.types := by simp [Metadata.types]
  have hmutation : Metadata.mutationResultType ∈ Metadata.types := by simp [Metadata.types]
  cases o with
  | schema => exact told_schema
  | type => exact told_type
  | nodes => exact absurd rfl ho
  | node => exact told_node
  | createType => exact Mutation.told_createType.bind fun m _ => told_mutation hschema m
  | deleteType => exact Mutation.told_deleteType.bind fun m _ => told_mutation hschema m
  | addField => exact Mutation.told_addField.bind fun m _ => told_mutation hmutation m
  | removeField => exact Mutation.told_removeField.bind fun m _ => told_mutation hmutation m

theorem told_authorize (credentials : Credentials) (o : Operation) (c : Call) :
    FailsWith CompileError.Told (authorize credentials o c) := by
  unfold authorize
  split
  · exact failsWith_error trivial
  · exact failsWith_ok ()

end Compile

theorem Moment.ofValue_eq_outOfRange {v : Value} : ofValue v = .error .outOfRange ↔
    ∃ s, v = .text s ∧ EndsCalendar s := by
  cases v with
  | text s =>
    simp only [ofValue, Value.text.injEq, exists_eq_left', ← read_eq_pastCalendar]
    split
    · rename_i m hm
      split <;> simp [hm]
    · rename_i hpast
      simp [hpast]
    · rename_i d hother hd
      simpa [hd] using hother
  | moment m =>
    simp only [ofValue, reduceCtorEq, false_and, exists_false, iff_false]
    split <;> simp
  | _ => simp [ofValue]

namespace Scalar

/-- Values of the right kind that a scalar has nothing close to. -/
inductive Overflows : Scalar → Value → Prop
  | float {n : Int} (h : Binary64.tooLarge ≤ n.natAbs) : Overflows float (.int n)
  | datetime {s : String} (h : Moment.EndsCalendar s) : Overflows datetime (.text s)

theorem floatOf_eq_none {v : Value} :
    floatOf v = .ok none ↔ ∃ n : Int, v = .int n ∧ Binary64.tooLarge ≤ n.natAbs := by
  cases v with
  | int n =>
    simp only [floatOf, Value.int.injEq, exists_eq_left', ← Binary64.isFinite_ofInt]
    split <;> simp_all
  | float x =>
    simp only [floatOf, reduceCtorEq, false_and, exists_false, iff_false]
    split <;> simp
  | _ => simp [floatOf]

theorem coerce_float {v : Value} :
    coerce float v = .error .outOfRange ↔ floatOf v = .ok none := by
  unfold coerce
  generalize floatOf v = read
  cases read with
  | error cause => simp
  | ok x => cases x <;> simp

theorem coerce_datetime {v : Value} :
    coerce datetime v = .error .outOfRange ↔ Moment.ofValue v = .error .outOfRange := by
  unfold coerce
  generalize Moment.ofValue v = read
  cases read with
  | error e => cases e <;> simp
  | ok m => simp

theorem coerce_eq_outOfRange {s : Scalar} {v : Value} :
    s.coerce v = .error .outOfRange ↔ s.Overflows v := by
  have hunfit {x : Except Unfit Value} :
      x.mapError (CoercionError.unfit s v) ≠ .error .outOfRange := by
    cases x <;> nofun
  constructor
  · intro h
    cases s with
    | float =>
      obtain ⟨n, rfl, hn⟩ := floatOf_eq_none.mp (coerce_float.mp h)
      exact .float hn
    | datetime =>
      obtain ⟨text, rfl, htext⟩ := Moment.ofValue_eq_outOfRange.mp (coerce_datetime.mp h)
      exact .datetime htext
    | _ => exact absurd h hunfit
  · intro h
    cases h with
    | float hn => exact coerce_float.mpr (floatOf_eq_none.mpr ⟨_, rfl, hn⟩)
    | datetime htext => exact coerce_datetime.mpr (Moment.ofValue_eq_outOfRange.mpr ⟨_, rfl, htext⟩)

end Scalar

namespace Compile

variable {i : Snapshot} {limit : Int} {c : Call} {t : ObjectType}

/-- Whether an argument by name is a filter on a field of one scalar. -/
def Asks (i : Snapshot) (t : ObjectType) (a : String × Argument) (s : Scalar) : Prop :=
  a.1 ∉ Page.argumentNames ∧ ∃ f, t.field? a.1 = some f ∧ i.schema.kindOf f = .ok (.scalar s)

/-- A call for records of a type in which nothing is wrong up to a filter that asks for what its
scalar has nothing close to. -/
structure Overflowing (i : Snapshot) (c : Call) (t : ObjectType) : Prop where
  named : ∃ n, c.positional.map Argument.value = [.name n] ∧ i.schema.type? n = some t
  isNode : t.isNode
  allowed : ∀ a ∈ c.namedArguments, a.1 ∈ Page.argumentNames ∨ ∃ s, Asks i t a s
  paged : ∃ page, Page.ofArguments c c.namedArguments = .ok page
  filter : ∃ before a after s, c.namedArguments = before ++ a :: after ∧
    (∀ b ∈ before, ∀ r, Asks i t b r → ∃ v, r.coerce b.2.value.value = .ok v) ∧
    Asks i t a s ∧ s.Overflows a.2.value.value

variable {a : String × Argument}

theorem filter?_of_page (h : a.1 ∈ Page.argumentNames) : filter? (filterable i t) a = .ok none :=
  if_pos (List.contains_iff_mem.mpr h)

theorem filter?_of_asks (ht : t ∈ i.schema.types) {s : Scalar} (h : Asks i t a s) :
    filter? (filterable i t) a = do
      return some (a.1, ← (s.coerce a.2.value.value).mapError CompileError.coercion) := by
  have hpage : Page.argumentNames.contains a.1 = false := by
    simpa using h.1
  rw [filter?, hpage, (lookup_filterable_eq_some ht).mpr h.2]
  rfl

theorem filter?_of_not_asks (ht : t ∈ i.schema.types) (h : ∀ s, ¬Asks i t a s) :
    filter? (filterable i t) a = .ok none := by
  by_cases hpage : a.1 ∈ Page.argumentNames
  · exact filter?_of_page hpage
  · have hlookup : (filterable i t).lookup a.1 = none := by
      cases hs : (filterable i t).lookup a.1 with
      | none => rfl
      | some s => exact absurd ⟨hpage, (lookup_filterable_eq_some ht).mp hs⟩ (h s)
    rw [filter?, hlookup]
    split <;> rfl

theorem filter?_eq_outOfRange (ht : t ∈ i.schema.types) :
    filter? (filterable i t) a = .error (.coercion .outOfRange) ↔
      ∃ s, Asks i t a s ∧ s.Overflows a.2.value.value := by
  constructor
  · intro h
    by_cases hasks : ∃ s, Asks i t a s
    · obtain ⟨s, hs⟩ := hasks
      rw [filter?_of_asks ht hs] at h
      refine ⟨s, hs, Scalar.coerce_eq_outOfRange.mp ?_⟩
      cases hv : s.coerce a.2.value.value with
      | ok v =>
        rw [hv] at h
        cases h
      | error e =>
        rw [hv] at h
        cases h
        rfl
    · rw [filter?_of_not_asks ht (not_exists.mp hasks)] at h
      cases h
  · rintro ⟨s, hs, hv⟩
    rw [filter?_of_asks ht hs, Scalar.coerce_eq_outOfRange.mpr hv]
    rfl

theorem exists_filter?_eq_ok (ht : t ∈ i.schema.types) :
    (∃ o, filter? (filterable i t) a = .ok o) ↔
      ∀ s, Asks i t a s → ∃ v, s.coerce a.2.value.value = .ok v := by
  constructor
  · rintro ⟨o, ho⟩ s hs
    rw [filter?_of_asks ht hs] at ho
    obtain ⟨v, hv, _⟩ := bind_eq_ok.mp ho
    exact ⟨v, mapError_eq_ok.mp hv⟩
  · intro h
    by_cases hasks : ∃ s, Asks i t a s
    · obtain ⟨s, hs⟩ := hasks
      obtain ⟨v, hv⟩ := h s hs
      rw [filter?_of_asks ht hs, hv]
      exact ⟨_, rfl⟩
    · exact ⟨none, filter?_of_not_asks ht (not_exists.mp hasks)⟩

theorem mem_allowed (ht : t ∈ i.schema.types) :
    a.1 ∈ Page.argumentNames ++ (filterable i t).map (·.1) ↔
      a.1 ∈ Page.argumentNames ∨ ∃ s, Asks i t a s := by
  have hnamed : a.1 ∈ (filterable i t).map (·.1) ↔ ∃ s, (filterable i t).lookup a.1 = some s := by
    rw [← Option.isSome_iff_exists, List.lookup_isSome_iff, List.mem_map]
    simp only [beq_iff_eq, @eq_comm _ a.1]
  rw [List.mem_append, hnamed]
  by_cases hpage : a.1 ∈ Page.argumentNames
  · simp [hpage]
  · simp [hpage, Asks, lookup_filterable_eq_some ht]

theorem filters_eq_outOfRange (ht : t ∈ i.schema.types) {named : List (String × Argument)} :
    filters (filterable i t) named = .error (.coercion .outOfRange) ↔
      ∃ before a after s, named = before ++ a :: after ∧
        (∀ b ∈ before, ∀ r, Asks i t b r → ∃ v, r.coerce b.2.value.value = .ok v) ∧
        Asks i t a s ∧ s.Overflows a.2.value.value := by
  have hlast (os : List (Option (String × Value))) :
      FailsWith CompileError.Told (pure (os.filterMap id)) := failsWith_ok _
  unfold filters
  rw [FailsWith.bind_eq_error_left hlast id, mapM_eq_error]
  simp only [exists_filter?_eq_ok ht, filter?_eq_outOfRange ht, exists_and_left]

theorem told_filters {scalars : List (String × Scalar)} {named : List (String × Argument)} :
    FailsWith (fun e => e.Told ∨ e = .coercion .outOfRange) (filters scalars named) := by
  refine (failsWith_mapM fun a _ => ?_).bind fun _ _ => failsWith_ok _
  unfold filter?
  split
  · exact failsWith_ok none
  · split
    · refine FailsWith.bind (failsWith_mapError fun e => ?_) fun _ _ => failsWith_ok _
      cases e with
      | unfit => exact .inl trivial
      | outOfRange => exact .inr rfl
    · exact failsWith_ok none

theorem told_nodes : FailsWith (fun e => e.Told ∨ e = .coercion .outOfRange) (nodes i limit c) := by
  have told {α : Type} {x : Except CompileError α} (h : FailsWith CompileError.Told x) :
      FailsWith (fun e => e.Told ∨ e = .coercion .outOfRange) x := h.mono fun _ => .inl
  refine (told c.told_onePositional).bind fun _ _ => ?_
  refine (told (c.told_nameIn _ _)).bind fun n _ => ?_
  refine (told (told_nodeType i c n)).bind fun t ht => ?_
  refine (told (c.told_allowing _)).bind fun named _ => ?_
  refine (told (Page.told_ofArguments c named)).bind fun page _ => ?_
  refine told_filters.bind fun fs _ => ?_
  have hsound : (Context.connection c.name (.data i) t).Sound :=
    Schema.mem_of_type? (nodeType_eq_ok.mp ht).1
  exact (told hsound.told_project).bind fun _ _ => failsWith_ok _

theorem nodes_eq_outOfRange :
    nodes i limit c = .error (.coercion .outOfRange) ↔ ∃ t, Overflowing i c t := by
  have huntold : ¬CompileError.Told (.coercion .outOfRange) := id
  constructor
  · intro h
    -- Only the filters fail in this way, so every step in front of them has succeeded.
    obtain ⟨g, hg, h⟩ := (c.told_onePositional.bind_eq_error huntold).mp h
    obtain ⟨n, hn, h⟩ := ((c.told_nameIn _ _).bind_eq_error huntold).mp h
    obtain ⟨t, ht, h⟩ := ((told_nodeType i c n).bind_eq_error huntold).mp h
    obtain ⟨named, hnamed, h⟩ := ((c.told_allowing _).bind_eq_error huntold).mp h
    obtain ⟨page, hpage, h⟩ := ((Page.told_ofArguments c named).bind_eq_error huntold).mp h
    obtain ⟨ht, hnode⟩ := nodeType_eq_ok.mp ht
    have hmem := Schema.mem_of_type? ht
    have hsound : (Context.connection c.name (.data i) t).Sound := hmem
    have hlast (fs : Filters) : FailsWith CompileError.Told (do
        let projection ← (Context.connection c.name (.data i) t).project limit c
        return CallPlan.fetchNodes t.label fs page projection) :=
      hsound.told_project.bind fun _ _ => failsWith_ok _
    have hfilters := (FailsWith.bind_eq_error_left hlast huntold).mp h
    obtain ⟨rfl, hallowed⟩ := Call.allowing_eq_ok.mp hnamed
    refine ⟨t, ⟨n, ?_, ht⟩, hnode, fun a ha => (mem_allowed hmem).mp (hallowed a ha), ⟨page, hpage⟩,
      (filters_eq_outOfRange hmem).mp hfilters⟩
    rw [Call.onePositional_eq_ok.mp hg, List.map_singleton, Call.nameIn_eq_ok.mp hn]
  · rintro ⟨t, ⟨n, hg, ht⟩, hnode, hallowed, ⟨page, hpage⟩, hfilter⟩
    have hmem := Schema.mem_of_type? ht
    obtain ⟨g, hpositional, hn⟩ := List.map_eq_singleton_iff.mp hg
    have hnamed : c.allowing (Page.argumentNames ++ (filterable i t).map (·.1)) =
        .ok c.namedArguments :=
      Call.allowing_eq_ok.mpr ⟨rfl, fun a ha => (mem_allowed hmem).mpr (hallowed a ha)⟩
    have hfilters := (filters_eq_outOfRange hmem).mpr hfilter
    unfold nodes typeArgument
    rw [Call.onePositional_eq_ok.mpr hpositional, ok_bind, Call.nameIn_eq_ok.mpr hn, ok_bind,
      nodeType_eq_ok.mpr ⟨ht, hnode⟩, ok_bind]
    dsimp only
    rw [hnamed, ok_bind, hpage, ok_bind, hfilters]
    rfl

theorem told_call (credentials : Credentials) :
    FailsWith (fun e => e.Told ∨ e = .coercion .outOfRange) (call credentials i limit c) := by
  unfold call
  split
  · exact (c.told_refuse _).mono fun _ => .inl
  · rename_i o ho
    refine ((told_authorize credentials o c).mono fun _ => .inl).bind fun _ _ => ?_
    by_cases hnodes : o = .nodes
    · subst hnodes
      exact told_nodes
    · exact (told_operation hnodes).mono fun _ => .inl

theorem call_eq_outOfRange (credentials : Credentials) :
    call credentials i limit c = .error (.coercion .outOfRange) ↔
      c.name = Operation.nodes.name ∧ ∃ t, Overflowing i c t := by
  have huntold : ¬CompileError.Told (.coercion .outOfRange) := id
  unfold call
  split
  · rename_i hunknown
    refine iff_of_false nofun fun h => ?_
    rw [h.1, Operation.ofName?_name] at hunknown
    cases hunknown
  · rename_i o ho
    have hname := Operation.ofName?_eq_some_iff.mp ho
    rw [(told_authorize credentials o c).bind_eq_error huntold]
    by_cases hnodes : o = .nodes
    · subst hnodes
      rw [authorize_of_not_mutation credentials c rfl]
      simp [hname, operation, nodes_eq_outOfRange]
    · refine iff_of_false ?_ fun h => ?_
      · rintro ⟨_, _, h⟩
        exact huntold (told_operation hnodes _ h)
      · have hdistinct := ho.symm.trans (Operation.ofName?_eq_some_iff.mpr h.1)
        exact hnodes (Option.some.inj hdistinct)

end Compile

/-- Whether why a text has no plan is something that callers are told of. -/
def QueryError.Told : QueryError → Prop
  | .parse e => e.isTold = true
  | .compile e => e.Told

namespace Plan

variable {credentials : Credentials} {i : Snapshot} {limit : Int} {text : String}

theorem ofText_eq_compile {e : CompileError} :
    ofText credentials i limit text = .error (.compile e) ↔
      ∃ q, Query.parse text = .ok q ∧ q.compile credentials i limit = .error e := by
  unfold ofText
  cases Query.parse text with
  | error unread => simp [Except.mapError]
  | ok q =>
    have hread : (.ok q : Except ParseError Query).mapError QueryError.parse = .ok q := rfl
    rw [hread, ok_bind, mapError_eq_error]
    simp

theorem ofText_eq_parse {e : ParseError} :
    ofText credentials i limit text = .error (.parse e) ↔ Query.parse text = .error e := by
  unfold ofText
  cases Query.parse text with
  | error unread => simp [Except.mapError]
  | ok q =>
    have hread : (.ok q : Except ParseError Query).mapError QueryError.parse = .ok q := rfl
    rw [hread, ok_bind, mapError_eq_error]
    simp

theorem ofText_untold_iff :
    (∃ e, ofText credentials i limit text = .error (.parse e) ∧ e.isTold = false) ↔
      Query.Overlong text := by
  simp only [ofText_eq_parse, Query.untold_iff_overlong]

theorem told_ofText : FailsWith (fun e => e.Told ∨ e = .compile (.coercion .outOfRange) ∨
    Query.Overlong text) (ofText credentials i limit text) := by
  intro e he
  cases e with
  | parse unread =>
    cases htold : unread.isTold with
    | true => exact .inl htold
    | false => exact .inr (.inr (ofText_untold_iff.mp ⟨unread, he, htold⟩))
  | compile e =>
    obtain ⟨q, _, hq⟩ := ofText_eq_compile.mp he
    have hcalls : FailsWith (fun e => e.Told ∨ e = .coercion .outOfRange)
        (q.compile credentials i limit) :=
      failsWith_mapM fun _ _ => Compile.told_call credentials
    exact (hcalls e hq).imp_right fun h => .inl (congrArg _ h)

/-- A text has a plan, or else whoever wrote it is told why, unless an integer with too many digits
is in the way, or one of its calls asks for what its scalar has nothing close to and all calls
before that have a plan. -/
theorem planned_or_told_or_overflowing (credentials : Credentials) (i : Snapshot) (limit : Int)
    (text : String) :
    ((∃ p, ofText credentials i limit text = .ok p) ∨
      (∃ e, ofText credentials i limit text = .error e ∧ e.Told) ∨
      ofText credentials i limit text = .error (.compile (.coercion .outOfRange)) ∨
      Query.Overlong text) ∧
    ((∃ e, ofText credentials i limit text = .error (.parse e) ∧ e.isTold = false) ↔
      Query.Overlong text) ∧
    (Query.Overlong text → ∃ before w rest, text.toList = before ++ (w ++ rest) ∧
      Word.isOverlong w = true) ∧
    (ofText credentials i limit text = .error (.compile (.coercion .outOfRange)) ↔
      ∃ before c after, Query.parse text = .ok (before ++ c :: after) ∧
        (∀ b ∈ before, ∃ p, Compile.call credentials i limit b = .ok p) ∧
        c.name = Operation.nodes.name ∧ ∃ t, Compile.Overflowing i c t) := by
  refine ⟨?_, ofText_untold_iff, Query.Overlong.exists_word, ?_⟩
  · cases hplan : ofText credentials i limit text with
    | ok p => exact .inl ⟨p, rfl⟩
    | error e =>
      rcases told_ofText e hplan with htold | rfl | hoverlong
      · exact .inr (.inl ⟨e, rfl, htold⟩)
      · exact .inr (.inr (.inl rfl))
      · exact .inr (.inr (.inr hoverlong))
  · rw [ofText_eq_compile]
    constructor
    · rintro ⟨q, hq, hcalls⟩
      obtain ⟨before, c, after, rfl, hbefore, hc⟩ := mapM_eq_error.mp hcalls
      exact ⟨before, c, after, hq, hbefore, (Compile.call_eq_outOfRange credentials).mp hc⟩
    · rintro ⟨before, c, after, hq, hbefore, hc⟩
      refine ⟨_, hq, mapM_eq_error.mpr ⟨before, c, after, rfl, hbefore, ?_⟩⟩
      exact (Compile.call_eq_outOfRange credentials).mpr hc

end Plan

namespace Prices

def itemType : ObjectType where
  name := .text "Item"
  members := .ofFields [idField, { name := .text "price", type := .text "float" }]
  interfaces := .list [.text nodeInterface]

def schema : Schema := ⟨[itemType]⟩

def snapshot : Snapshot where
  schema := schema
  rules := ⟨.standard, []⟩
  kinds := schema.kinds.toOption.getD []
  valid := by rfl
  kinds_eq := by rfl

/-- How many items have a price of one followed by 309 zeros. -/
def query : List Char :=
  "nodes(Item, price: 1".toList ++ List.replicate 309 '0' ++ ") \x7b count \x7d".toList

def outcome : Except QueryError Plan :=
  Plan.ofText {} snapshot defaultLimit (String.ofList query)

end Prices

theorem prices_not_told :
    ¬((∃ p, Prices.outcome = .ok p) ∨ ∃ e, Prices.outcome = .error e ∧ e.Told) := by
  have hread : (Query.parse (String.ofList Prices.query)).toOption.any (fun q =>
      match q.compile {} Prices.snapshot defaultLimit with
      | .error (.coercion .outOfRange) => true
      | _ => false) = true := by
    refine (congrArg (fun x => Option.any _ (Except.toOption x)) (Query.parse_ofList _)).trans ?_
    decide +kernel
  obtain ⟨q, hq, hmatch⟩ := exists_of_any hread
  have hplan : Prices.outcome = .error (.compile (.coercion .outOfRange)) := by
    refine Plan.ofText_eq_compile.mpr ⟨q, hq, ?_⟩
    split at hmatch
    · assumption
    · cases hmatch
  rintro (⟨p, hp⟩ | ⟨e, he, htold⟩)
  · cases hplan.symm.trans hp
  · cases hplan.symm.trans he
    exact htold

end ObjectQuery
