import ObjectQuery.Proofs.Query.Descriptions
import ObjectQuery.Proofs.Query.MutationReports
import ObjectQuery.Proofs.Schema.Required

/-!
# What a query makes of a schema

A change that a call is compiled to is accepted wherever the schema is as it was then, whichever of
the required types are asked for. A store in memory that accepts changes goes through the changes of
a query in order and makes those that are accepted by the schema that it has by then, so what a
query makes of the schema is a fold over its changes.
-/

set_option autoImplicit false

namespace ObjectQuery

open Outcome

namespace Schema

/-- Whether a change of a schema is accepted by a store that has it. -/
def Accepts (s : Schema) (c : SchemaChange) : Prop :=
  ∃ s', s.applyValidated Memory.rules c = .ok (.ok s')

/-- A schema after a change that is made if it is accepted. -/
def accepting (s : Schema) (c : SchemaChange) : Schema :=
  match s.applyValidated Memory.rules c with
  | .ok (.ok s') => s'
  | _ => s

end Schema

/-- The change that a call makes, if it makes one. -/
def CallPlan.change? : CallPlan → Option SchemaChange
  | mutation change _ _ _ => some change
  | _ => none

/-- The changes that a plan makes, in order. -/
def Plan.changes (p : Plan) : List SchemaChange := p.filterMap CallPlan.change?

/-- What is compiled to a change is accepted by the schema that it is compiled against, whichever of
the required types have to be left. -/
theorem Mutation.Keeps.accepted {i : Snapshot} {m : Mutation} (h : Keeps i m)
    {required : List Value} (hr : required ⊆ i.rules.required) :
    ∃ s', i.schema.apply m.change = .ok s' ∧
      i.schema.applyValidated ⟨i.rules.registry, required⟩ m.change = .ok (.ok s') := by
  obtain ⟨s', hs', hvalid⟩ := h
  exact ⟨s', hs', Schema.applyValidated_of_valid hs' (hvalid.of_subset hr)⟩

/-- A run that gets through its first call goes on from the store that this leaves. -/
theorem Plan.result_run_cons {σ : Type} [Store σ] (call : CallPlan) (p : Plan) (s : σ) :
    (Plan.run (call :: p)).result s = match (call.run.result s).1 with
      | .ok shown => ((p.run.result (call.run.result s).2).1.map (shown :: ·),
        (p.run.result (call.run.result s).2).2)
      | .error e => (.error e, (call.run.result s).2) := by
  have hrun : Plan.run (call :: p) = do
      let shown ← (call.run : Access σ Result)
      let results ← Plan.run p
      return shown :: results := List.mapM_cons
  rw [hrun, Access.result_bind]
  rcases call.run.result s with ⟨outcome, t⟩
  cases outcome with
  | error e => rfl
  | ok shown =>
    dsimp only
    rw [Access.result_bind]
    rcases p.run.result t with ⟨outcome, u⟩
    cases outcome <;> rfl

/-- A run that fails does so at one of its calls, after all those before it. -/
theorem Plan.exists_failed {σ : Type} [Store σ] {p : Plan} {s s' : σ} {e : Failure}
    (h : p.run.result s = (.error e, s')) : ∃ done call rest results t,
      p = done ++ call :: rest ∧ (Plan.run done).result s = (.ok results, t) ∧
      (call.run : Access σ Result).result t = (.error e, s') := by
  induction p generalizing s with
  | nil => cases h
  | cons call p ih =>
    rw [result_run_cons] at h
    cases hcall : (call.run.result s).1 with
    | error e' =>
      rw [hcall] at h
      obtain ⟨he, hs⟩ := Prod.mk.inj h
      cases he
      exact ⟨[], call, p, [], s, rfl, rfl, Prod.ext hcall hs⟩
    | ok shown =>
      rw [hcall] at h
      obtain ⟨hresults, hlast⟩ := Prod.mk.inj h
      have hfailed : (Plan.run p).result (call.run.result s).2 = (.error e, s') := by
        refine Prod.ext ?_ hlast
        cases hp : ((Plan.run p).result (call.run.result s).2).1 with
        | error e' =>
          rw [hp] at hresults
          exact congrArg _ (Except.error.inj hresults)
        | ok others =>
          rw [hp] at hresults
          cases hresults
      obtain ⟨done, failed, rest, others, t, rfl, hdone, hrun⟩ := ih hfailed
      refine ⟨call :: done, failed, rest, shown :: others, t, rfl, ?_, hrun⟩
      rw [result_run_cons, hcall, hdone]
      rfl

namespace Memory

variable {m m' : Memory} {c : SchemaChange} {s' : Schema}

/-- A change is answered with a report that it was made, if it is accepted, and else with one that
it was not, and then nothing is changed. -/
inductive Answers (m : Memory) (c : SchemaChange) (projection : Projection) :
    Except Failure Result × Memory → Prop
  | made {shown : Result} {m' : Memory} (ha : m.schema.Accepts c)
      (hr : projection.Reports true shown) (hs : m'.schema = m.schema.accepting c) :
      Answers m c projection (.ok shown, m')
  | refused {shown : Result} (ha : ¬m.schema.Accepts c) (hr : projection.Reports false shown) :
      Answers m c projection (.ok shown, m)

theorem after_of_accepted (ha : m.acceptsChanges = true)
    (hc : m.schema.applyValidated rules c = .ok (.ok s')) :
    m.after c = .ok (some { m with schema := s', records := m.recordsAfter c }) := by
  rw [after, ha, hc]
  rfl

theorem after_of_refused {refusal : ChangeRefusal} (ha : m.acceptsChanges = true)
    (hc : m.schema.applyValidated rules c = .ok (.error refusal)) : m.after c = .ok none := by
  rw [after, ha, hc]
  rfl

theorem after_of_misuse {e : Misuse} (ha : m.acceptsChanges = true)
    (hc : m.schema.applyValidated rules c = .error e) : m.after c = .error e := by
  rw [after, ha, hc]
  rfl

/-- What a change makes of a store that accepts changes, whether it is made or not. -/
theorem result_change_snd (ha : m.acceptsChanges = true) (c : SchemaChange) :
    ((Store.change c : Access Memory Bool).result m).2.schema = m.schema.accepting c ∧
      ((Store.change c : Access Memory Bool).result m).2.acceptsChanges = true := by
  rw [result_change, Schema.accepting]
  cases hc : m.schema.applyValidated rules c with
  | error e =>
    rw [after_of_misuse ha hc]
    exact ⟨rfl, ha⟩
  | ok outcome =>
    cases outcome with
    | error refusal =>
      rw [after_of_refused ha hc]
      exact ⟨rfl, ha⟩
    | ok s' =>
      rw [after_of_accepted ha hc]
      exact ⟨rfl, ha⟩

/-- A call makes its change of the schema, if it is accepted, and leaves it else. -/
theorem result_run_call_snd (ha : m.acceptsChanges = true) (p : CallPlan) :
    (p.run.result m).2.schema = p.change?.elim m.schema m.schema.accepting ∧
      (p.run.result m).2.acceptsChanges = true := by
  rw [CallPlan.result_run_snd steady]
  cases p with
  | mutation change success failure projection => exact result_change_snd ha change
  | _ => exact ⟨rfl, ha⟩

theorem answers_mutation {i : Snapshot} {mutation : Mutation} {limit : Int} {call : Call}
    {t : ObjectType} {projection : Projection} (hm : m.schema.Valid rules)
    (ha : m.acceptsChanges = true) (hi : i.rules.registry = .standard)
    (hk : Mutation.Keeps i mutation) (hf : Mutation.Faithful i mutation)
    (ht : t.members = Metadata.resultFields)
    (hp : (Context.object .metadata t).project limit call = .ok projection) :
    m.Answers mutation.change projection ((CallPlan.mutation mutation.change
      (TypeChange.success mutation.changes) TypeChange.failure projection).run.result m) := by
  obtain ⟨outcome, hc⟩ := hm.exists_applyValidated hk.judgeable
  rw [CallPlan.run, Access.result_bind, result_change]
  cases outcome with
  | ok s' =>
    rw [after_of_accepted ha hc]
    obtain ⟨shown, hshown, hyields⟩ := Projection.exists_reports hi ht hp true
      (hk.describes hf) { m with schema := s', records := m.recordsAfter mutation.change }
    have hresult : (projection.present (TypeChange.success mutation.changes)).result _ = _ := hyields
    simp only [if_true, hresult]
    exact .made ⟨s', hc⟩ hshown (by rw [Schema.accepting, hc])
  | error refusal =>
    rw [after_of_refused ha hc]
    have hnone : ∀ v ∈ ([] : List Value), Metadata.Describes Metadata.changeType v :=
      List.forall_mem_nil _
    obtain ⟨shown, hshown, hyields⟩ := Projection.exists_reports hi ht hp false hnone m
    have hresult : (projection.present TypeChange.failure).result m = _ := hyields
    have hrefused : ¬m.schema.Accepts mutation.change := by
      rintro ⟨s', hs'⟩
      cases hc.symm.trans hs'
    simp only [Bool.false_eq_true, if_false, hresult]
    exact .refused hrefused hshown

/-- A run that does not fail makes of the schema what its changes make of it one by one. -/
theorem foldl_run {p : Plan} {results : List Result} (ha : m.acceptsChanges = true)
    (h : p.run.result m = (.ok results, m')) :
    m'.schema = p.changes.foldl Schema.accepting m.schema ∧ m'.acceptsChanges = true := by
  induction p generalizing m results with
  | nil =>
    cases h
    exact ⟨rfl, ha⟩
  | cons call p ih =>
    obtain ⟨hschema, haccepts⟩ := result_run_call_snd ha call
    rw [Plan.result_run_cons] at h
    cases hcall : (call.run.result m).1 with
    | error e =>
      rw [hcall] at h
      cases h
    | ok shown =>
      rw [hcall] at h
      obtain ⟨hresults, hlast⟩ := Prod.mk.inj h
      obtain ⟨others, hothers, _⟩ := map_eq_ok.mp hresults
      obtain ⟨hfold, hlast⟩ := ih haccepts (Prod.ext hothers hlast)
      refine ⟨?_, hlast⟩
      rw [hfold, hschema, Plan.changes, Plan.changes, List.filterMap_cons]
      cases call.change? <;> rfl

end Memory

namespace Query

variable {credentials : Credentials} {i : Snapshot} {limit : Int} {q : Query} {p : Plan}

theorem accepted_of_mem_changes (hp : q.compile credentials i limit = .ok p) {c : SchemaChange}
    (hc : c ∈ p.changes) {required : List Value} (hr : required ⊆ i.rules.required) :
    ∃ s', i.schema.apply c = .ok s' ∧
      i.schema.applyValidated ⟨i.rules.registry, required⟩ c = .ok (.ok s') := by
  obtain ⟨call, hcall, hchange⟩ := List.mem_filterMap.mp hc
  obtain ⟨_, _, hplanned⟩ := exists_of_mem_mapM hp hcall
  cases Compile.planned_of_call hplanned with
  | mutation hk _ _ _ =>
    cases hchange
    exact hk.accepted hr
  | _ => cases hchange

/-- A call of a query that is run after those before it, on a store in memory that accepts changes
and had the schema that the query was compiled against. -/
theorem answers_of_run (hp : q.compile credentials i limit = .ok p)
    (hi : i.rules.registry = .standard) {m m₁ : Memory} (hm : m.schema = i.schema)
    (ha : m.acceptsChanges = true) {done rest : Plan} {change : SchemaChange}
    {success failure : Value} {projection : Projection} {results : List Result}
    (hsplit : p = done ++ .mutation change success failure projection :: rest)
    (hdone : (Plan.run done).result m = (.ok results, m₁)) :
    m₁.Answers change projection
      ((CallPlan.mutation change success failure projection).run.result m₁) := by
  obtain ⟨_, haccepts⟩ := Memory.foldl_run ha hdone
  have hvalid : m₁.schema.Valid Memory.rules := by
    have hrun := Memory.valid_run done (m := m) (by rw [hm]; exact i.valid.of_registry hi)
    rwa [hdone] at hrun
  have hmem : .mutation change success failure projection ∈ p := by
    rw [hsplit]
    exact List.mem_append_right done List.mem_cons_self
  obtain ⟨_, _, hplanned⟩ := exists_of_mem_mapM hp hmem
  cases Compile.planned_of_call hplanned with
  | mutation hk hf ht hproject =>
    exact Memory.answers_mutation hvalid haccepts hi hk hf ht hproject

/-- A change that a call is compiled to is accepted wherever the schema is as it was then, whichever
of the required types are asked for. So a store in memory that accepts changes makes the first one
of a query that is compiled against its schema. It makes each of the others if the schema accepts it
that those before it have left, and says so, and else leaves everything as it is; and in the end its
schema is what going through the changes makes of the first one. Only calls that make no change can
fail a query, and then the changes before them have been made. -/
theorem schema_is_folded (hp : q.compile credentials i limit = .ok p) :
    (∀ c ∈ p.changes, ∀ required ⊆ i.rules.required, ∃ s', i.schema.apply c = .ok s' ∧
      i.schema.applyValidated ⟨i.rules.registry, required⟩ c = .ok (.ok s')) ∧
    (i.rules.registry = .standard → ∀ m : Memory, m.schema = i.schema → m.acceptsChanges = true →
      (∀ done change success failure projection rest results m₁,
        p = done ++ .mutation change success failure projection :: rest →
        (Plan.run done).result m = (.ok results, m₁) →
        m₁.schema = done.changes.foldl Schema.accepting i.schema ∧
        m₁.Answers change projection
          ((CallPlan.mutation change success failure projection).run.result m₁) ∧
        (done.changes = [] → m₁.schema.Accepts change)) ∧
      (∀ results m', p.run.result m = (.ok results, m') →
        m'.schema = p.changes.foldl Schema.accepting i.schema) ∧
      ∀ e m', p.run.result m = (.error e, m') → ∃ (done : Plan) (call : CallPlan) (rest : Plan)
        (results : List Result) (m₁ : Memory), p = done ++ call :: rest ∧
        (Plan.run done).result m = (.ok results, m₁) ∧ call.run.result m₁ = (.error e, m') ∧
        call.change? = none ∧ m'.schema = done.changes.foldl Schema.accepting i.schema) := by
  refine ⟨fun c hc required hr => accepted_of_mem_changes hp hc hr, fun hi m hm ha => ⟨?_, ?_, ?_⟩⟩
  · intro done change success failure projection rest results m₁ hsplit hdone
    obtain ⟨hschema, _⟩ := Memory.foldl_run ha hdone
    rw [hm] at hschema
    refine ⟨hschema, answers_of_run hp hi hm ha hsplit hdone, fun hfirst => ?_⟩
    have hchange : change ∈ p.changes := by
      refine List.mem_filterMap.mpr ⟨.mutation change success failure projection, ?_, rfl⟩
      rw [hsplit]
      exact List.mem_append_right done List.mem_cons_self
    obtain ⟨s', _, hs'⟩ := accepted_of_mem_changes hp hchange (List.nil_subset _)
    rw [hfirst] at hschema
    rw [hi] at hs'
    rw [hschema]
    exact ⟨s', hs'⟩
  · intro results m' h
    rw [← hm]
    exact (Memory.foldl_run ha h).1
  · intro e m' h
    obtain ⟨done, call, rest, results, m₁, hsplit, hdone, hfailed⟩ := Plan.exists_failed h
    have hnone : call.change? = none := by
      cases call with
      | mutation change success failure projection =>
        have hanswers := answers_of_run hp hi hm ha hsplit hdone
        rw [hfailed] at hanswers
        cases hanswers
      | _ => rfl
    obtain ⟨hschema, haccepts⟩ := Memory.foldl_run ha hdone
    obtain ⟨hkept, _⟩ := Memory.result_run_call_snd haccepts call
    rw [hfailed, hnone] at hkept
    refine ⟨done, call, rest, results, m₁, hsplit, hdone, hfailed, hnone, ?_⟩
    rw [← hm, ← hschema]
    exact hkept

end Query

namespace Library

/-- Users get a field, and then one of the same name. -/
def repetition : Query := [added "User" "a", added "User" "a"]

/-- A store that accepts no changes. -/
def fixed : Memory := { memory with acceptsChanges := false }

end Library

set_option maxRecDepth 8000 in
/-- Of two equal additions the second one is refused. -/
theorem library_repetition_folded : ∃ first change success failure projection results m₁,
    Library.repetition.compile Library.admin Library.snapshot defaultLimit =
      .ok ([first] ++ .mutation change success failure projection :: []) ∧
    (Plan.run [first]).result Library.memory = (.ok results, m₁) ∧
    (∀ c ∈ Plan.changes ([first] ++ .mutation change success failure projection :: []),
      ∀ required ⊆ Validation.Rules.standard.required, ∃ s', Library.schema.apply c = .ok s' ∧
        Library.schema.applyValidated ⟨.standard, required⟩ c = .ok (.ok s')) ∧
    m₁.schema = (Plan.changes [first]).foldl Schema.accepting Library.schema ∧
    m₁.Answers change projection
      ((CallPlan.mutation change success failure projection).run.result m₁) ∧
    ¬m₁.schema.Accepts change := by
  have hrun : ∃ first change success failure projection results m₁ refusal,
      Library.repetition.compile Library.admin Library.snapshot defaultLimit =
        .ok ([first] ++ .mutation change success failure projection :: []) ∧
      (Plan.run [first]).result Library.memory = (.ok results, m₁) ∧
      m₁.schema.applyValidated Memory.rules change = .ok (.error refusal) :=
    ⟨_, _, _, _, _, _, _, _, rfl, rfl, rfl⟩
  obtain ⟨first, change, success, failure, projection, results, m₁, refusal, hp, hdone, hrefused⟩ :=
    hrun
  obtain ⟨haccepted, hfold⟩ := Query.schema_is_folded hp
  obtain ⟨hschema, hanswers, _⟩ := (hfold rfl Library.memory rfl rfl).1 [first] change success
    failure projection [] results m₁ rfl hdone
  refine ⟨first, change, success, failure, projection, results, m₁, hp, hdone, haccepted, hschema,
    hanswers, ?_⟩
  rintro ⟨s', hs'⟩
  cases hrefused.symm.trans hs'

set_option maxRecDepth 8000 in
/-- A store that accepts no changes reports of the first one that it was not made. -/
theorem library_fixed_not_made : ∃ p,
    Query.compile Library.admin Library.snapshot defaultLimit [Library.added "User" "a"] = .ok p ∧
    Library.fixed.schema = Library.snapshot.schema ∧
    (p.run.result Library.fixed).1 = .ok [.object [("success", .value (.bool false))]] :=
  ⟨_, rfl, rfl, rfl⟩

end ObjectQuery
