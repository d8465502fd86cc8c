import ObjectQuery.Proofs.Plan.Planning
import ObjectQuery.Proofs.Query.Execution
import ObjectQuery.Proofs.Store.Upkeep

/-!
# Reports of changes that are made

A call that changes the schema reports what its change makes of the schema that the query was
compiled against. Calls before it may have changed the schema since then: what is reported is what
happens to the store just if the types that are told of, and those that differ in the store, were at
that time as they were when the query was compiled.
-/

set_option autoImplicit false

namespace ObjectQuery

open Outcome

namespace Compile

variable {i : Snapshot} {limit : Int} {c : Call} {change : SchemaChange} {success failure : Value}
  {projection : Projection}

/-- A plan for a change comes from a mutation and has its reports. -/
def FromMutation (i : Snapshot) (change : SchemaChange) (success failure : Value) : Prop :=
  ∃ m : Mutation, Mutation.Faithful i m ∧ change = m.change ∧
    success = TypeChange.success m.changes ∧ failure = TypeChange.failure

theorem fromMutation_of_call {credentials : Credentials}
    (h : call credentials i limit c = .ok (.mutation change success failure projection)) :
    FromMutation i change success failure := by
  cases planned_of_call h with
  | mutation _ hm => exact ⟨_, hm, rfl, rfl, rfl⟩

end Compile

theorem Schema.Valid.of_registry {rules : Validation.Rules} {s : Schema} (h : s.Valid rules)
    (hr : rules.registry = Registry.standard) : s.Valid Memory.rules := by
  rw [Memory.rules, ← hr]
  exact h.unrequired

/-- A call that changes the schema reports how its change differs from the schema that the query was
compiled against; of the store this is true exactly if all types concerned were shown then as when
the query was compiled. -/
theorem Plan.reports_of_change {credentials : Credentials} {i : Snapshot} {limit : Int} {q : Query}
    {p done rest : Plan} {m m₁ m₂ : Memory} {results : List Result} {change : SchemaChange}
    {success failure : Value} {projection : Projection}
    (hr : i.rules.registry = Registry.standard) (hm : m.schema = i.schema)
    (hp : q.compile credentials i limit = .ok p)
    (hsplit : p = done ++ .mutation change success failure projection :: rest)
    (hdone : (Plan.run done : Access Memory _).result m = (.ok results, m₁))
    (hchange : (Store.change change : Access Memory _).result m₁ = (.ok true, m₂)) :
    ∃ reports s',
      (CallPlan.mutation change success failure projection).run.result m₁ =
        (projection.present (.object [("success", .bool true), ("changes", .list reports)])).result
          m₂ ∧
      i.schema.apply change = .ok s' ∧ Tells reports i.schema s' ∧
      (Tells reports m₁.schema m₂.schema ↔
        ∀ n, i.schema.shown n ≠ s'.shown n ∨ m₁.schema.shown n ≠ m₂.schema.shown n →
          m₁.schema.shown n = i.schema.shown n) := by
  have hvalid : m₁.schema.Valid Memory.rules := by
    have hrun := Memory.valid_run done (m := m) (by rw [hm]; exact i.valid.of_registry hr)
    rwa [hdone] at hrun
  have hmem : .mutation change success failure projection ∈ p := by
    rw [hsplit]
    exact List.mem_append_right done List.mem_cons_self
  obtain ⟨c, _, hc⟩ := exists_of_mem_mapM hp hmem
  obtain ⟨mutation, ⟨s', hs', htells⟩, rfl, rfl, rfl⟩ := Compile.fromMutation_of_call hc
  obtain ⟨happly, _⟩ := Memory.change_eq_true hchange
  refine ⟨_, s', ?_, hs', htells, ?_⟩
  · rw [CallPlan.run, Access.result_bind, hchange]
    rfl
  · exact htells.iff_shown_eq i.valid.legible hvalid.legible hs' happly

namespace Library

def admin : Credentials := { isAdmin := true }

def added (typeName fieldName : String) : Call :=
  call "addField" [(none, .name typeName), (none, .name fieldName), (none, .name "string")] [
    call "success" [] []]

/-- An author gets a field, and then the books go, and with them another field of authors. -/
def changes : Query := [
  added "Author" "bio",
  call "deleteType" [(none, .name "Book")] [call "success" [] []]]

/-- Users get two fields, one after the other. -/
def additions : Query := [added "User" "a", added "User" "b"]

def textField (name : String) : Field := { name := .text name, type := .text "string" }

/-- The store after the first addition. -/
def grown : Memory :=
  { memory with schema := ⟨[userType.withFields [idField, textField "a"], addressType, authorType,
    bookType]⟩ }

end Library

set_option maxRecDepth 8000 in
theorem library_reports : ∃ first change success failure projection results m₁ m₂ reports s',
    Library.changes.compile Library.admin Library.snapshot defaultLimit =
      .ok ([first] ++ .mutation change success failure projection :: []) ∧
    (Plan.run [first]).result Library.memory = (.ok results, m₁) ∧
    (Store.change change).result m₁ = (.ok true, m₂) ∧
    (CallPlan.mutation change success failure projection).run.result m₁ =
      (projection.present (.object [("success", .bool true), ("changes", .list reports)])).result
        m₂ ∧
    Library.schema.apply change = .ok s' ∧ Tells reports Library.schema s' ∧
    (Tells reports m₁.schema m₂.schema ↔
      ∀ n, Library.schema.shown n ≠ s'.shown n ∨ m₁.schema.shown n ≠ m₂.schema.shown n →
        m₁.schema.shown n = Library.schema.shown n) := by
  have hrun : ∃ first change success failure projection results m₁ m₂,
      Library.changes.compile Library.admin Library.snapshot defaultLimit =
        .ok ([first] ++ .mutation change success failure projection :: []) ∧
      (Plan.run [first]).result Library.memory = (.ok results, m₁) ∧
      (Store.change change).result m₁ = (.ok true, m₂) := ⟨_, _, _, _, _, _, _, _, rfl, rfl, rfl⟩
  obtain ⟨first, change, success, failure, projection, results, m₁, m₂, hp, hdone, hchange⟩ := hrun
  obtain ⟨reports, s', h⟩ := Plan.reports_of_change rfl rfl hp rfl hdone hchange
  exact ⟨first, change, success, failure, projection, results, m₁, m₂, reports, s', hp, hdone,
    hchange, h⟩

set_option maxRecDepth 8000 in
/-- What the second addition reports as the type before it lacks the field of the first one. -/
theorem second_addition_not_told :
    ∃ first change reports failure projection results m₁ m₂,
      Library.additions.compile Library.admin Library.snapshot defaultLimit =
        .ok ([first] ++ .mutation change
          (.object [("success", .bool true), ("changes", .list reports)]) failure projection ::
            []) ∧
      (Plan.run [first]).result Library.memory = (.ok results, m₁) ∧
      (Store.change change).result m₁ = (.ok true, m₂) ∧ ¬Tells reports m₁.schema m₂.schema := by
  refine ⟨_, _, _, _, _, _, Library.grown, _, rfl, rfl, rfl, ?_⟩
  rintro ⟨names, -, -, heq⟩
  cases names with
  | nil => cases heq
  | cons n names =>
    injection heq with hpair
    injection hpair with hentries
    injection hentries with hentry
    injection hentry with _ hold
    have hn : n = "User" := by
      rcases Library.grown.schema.shown_eq_null_or n with hnull | ⟨rest, hrest⟩
      · rw [hnull] at hold
        cases hold
      · rw [hrest] at hold
        injection hold with hfields
        injection hfields with hname
        injection hname with _ hname
        injection hname with hname
        exact hname.symm
    subst hn
    have hfields := ObjectType.members_toValue_of_toRecord (t := Library.userType)
      (u := Library.userType.withFields [idField, Library.textField "a"]) hold
    cases hfields

end ObjectQuery
