import ObjectQuery.Proofs.Plan.Failures
import ObjectQuery.Proofs.Query.Execution
import ObjectQuery.Store.Answering
import ObjectQuery.Store.Requests

/-!
# What credentials decide

Whoever makes a query may change the schema or may not; its compilation asks nothing else of them,
and asks it of the calls that change the schema only, before anything else about such a call is
looked at. So callers who may not change the schema are told the same about such a call whatever the
schema is, and a query with such a call in it never comes to a store.
-/

set_option autoImplicit false

namespace ObjectQuery

open Outcome

/-- The names of the calls that change a schema. -/
def Operation.mutationNames : List String := ["createType", "deleteType", "addField", "removeField"]

theorem Operation.name_mem_mutationNames {o : Operation} :
    o.name ∈ mutationNames ↔ o.isMutation = true := by
  cases o <;> decide

def Call.ChangesSchema (c : Call) : Prop := c.name ∈ Operation.mutationNames

theorem Call.changesSchema_iff {c : Call} :
    c.ChangesSchema ↔ ∃ o, Operation.ofName? c.name = some o ∧ o.isMutation = true := by
  simp only [Operation.ofName?_eq_some_iff]
  constructor
  · intro h
    have hname : ∃ o : Operation, c.name = o.name := by
      simp only [ChangesSchema, Operation.mutationNames, List.mem_cons, List.not_mem_nil,
        or_false] at h
      rcases h with h | h | h | h
      · exact ⟨.createType, h⟩
      · exact ⟨.deleteType, h⟩
      · exact ⟨.addField, h⟩
      · exact ⟨.removeField, h⟩
    obtain ⟨o, ho⟩ := hname
    exact ⟨o, ho, Operation.name_mem_mutationNames.mp (ho ▸ h)⟩
  · rintro ⟨o, ho, hmutation⟩
    rw [ChangesSchema, ho]
    exact Operation.name_mem_mutationNames.mpr hmutation

namespace Compile

variable {credentials credentials' : Credentials} {i : Snapshot} {limit : Int} {c : Call}

theorem authorize_eq_error {o : Operation} (h : credentials.isAdmin = false)
    (ho : o.isMutation = true) :
    authorize credentials o c = .error (.unauthorized c.name c.location) := by
  simp [authorize, h, ho]

/-- A call that changes the schema is refused by its name and its place alone. -/
theorem call_of_changesSchema (h : credentials.isAdmin = false) (hc : c.ChangesSchema) :
    call credentials i limit c = .error (.unauthorized c.name c.location) := by
  obtain ⟨o, ho, hmutation⟩ := Call.changesSchema_iff.mp hc
  rw [call, ho]
  exact congrArg (· >>= fun _ => operation i limit c o) (authorize_eq_error h hmutation)

theorem call_congr (h : credentials.isAdmin = credentials'.isAdmin ∨ ¬c.ChangesSchema) :
    call credentials i limit c = call credentials' i limit c := by
  unfold call
  cases ho : Operation.ofName? c.name with
  | none => rfl
  | some o =>
    have hauthorize : authorize credentials o c = authorize credentials' o c := by
      rcases h with h | h
      · rw [authorize, authorize, h]
      · have hno : o.isMutation = false := by
          by_contra hmutation
          exact h (Call.changesSchema_iff.mpr ⟨o, ho, Bool.eq_true_of_not_eq_false hmutation⟩)
        rw [authorize_of_not_mutation _ _ hno, authorize_of_not_mutation _ _ hno]
    exact congrArg (· >>= fun _ => operation i limit c o) hauthorize

end Compile

namespace Query

variable {credentials credentials' : Credentials} {i : Snapshot} {limit : Int} {q rest : Query}
  {c : Call}

theorem compile_congr
    (h : credentials.isAdmin = credentials'.isAdmin ∨ ∀ c ∈ q, ¬c.ChangesSchema) :
    q.compile credentials i limit = q.compile credentials' i limit :=
  mapM_congr fun c hc => Compile.call_congr (h.imp_right fun h => h c hc)

theorem compile_ne_ok (i : Snapshot) (limit : Int) (h : credentials.isAdmin = false)
    (hc : ∃ c ∈ q, c.ChangesSchema) : ∃ e, q.compile credentials i limit = .error e := by
  obtain ⟨c, hmem, hc⟩ := hc
  cases hq : q.compile credentials i limit with
  | error e => exact ⟨e, rfl⟩
  | ok p =>
    obtain ⟨p, _, hp⟩ := ok_of_mem_mapM hq hmem
    cases (Compile.call_of_changesSchema h hc).symm.trans hp

theorem compile_cons_of_changesSchema (h : credentials.isAdmin = false) (hc : c.ChangesSchema) :
    compile credentials i limit (c :: rest) = .error (.unauthorized c.name c.location) :=
  mapM_cons_eq_error.mpr (.inl (Compile.call_of_changesSchema h hc))

/-- All that a caller's credentials decide is whether calls that change the schema are refused. A
query with such a call has no plan and comes to no store; one without is the same to all callers;
and if the first call is such a call, all that is told of it is what it is called and where. -/
theorem compile_guards_schema (i : Snapshot) (limit : Int) (q : Query) :
    (∀ credentials credentials' : Option Credentials,
      (Credentials.ofCaller credentials).isAdmin = (Credentials.ofCaller credentials').isAdmin →
      q.compile (.ofCaller credentials) i limit = q.compile (.ofCaller credentials') i limit) ∧
    ((∃ c ∈ q, c.ChangesSchema) → ∀ credentials : Option Credentials,
      (Credentials.ofCaller credentials).isAdmin = false →
      (∃ e, q.compile (.ofCaller credentials) i limit = .error e) ∧
      ∀ text, Query.parse text = .ok q → ∀ (σ : Type) [Store σ] (s : Recorded σ),
        ∃ e, execute i text credentials limit s = (.error (.query (.compile e)), s)) ∧
    ((∀ c ∈ q, ¬c.ChangesSchema) → ∀ credentials credentials' : Option Credentials,
      q.compile (.ofCaller credentials) i limit = q.compile (.ofCaller credentials') i limit) ∧
    (∀ c rest, q = c :: rest → c.ChangesSchema → ∀ credentials : Option Credentials,
      (Credentials.ofCaller credentials).isAdmin = false →
      q.compile (.ofCaller credentials) i limit = .error (.unauthorized c.name c.location) ∧
      ∀ (j : Snapshot) (limit' : Int) (arguments : List Argument) (selections rest' : List Call),
        compile (.ofCaller credentials) j limit'
            (.mk c.name arguments selections c.location :: rest') =
          q.compile (.ofCaller credentials) i limit) := by
  refine ⟨fun _ _ h => compile_congr (.inl h), ?_, fun h _ _ => compile_congr (.inr h), ?_⟩
  · intro hc credentials h
    obtain ⟨e, he⟩ := compile_ne_ok i limit h hc
    refine ⟨⟨e, he⟩, fun text hparse σ _ s => ⟨e, ?_⟩⟩
    exact execute_of_ofText_error (Plan.ofText_eq_compile.mpr ⟨q, hparse, he⟩) s
  · rintro c rest rfl hc credentials h
    refine ⟨compile_cons_of_changesSchema h hc, fun j limit' arguments selections rest' => ?_⟩
    have hother : (Call.mk c.name arguments selections c.location).ChangesSchema := hc
    exact (compile_cons_of_changesSchema h hother).trans (compile_cons_of_changesSchema h hc).symm

end Query

namespace Library

/-- A book loses its title, and then all books are counted. -/
def untitling : List Char :=
  "removeField(Book, title) \x7b success \x7d nodes(Book) \x7b count \x7d".toList

end Library

/-- Whoever may not change the schema of the library learns of the title only that they may not. -/
theorem library_untitling_refused : ∃ c rest,
    Query.parse (String.ofList Library.untitling) = .ok (c :: rest) ∧ c.ChangesSchema ∧
    (∃ e, Query.execute Library.snapshot (String.ofList Library.untitling) none defaultLimit
        (⟨Library.memory, []⟩ : Recorded Memory) =
      (.error (.query (.compile e)), ⟨Library.memory, []⟩)) ∧
    Query.compile {} Library.snapshot defaultLimit (c :: rest) =
      .error (.unauthorized "removeField" c.location) ∧
    ∀ credentials, Query.compile credentials Library.snapshot defaultLimit rest =
      Query.compile {} Library.snapshot defaultLimit rest := by
  have hread : (Query.parse (String.ofList Library.untitling)).toOption.any (fun q =>
      q.map Call.name = ["removeField", "nodes"]) = true := by
    refine (congrArg (fun x => Option.any _ (Except.toOption x)) (Query.parse_ofList _)).trans ?_
    decide +kernel
  obtain ⟨q, hq, hnames⟩ := exists_of_any hread
  have hnames := of_decide_eq_true hnames
  obtain ⟨c, rest, rfl, hc, hrest⟩ := List.map_eq_cons_iff.mp hnames
  have hchanges : c.ChangesSchema := by
    rw [Call.ChangesSchema, hc]
    decide
  have hkeeps : ∀ d ∈ rest, ¬d.ChangesSchema := by
    intro d hd
    have hd := hrest ▸ List.mem_map_of_mem (f := Call.name) hd
    rw [Call.ChangesSchema, List.mem_singleton.mp hd]
    decide
  obtain ⟨_, hrefused, _, hfirst⟩ :=
    Query.compile_guards_schema Library.snapshot defaultLimit (c :: rest)
  obtain ⟨_, _, hsame, _⟩ := Query.compile_guards_schema Library.snapshot defaultLimit rest
  refine ⟨c, rest, hq, hchanges, ?_, ?_, fun credentials => hsame hkeeps (some credentials) none⟩
  · exact (hrefused ⟨c, List.mem_cons_self, hchanges⟩ none rfl).2 _ hq Memory _
  · exact hc ▸ (hfirst c rest rfl hchanges none rfl).1

end ObjectQuery
