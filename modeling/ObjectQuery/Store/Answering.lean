import ObjectQuery.Plan.Compile
import ObjectQuery.Store.Execution

/-!
# Answering a query

A text is read and all of its calls are compiled before any of them is run, so what has no plan
never comes to a store.
-/

set_option autoImplicit false

namespace ObjectQuery

/-- Callers without credentials are anonymous. -/
def Credentials.ofCaller (credentials : Option Credentials) : Credentials := credentials.getD {}

inductive QueryFailure
  /-- There is no plan. -/
  | query (e : QueryError)
  | run (f : Failure)

/-- The results of the calls of a query, and the store after them. -/
def Query.execute {σ : Type} [Store σ] (i : Snapshot) (text : String)
    (credentials : Option Credentials) (limit : Int) (s : σ) :
    Except QueryFailure (List Result) × σ :=
  match Plan.ofText (.ofCaller credentials) i limit text with
  | .error e => (.error (.query e), s)
  | .ok p =>
    let (outcome, t) := p.run.result s
    (outcome.mapError .run, t)

namespace Query

variable {σ : Type} [Store σ] {i : Snapshot} {text : String} {credentials : Option Credentials}
  {limit : Int}

theorem execute_of_ofText_error {e : QueryError}
    (h : Plan.ofText (.ofCaller credentials) i limit text = .error e) (s : σ) :
    execute i text credentials limit s = (.error (.query e), s) := by
  rw [execute, h]

theorem execute_of_ofText_ok {p : Plan}
    (h : Plan.ofText (.ofCaller credentials) i limit text = .ok p) (s : σ) :
    execute i text credentials limit s =
      ((p.run.result s).1.mapError .run, (p.run.result s).2) := by
  rw [execute, h]

end Query

end ObjectQuery
