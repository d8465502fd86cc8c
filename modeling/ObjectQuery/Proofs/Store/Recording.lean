import ObjectQuery.Proofs.Outcome
import ObjectQuery.Store.Execution
import ObjectQuery.Store.Requests

/-!
# Recording changes nothing

A run on a store that lists what it is asked comes to what the run on the store within comes to, and
leaves it in the same state.
-/

set_option autoImplicit false

namespace ObjectQuery

/-- A question to a recorded store comes to what the one to the store within comes to. -/
def Access.Echoes {σ α : Type} (x : Access (Recorded σ) α) (y : Access σ α) : Prop :=
  ∀ s requests, ∃ more,
    x.result ⟨s, requests⟩ = ((y.result s).1, ⟨(y.result s).2, requests ++ more⟩)

namespace Access

variable {σ α β : Type}

theorem echoes_ask (r : Request) (x : Access σ α) : (Recorded.ask r x).Echoes x :=
  fun s requests => ⟨[r], Recorded.result_ask r x ⟨s, requests⟩⟩

theorem echoes_pure (a : α) : (pure a : Access (Recorded σ) α).Echoes (pure a) :=
  fun s requests => ⟨[], by rw [List.append_nil]; rfl⟩

theorem echoes_ofExcept (x : Except Misuse α) :
    (ofExcept x : Access (Recorded σ) α).Echoes (ofExcept x) := by
  cases x with
  | ok a => exact echoes_pure a
  | error m => exact fun s requests => ⟨[], by rw [List.append_nil]; rfl⟩

theorem Echoes.bind {x : Access (Recorded σ) α} {y : Access σ α} {f : α → Access (Recorded σ) β}
    {g : α → Access σ β} (h : x.Echoes y) (hf : ∀ a, (f a).Echoes (g a)) :
    (x >>= f).Echoes (y >>= g) := by
  intro s requests
  obtain ⟨more, hx⟩ := h s requests
  rw [result_bind, result_bind, hx]
  rcases y.result s with ⟨r, t⟩
  cases r with
  | error e => exact ⟨more, rfl⟩
  | ok a =>
    obtain ⟨rest, hrest⟩ := hf a t (requests ++ more)
    exact ⟨more ++ rest, by rw [← List.append_assoc]; exact hrest⟩

theorem echoes_mapM {f : α → Access (Recorded σ) β} {g : α → Access σ β}
    (h : ∀ x, (f x).Echoes (g x)) (xs : List α) : (xs.mapM f).Echoes (xs.mapM g) := by
  induction xs with
  | nil => exact echoes_pure []
  | cons x xs ih =>
    rw [List.mapM_cons, List.mapM_cons]
    exact (h x).bind fun _ => ih.bind fun _ => echoes_pure _

end Access

theorem Output.echoes_unlessNull {σ : Type} {v : Value}
    {present : Value → Access (Recorded σ) Result} {present' : Value → Access σ Result}
    (h : ∀ v, (present v).Echoes (present' v)) :
    (unlessNull v present).Echoes (unlessNull v present') := by
  unfold unlessNull
  split
  · exact Access.echoes_pure _
  · exact h v

section Presenting

variable {σ : Type} [Store σ]

namespace Output

open Access

theorem echoes_fetchRelated (outputs : List Output) (target reverse : String) (page : Page)
    (owner : Value) :
    (fetchRelated outputs target reverse page owner : Access (Recorded σ) _).Echoes
      (fetchRelated outputs target reverse page owner) := by
  unfold fetchRelated
  split
  · exact echoes_ask _ _
  · exact (echoes_ask _ _).bind fun _ => echoes_pure _

mutual

theorem echoes_evaluate : (o : Output) → ∀ record : Value,
    (evaluate record o : Access (Recorded σ) Result).Echoes (evaluate record o)
  | .leaf n (.field f), record => (echoes_ofExcept _).bind fun _ => echoes_pure _
  | .leaf n (.typeName t), record => echoes_pure _
  | .nested n source typeName outputs, record => by
    have hobject (v : Value) := (echoes_evaluateAll outputs v).bind fun shown =>
      echoes_pure (Result.object shown)
    cases source with
    | embedded field isList =>
      rw [evaluate, evaluate]
      refine (echoes_ofExcept _).bind fun v => echoes_unlessNull fun v => ?_
      split
      · refine (echoes_ofExcept _).bind fun items => ?_
        exact (echoes_mapM (fun item => echoes_unlessNull hobject) items).bind fun _ =>
          echoes_pure _
      · exact hobject v
    | listed field => exact (echoes_ofExcept _).bind fun v => (echoes_ofExcept _).bind hobject
    | related field target =>
      refine (echoes_ofExcept _).bind fun v => echoes_unlessNull fun id => ?_
      refine (echoes_ask _ _).bind fun found => ?_
      cases found with
      | none => exact echoes_pure _
      | some found => exact hobject found
    | connection target reverse page =>
      refine (echoes_ofExcept _).bind fun owner => ?_
      refine (echoes_fetchRelated outputs target reverse page owner).bind fun fetched => ?_
      exact (echoes_ofExcept _).bind hobject

theorem echoes_evaluateAll : (os : List Output) → ∀ record : Value,
    (evaluateAll record os : Access (Recorded σ) _).Echoes (evaluateAll record os)
  | [], record => echoes_pure _
  | o :: os, record => by
    rw [evaluateAll, evaluateAll]
    exact (echoes_evaluate o record).bind fun _ =>
      (echoes_evaluateAll os record).bind fun _ => echoes_pure _

end

end Output

open Access

theorem Projection.echoes_present (p : Projection) (record : Value) :
    (p.present record : Access (Recorded σ) Result).Echoes (p.present record) :=
  (Output.echoes_evaluateAll p.outputs record).bind fun _ => echoes_pure _

theorem Projection.echoes_fetch (p : Projection) (n : String) (filters : Filters) (page : Page) :
    (p.fetch n filters page : Access (Recorded σ) _).Echoes (p.fetch n filters page) := by
  unfold fetch
  split
  · exact echoes_ask _ _
  · exact (echoes_ask _ _).bind fun _ => echoes_pure _

theorem CallPlan.echoes_run (p : CallPlan) :
    (p.run : Access (Recorded σ) Result).Echoes p.run := by
  cases p with
  | fetchNode n id projection =>
    refine (echoes_ask _ _).bind fun found => ?_
    cases found with
    | none => exact echoes_pure _
    | some found => exact projection.echoes_present found
  | fetchNodes n filters page projection =>
    exact (projection.echoes_fetch n filters page).bind fun _ =>
      (echoes_ofExcept _).bind fun _ => projection.echoes_present _
  | introspection record projection => exact projection.echoes_present record
  | mutation change success failure projection =>
    exact (echoes_ask _ _).bind fun _ => projection.echoes_present _

/-- A run is not changed by being recorded. -/
theorem Plan.echoes_run (p : Plan) : (p.run : Access (Recorded σ) _).Echoes p.run :=
  echoes_mapM CallPlan.echoes_run p

end Presenting

end ObjectQuery
