import ObjectQuery.Store.Basic

/-!
# Requests to stores

A store around another one that keeps a list of what it is asked, and a store around another one in
which a record cannot be reached.
-/

set_option autoImplicit false

namespace ObjectQuery

inductive Request
  | fetchById (typeName : String) (id : Value)
  | fetchMany (typeName : String) (filters : Filters) (page : Page)
  | fetchRelated (typeName fieldName : String) (owner : Value) (page : Page)
  | countMany (typeName : String) (filters : Filters)
  | countRelated (typeName fieldName : String) (owner : Value)
  | change (c : SchemaChange)

structure Recorded (σ : Type) where
  store : σ
  requests : List Request

namespace Recorded

variable {σ α : Type}

/-- Asks the store within, after the request has been listed. -/
def ask (r : Request) (x : Access σ α) : Access (Recorded σ) α :=
  ExceptT.mk fun s =>
    let (a, t) := x.result s.store
    (a, ⟨t, s.requests ++ [r]⟩)

instance [Store σ] : Store (Recorded σ) where
  fetchById typeName id := ask (.fetchById typeName id) (Store.fetchById typeName id)
  fetchMany typeName filters page :=
    ask (.fetchMany typeName filters page) (Store.fetchMany typeName filters page)
  fetchRelated typeName fieldName owner page :=
    ask (.fetchRelated typeName fieldName owner page)
      (Store.fetchRelated typeName fieldName owner page)
  countMany typeName filters := ask (.countMany typeName filters) (Store.countMany typeName filters)
  countRelated typeName fieldName owner :=
    ask (.countRelated typeName fieldName owner) (Store.countRelated typeName fieldName owner)
  change c := ask (.change c) (Store.change c)

theorem result_ask (r : Request) (x : Access σ α) (s : Recorded σ) :
    (ask r x).result s = ((x.result s.store).1, ⟨(x.result s.store).2, s.requests ++ [r]⟩) := rfl

end Recorded

/-- A store in which the record of an id cannot be reached. The store within is asked first, and
fails in its own way where it does. -/
structure Failing (σ : Type) where
  store : σ
  id : Option Value

namespace Failing

variable {σ α : Type}

def ask (x : Access σ α) : Access (Failing σ) α :=
  ExceptT.mk fun s =>
    let (a, t) := x.result s.store
    (a, ⟨t, s.id⟩)

instance [Store σ] : Store (Failing σ) where
  fetchById typeName id := do
    let found ← ask (Store.fetchById typeName id)
    if (← get).id.any id.equal then throw (.fault .unavailable)
    return found
  fetchMany typeName filters page := ask (Store.fetchMany typeName filters page)
  fetchRelated typeName fieldName owner page :=
    ask (Store.fetchRelated typeName fieldName owner page)
  countMany typeName filters := ask (Store.countMany typeName filters)
  countRelated typeName fieldName owner := ask (Store.countRelated typeName fieldName owner)
  change c := ask (Store.change c)

end Failing

end ObjectQuery
