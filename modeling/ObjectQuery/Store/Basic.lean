import ObjectQuery.Plan.Basic

/-!
# Stores

What a plan needs to be run: records by id, pages of records by what they hold, how many there are,
and changes of the schema. A page comes with the number of all records that it is a page of, in
order of their ids; the id of a record is its cursor.

Asking a store something can fail, and it can change the store. A store is left as it is at the
moment of the failure, with all that was changed before.
-/

set_option autoImplicit false

namespace ObjectQuery

inductive Fault
  | unavailable
  /-- Records of a type that has no table. -/
  | noTable (typeName : String)
  | notCounted (table : String)
  | notQueried
  | notInserted (typeName : String)
  | notChanged
  | notCreated
deriving DecidableEq, Repr

/-- Why there is no answer: the store fails, or a value is not of the shape it is used in. -/
inductive Failure
  | fault (f : Fault)
  | misuse (m : Misuse)
deriving DecidableEq, Repr

def Fault.message : Fault → String
  | unavailable => "The backing store is unavailable."
  | noTable typeName => s!"No table stores the records of type {typeName}."
  | notCounted table => s!"Failed to count records of {table}"
  | notQueried => "Failed to run query"
  | notInserted typeName => s!"Failed to insert records into {typeName}"
  | notChanged => "Failed to apply schema"
  | notCreated => "Failed to create tables"

/-- What a store is asked: it may change the store, and it may fail. -/
abbrev Access (σ α : Type) : Type := ExceptT Failure (StateM σ) α

namespace Access

variable {σ α : Type}

/-- The result, and the store after it. -/
def result (x : Access σ α) (s : σ) : Except Failure α × σ := x.run.run s

def ofExcept (x : Except Misuse α) : Access σ α :=
  match x with
  | .ok a => pure a
  | .error m => throw (.misuse m)

@[simp] theorem result_pure (a : α) (s : σ) : (pure a : Access σ α).result s = (.ok a, s) := rfl

@[simp] theorem result_throw (f : Failure) (s : σ) :
    (throw f : Access σ α).result s = (.error f, s) := rfl

@[simp] theorem ofExcept_ok (a : α) : (ofExcept (.ok a) : Access σ α) = pure a := rfl

@[simp] theorem ofExcept_error (m : Misuse) :
    (ofExcept (.error m) : Access σ α) = throw (.misuse m) := rfl

theorem result_bind {β : Type} (x : Access σ α) (f : α → Access σ β) (s : σ) :
    (x >>= f).result s =
      match x.result s with
      | (.ok a, t) => (f a).result t
      | (.error e, t) => (.error e, t) := by
  show ((x >>= f : ExceptT Failure (StateM σ) β).run).run s = _
  simp only [result, ExceptT.run_bind, StateT.run_bind]
  rcases h : (x.run.run s) with ⟨r, t⟩
  cases r <;> rfl

end Access

structure Fetched where
  records : List Value
  count : Nat

class Store (σ : Type) where
  fetchById (typeName : String) (id : Value) : Access σ (Option Value)
  /-- The records that hold what the filters say. -/
  fetchMany (typeName : String) (filters : Filters) (page : Page) : Access σ Fetched
  /-- The records that hold the id of an owner in a field. -/
  fetchRelated (typeName fieldName : String) (owner : Value) (page : Page) : Access σ Fetched
  countMany (typeName : String) (filters : Filters) : Access σ Nat
  countRelated (typeName fieldName : String) (owner : Value) : Access σ Nat
  /-- Whether a change is made. -/
  change (c : SchemaChange) : Access σ Bool

namespace Store

variable {σ : Type} [Store σ]

def emptyPage : Page := ⟨some (.int 0), none⟩

/-- Counts by the number that comes with an empty page. -/
def countManyByPage (typeName : String) (filters : Filters) : Access σ Nat := do
  return (← fetchMany typeName filters emptyPage).count

def countRelatedByPage (typeName fieldName : String) (owner : Value) : Access σ Nat := do
  return (← fetchRelated typeName fieldName owner emptyPage).count

end Store

end ObjectQuery
