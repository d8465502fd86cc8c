import ObjectQuery.Schema.Kind
import ObjectQuery.Schema.Validation

/-!
# Snapshots

A schema that passed validation, with what it was checked against and the kind of every field. It is
what queries are compiled against; a schema is checked once, and not again for each query.
-/

set_option autoImplicit false

namespace ObjectQuery

/-- The rules of a deployment: callers have a type. -/
def Validation.Rules.standard : Validation.Rules := ⟨Registry.standard, [.text userTypeName]⟩

namespace Schema

def kindsIn (s : Schema) (t : ObjectType) : Except KindError (List (Spot × FieldKind)) :=
  t.declared.mapM fun f => do return (⟨t.name, f.name⟩, ← s.kindOf f)

def kinds (s : Schema) : Except KindError (List (Spot × FieldKind)) := do
  return (← s.types.mapM s.kindsIn).flatten

end Schema

structure Snapshot where
  schema : Schema
  rules : Validation.Rules
  kinds : List (Spot × FieldKind)
  valid : schema.Valid rules
  kinds_eq : schema.kinds = .ok kinds

inductive SnapshotError
  | invalid (violations : List Violation)
  | unresolved (e : KindError)
  | misuse (m : Misuse)

/-- All that is wrong with a schema, in one line. -/
def Violation.summary (violations : List Violation) : String :=
  String.intercalate "; " (violations.map Violation.message)

def Snapshot.ofSchema (rules : Validation.Rules) (s : Schema) : Except SnapshotError Snapshot :=
  match valid : s.violations rules with
  | .error m => .error (.misuse m)
  | .ok [] =>
    match kinds_eq : s.kinds with
    | .ok kinds => .ok ⟨s, rules, kinds, valid, kinds_eq⟩
    | .error e => .error (.unresolved e)
  | .ok (v :: vs) => .error (.invalid (v :: vs))

theorem Snapshot.ofSchema_schema {rules : Validation.Rules} {s : Schema} {i : Snapshot}
    (h : Snapshot.ofSchema rules s = .ok i) : i.schema = s ∧ i.rules = rules := by
  unfold ofSchema at h
  split at h
  · cases h
  · split at h
    · cases h
      exact ⟨rfl, rfl⟩
    · cases h
  · cases h

end ObjectQuery
