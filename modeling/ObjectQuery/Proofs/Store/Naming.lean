import ObjectQuery.Proofs.Store.Catalog
import ObjectQuery.Proofs.Store.Tables

/-!
# Tables that a database can have

Types and fields of a valid schema have different names, but a database takes names for the same
that differ only in the case of letters; some names it keeps for itself, some it takes for words of
the language of statements, and the columns of a table are limited. Nothing else can go wrong: a
valid schema is given tables, and an accepted change is made, exactly if the database can have the
tables. What a change takes away never stands in the way.
-/

set_option autoImplicit false

namespace ObjectQuery

open Outcome Validation

/-- Whether a change takes a type or a field away. -/
def SchemaChange.removes : SchemaChange → Bool
  | deleteType _ => true
  | removeField .. => true
  | createType _ => false
  | addField .. => false

theorem Schema.Valid.storable_of_removes {rules : Rules} {s s' : Schema} {c : SchemaChange}
    {ls ls' : List TableLayout} (h : s.Valid rules) (hr : rules.registry = .standard)
    (h' : s'.Valid rules) (hls : s.layouts .standard = .ok ls)
    (hls' : s'.layouts .standard = .ok ls') (hname : Storable ls) (hc : s.apply c = .ok s')
    (hremoves : c.removes = true) : Storable ls' := by
  cases c with
  | deleteType v =>
    obtain ⟨⟨n, t, rfl, ht⟩, _⟩ := apply_deleteType_eq_ok h.legible hc
    have hspots := h.referring (.text n)
    rw [h.layouts_deleteType hr h' hls hls' hname.toSeparate ht hspots hc]
    exact hname.removed _ _
  | removeField v fieldName =>
    obtain ⟨n, m, t, f, rfl, rfl, ht, hf⟩ := h.exists_removed hc
    rw [h.layouts_removeField hr h' hls hls' hname.toSeparate ht hf hc, ← ls.filter_true]
    exact hname.removed _ _
  | createType | addField => cases hremoves

namespace Relational

variable {r r₀ : Relational} {c : SchemaChange} {s' : Schema} {ls' : List TableLayout}

/-- An accepted change is prepared. -/
theorem Consistent.exists_prepared (h : r.Consistent)
    (hc : r.schema.applyValidated ⟨.standard, []⟩ c = .ok (.ok s')) :
    ∃ changed statements, r.prepare c = .ok (some (changed, statements)) ∧ changed.schema = s' := by
  obtain ⟨spots, hspots⟩ := h.valid.exists_referring c
  have hls' := (Schema.applyValidated_eq_ok hc).2.layouts_eq_ok rfl
  have haccepted : (r.schema.applyValidated ⟨r.registry, []⟩ c).mapError Failure.misuse =
      .ok (.ok s') := by
    rw [h.registry]
    exact mapError_eq_ok.mpr hc
  unfold prepare
  rw [haccepted, ok_bind]
  dsimp only
  split
  · rename_i e he
    rw [h.registry, hls'] at he
    cases he
  · rw [mapError_eq_ok.mpr hspots, ok_bind]
    exact ⟨_, _, rfl, rfl⟩

/-- Whether a store makes a change, after which its schema is another one. -/
def Applies (r : Relational) (c : SchemaChange) (s' : Schema) : Prop :=
  ∃ r', (Store.change c : Access Relational Bool).result r = (.ok true, r') ∧ r'.schema = s'

/-- An accepted change is made if the database can have the tables for it, and fails otherwise. -/
theorem Consistent.applies (h : r.Consistent)
    (hc : r.schema.applyValidated ⟨.standard, []⟩ c = .ok (.ok s'))
    (hls' : s'.layouts .standard = .ok ls') :
    (Storable ls' → r.Applies c s') ∧
      (¬Storable ls' → (Store.change c : Access Relational Bool).result r =
        (.error (.fault .notChanged), r)) := by
  obtain ⟨changed, statements, hp, rfl⟩ := h.exists_prepared hc
  have hprepared := prepare_eq_ok hp
  have hfollows := h.follows hprepared
  have hlayouts := changed.layouts_eq
  rw [hprepared.registry, h.registry, hls'] at hlayouts
  cases hlayouts
  rw [Applies, result_change, hp]
  dsimp only
  generalize changed.database.run statements = ran at hfollows ⊢
  cases hfollows with
  | done _ hstorable _ => exact ⟨fun _ => ⟨_, rfl, rfl⟩, fun hnot => absurd hstorable hnot⟩
  | refused hnot => exact ⟨fun hstorable => absurd hstorable hnot, fun _ => rfl⟩

/-- Tables without a column that is written like the beginning of a constraint. A last column is
taken for one that says nothing, and what becomes of its table is left open here. -/
def Plain (layouts : List TableLayout) : Prop :=
  ∀ l ∈ layouts, ∀ c ∈ l.columns, c.name ≠ "constraint\n"

end Relational

namespace Sizes

def userType : ObjectType where
  name := .text userTypeName
  members := .ofFields [idField]
  interfaces := .list [.text nodeInterface]

def size (name : String) : Field where
  name := .text name
  type := .text "int"

def itemType (fields : List Field) : ObjectType where
  name := .text "Item"
  members := .ofFields (idField :: fields)
  interfaces := .list [.text nodeInterface]

def schema (fields : List Field) : Schema := ⟨[userType, itemType fields]⟩

def addition (name : String) : SchemaChange := .addField (.text "Item") (.field (size name))

end Sizes

end ObjectQuery
