import ObjectQuery.Plan.Compile
import ObjectQuery.Store.Execution

/-!
# Answers

What a query that only reads asks for, by recursion over its calls. A selection is answered from the
record that it is made on, and from the records of other types where a field leads to them; there is
no plan in between.

The records of a world are as its schema has them if they are objects that hold a value of the right
shape in every declared field, or none, and if those of types with ids have texts as ids, each its
own.
-/

set_option autoImplicit false

namespace ObjectQuery

namespace Value

/-- What a record holds in a field, null if nothing. -/
def held (record : Value) (name : String) : Value :=
  match record with
  | object entries => (entries.lookup name).getD null
  | _ => null

/-- The id of a record that has one. -/
def idText (record : Value) : String := ((record.held idName).text?).getD ""

end Value

/-- What an object shows under a name. -/
def Result.part? (name : String) : Result → Option Result
  | object entries => entries.lookup name
  | _ => none

/-- Records in order of their ids. -/
def inOrder (records : List Value) : List Value :=
  records.mergeSort fun a b => decide (a.idText ≤ b.idText)

namespace Call

/-- What an argument of a name is given as. -/
def given? (c : Call) (name : String) : Option Atom :=
  (c.namedArguments.lookup name).map (·.value)

def firstCount? (c : Call) : Option Nat :=
  match c.given? firstName with
  | some (.number (.whole (.ofNat n))) => some n
  | _ => none

def afterId? (c : Call) : Option String :=
  (c.given? afterName).bind fun a => (Scalar.idOf a.value).toOption

/-- The part of ordered records that a call asks to be shown: the first ones, so many at most, of
those after a certain id. -/
def window (c : Call) (records : List Value) : List Value :=
  let rest := match c.afterId? with
    | some id => records.filter fun r => decide (id < r.idText)
    | none => records
  match c.firstCount? with
  | some n => rest.take n
  | none => rest

end Call

/-- A schema, and the records of each type in any order. -/
structure World where
  schema : Schema
  records : String → List Value

/-- What selections are made on. -/
inductive Subject
  | object (type : ObjectType) (record : Value)
  /-- The number of all records, and those that are shown. -/
  | connection (type : ObjectType) (count : Nat) (shown : List Value)
  | edge (type : ObjectType) (record : Value)

namespace World

/-- The record of an id. -/
def byId? (w : World) (typeName id : String) : Option Value :=
  (w.records typeName).find? (·.idText == id)

/-- The kind of a declared field. -/
def kind? (w : World) (t : ObjectType) (name : String) : Option FieldKind :=
  (t.field? name).bind fun f => (w.schema.kindOf f).toOption

/-- The records that hold an id in a field. -/
def holding (w : World) (typeName field id : String) : List Value :=
  inOrder ((w.records typeName).filter fun r => (r.held field).spells id)

mutual

/-- What a selection shows. -/
def shows (w : World) (x : Subject) : Call → Result
  | .mk name arguments selections location =>
    match x with
    | .object t record =>
      if name = typenameName then .value (.text t.label)
      else
        match w.kind? t name with
        | some (.reference target false) =>
          match w.schema.type? target with
          | some u =>
            match record.held name with
            | .object entries => .object (w.showsAll (.object u (.object entries)) selections)
            | _ => .null
          | none => .null
        | some (.objectList target) =>
          match w.schema.type? target with
          | some u =>
            match record.held name with
            | .list items =>
              .list (items.map fun item =>
                if item.isNull then .null else .object (w.showsAll (.object u item) selections))
            | _ => .null
          | none => .null
        | some (.reference target true) =>
          match w.schema.type? target with
          | some u =>
            match (record.held name).text?.bind (w.byId? target) with
            | some found => .object (w.showsAll (.object u found) selections)
            | none => .null
          | none => .null
        | some (.connection (.text target) (.text reverse)) =>
          match w.schema.type? target with
          | some u =>
            let found := w.holding target reverse record.idText
            let shown := (Call.mk name arguments selections location).window found
            .object (w.showsAll (.connection u found.length shown) selections)
          | none => .null
        | _ => .value (record.held name)
    | .connection t count shown =>
      if name = countName then .value (.int count)
      else if name = nodesName then
        .list (shown.map fun r => .object (w.showsAll (.object t r) selections))
      else .list (shown.map fun r => .object (w.showsAll (.edge t r) selections))
    | .edge t record =>
      if name = cursorName then .value (.text record.idText)
      else .object (w.showsAll (.object t record) selections)

def showsAll (w : World) (x : Subject) : List Call → List (String × Result)
  | [] => []
  | c :: cs => (c.name, w.shows x c) :: w.showsAll x cs

end

section Fields

variable {w : World} {t u : ObjectType} {record : Value} {c : Call} {n : String}

theorem kind?_eq {f : Field} {k : FieldKind} {name : String} (hf : t.field? name = some f)
    (hk : w.schema.kindOf f = .ok k) : w.kind? t name = some k := by
  rw [kind?, hf, Option.bind_some, hk]
  rfl

theorem shows_typeName (hn : c.name = typenameName) :
    w.shows (.object t record) c = .value (.text t.label) := by
  obtain ⟨name, arguments, selections, location⟩ := c
  exact if_pos hn

theorem shows_builtIn (hn : c.name ≠ typenameName) (hf : t.field? c.name = none) :
    w.shows (.object t record) c = .value (record.held c.name) := by
  obtain ⟨name, arguments, selections, location⟩ := c
  change name ≠ typenameName at hn
  change t.field? name = none at hf
  refine (if_neg hn).trans ?_
  simp only [kind?, hf, Option.bind_none]
  rfl

/-- Values and lists of values are shown as they are held. -/
theorem shows_held {k : FieldKind} {s : Scalar} (hn : c.name ≠ typenameName)
    (hk : w.kind? t c.name = some k) (hs : k = .scalar s ∨ k = .scalarList s) :
    w.shows (.object t record) c = .value (record.held c.name) := by
  obtain ⟨name, arguments, selections, location⟩ := c
  change name ≠ typenameName at hn
  change w.kind? t name = _ at hk
  refine (if_neg hn).trans ?_
  rcases hs with rfl | rfl <;> simp only [hk] <;> rfl

theorem shows_embedded (hn : c.name ≠ typenameName)
    (hk : w.kind? t c.name = some (.reference n false)) (hu : w.schema.type? n = some u) :
    w.shows (.object t record) c = match record.held c.name with
      | .object entries => .object (w.showsAll (.object u (.object entries)) c.selections)
      | _ => .null := by
  obtain ⟨name, arguments, selections, location⟩ := c
  change name ≠ typenameName at hn
  change w.kind? t name = _ at hk
  refine (if_neg hn).trans ?_
  simp only [hk, hu]
  rfl

theorem shows_objectList (hn : c.name ≠ typenameName)
    (hk : w.kind? t c.name = some (.objectList n)) (hu : w.schema.type? n = some u) :
    w.shows (.object t record) c = match record.held c.name with
      | .list items => .list (items.map fun item =>
          if item.isNull then .null else .object (w.showsAll (.object u item) c.selections))
      | _ => .null := by
  obtain ⟨name, arguments, selections, location⟩ := c
  change name ≠ typenameName at hn
  change w.kind? t name = _ at hk
  refine (if_neg hn).trans ?_
  simp only [hk, hu]
  rfl

theorem shows_related (hn : c.name ≠ typenameName)
    (hk : w.kind? t c.name = some (.reference n true)) (hu : w.schema.type? n = some u) :
    w.shows (.object t record) c = match (record.held c.name).text?.bind (w.byId? n) with
      | some found => .object (w.showsAll (.object u found) c.selections)
      | none => .null := by
  obtain ⟨name, arguments, selections, location⟩ := c
  change name ≠ typenameName at hn
  change w.kind? t name = _ at hk
  refine (if_neg hn).trans ?_
  simp only [hk, hu]
  rfl

theorem shows_connection {reverse : String} (hn : c.name ≠ typenameName)
    (hk : w.kind? t c.name = some (.connection (.text n) (.text reverse)))
    (hu : w.schema.type? n = some u) :
    w.shows (.object t record) c =
      .object (w.showsAll (.connection u (w.holding n reverse record.idText).length
        (c.window (w.holding n reverse record.idText))) c.selections) := by
  obtain ⟨name, arguments, selections, location⟩ := c
  change name ≠ typenameName at hn
  change w.kind? t name = _ at hk
  refine (if_neg hn).trans ?_
  simp only [hk, hu]
  rfl

end Fields

/-- The value that an argument of a call asks a field to have, unless it chooses the page. -/
def wanted? (w : World) (t : ObjectType) (a : String × Argument) : Option Value :=
  if Page.argumentNames.contains a.1 then none
  else
    match w.kind? t a.1 with
    | some (.scalar s) => (s.coerce a.2.value.value).toOption
    | _ => none

/-- Whether a record holds what a call asks for. -/
def meets (w : World) (t : ObjectType) (c : Call) (record : Value) : Bool :=
  c.namedArguments.all fun a => (w.wanted? t a).all fun v => (record.held a.1).equal v

def node (w : World) (c : Call) : Result :=
  match c.positional.map Argument.value with
  | [.name typeName, id] =>
    match w.schema.type? typeName, (Scalar.idOf id.value).toOption.bind (w.byId? typeName) with
    | some t, some found => .object (w.showsAll (.object t found) c.selections)
    | _, _ => .null
  | _ => .null

def nodes (w : World) (c : Call) : Result :=
  match c.positional.map Argument.value with
  | [.name typeName] =>
    match w.schema.type? typeName with
    | some t =>
      let found := inOrder ((w.records typeName).filter (w.meets t c))
      .object (w.showsAll (.connection t found.length (c.window found)) c.selections)
    | none => .null
  | _ => .null

/-- The answer to a call that reads records. -/
def answer (w : World) (c : Call) : Result :=
  if c.name = Operation.node.name then w.node c else w.nodes c

end World

mutual

/-- A value that a field of a kind can hold. What a connection or a scalar field holds is shown as
it is or not at all. -/
inductive Fits (s : Schema) : FieldKind → Value → Prop where
  | null {k : FieldKind} : Fits s k .null
  | scalar {c : Scalar} {v : Value} : Fits s (.scalar c) v
  | scalarList {c : Scalar} {v : Value} : Fits s (.scalarList c) v
  | connection {target reverse v : Value} : Fits s (.connection target reverse) v
  | related {n id : String} : Fits s (.reference n true) (.text id)
  | embedded {n : String} {t : ObjectType} {v : Value} (ht : s.type? n = some t)
      (hv : Shaped s t v) : Fits s (.reference n false) v
  | objectList {n : String} {t : ObjectType} {items : List Value} (ht : s.type? n = some t)
      (hv : ∀ item ∈ items, item ≠ .null → Shaped s t item) : Fits s (.objectList n) (.list items)

/-- An object of a type. -/
inductive Shaped (s : Schema) : ObjectType → Value → Prop where
  | object {t : ObjectType} {entries : List (String × Value)}
      (hf : ∀ name f k, t.field? name = some f → s.kindOf f = .ok k →
        Fits s k ((Value.object entries).held name)) : Shaped s t (.object entries)

end

/-- A record with a text as its id. -/
def HasId (record : Value) : Prop := ∃ id, record.held idName = .text id

structure World.Sound (w : World) : Prop where
  shaped : ∀ {n t}, w.schema.type? n = some t → t.isNode → ∀ r ∈ w.records n, Shaped w.schema t r
  hasId : ∀ {n t}, w.schema.type? n = some t → t.isNode → ∀ r ∈ w.records n, HasId r
  distinct : ∀ {n t}, w.schema.type? n = some t → t.isNode →
    ((w.records n).map Value.idText).Nodup

end ObjectQuery
