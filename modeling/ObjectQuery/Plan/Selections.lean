import ObjectQuery.Introspection.Types
import ObjectQuery.Plan.Arguments
import ObjectQuery.Schema.Snapshot

/-!
# Selections

What is selected is an object, a connection or its edges. A selection is looked up in what it is
selected on: it is either a leaf or leads to something that is selected on in turn. Its arguments
are checked there and then.

Objects are records of a schema or metadata. A connection has a count, nodes and edges; an edge has
a cursor and a node. Every block of selections is checked before the selections in it: it is not
nested too deeply, it is not empty, and nothing is selected twice.
-/

set_option autoImplicit false

namespace ObjectQuery

def typenameName : String := "__typename"

/-- The name of a type of a snapshot, in which all names are texts. -/
def ObjectType.label (t : ObjectType) : String := t.name.inline

inductive Realm
  | data (i : Snapshot)
  | metadata

inductive Context
  | object (realm : Realm) (type : ObjectType)
  /-- The records of a connection that a call or a selection gives. -/
  | connection (parent : String) (realm : Realm) (type : ObjectType)
  | edges (realm : Realm) (type : ObjectType)

def Context.typeName : Context → String
  | object _ t => t.label
  | connection _ _ t => t.label ++ connectionMarker
  | edges _ t => t.label ++ "Edge"

inductive Selected
  | leaf (l : Leaf)
  | nested (context : Context) (source : Source)

namespace Selected

/-- A leaf takes no arguments and no selections. -/
def plain (c : Call) (kind : LeafKind) (l : Leaf) : Except CompileError Selected := do
  c.withoutArguments
  c.asLeaf kind
  return leaf l

end Selected

namespace Snapshot

/-- The type that a field of a snapshot is declared with. -/
def target (i : Snapshot) (f : Field) (name : Value) : Except CompileError ObjectType :=
  match name.text?.bind i.schema.type? with
  | some t => .ok t
  | none => .error (.unresolved (.defect (.unknownType f)))

/-- A page of the records at the other end of a relation. -/
def selectConnection (i : Snapshot) (f : Field) (typeName reverseName : Value) (c : Call) :
    Except CompileError Selected := do
  if !c.positional.isEmpty then c.refuse .positionalInConnection
  let page ← Page.ofArguments c (← c.allowing Page.argumentNames)
  let t ← i.target f typeName
  return .nested (.connection c.name (.data i) t) (.connection t.label reverseName.inline page)

/-- A selection of a declared field, by the kind of the field. -/
def selectDeclared (i : Snapshot) (f : Field) (c : Call) : Except CompileError Selected := do
  match ← (i.schema.kindOf f).mapError .unresolved with
  | .connection typeName reverseName => i.selectConnection f typeName reverseName c
  | .scalar s => Selected.plain c (.scalar s.name) (.field c.name)
  | .scalarList s => Selected.plain c (.scalarList s.name) (.field c.name)
  | .objectList typeName => do
    c.withoutArguments
    let t ← i.target f (.text typeName)
    return .nested (.object (.data i) t) (.embedded c.name true)
  | .reference typeName isNode => do
    c.withoutArguments
    let t ← i.target f (.text typeName)
    return .nested (.object (.data i) t)
      (if isNode then .related c.name t.label else .embedded c.name false)

/-- Whether a type has a field without declaring it. -/
def hasBuiltIn (i : Snapshot) (t : ObjectType) (name : String) : Bool :=
  (i.rules.registry.typeFields t.name).any (·.name.spells name)

/-- A selection on a record of a schema. The name of the type comes before any field, and a declared
field before a built-in one. -/
def select (i : Snapshot) (t : ObjectType) (c : Call) : Except CompileError Selected :=
  if c.name = typenameName then Selected.plain c .typeName (.typeName t.label)
  else
    match t.field? c.name with
    | some f => i.selectDeclared f c
    | none =>
      if i.hasBuiltIn t c.name then Selected.plain c .builtIn (.field c.name)
      else c.refuse (.unknownField t.label)

end Snapshot

namespace Metadata

def target (f : Field) (name : Value) : Except CompileError ObjectType :=
  match name.text?.bind schema.type? with
  | some t => .ok t
  | none => .error (.unresolved (.defect (.unknownType f)))

/-- A selection of a field of metadata. Connections are lists within the record. -/
def selectDeclared (f : Field) (c : Call) : Except CompileError Selected := do
  if f.isConnection then
    return .nested (.connection c.name .metadata (← target f f.ofType)) (.listed c.name)
  else if f.isList then
    match Scalar.named? f.ofType with
    | some s => Selected.plain c (.scalarList s.name) (.field c.name)
    | none => return .nested (.object .metadata (← target f f.ofType)) (.embedded c.name true)
  else
    match Scalar.named? f.type with
    | some s => Selected.plain c (.scalar s.name) (.field c.name)
    | none => return .nested (.object .metadata (← target f f.type)) (.embedded c.name false)

def select (t : ObjectType) (c : Call) : Except CompileError Selected := do
  c.withoutArguments
  if c.name = typenameName then Selected.plain c .typeName (.typeName t.label)
  else
    match t.field? c.name with
    | some f => selectDeclared f c
    | none => c.refuse (.unknownField t.label)

end Metadata

namespace Context

def select (context : Context) (c : Call) : Except CompileError Selected :=
  match context with
  | object (.data i) t => i.select t c
  | object .metadata t => Metadata.select t c
  | connection parent realm t => do
    c.withoutArguments
    if c.name = countName then Selected.plain c .count (.field countName)
    else if c.name = nodesName then
      return .nested (object realm t) (.embedded nodesName true)
    else if c.name = edgesName then
      return .nested (edges realm t) (.embedded edgesName true)
    else c.refuse (.notOfConnection parent)
  | edges realm t => do
    c.withoutArguments
    if c.name = cursorName then Selected.plain c .cursor (.field cursorName)
    else if c.name = nodeName then return .nested (object realm t) (.embedded nodeName false)
    else c.refuse .notOfEdges

end Context

/-- The first selection of a name that others before it have. -/
def firstRepeated : List String → List Call → Option Call
  | _, [] => none
  | seen, c :: cs =>
    if seen.contains c.name then some c else firstRepeated (c.name :: seen) cs

def Call.checkBlock (c : Call) (limit : Int) (path : Path) (depth : Nat) :
    Except CompileError Unit :=
  if limit < depth then c.refuse (.tooDeep path depth limit)
  else if c.selections.isEmpty then c.refuse .noSelections
  else
    match firstRepeated [] c.selections with
    | some d => d.refuse (.selectedTwice c.name)
    | none => .ok ()

namespace Context

mutual

/-- The output for a selection at a path, `depth` blocks deep. -/
def output (limit : Int) (context : Context) (path : Path) (depth : Nat) :
    Call → Except CompileError Output
  | .mk name arguments selections location => do
    let c := Call.mk name arguments selections location
    match ← context.select c with
    | .leaf l => return .leaf name l
    | .nested inner source => do
      let path := path ++ [name]
      c.checkBlock limit path (depth + 1)
      return .nested name source inner.typeName (← inner.outputs limit path (depth + 1) selections)

def outputs (limit : Int) (context : Context) (path : Path) (depth : Nat) :
    List Call → Except CompileError (List Output)
  | [] => .ok []
  | c :: cs => do
    return (← context.output limit path depth c) :: (← context.outputs limit path depth cs)

end

def project (limit : Int) (context : Context) (c : Call) : Except CompileError Projection := do
  c.checkBlock limit [] 1
  return ⟨context.typeName, ← context.outputs limit [] 1 c.selections⟩

end Context

end ObjectQuery
