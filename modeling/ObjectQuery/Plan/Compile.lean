import ObjectQuery.Plan.Mutations
import ObjectQuery.Plan.Selections
import ObjectQuery.Query.Parsing

/-!
# From queries to plans

Every call of a query is compiled by itself, in order, and the first one that fails fails the query.
A plan is made against a snapshot of a schema and does not look at any records.
-/

set_option autoImplicit false

namespace ObjectQuery

structure Credentials where
  userId : Option String := none
  isAdmin : Bool := false
deriving DecidableEq, Repr

/-- How deep blocks can be nested where nothing else is asked for. -/
def defaultLimit : Int := 32

namespace Compile

/-- The named type, which has to have records of its own. -/
def nodeType (i : Snapshot) (c : Call) (typeName : String) : Except CompileError ObjectType := do
  let t ← Mutation.existing i c typeName
  if t.isNode then return t else c.refuse (.notANode typeName)

def typeArgument (c : Call) (a : Argument) : Except CompileError String :=
  c.nameIn a Mutation.typeNameArgument

def node (i : Snapshot) (limit : Int) (c : Call) : Except CompileError CallPlan := do
  let (typeNameGiven, idGiven) ← c.twoPositional
  let _ ← c.allowing []
  let t ← nodeType i c (← typeArgument c typeNameGiven)
  let id ← idGiven.id
  let projection ← (Context.object (.data i) t).project limit c
  return .fetchNode t.label id projection

/-- The scalar of a field that holds one value of it. -/
def scalarOf? (i : Snapshot) (f : Field) : Option Scalar :=
  match i.schema.kindOf f with
  | .ok (.scalar s) => some s
  | _ => none

/-- The fields of a type that records can be filtered by. -/
def filterable (i : Snapshot) (t : ObjectType) : List (String × Scalar) :=
  t.declared.filterMap fun f => do return (← f.name.text?, ← scalarOf? i f)

/-- The filter that an argument stands for, unless it chooses the page. -/
def filter? (scalars : List (String × Scalar)) (a : String × Argument) :
    Except CompileError (Option (String × Value)) :=
  if Page.argumentNames.contains a.1 then .ok none
  else
    match scalars.lookup a.1 with
    | some s => do return some (a.1, ← (s.coerce a.2.value.value).mapError .coercion)
    | none => .ok none

def filters (scalars : List (String × Scalar)) (named : List (String × Argument)) :
    Except CompileError Filters := do
  return (← named.mapM (filter? scalars)).filterMap id

def nodes (i : Snapshot) (limit : Int) (c : Call) : Except CompileError CallPlan := do
  let t ← nodeType i c (← typeArgument c (← c.onePositional))
  let scalars := filterable i t
  let named ← c.allowing (Page.argumentNames ++ scalars.map (·.1))
  let page ← Page.ofArguments c named
  let filters ← filters scalars named
  let projection ← (Context.connection c.name (.data i) t).project limit c
  return .fetchNodes t.label filters page projection

def schema (i : Snapshot) (limit : Int) (c : Call) : Except CompileError CallPlan := do
  c.noPositional
  let _ ← c.allowing []
  let projection ← (Context.object .metadata Metadata.schemaType).project limit c
  return .introspection i.schema.toRecord projection

def describedType? (i : Snapshot) (typeName : String) : Option ObjectType :=
  i.schema.type? typeName <|> Metadata.schema.type? typeName

def type (i : Snapshot) (limit : Int) (c : Call) : Except CompileError CallPlan := do
  let typeNameGiven ← c.onePositional
  let _ ← c.allowing []
  let typeName ← typeArgument c typeNameGiven
  match describedType? i typeName with
  | none => c.refuse (.unknownType typeName)
  | some t =>
    let projection ← (Context.object .metadata Metadata.typeType).project limit c
    return .introspection t.toRecord projection

def mutation (limit : Int) (resultType : ObjectType) (c : Call) (m : Mutation) :
    Except CompileError CallPlan := do
  let projection ← (Context.object .metadata resultType).project limit c
  return .mutation m.change (TypeChange.success m.changes) TypeChange.failure projection

def operation (i : Snapshot) (limit : Int) (c : Call) : Operation → Except CompileError CallPlan
  | .schema => schema i limit c
  | .type => type i limit c
  | .nodes => nodes i limit c
  | .node => node i limit c
  | .createType => do mutation limit Metadata.schemaResultType c (← Mutation.createType i c)
  | .deleteType => do mutation limit Metadata.schemaResultType c (← Mutation.deleteType i c)
  | .addField => do mutation limit Metadata.mutationResultType c (← Mutation.addField i c)
  | .removeField => do mutation limit Metadata.mutationResultType c (← Mutation.removeField i c)

/-- Who may not change the schema is refused before anything else about the call is looked at. -/
def authorize (credentials : Credentials) (o : Operation) (c : Call) : Except CompileError Unit :=
  if o.isMutation && !credentials.isAdmin then .error (.unauthorized c.name c.location) else .ok ()

@[simp] theorem authorize_admin (credentials : Credentials) (o : Operation) (c : Call)
    (h : credentials.isAdmin = true) : authorize credentials o c = .ok () := by
  simp [authorize, h]

theorem authorize_of_not_mutation (credentials : Credentials) {o : Operation} (c : Call)
    (h : o.isMutation = false) : authorize credentials o c = .ok () := by
  simp [authorize, h]

def call (credentials : Credentials) (i : Snapshot) (limit : Int) (c : Call) :
    Except CompileError CallPlan :=
  match Operation.ofName? c.name with
  | none => c.refuse .unknownOperation
  | some o => do
    authorize credentials o c
    operation i limit c o

end Compile

def Query.compile (credentials : Credentials) (i : Snapshot) (limit : Int) (q : Query) :
    Except CompileError Plan :=
  q.mapM (Compile.call credentials i limit)

inductive QueryError
  | parse (e : ParseError)
  | compile (e : CompileError)

def Plan.ofText (credentials : Credentials) (i : Snapshot) (limit : Int) (text : String) :
    Except QueryError Plan := do
  let q ← (Query.parse text).mapError .parse
  (q.compile credentials i limit).mapError .compile

end ObjectQuery
