import ObjectQuery.Plan.Basic
import ObjectQuery.Query.Operation
import ObjectQuery.Query.Tree
import ObjectQuery.Scalar.Coercion
import ObjectQuery.Schema.Kind

/-!
# Refusals

Why no plan is made for a query. Most refusals are of one call or selection; they name it and point
at it. A value that does not fit a scalar is refused by itself, and who may not change the schema is
told so before anything else about the call is looked at.
-/

set_option autoImplicit false

namespace ObjectQuery

inductive LeafKind
  | typeName
  | builtIn
  | scalar (name : String)
  | scalarList (name : String)
  | count
  | cursor
deriving DecidableEq, Repr

def LeafKind.description : LeafKind → String
  | typeName => "the name of a type"
  | builtIn => "a built-in field"
  | scalar name => s!"of scalar type {name}"
  | scalarList name => s!"a list of {name}"
  | count => "the number of records in a connection"
  | cursor => "the cursor of an edge"

inductive Objection
  | unknownOperation
  | positionalCount (expected found : Nat)
  | unknownArgument (argument : String) (allowed : List String)
  | notAName (what : String) (found : Atom)
  | notAText (what : String) (found : Atom)
  | notACount (found : Atom)
  | unknownType (typeName : String)
  | notANode (typeName : String)
  | typeExists (typeName : String)
  | unknownFieldOf (typeName fieldName : String)
  | badResult (refusal : ChangeRefusal)
  | tooDeep (path : Path) (depth : Nat) (limit : Int)
  | noSelections
  | selectedTwice (parent : String)
  | selectionsOfLeaf (kind : LeafKind)
  | arguments
  | unknownField (typeName : String)
  | positionalInConnection
  | notOfConnection (parent : String)
  | notOfEdges

structure Refusal where
  name : String
  location : Location
  objection : Objection

def countName : String := "count"
def nodesName : String := "nodes"
def edgesName : String := "edges"
def cursorName : String := "cursor"
def nodeName : String := "node"

def firstName : String := "first"
def afterName : String := "after"

namespace Refusal

def place (r : Refusal) : String := s!" ({r.location.describe})"

def pathText (path : Path) : String :=
  if path.isEmpty then "<root>" else String.intercalate "." path

def message (r : Refusal) : String :=
  match r.objection with
  | .unknownOperation =>
    s!"Unknown call \"{r.name}\"{r.place}. " ++
      s!"Available calls: {Literal.renderList Operation.sortedNames}"
  | .positionalCount expected found =>
    s!"\"{r.name}\" expects {expected} positional argument(s), but got {found}{r.place}."
  | .unknownArgument argument allowed =>
    s!"\"{r.name}\" does not accept an argument named \"{argument}\"{r.place}. " ++
      s!"Allowed names: {Literal.renderList allowed}"
  | .notAName what found =>
    s!"Expected {what} argument of \"{r.name}\" to be a name, but got " ++
      s!"{found.value.literal}{r.place}."
  | .notAText what found =>
    s!"Expected {what} argument of \"{r.name}\" to be a name or a string, but got " ++
      s!"{found.value.literal}{r.place}."
  | .notACount found =>
    s!"Expected \"{firstName}\" argument of \"{r.name}\" to be a non-negative integer, but got " ++
      s!"{found.value.literal}{r.place}."
  | .unknownType typeName =>
    s!"Type \"{typeName}\" given to \"{r.name}\" does not exist in the schema{r.place}."
  | .notANode typeName =>
    s!"Type \"{typeName}\" given to \"{r.name}\" does not implement the Node interface, so it " ++
      s!"has no records of its own{r.place}."
  | .typeExists typeName =>
    s!"Cannot create type \"{typeName}\", since it already exists{r.place}."
  | .unknownFieldOf typeName fieldName =>
    s!"Cannot remove field \"{fieldName}\", which does not exist in type \"{typeName}\"{r.place}."
  | .badResult refusal =>
    s!"\"{r.name}\"{r.place} would result in an invalid schema: " ++
      String.intercalate "; " refusal.messages
  | .tooDeep path depth limit =>
    s!"Selection at {pathText path} is nested {depth} levels deep, which is more than the " ++
      s!"maximum of {limit}{r.place}."
  | .noSelections =>
    s!"\"{r.name}\" returns an object, so it requires a selection of fields{r.place}."
  | .selectedTwice parent =>
    s!"Field \"{r.name}\" is selected more than once within \"{parent}\"{r.place}."
  | .selectionsOfLeaf kind =>
    s!"Field \"{r.name}\" is {kind.description}, so it cannot have a selection of fields{r.place}."
  | .arguments => s!"Field \"{r.name}\" does not accept arguments{r.place}."
  | .unknownField typeName => s!"Type \"{typeName}\" has no field named \"{r.name}\"{r.place}."
  | .positionalInConnection =>
    s!"Connection field \"{r.name}\" only accepts named arguments{r.place}."
  | .notOfConnection parent =>
    s!"Field \"{parent}\" is a connection, so only \"{countName}\", \"{nodesName}\" and " ++
      s!"\"{edgesName}\" can be selected on it, not \"{r.name}\"{r.place}."
  | .notOfEdges =>
    s!"Only \"{cursorName}\" and \"{nodeName}\" can be selected on \"{edgesName}\", not " ++
      s!"\"{r.name}\"{r.place}."

end Refusal

inductive CompileError
  | refused (r : Refusal)
  | unauthorized (name : String) (location : Location)
  | coercion (e : CoercionError)
  /-- A field without a kind. No snapshot has one. -/
  | unresolved (e : KindError)
  | misuse (m : Misuse)

def CompileError.unauthorizedMessage (name : String) (location : Location) : String :=
  s!"\"{name}\" changes the schema, which requires admin credentials ({location.describe})."

def Call.refuse {α : Type} (c : Call) (objection : Objection) : Except CompileError α :=
  .error (.refused ⟨c.name, c.location, objection⟩)

end ObjectQuery
