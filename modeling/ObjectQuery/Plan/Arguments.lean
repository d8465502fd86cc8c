import ObjectQuery.Plan.Refusal

/-!
# Arguments of calls

A call takes a fixed number of arguments by position and some by name. A name is written as a bare
word, a text as a word or between quotes; ids and truth values are what the scalars make of any
value.
-/

set_option autoImplicit false

namespace ObjectQuery

namespace Call

/-- Refuses a number of arguments by position other than the expected one. -/
def miscounted {α : Type} (c : Call) (expected : Nat) : Except CompileError α :=
  c.refuse (.positionalCount expected c.positional.length)

def noPositional (c : Call) : Except CompileError Unit :=
  match c.positional with
  | [] => .ok ()
  | _ => c.miscounted 0

def onePositional (c : Call) : Except CompileError Argument :=
  match c.positional with
  | [a] => .ok a
  | _ => c.miscounted 1

def twoPositional (c : Call) : Except CompileError (Argument × Argument) :=
  match c.positional with
  | [a, b] => .ok (a, b)
  | _ => c.miscounted 2

def threePositional (c : Call) : Except CompileError (Argument × Argument × Argument) :=
  match c.positional with
  | [a, b, d] => .ok (a, b, d)
  | _ => c.miscounted 3

def namedArguments (c : Call) : List (String × Argument) :=
  c.arguments.filterMap fun a => a.name.map (·, a)

/-- Names in the order in which messages list them. -/
def listed (names : List String) : List String :=
  names.eraseDups.mergeSort fun a b => decide (a ≤ b)

/-- The arguments by name, if all the names are among the ones allowed. -/
def allowing (c : Call) (names : List String) : Except CompileError (List (String × Argument)) :=
  match c.namedArguments.find? fun a => !names.contains a.1 with
  | some (name, _) => c.refuse (.unknownArgument name (listed names))
  | none => .ok c.namedArguments

/-- An argument that has to be a bare word. -/
def nameIn (c : Call) (a : Argument) (what : String) : Except CompileError String :=
  match a.value with
  | .name s => .ok s
  | found => c.refuse (.notAName what found)

/-- An argument that has to be a word, bare or between quotes. -/
def textIn (c : Call) (a : Argument) (what : String) : Except CompileError String :=
  match a.value with
  | .name s => .ok s
  | .string s => .ok s
  | found => c.refuse (.notAText what found)

/-- An argument that has to be a number of records. -/
def countIn (c : Call) (a : Argument) : Except CompileError Nat :=
  match a.value with
  | .number (.whole (.ofNat n)) => .ok n
  | found => c.refuse (.notACount found)

def withoutArguments (c : Call) : Except CompileError Unit :=
  if c.arguments.isEmpty then .ok () else c.refuse .arguments

def asLeaf (c : Call) (kind : LeafKind) : Except CompileError Unit :=
  if c.selections.isEmpty then .ok () else c.refuse (.selectionsOfLeaf kind)

end Call

namespace Argument

def id (a : Argument) : Except CompileError String :=
  (Scalar.idOf a.value.value).mapError fun cause => .coercion (.unfit .id a.value.value cause)

def flag (a : Argument) : Except CompileError Bool :=
  (Scalar.boolOf a.value.value).mapError fun cause =>
    .coercion (.unfit .boolean a.value.value cause)

end Argument

namespace Page

def argumentNames : List String := [firstName, afterName]

def ofArguments (c : Call) (named : List (String × Argument)) : Except CompileError Page := do
  let first ← (named.lookup firstName).mapM c.countIn
  let after ← (named.lookup afterName).mapM Argument.id
  return ⟨first.map fun n => .int n, after.map .text⟩

end Page

end ObjectQuery
