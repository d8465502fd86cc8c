import ObjectQuery.Value.Basic

/-!
# Scalar types

The six built-in types of single values. A type name that is not one of theirs has to name an object
type.
-/

set_option autoImplicit false

namespace ObjectQuery

inductive Scalar
  | id
  | string
  | int
  | float
  | boolean
  | datetime
deriving DecidableEq, Repr

namespace Scalar

def all : List Scalar := [id, string, int, float, boolean, datetime]

def name : Scalar → String
  | id => "id"
  | string => "string"
  | int => "int"
  | float => "float"
  | boolean => "boolean"
  | datetime => "datetime"

def ofName? (s : String) : Option Scalar := all.find? fun scalar => scalar.name == s

@[simp] theorem ofName?_name (scalar : Scalar) : ofName? scalar.name = some scalar := by
  cases scalar <;> rfl

/-- The scalar that a value names. Only texts are names. -/
def named? : Value → Option Scalar
  | .text s => ofName? s
  | _ => none

def isNamedBy (v : Value) : Bool := (named? v).isSome

/-- Looks a scalar up by any value that can be looked up. -/
def lookup (v : Value) : Except Misuse (Option Scalar) :=
  if v.isKey then .ok (named? v) else .error .notAKey

end Scalar

end ObjectQuery
