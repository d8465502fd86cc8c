import ObjectQuery.Query.Token

/-!
# Queries

A query is a list of calls. A call has arguments and, in braces, selections, which are calls again:
a selection is made on what the call around it gives.
-/

set_option autoImplicit false

namespace ObjectQuery

structure Argument where
  value : Atom
  /-- Absent if the argument is given by position. -/
  name : Option String
  location : Location
deriving DecidableEq, Repr

def Argument.isPositional (a : Argument) : Bool := a.name.isNone

/-- Equality of all but the places. -/
def Argument.same (a b : Argument) : Bool := a.value = b.value && a.name = b.name

inductive Call
  | mk (name : String) (arguments : List Argument) (selections : List Call) (location : Location)

abbrev Query : Type := List Call

namespace Call

def name : Call → String
  | mk n _ _ _ => n

def arguments : Call → List Argument
  | mk _ as _ _ => as

def selections : Call → List Call
  | mk _ _ ss _ => ss

def location : Call → Location
  | mk _ _ _ l => l

def positional (c : Call) : List Argument := c.arguments.filter Argument.isPositional

def named (c : Call) : List Argument := c.arguments.filter (!Argument.isPositional ·)

mutual

/-- Equality of all but the places. -/
def same : Call → Call → Bool
  | mk n as ss _, mk m bs ts _ => n == m && sameArguments as bs && sameAll ss ts
where
  sameArguments : List Argument → List Argument → Bool
    | [], [] => true
    | a :: as, b :: bs => a.same b && sameArguments as bs
    | _, _ => false

def sameAll : List Call → List Call → Bool
  | [], [] => true
  | c :: cs, d :: ds => same c d && sameAll cs ds
  | _, _ => false

end

end Call

end ObjectQuery
