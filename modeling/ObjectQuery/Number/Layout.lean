import ObjectQuery.Number.Shortest

/-!
# The text of a number

A layout says which digits a number has, which exponents are written positionally and how the
numbers without digits are spelled. A positional text always has a point with a digit on both sides.
Other exponents have a sign and at least two digits.

Three layouts are in use. Messages and databases switch to exponents for very large and very small
numbers, queries have no exponents at all. Messages and queries write the fewest digits that read
back, databases no more than fifteen.
-/

set_option autoImplicit false

namespace ObjectQuery

structure Layout where
  /-- The digits of the finite magnitude at a rank. -/
  digits : Nat → Decimal
  /-- Whether a number whose first digit has this exponent is written without exponent. -/
  positional : Int → Bool
  /-- Whether a single digit in front of an exponent has a point behind it. -/
  pointsAlways : Bool
  infinity : List Char
  nan : List Char

namespace Layout

/-- Exponents below -4 and from 16 on are written out. -/
def message : Layout where
  digits := Binary64.shortest
  pointsAlways := false
  positional e := -4 ≤ e && e < 16
  infinity := "inf".toList
  nan := "nan".toList

/-- A query has no notation for infinity; what stands here reads as a bare word. -/
def query : Layout where
  digits := Binary64.shortest
  pointsAlways := false
  positional _ := true
  infinity := "Infinity.0".toList
  nan := "NaN.0".toList

/-- Exponents below -4 and from 15 on are written out. What is not a number is not stored. -/
def stored : Layout where
  digits := Binary64.rounded 15
  pointsAlways := true
  positional e := -4 ≤ e && e < 15
  infinity := "Inf".toList
  nan := []

def zeros (n : Nat) : List Char := List.replicate n '0'

/-- Digits with a point that many places behind the first. -/
def placePoint (digits : List Char) (point : Int) : List Char :=
  if point ≤ 0 then '0' :: '.' :: zeros point.natAbs ++ digits
  else if point ≥ digits.length then
    digits ++ zeros (point.natAbs - digits.length) ++ ['.', '0']
  else digits.take point.natAbs ++ '.' :: digits.drop point.natAbs

/-- An exponent with its sign and at least two digits. -/
def exponentText (e : Int) : List Char :=
  let digits := e.natAbs.repr.toList
  (if e < 0 then '-' else '+') :: zeros (2 - digits.length) ++ digits

/-- What stands between the first digit and the exponent. -/
def fraction (layout : Layout) (digits : List Char) : List Char :=
  match digits.drop 1 with
  | [] => if layout.pointsAlways then ['.', '0'] else []
  | rest => '.' :: rest

def withExponent (layout : Layout) (digits : List Char) (e : Int) : List Char :=
  digits.take 1 ++ layout.fraction digits ++ 'e' :: exponentText e

def decimal (layout : Layout) (d : Decimal) : List Char :=
  let digits := d.digits.repr.toList
  let point := digits.length + d.exponent
  if layout.positional (point - 1) then placePoint digits point
  else layout.withExponent digits (point - 1)

def number (layout : Layout) : Binary64 → List Char
  | .nan => layout.nan
  | .signed negative rank =>
    (if negative then ['-'] else []) ++
      if rank.val < Binary64.infinite then layout.decimal (layout.digits rank)
      else layout.infinity

end Layout

namespace Binary64

def text (x : Binary64) : String := String.ofList (Layout.message.number x)

end Binary64

end ObjectQuery
