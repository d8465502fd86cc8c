import ObjectQuery.Number.Binary64

/-!
# The fewest digits that read back

A decimal is a natural times a power of ten. `shortest` gives a finite magnitude the decimal with
the fewest digits among those that round to it, and of these the closest; of two equally close ones
the even one. Each number of digits is tried on its decimal grid: the magnitude lies between two
neighbours of the grid, and if any point of the grid rounds to it, one of these does.

Seventeen digits are known to suffice. `shortest` does not rely on it and would then give the exact
value.
-/

set_option autoImplicit false

namespace ObjectQuery

structure Decimal where
  digits : Nat
  exponent : Int
deriving DecidableEq, Repr

namespace Decimal

/-- Moves the zeros at the end of the digits into the exponent. -/
def trimZeros : Nat → Decimal → Decimal
  | 0, d => d
  | fuel + 1, d =>
    if d.digits ≠ 0 ∧ d.digits % 10 = 0 then trimZeros fuel ⟨d.digits / 10, d.exponent + 1⟩ else d

def trim (d : Decimal) : Decimal := trimZeros (d.digits.log2 + 1) d

def rank (d : Decimal) : Nat :=
  if d.exponent < 0 then (Binary64.nearest d.digits (powerOfTen d.exponent.natAbs)).val
  else (Binary64.nearest (d.digits * powerOfTen d.exponent.natAbs) 1).val

end Decimal

namespace Binary64

/-- The exponent of the first digit of a positive magnitude. -/
def leadingExponent (rank : Nat) : Int :=
  ((units rank * powerOfTen 400 / one).repr.length : Int) - 401

/-- A magnitude in units of a power of ten, as a quotient. -/
def inTens (rank : Nat) (exponent : Int) : Nat × Nat :=
  if exponent < 0 then (units rank * powerOfTen exponent.natAbs, one)
  else (units rank, one * powerOfTen exponent.natAbs)

/-- The better of the two neighbours on the grid of a power of ten, if any rounds to the rank. -/
def onGrid? (rank : Nat) (exponent : Int) : Option Decimal :=
  let (num, den) := inTens rank exponent
  let low := num / den
  let below : Decimal := ⟨low, exponent⟩
  let above : Decimal := ⟨low + 1, exponent⟩
  match decide (below.rank = rank), decide (above.rank = rank) with
  | true, true => some ⟨roundQuotient num den, exponent⟩
  | true, false => some below
  | false, true => some above
  | false, false => none

def exactly (rank : Nat) : Decimal := ⟨units rank * Nat.pow 5 unitScale, -(unitScale : Int)⟩

def shortest (rank : Nat) : Decimal :=
  if rank = 0 then ⟨0, 0⟩
  else
    let first := leadingExponent rank
    let grids := (List.range 17).map fun (n : Nat) => first - (n : Int)
    ((grids.findSome? (onGrid? rank)).getD (exactly rank)).trim

/-- The closest decimal with at most so many digits, whatever it reads back as. -/
def rounded (precision rank : Nat) : Decimal :=
  if rank = 0 then ⟨0, 0⟩
  else
    let exponent := leadingExponent rank + 1 - precision
    let (num, den) := inTens rank exponent
    Decimal.trim ⟨roundQuotient num den, exponent⟩

end Binary64

end ObjectQuery
