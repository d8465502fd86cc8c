/-!
# Binary floating point numbers

Double precision numbers without their bit patterns. The magnitudes, in increasing order from zero,
are numbered by their rank; the last rank is infinity. A finite magnitude is a whole number of
units, the unit being the least positive one, so comparing and rounding is arithmetic on naturals.

`nearest` rounds a quotient of naturals to the closest magnitude, a tie to the even rank. Nothing
about its error is proved here.
-/

set_option autoImplicit false

namespace ObjectQuery

def powerOfTwo (n : Nat) : Nat := Nat.pow 2 n

def powerOfTen (n : Nat) : Nat := Nat.pow 10 n

/-- How many magnitudes there are from one power of two to the next: 52 bits tell them apart. -/
def Binary64.binade : Nat := 4503599627370496

def Binary64.infinite : Nat := 2047 * binade

/-- Not a number, or a magnitude with a sign. Zero has a sign too. -/
inductive Binary64
  | nan
  | signed (negative : Bool) (rank : Fin (Binary64.infinite + 1))
deriving DecidableEq, Repr

namespace Binary64

/-- How many halvings the unit is below one. -/
def unitScale : Nat := 1074

def one : Nat := powerOfTwo unitScale

/-- The number of units between neighbours at a rank is this power of two. -/
def spacing (rank : Nat) : Nat := rank / binade - 1

def units (rank : Nat) : Nat :=
  if rank < binade then rank else (binade + rank % binade) * powerOfTwo (spacing rank)

/-- The quotient rounded to the nearest natural, a tie to the even one. -/
def roundQuotient (num den : Nat) : Nat :=
  let down := num / den
  let twice := 2 * (num % den)
  if twice < den then down
  else if den < twice then down + 1
  else down + down % 2

/-- The rank closest to a quotient, possibly beyond infinity. -/
def nearestRank (num den : Nat) : Nat :=
  let scaled := num * one
  let shift := (scaled / den).log2 - 52
  shift * binade + roundQuotient scaled (den * powerOfTwo shift)

/-- The magnitude closest to a quotient. What is too large for a finite one is infinite. -/
def nearest (num den : Nat) : Fin (infinite + 1) :=
  ⟨min (nearestRank num den) infinite, Nat.lt_succ_of_le (Nat.min_le_right ..)⟩

def zero : Binary64 := signed false ⟨0, by decide⟩

def infinity (negative : Bool) : Binary64 := signed negative ⟨infinite, Nat.lt_succ_self _⟩

def isFinite : Binary64 → Bool
  | nan => false
  | signed _ rank => rank.val < infinite

def withSign (negative : Bool) (n : Nat) : Int := if negative then -(n : Int) else n

/-- The closest number to a decimal fraction: digits over a power of ten. -/
def ofFraction (negative : Bool) (digits places : Nat) : Binary64 :=
  signed negative (nearest digits (powerOfTen places))

/-- The closest number to digits times a power of ten. -/
def ofScientific (negative : Bool) (digits : Nat) (exponent : Int) : Binary64 :=
  if exponent < 0 then ofFraction negative digits exponent.natAbs
  else ofFraction negative (digits * powerOfTen exponent.natAbs) 0

def ofInt (n : Int) : Binary64 := signed (n < 0) (nearest n.natAbs 1)

def toInt? : Binary64 → Option Int
  | nan => none
  | signed negative rank =>
    if rank.val < infinite ∧ units rank % one = 0 then
      some (withSign negative (units rank / one))
    else none

def whole? : Binary64 → Option Int
  | nan => none
  | signed negative rank =>
    if rank.val < infinite then some (withSign negative (units rank / one)) else none

/-- Zero has one value, whatever its sign. -/
def isZero : Binary64 → Bool
  | nan => false
  | signed _ rank => rank.val = 0

/-- Numerical order among finite and infinite numbers. -/
def compare? : Binary64 → Binary64 → Option Ordering
  | signed s r, signed t q => some (compare (withSign s r) (withSign t q))
  | _, _ => none

/-- Numerical comparison with an integer. -/
def compareInt? : Binary64 → Int → Option Ordering
  | nan, _ => none
  | signed negative rank, n =>
    if rank.val < infinite then
      some (compare (withSign negative (units rank)) (n * one))
    else
      some (if negative then .lt else .gt)

/-- Numerical equality: false on what is not a number, true between the two zeros. -/
def equal (x y : Binary64) : Bool := x.compare? y = some .eq

end Binary64

end ObjectQuery
