import ObjectQuery.Number.Shortest

/-!
# Reading numbers

A numeral is a sign, digits with a point before, among or after them, and an exponent; all of it but
one digit may be missing. Blanks around it do not count. `Written.read?` takes numerals and nothing
else. The readers that follow it also take single underscores between digits, `Binary64.read?` in a
numeral and `readInt?` in a whole number; the numbers that have no digits are read by their names.
Digits, letters and blanks are those of ASCII.
-/

set_option autoImplicit false

namespace ObjectQuery

/-- The value of a run of digits, most significant first. -/
def digitsValue (cs : List Char) : Nat :=
  cs.foldl (fun n c => n * 10 + (c.toNat - 48)) 0

/-- Splits a sign off, and says whether it is a minus. -/
def splitSign : List Char → Bool × List Char
  | '-' :: cs => (true, cs)
  | '+' :: cs => (false, cs)
  | cs => (false, cs)

def splitDigits (cs : List Char) : List Char × List Char :=
  (cs.takeWhile Char.isDigit, cs.dropWhile Char.isDigit)

/-- Space and the characters from the tab to the carriage return. -/
def isAsciiBlank (c : Char) : Bool := c = ' ' || ('\t' ≤ c && c ≤ '\r')

def trimBlanks (cs : List Char) : List Char :=
  ((cs.dropWhile isAsciiBlank).reverse.dropWhile isAsciiBlank).reverse

/-- The closest number to a decimal. The exponent is brought within the bounds beyond which all
decimals with these digits are zero or infinite. -/
def Decimal.closest (negative : Bool) (d : Decimal) : Binary64 :=
  let far : Int := d.digits.log2 + 400
  .ofScientific negative d.digits (max (-far) (min far d.exponent))

/-- A number as a text writes it. -/
structure Written where
  negative : Bool
  decimal : Decimal
  /-- Whether there is neither a point nor an exponent. -/
  isWhole : Bool
deriving DecidableEq, Repr

namespace Written

/-- The exponent that a text is, zero if it is empty. -/
def exponent? : List Char → Option Int
  | [] => some 0
  | mark :: cs =>
    let (negative, digits) := splitSign cs
    if (mark = 'e' || mark = 'E') && !digits.isEmpty && digits.all Char.isDigit then
      some (Binary64.withSign negative (digitsValue digits))
    else none

/-- A numeral without blanks around it. -/
def ofNumeral? (cs : List Char) : Option Written :=
  let (negative, unsigned) := splitSign cs
  let (whole, rest) := splitDigits unsigned
  let (fraction, power) :=
    match rest with
    | '.' :: behind => splitDigits behind
    | _ => ([], rest)
  if whole.isEmpty && fraction.isEmpty then none
  else do
    let exponent := (← exponent? power) - fraction.length
    return ⟨negative, ⟨digitsValue (whole ++ fraction), exponent⟩, rest.isEmpty⟩

def read? (s : String) : Option Written := ofNumeral? (trimBlanks s.toList)

def toBinary (w : Written) : Binary64 := w.decimal.closest w.negative

/-- The integer that a numeral without point and exponent stands for. -/
def toInt? (w : Written) : Option Int :=
  if w.isWhole then some (Binary64.withSign w.negative w.decimal.digits) else none

end Written

/-- Drops the underscores from a text in which every one of them stands between two digits. -/
def dropSeparators : List Char → Option (List Char)
  | [] => some []
  | '_' :: _ => none
  | c :: '_' :: d :: cs =>
    if c.isDigit && d.isDigit then (c :: ·) <$> dropSeparators (d :: cs) else none
  | c :: cs => (c :: ·) <$> dropSeparators cs

def readInt? (s : String) : Option Int := do
  let (negative, unsigned) := splitSign (trimBlanks s.toList)
  let digits ← dropSeparators unsigned
  if digits.isEmpty || !digits.all Char.isDigit then none
  else some (Binary64.withSign negative (digitsValue digits))

namespace Binary64

/-- The number without digits that a name stands for. -/
def ofName? (negative : Bool) (name : List Char) : Option Binary64 :=
  let name := String.ofList (name.map Char.toLower)
  if name = "inf" || name = "infinity" then some (infinity negative)
  else if name = "nan" then some nan
  else none

def read? (s : String) : Option Binary64 :=
  let cs := trimBlanks s.toList
  let (negative, unsigned) := splitSign cs
  match ofName? negative unsigned with
  | some x => some x
  | none => (dropSeparators cs).bind fun cs => (Written.ofNumeral? cs).map Written.toBinary

end Binary64

end ObjectQuery
