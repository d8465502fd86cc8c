import ObjectQuery.Calendar.Date

/-!
# Moments

A date with a time of day, to the microsecond. A moment may know its distance to universal time; a
moment that does not is local, and the two kinds are never equal and have no order between them.
-/

set_option autoImplicit false

namespace ObjectQuery

structure TimeOfDay where
  hour : Nat
  minute : Nat
  second : Nat
  microsecond : Nat
  inRange : hour < 24 ∧ minute < 60 ∧ second < 60 ∧ microsecond < 1000000
deriving DecidableEq, Repr

namespace TimeOfDay

def midnight : TimeOfDay := ⟨0, 0, 0, 0, by decide⟩

def of? (hour minute second microsecond : Nat) : Option TimeOfDay :=
  if h : hour < 24 ∧ minute < 60 ∧ second < 60 ∧ microsecond < 1000000 then
    some ⟨hour, minute, second, microsecond, h⟩
  else none

@[simp] theorem of?_self (t : TimeOfDay) :
    of? t.hour t.minute t.second t.microsecond = some t := by
  simp [of?, t.inRange]

def microseconds (t : TimeOfDay) : Nat :=
  ((t.hour * 60 + t.minute) * 60 + t.second) * 1000000 + t.microsecond

def clock (t : TimeOfDay) : List Char :=
  Date.padded 2 t.hour ++ ':' :: Date.padded 2 t.minute ++ ':' :: Date.padded 2 t.second

def fraction (t : TimeOfDay) : List Char := '.' :: Date.padded 6 t.microsecond

/-- The time with a fraction only if there is one. -/
def text (t : TimeOfDay) : List Char :=
  t.clock ++ if t.microsecond = 0 then [] else t.fraction

end TimeOfDay

structure Moment where
  date : Date
  time : TimeOfDay
  /-- Minutes ahead of universal time. -/
  offset : Option Int
deriving DecidableEq, Repr

namespace Moment

def isLocal (m : Moment) : Bool := m.offset.isNone

def startOf (d : Date) : Moment := ⟨d, .midnight, none⟩

/-- Microseconds since the calendar began, in universal time if the offset is known. -/
def instant (m : Moment) : Int :=
  (m.date.number * 86400000000 + m.time.microseconds : Nat) - m.offset.getD 0 * 60000000

def compare? (a b : Moment) : Option Ordering :=
  if a.isLocal = b.isLocal then some (compare a.instant b.instant) else none

def equal (a b : Moment) : Bool := a.compare? b = some .eq

def offsetText (minutes : Int) : List Char :=
  (if minutes < 0 then '-' else '+') ::
    Date.padded 2 (minutes.natAbs / 60) ++ ':' :: Date.padded 2 (minutes.natAbs % 60)

def textWith (separator : Char) (m : Moment) : List Char :=
  m.date.text ++ separator :: m.time.text ++ (m.offset.elim [] offsetText)

def isoText (m : Moment) : String := String.ofList (m.textWith 'T')

/-- The form in running text, with a space between date and time. -/
def spacedText (m : Moment) : String := String.ofList (m.textWith ' ')

/-- The form of one length that databases compare: with the fraction, and without the offset. -/
def stamp (m : Moment) : String :=
  String.ofList (m.date.text ++ ' ' :: m.time.clock ++ m.time.fraction)

end Moment

end ObjectQuery
