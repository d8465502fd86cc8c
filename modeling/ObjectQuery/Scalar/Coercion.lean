import ObjectQuery.Scalar.Basic
import ObjectQuery.Value.Text

/-!
# Coercion to scalars

What an argument stands for in a place that takes a scalar. Ids and integers take whole numbers
however they are written, and integers have 32 bits; a truth value is never a number. The words
`true` and `false` are truth values where one is wanted. Moments are local: a text with a zone is
refused, since dropping the zone would change what it says.
-/

set_option autoImplicit false

namespace ObjectQuery

inductive MomentDefect
  | misread (defect : Moment.Misreading)
  | zoned (text : String) (moment : Moment)
  | kind (v : Value)

def MomentDefect.message : MomentDefect → String
  | misread d => d.message
  | zoned text m =>
    "Expected a timezone-naive datetime value, but got a timezone-aware datetime string. This " ++
      "is not supported, since discarding the timezone component would result in an implicit " ++
      s!"loss of precision. Received value {Literal.render text}, parsed as {m.spacedText}."
  | kind v =>
    "Expected a timezone-naive datetime or an ISO-8601 string representation parseable by the " ++
      s!"ciso8601 library. Got {v.inline} of type {v.classText} instead."

inductive Unfit
  | id (v : Value)
  | string (v : Value)
  | notWhole (v : Value)
  | tooWide (v : Value)
  | float (v : Value)
  | boolean (v : Value)
  | datetime (defect : MomentDefect)

def Unfit.message : Unfit → String
  | id v => "ID cannot represent value: " ++ v.excerpt
  | string v => "String cannot represent a non string value: " ++ v.excerpt
  | notWhole v => "Int cannot represent non-integer value: " ++ v.excerpt
  | tooWide v => "Int cannot represent non 32-bit signed integer value: " ++ v.excerpt
  | float v => "Float cannot represent non numeric value: " ++ v.excerpt
  | boolean v => "Boolean cannot represent a non boolean value: " ++ v.excerpt
  | datetime d => d.message

inductive CoercionError
  | unfit (scalar : Scalar) (v : Value) (cause : Unfit)
  /-- A number that no floating point number is close to, or a day that the calendar lacks. -/
  | outOfRange

namespace Moment

inductive ReadingError
  | defect (d : MomentDefect)
  | outOfRange

/-- The local moment that a text says, a date begins with, or a moment is. -/
def ofValue : Value → Except ReadingError Moment
  | .moment m => if m.isLocal then .ok m else .error (.defect (.kind (.moment m)))
  | .date d => .ok (startOf d)
  | .text s =>
    match read s with
    | .ok m => if m.isLocal then .ok m else .error (.defect (.zoned s m))
    | .error .pastCalendar => .error .outOfRange
    | .error d => .error (.defect (.misread d))
  | v => .error (.defect (.kind v))

structure Unwritable where
  value : Value

def Unwritable.message (u : Unwritable) : String :=
  s!"Expected a timezone-naive datetime object. Got {u.value.inline} of type " ++
    s!"{u.value.classText} instead."

def toText : Value → Except Unwritable String
  | .moment m => if m.isLocal then .ok m.isoText else .error ⟨.moment m⟩
  | v => .error ⟨v⟩

end Moment

namespace Scalar

/-- The integer that a number stands for, if it is whole. -/
def whole? : Value → Option Int
  | .int n => some n
  | .float x => x.toInt?
  | _ => none

def leastInt : Int := -2147483648

def greatestInt : Int := 2147483647

/-- Texts are ids, and whole numbers are by their digits. -/
def idOf (v : Value) : Except Unfit String :=
  match v with
  | .text s => .ok s
  | v =>
    match whole? v with
    | some n => .ok (toString n)
    | none => .error (.id v)

def textOf : Value → Except Unfit String
  | .text s => .ok s
  | v => .error (.string v)

def intOf (v : Value) : Except Unfit Int :=
  match whole? v with
  | some n => if leastInt ≤ n ∧ n ≤ greatestInt then .ok n else .error (.tooWide v)
  | none => .error (.notWhole v)

/-- Truth values, and the two words for them. -/
def boolOf : Value → Except Unfit Bool
  | .bool b => .ok b
  | .text s =>
    if s = "true" then .ok true
    else if s = "false" then .ok false
    else .error (.boolean (.text s))
  | v => .error (.boolean v)

/-- Any number, the closest floating point one if it is whole. The closest one to a number that is
too large is none. -/
def floatOf : Value → Except Unfit (Option Binary64)
  | .int n =>
    let x := Binary64.ofInt n
    .ok (if x.isFinite then some x else none)
  | .float x => if x.isFinite then .ok (some x) else .error (.float (.float x))
  | v => .error (.float v)

def coerce (scalar : Scalar) (v : Value) : Except CoercionError Value :=
  match scalar with
  | id => ((idOf v).map .text).mapError (.unfit id v)
  | string => ((textOf v).map .text).mapError (.unfit string v)
  | int => ((intOf v).map .int).mapError (.unfit int v)
  | boolean => ((boolOf v).map .bool).mapError (.unfit boolean v)
  | float =>
    match floatOf v with
    | .ok (some x) => .ok (.float x)
    | .ok none => .error .outOfRange
    | .error cause => .error (.unfit float v cause)
  | datetime =>
    match Moment.ofValue v with
    | .ok m => .ok (.moment m)
    | .error (.defect d) => .error (.unfit datetime v (.datetime d))
    | .error .outOfRange => .error .outOfRange

end Scalar

namespace CoercionError

def unfitMessage (scalar : Scalar) (v : Value) (cause : Unfit) : String :=
  s!"Value {v.literal} is not a valid {scalar.name} value: {cause.message}"

end CoercionError

def unknownScalarMessage (name : Value) : String :=
  s!"Attempting to coerce a value to unknown scalar {name.inline}."

end ObjectQuery
