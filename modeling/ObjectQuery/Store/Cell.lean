import ObjectQuery.Number.Reading
import ObjectQuery.Store.TableLayout
import ObjectQuery.Value.Json

/-!
# What columns hold

A database knows two kinds of data: numbers and texts. Every value is stored as one of them, and a
column is told how to read it back. Data adapt to the column that they are stored in or compared
with: in a column for texts numbers are written out, in any other one a text that is a numeral
counts as the number. Whole numbers of less than 64 bits are kept as such, zero has no sign, and a
number that is none is not stored and equal to nothing.

A moment is stored without its zone, a date as the moment it begins with. Columns for structured
values hold the text of a value, and null is a value to them like any other; only a number that is
not part of anything is stored as a number. Everywhere else null means that nothing is stored.

What a column is compared with need not be something it could hold.
-/

set_option autoImplicit false

namespace ObjectQuery

/-- Why a value cannot be stored or compared. -/
inductive Unstorable
  /-- A column cannot make sense of the value, and no statement is built. -/
  | unreadable
  /-- The database does not take the value. -/
  | refused
  /-- An integer of more than 64 bits. -/
  | tooWide
deriving DecidableEq, Repr

/-- What a database stores and compares. -/
inductive Datum
  | number (n : Value.Number)
  | text (s : String)

namespace Datum

/-- Whether an integer has 64 bits. -/
def fits (n : Int) : Bool := -9223372036854775808 ≤ n && n ≤ 9223372036854775807

def toValue : Datum → Value
  | number (.whole n) => .int n
  | number (.float x) => .float x
  | text s => .text s

/-- Numbers are equal if they have the same value, texts if they have the same characters. -/
def equal : Datum → Datum → Bool
  | number m, number n => m.compare? n = some .eq
  | text s, text t => s == t
  | _, _ => false

def ofBool (b : Bool) : Datum := number (.whole (if b then 1 else 0))

def ofInt (n : Int) : Except Unstorable Datum :=
  if fits n then .ok (number (.whole n)) else .error .tooWide

def ofFloat (x : Binary64) : Option Datum :=
  if x = .nan then none else some (number (.float (if x.isZero then .zero else x)))

/-- The datum for a value as it is, if it is not null. -/
def ofValue (momentText : Moment → String) : Value → Except Unstorable (Option Datum)
  | .null => .ok none
  | .bool b => .ok (some (ofBool b))
  | .int n => some <$> ofInt n
  | .float x => .ok (ofFloat x)
  | .text s => .ok (some (text s))
  | .date d => .ok (some (text (String.ofList d.text)))
  | .moment m => .ok (some (text (momentText m)))
  | .list _ => .error .refused
  | .object _ => .error .refused

/-- A floating point number that is whole and has less than 64 bits is kept as an integer. -/
def settle : Value.Number → Value.Number
  | .whole n => .whole n
  | .float x =>
    match x.toInt? with
    | some n => if fits (n - 1) && fits (n + 1) then .whole n else .float x
    | none => .float x

/-- The number that a numeral stands for. -/
def ofNumeral (w : Written) : Value.Number :=
  match w.toInt? with
  | some n => if fits n then .whole n else .float w.toBinary
  | none => .float w.toBinary

def asText : Datum → String
  | number (.whole n) => toString n
  | number (.float x) => String.ofList (Layout.stored.number x)
  | text s => s

/-- As a number if possible. -/
def asNumber : Datum → Datum
  | number n => number (settle n)
  | text s =>
    match Written.read? s with
    | some w => number (settle (ofNumeral w))
    | none => text s

@[simp] theorem asText_text (s : String) : (text s).asText = s := rfl

@[simp] theorem equal_text (s t : String) : (text s).equal (text t) = (s == t) := rfl

end Datum

namespace ColumnType

def isTextual : ColumnType → Bool
  | varchar => true
  | text => true
  | _ => false

/-- A datum as it is stored in a column or compared with it. -/
def adapt (t : ColumnType) (d : Datum) : Datum :=
  if t.isTextual then .text d.asText else d.asNumber

end ColumnType

namespace Cell

def asText (v : Value) : Except Unstorable (Option Value) := do
  return (← Datum.ofValue Moment.spacedText v).map fun d => .text d.asText

def asInteger (v : Value) : Except Unstorable (Option Value) := do
  return (← Datum.ofValue Moment.spacedText v).map fun d => d.asNumber.toValue

def ofFloat (x : Binary64) : Option Value := (Datum.ofFloat x).map Datum.toValue

def asFloat : Value → Except Unstorable (Option Value)
  | .null => .ok none
  | .bool b => .ok (ofFloat (.ofInt (if b then 1 else 0)))
  | .int n =>
    let x := Binary64.ofInt n
    if x.isFinite then .ok (ofFloat x) else .error .unreadable
  | .float x => .ok (ofFloat x)
  | .text s =>
    match Binary64.read? s with
    | some x => .ok (ofFloat x)
    | none => .error .unreadable
  | _ => .error .unreadable

def asBoolean : Value → Except Unstorable (Option Value)
  | .null => .ok none
  | v =>
    if v.equal (.bool true) then .ok (some (.bool true))
    else if v.equal (.bool false) then .ok (some (.bool false))
    else .error .unreadable

def asMoment : Value → Except Unstorable (Option Value)
  | .null => .ok none
  | .moment m => .ok (some (.moment { m with offset := none }))
  | .date d => .ok (some (.moment (Moment.startOf d)))
  | _ => .error .unreadable

/-- The number that the text of a structured value is, if it is one. -/
def numberIn : Value → Option Value.Number
  | .int n => some (Datum.settle (if Datum.fits n then .whole n else .float (.ofInt n)))
  | .float x => if x.isFinite then some (Datum.settle (.float x)) else none
  | _ => none

def asStructured (v : Value) : Except Unstorable (Option Value) :=
  match v.json?, numberIn v with
  | none, _ => .error .unreadable
  | some _, some n => .ok (some (Datum.number n).toValue)
  | some _, none => .ok (some v)

end Cell

/-- What a column holds for a value, if anything. -/
def ColumnType.cell : ColumnType → Value → Except Unstorable (Option Value)
  | varchar, v => Cell.asText v
  | text, v => Cell.asText v
  | integer, v => Cell.asInteger v
  | float, v => Cell.asFloat v
  | boolean, v => Cell.asBoolean v
  | datetime, v => Cell.asMoment v
  | json, v => Cell.asStructured v

/-- What is looked for in a column. -/
inductive Wanted
  /-- That nothing is stored. -/
  | missing
  | datum (d : Datum)
  /-- What nothing is equal to. -/
  | nothing

namespace ColumnType

/-- What a list or an object is looked for as. -/
def wantedStructure (t : ColumnType) (v : Value) : Except Unstorable Wanted :=
  match t with
  | varchar => .error .refused
  | text => .error .refused
  | integer => .error .refused
  | float => .error .unreadable
  | boolean => .error .unreadable
  | datetime => .error .unreadable
  | json =>
    match v.json? with
    | some s => .ok (.datum (.text s))
    | none => .error .unreadable

/-- What a value is looked for as. Null is where nothing is stored. -/
def wanted (t : ColumnType) (v : Value) : Except Unstorable Wanted :=
  match v with
  | .null => .ok .missing
  | .list items => t.wantedStructure (.list items)
  | .object entries => t.wantedStructure (.object entries)
  | v => do return (← Datum.ofValue Moment.stamp v).elim .nothing fun d => .datum (t.adapt d)

def held (t : ColumnType) (v : Value) : Datum :=
  match t, v with
  | json, v =>
    match Cell.numberIn v with
    | some n => .number n
    | none => .text (v.json?.getD "")
  | _, .moment m => .text m.stamp
  | _, .text s => .text s
  | _, v =>
    match v.number? with
    | some n => .number n
    | none => .text v.inline

end ColumnType

/-- Whether something that is looked for is what a column holds. -/
def Wanted.isHeld (t : ColumnType) : Wanted → Option Value → Bool
  | missing, held => held.isNone
  | datum d, some v => d.equal (t.held v)
  | datum _, none => false
  | nothing, _ => false

end ObjectQuery
