import ObjectQuery.Calendar.Moment
import ObjectQuery.Number.Binary64

/-!
# Values

What records hold, what schemas are declared with before anyone has checked them, and what calls
are filtered by. Truth values count as the numbers one and zero, and numbers are compared by what
they stand for, whole or not. The entries of an object have no order as far as equality goes.
-/

set_option autoImplicit false

namespace ObjectQuery

inductive Value
  | null
  | bool (b : Bool)
  | int (n : Int)
  | float (x : Binary64)
  | text (s : String)
  | date (d : Date)
  | moment (m : Moment)
  | list (items : List Value)
  | object (entries : List (String × Value))
deriving Inhabited

/-- A use of a value, or of something in its place, that its shape does not allow. -/
inductive Misuse
  | notACollection
  | notAPair
  | notAKey
  | notOrdered
  | notAnObject
  | missingEntry
  | notANumber
  /-- A text that stands for no number. -/
  | notANumeral
  | outOfRange
  /-- A value that cannot be the end of a range. -/
  | notABound
deriving DecidableEq, Repr

namespace Value

instance : Coe String Value := ⟨Value.text⟩

def isText : Value → Bool
  | text _ => true
  | _ => false

def text? : Value → Option String
  | text s => some s
  | _ => none

@[simp] theorem text?_text (s : String) : (text s).text? = some s := rfl

theorem text?_eq_some_iff {v : Value} {s : String} : v.text? = some s ↔ v = text s := by
  cases v <;> simp [text?]

def spells : Value → String → Bool
  | text t, s => t == s
  | _, _ => false

@[simp] theorem spells_text (t s : String) : (text t).spells s = (t == s) := rfl

theorem spells_iff {v : Value} {s : String} : v.spells s = true ↔ v = text s := by
  cases v <;> simp [spells]

def isNull : Value → Bool
  | null => true
  | _ => false

/-- Null, empty and zero values are false. -/
def isTrue : Value → Bool
  | null => false
  | bool b => b
  | int n => n ≠ 0
  | float x => !x.isZero
  | text s => s ≠ ""
  | date _ => true
  | moment _ => true
  | list items => !items.isEmpty
  | object entries => !entries.isEmpty

/-- Whether a value can be looked up in a table. -/
def isKey : Value → Bool
  | list _ => false
  | object _ => false
  | _ => true

/-- A whole number or a floating point one. Truth values are numbers. -/
inductive Number
  | whole (n : Int)
  | float (x : Binary64)

def number? : Value → Option Number
  | bool b => some (.whole (if b then 1 else 0))
  | int n => some (.whole n)
  | float x => some (.float x)
  | _ => none

def Number.compare? : Number → Number → Option Ordering
  | .whole m, .whole n => some (compare m n)
  | .whole m, .float x => (x.compareInt? m).map Ordering.swap
  | .float x, .whole n => x.compareInt? n
  | .float x, .float y => x.compare? y

mutual

/-- Equality of what values stand for. -/
def equal : Value → Value → Bool
  | null, null => true
  | text s, text t => s == t
  | date d, date e => d == e
  | moment m, moment n => m.equal n
  | list xs, list ys => equalItems xs ys
  | object xs, object ys => xs.length == ys.length && equalEntries xs ys
  | v, w =>
    match v.number?, w.number? with
    | some a, some b => a.compare? b = some .eq
    | _, _ => false

def equalItems : List Value → List Value → Bool
  | [], [] => true
  | x :: xs, y :: ys => equal x y && equalItems xs ys
  | _, _ => false

/-- Whether each entry of the first object is in the second. -/
def equalEntries : List (String × Value) → List (String × Value) → Bool
  | [], _ => true
  | (name, x) :: xs, ys =>
    (match ys.lookup name with
      | some y => equal x y
      | none => false) && equalEntries xs ys

end

@[simp] theorem equal_text (s t : String) : equal (text s) (text t) = (s == t) := by
  simp [equal]

@[simp] theorem equal_null_text (t : String) : equal null (text t) = false := by
  simp [equal, number?]

mutual

/-- Whether a value comes before another one of its kind, lists by their first difference. Nulls and
objects have no order. What is not a number comes neither before nor after one. -/
def before? : Value → Value → Option Bool
  | text s, text t => some (decide (s < t))
  | date d, date e => some (decide (d.number < e.number))
  | moment m, moment n => (m.compare? n).map (· == .lt)
  | list xs, list ys => itemsBefore? xs ys
  | v, w =>
    match v.number?, w.number? with
    | some a, some b => some (a.compare? b == some .lt)
    | _, _ => none

def itemsBefore? : List Value → List Value → Option Bool
  | _, [] => some false
  | [], _ :: _ => some true
  | x :: xs, y :: ys => if equal x y then itemsBefore? xs ys else before? x y

end

@[simp] theorem before?_text (s t : String) :
    before? (text s) (text t) = some (decide (s < t)) := by
  simp [before?]

def entry (name : String) : Value → Except Misuse Value
  | object entries => .ok ((entries.lookup name).getD null)
  | _ => .error .notAnObject

/-- The entry of an object that has to have one. -/
def required (name : String) : Value → Except Misuse Value
  | object entries =>
    match entries.lookup name with
    | some v => .ok v
    | none => .error .missingEntry
  | _ => .error .notACollection

/-- The parts that a value is made of, one after the other. A text is made of its characters, an
object of its names. -/
def parts : Value → Except Misuse (List Value)
  | list items => .ok items
  | text s => .ok (s.toList.map fun c => text (String.singleton c))
  | object entries => .ok (entries.map fun e => text e.1)
  | _ => .error .notACollection

end Value

end ObjectQuery
