import ObjectQuery.Calendar.Reading
import ObjectQuery.Number.Layout
import ObjectQuery.Text.Literal
import ObjectQuery.Value.Basic

/-!
# Values in messages

`literal` shows a value so that its kind can be told: texts have quotes, and dates and moments spell
out what they are made of. `inline` shows texts, dates and moments by themselves; within lists and
objects it makes no difference. `excerpt` is for values of any size: it cuts long texts and lists
in the middle and does not look into objects nested deeper than two.
-/

set_option autoImplicit false

namespace ObjectQuery.Value

/-- The class that a message names for the kind of a value. -/
def className : Value → String
  | null => "NoneType"
  | bool _ => "bool"
  | int _ => "int"
  | float _ => "float"
  | text _ => "str"
  | date _ => "date"
  | moment _ => "datetime"
  | list _ => "list"
  | object _ => "dict"

/-- The class as messages show it: that of a date or a moment with the module it belongs to. -/
def classText (v : Value) : String :=
  match v with
  | date _ | moment _ => s!"<class 'datetime.{v.className}'>"
  | v => s!"<class '{v.className}'>"

def joined (parts : List String) : String := String.intercalate ", " parts

def boolLiteral (b : Bool) : String := if b then "True" else "False"

def dateLiteral (d : Date) : String := s!"datetime.date({d.year}, {d.month}, {d.day})"

def zoneLiteral (minutes : Int) : String :=
  if minutes = 0 then "datetime.timezone.utc"
  else s!"datetime.timezone({Moment.distanceText minutes})"

/-- Seconds and microseconds are left out from the end while they are zero. -/
def momentLiteral (m : Moment) : String :=
  let parts := [m.date.year, m.date.month, m.date.day, m.time.hour, m.time.minute]
  let parts :=
    if m.time.microsecond ≠ 0 then parts ++ [m.time.second, m.time.microsecond]
    else if m.time.second ≠ 0 then parts ++ [m.time.second]
    else parts
  let zone := (m.offset.map fun minutes => s!"tzinfo={zoneLiteral minutes}").toList
  s!"datetime.datetime({joined (parts.map Nat.repr ++ zone)})"

mutual

def literal : Value → String
  | null => "None"
  | bool b => boolLiteral b
  | int n => toString n
  | float x => x.text
  | text s => Literal.render s
  | date d => dateLiteral d
  | moment m => momentLiteral m
  | list items => "[" ++ joined (literals items) ++ "]"
  | object entries => "\x7b" ++ joined (entryLiterals entries) ++ "\x7d"

def literals : List Value → List String
  | [] => []
  | x :: xs => literal x :: literals xs

def entryLiterals : List (String × Value) → List String
  | [] => []
  | (name, x) :: rest => (Literal.render name ++ ": " ++ literal x) :: entryLiterals rest

end

def inline : Value → String
  | text s => s
  | date d => String.ofList d.text
  | moment m => m.spacedText
  | v => literal v

@[simp] theorem inline_text (s : String) : inline (text s) = s := rfl

/-- At most 240 characters are shown, else the first 118 and the last 119. -/
def cutText (s : String) : String :=
  let cs := s.toList
  if 240 < cs.length then
    String.ofList (cs.take 118 ++ "...".toList ++ cs.drop (cs.length - 119))
  else s

/-- At most ten items are shown, else the first five and the last four. -/
def cutItems (items : List String) : List String :=
  if 10 < items.length then items.take 5 ++ "..." :: items.drop (items.length - 4) else items

mutual

/-- Looks into so many more levels of lists and objects. -/
def excerptTo : Nat → Value → String
  | _, null => "None"
  | _, bool b => boolLiteral b
  | _, int n => cutText (toString n)
  | _, float x => x.text
  | _, text s => cutText (Literal.render s)
  | _, date _ => "<date instance>"
  | _, moment _ => "<datetime instance>"
  | _, list [] => "[]"
  | 0, list _ => "[...]"
  | levels + 1, list items => "[" ++ joined (cutItems (itemExcerpts levels items)) ++ "]"
  | _, object [] => "\x7b\x7d"
  | 0, object _ => "\x7b...\x7d"
  | levels + 1, object entries =>
    "\x7b" ++ joined (cutItems (entryExcerpts levels entries)) ++ "\x7d"

def itemExcerpts : Nat → List Value → List String
  | _, [] => []
  | levels, x :: xs => excerptTo levels x :: itemExcerpts levels xs

def entryExcerpts : Nat → List (String × Value) → List String
  | _, [] => []
  | levels, (name, x) :: rest =>
    (cutText (Literal.render name) ++ ": " ++ excerptTo levels x) :: entryExcerpts levels rest

end

def excerpt (v : Value) : String := excerptTo 2 v

end ObjectQuery.Value
