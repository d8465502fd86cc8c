import ObjectQuery.Text.Printable
import ObjectQuery.Text.Quoted

/-!
# Strings in messages

A message shows a string between single quotes, or between double quotes if it holds a single quote
and no double one. The quote in use and the backslash are escaped, and so is every character that
has no visible form; the escape is as wide as the code point needs.
-/

set_option autoImplicit false

namespace ObjectQuery.Literal

/-- The lowest hexadecimal digits of a number, as many as asked for. -/
def hexDigits : Nat → Nat → List Char
  | 0, _ => []
  | width + 1, n => hexDigits width (n / 16) ++ [Quoted.hexDigit (n % 16)]

@[simp] theorem hexDigits_length (width n : Nat) : (hexDigits width n).length = width := by
  induction width generalizing n with
  | zero => rfl
  | succ width ih => simp [hexDigits, ih]

def quoteFor (cs : List Char) : Char :=
  if cs.contains '\'' && !cs.contains '"' then '"' else '\''

def showChar (quote c : Char) : List Char :=
  if c = quote ∨ c = '\\' then ['\\', c]
  else if c = '\n' then ['\\', 'n']
  else if c = '\r' then ['\\', 'r']
  else if c = '\t' then ['\\', 't']
  else if Printable.isShown c then [c]
  else if c.toNat < 0x100 then '\\' :: 'x' :: hexDigits 2 c.toNat
  else if c.toNat < 0x10000 then '\\' :: 'u' :: hexDigits 4 c.toNat
  else '\\' :: 'U' :: hexDigits 8 c.toNat

def showChars (cs : List Char) : List Char :=
  let quote := quoteFor cs
  quote :: cs.flatMap (showChar quote) ++ [quote]

/-- The string as messages show it. -/
def render (s : String) : String := String.ofList (showChars s.toList)

def renderList (ss : List String) : String :=
  s!"[{String.intercalate comma (ss.map render)}]"
where
  comma : String := ", "

end ObjectQuery.Literal
