import ObjectQuery.Number.Layout
import ObjectQuery.Number.Reading
import ObjectQuery.Text.Literal
import ObjectQuery.Text.Location
import ObjectQuery.Value.Text

/-!
# Tokens

A query is a sequence of words, string literals and the five marks. One rule delimits all bare
words; the whole word then decides whether it is a name, a number or any other literal. The digits
of an integer are converted at once, and there may be only so many of them.
-/

set_option autoImplicit false

namespace ObjectQuery

/-- A number as it is written: with a point it is a floating point number, of whatever size. -/
inductive Numeral
  | whole (n : Int)
  | fraction (x : Binary64)
deriving DecidableEq, Repr

inductive Atom
  | name (s : String)
  | number (n : Numeral)
  | string (s : String)
  | literal (s : String)
deriving DecidableEq, Repr

inductive Lexeme
  | atom (a : Atom)
  | openParen
  | closeParen
  | openBrace
  | closeBrace
  | colon
deriving DecidableEq, Repr

structure Token where
  lexeme : Lexeme
  /-- The number of characters before it. -/
  offset : Nat
  line : Nat
deriving DecidableEq, Repr

/-- What a message can say is expected, in the order of the wording. -/
inductive TokenKind
  | openParen
  | closeParen
  | colon
  | openBrace
  | closeBrace
  | endOfQuery
  | literal
  | name
  | number
  | string
deriving DecidableEq, Repr

namespace TokenKind

def description : TokenKind → String
  | openParen => "\"(\""
  | closeParen => "\")\""
  | colon => "\":\""
  | openBrace => "\"\x7b\""
  | closeBrace => "\"\x7d\""
  | endOfQuery => "end of query"
  | literal => "literal"
  | name => "name"
  | number => "number"
  | string => "string"

end TokenKind

def Numeral.value : Numeral → Value
  | whole n => .int n
  | fraction x => .float x

namespace Atom

def kind : Atom → TokenKind
  | name _ => .name
  | number _ => .number
  | string _ => .string
  | literal _ => .literal

/-- What the atom stands for: a number, or else its text. -/
def value : Atom → Value
  | name s => .text s
  | number n => n.value
  | string s => .text s
  | literal s => .text s

end Atom

namespace Lexeme

def kind : Lexeme → TokenKind
  | atom a => a.kind
  | openParen => .openParen
  | closeParen => .closeParen
  | openBrace => .openBrace
  | closeBrace => .closeBrace
  | colon => .colon

def value : Lexeme → Value
  | atom a => a.value
  | openParen => .text "("
  | closeParen => .text ")"
  | openBrace => .text "\x7b"
  | closeBrace => .text "\x7d"
  | colon => .text ":"

end Lexeme

namespace Word

def isStart (c : Char) : Bool := c.isAlphanum || c == '_' || c == '.'

def isPart (c : Char) : Bool := isStart c || c == '-'

def isNameStart (c : Char) : Bool := c.isAlpha || c == '_'

def isNamePart (c : Char) : Bool := c.isAlphanum || c == '_'

def isName : List Char → Bool
  | [] => false
  | c :: cs => isNameStart c && cs.all isNamePart

/-- The number that digits stand for, with a fraction if a point and more digits follow. -/
def unsigned? (negative : Bool) (cs : List Char) : Option Numeral :=
  let whole := cs.takeWhile Char.isDigit
  if whole.isEmpty then none
  else
    match cs.dropWhile Char.isDigit with
    | [] => some (.whole (Binary64.withSign negative (digitsValue whole)))
    | '.' :: fraction =>
      if fraction.isEmpty || !fraction.all Char.isDigit then none
      else
        some (.fraction
          (.ofFraction negative (digitsValue (whole ++ fraction)) fraction.length))
    | _ => none

def numeral? : List Char → Option Numeral
  | '-' :: cs => unsigned? true cs
  | cs => unsigned? false cs

/-- A word without its sign. -/
def magnitude : List Char → List Char
  | '-' :: cs => cs
  | cs => cs

/-- How many digits of an integer can be converted, needless zeros included. -/
def maxDigits : Nat := 4300

/-- Whether a word is an integer that has more digits. -/
def isOverlong (cs : List Char) : Bool :=
  (magnitude cs).all Char.isDigit && maxDigits < (magnitude cs).length

/-- What a word is: a name, else a number, else a literal. -/
def atom (cs : List Char) : Atom :=
  if isName cs then .name (String.ofList cs)
  else
    match numeral? cs with
    | some n => .number n
    | none => .literal (String.ofList cs)

end Word

end ObjectQuery
