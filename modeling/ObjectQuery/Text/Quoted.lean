/-!
# Quoted strings

The characters between the quotes of a string literal. `encode` writes printable ASCII as it is and
everything else as an escape, so its output is printable ASCII without a bare quote. `decode` also
takes unescaped characters above the control range, the escaped solidus and any case of digits, and
says why it refuses what is left.

Escapes name UTF-16 units; a character above `\uffff` is a pair of them.
-/

set_option autoImplicit false

namespace ObjectQuery.Quoted

inductive Defect
  | escape
  | unitEscape
  | control
deriving DecidableEq, Repr

def Defect.message : Defect → String
  | .escape => "Invalid \\escape"
  | .unitEscape => "Invalid \\uXXXX escape"
  | .control => "Invalid control character at"

def isHighUnit (n : Nat) : Bool := 0xd800 ≤ n && n < 0xdc00

def isLowUnit (n : Nat) : Bool := 0xdc00 ≤ n && n < 0xe000

/-- The units that write a character. -/
def units (c : Char) : List Nat :=
  if c.toNat < 0x10000 then [c.toNat]
  else [0xd800 + (c.toNat - 0x10000) / 0x400, 0xdc00 + (c.toNat - 0x10000) % 0x400]

/-- The character that a unit or a code point stands for on its own. Half of a pair stands for the
replacement character. -/
def ofUnit (n : Nat) : Char :=
  if isHighUnit n || isLowUnit n then '\ufffd' else Char.ofNat n

/-- Reads code points in which pairs of units may stand for one character. -/
def ofUnits : List Nat → List Char
  | [] => []
  | [n] => [ofUnit n]
  | high :: low :: rest =>
    if isHighUnit high && isLowUnit low then
      Char.ofNat (0x10000 + (high - 0xd800) * 0x400 + (low - 0xdc00)) :: ofUnits rest
    else
      ofUnit high :: ofUnits (low :: rest)

def hexDigit (n : Nat) : Char :=
  if n < 10 then Char.ofNat (48 + n) else Char.ofNat (87 + n)

def hexUnit (n : Nat) : List Char :=
  [hexDigit (n / 4096 % 16), hexDigit (n / 256 % 16), hexDigit (n / 16 % 16), hexDigit (n % 16)]

/-- The letter after the backslash, for the characters that have an escape of their own. -/
def shortEscape? (c : Char) : Option Char :=
  if c = '"' then some '"'
  else if c = '\\' then some '\\'
  else if c = '\n' then some 'n'
  else if c = '\r' then some 'r'
  else if c = '\t' then some 't'
  else if c = '\x0c' then some 'f'
  else if c = '\x08' then some 'b'
  else none

def encodeChar (c : Char) : List Char :=
  match shortEscape? c with
  | some letter => ['\\', letter]
  | none =>
    if ' ' ≤ c ∧ c ≤ '~' then [c]
    else (units c).flatMap fun n => '\\' :: 'u' :: hexUnit n

def encode (cs : List Char) : List Char := cs.flatMap encodeChar

def hexValue? (c : Char) : Option Nat :=
  if '0' ≤ c ∧ c ≤ '9' then some (c.toNat - 48)
  else if 'a' ≤ c ∧ c ≤ 'f' then some (c.toNat - 87)
  else if 'A' ≤ c ∧ c ≤ 'F' then some (c.toNat - 55)
  else none

def hexUnit? (a b c d : Char) : Option Nat := do
  return (← hexValue? a) * 4096 + (← hexValue? b) * 256 + (← hexValue? c) * 16 + (← hexValue? d)

/-- The character that a one-letter escape stands for. -/
def unescape? (letter : Char) : Option Char :=
  if letter = '"' ∨ letter = '\\' ∨ letter = '/' then some letter
  else if letter = 'n' then some '\n'
  else if letter = 'r' then some '\r'
  else if letter = 't' then some '\t'
  else if letter = 'f' then some '\x0c'
  else if letter = 'b' then some '\x08'
  else none

/-- The code points between the quotes, pairs of units not yet joined. -/
def decodeUnits : List Char → Except Defect (List Nat)
  | [] => .ok []
  | ['\\'] => .error .escape
  | '\\' :: 'u' :: a :: b :: c :: d :: rest =>
    match hexUnit? a b c d with
    | some n => (n :: ·) <$> decodeUnits rest
    | none => .error .unitEscape
  | '\\' :: letter :: rest =>
    match unescape? letter with
    | some c => (c.toNat :: ·) <$> decodeUnits rest
    | none => .error (if letter = 'u' then .unitEscape else .escape)
  | c :: rest =>
    if c < ' ' then .error .control else (c.toNat :: ·) <$> decodeUnits rest

def decode (cs : List Char) : Except Defect (List Char) :=
  ofUnits <$> decodeUnits cs

/-- The literal with its quotes. -/
def write (s : String) : String :=
  String.ofList ('"' :: encode s.toList ++ ['"'])

end ObjectQuery.Quoted
