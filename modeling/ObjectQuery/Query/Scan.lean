import ObjectQuery.Query.Token

/-!
# Scanning a query

A scan gives the tokens of a text up to the first place where none can be read. Commas and blanks
separate tokens and mean nothing else, and a comment runs from a number sign to the end of its line.
Of two ways to end a word the longer is taken.

The tokens before a defect are kept, since what is wrong with their order is reported first.
-/

set_option autoImplicit false

namespace ObjectQuery

inductive LexicalDefect
  | character (c : Char)
  | string (raw : String) (defect : Quoted.Defect)
  /-- An integer of so many digits. -/
  | overlong (digits : Nat)
deriving DecidableEq, Repr

structure Scan where
  tokens : List Token
  failure : Option (Nat × LexicalDefect)
deriving DecidableEq, Repr

namespace Scan

/-- Characters that separate tokens, newlines apart. -/
def isBlank (c : Char) : Bool := c == ' ' || c == '\t' || c == '\r' || c == ','

def inComment (c : Char) : Bool := c != '\n'

def mark? (c : Char) : Option Lexeme :=
  if c = '(' then some .openParen
  else if c = ')' then some .closeParen
  else if c = '\x7b' then some .openBrace
  else if c = '\x7d' then some .closeBrace
  else if c = ':' then some .colon
  else none

/-- The characters of a string literal after its first quote, without the last one, if it is closed
on the same line. -/
def body? : List Char → Option (List Char)
  | [] => none
  | '"' :: _ => some []
  | ['\\'] => none
  | '\\' :: c :: rest => if c = '\n' then none else (body? rest).map ('\\' :: c :: ·)
  | c :: rest => if c = '\n' then none else (body? rest).map (c :: ·)

/-- The token that begins with a character, and how many of the following ones belong to it. -/
def lexeme (c : Char) (cs : List Char) : Except LexicalDefect (Lexeme × Nat) :=
  if c = '"' then
    match body? cs with
    | none => .error (.character c)
    | some body =>
      match Quoted.decode body with
      | .ok s => .ok (.atom (.string (String.ofList s)), body.length + 1)
      | .error d => .error (.string (String.ofList ('"' :: body ++ ['"'])) d)
  else if Word.isStart c || (c == '-' && cs.head?.any Word.isStart) then
    let tail := cs.takeWhile Word.isPart
    if Word.isOverlong (c :: tail) then .error (.overlong (Word.magnitude (c :: tail)).length)
    else .ok (.atom (Word.atom (c :: tail)), tail.length)
  else
    match mark? c with
    | some m => .ok (m, 0)
    | none => .error (.character c)

/-- Scans what is left of a text, from an offset on a line. -/
def scanFrom (offset line : Nat) : List Char → Scan
  | [] => ⟨[], none⟩
  | c :: cs =>
    if c = '\n' then scanFrom (offset + 1) (line + 1) cs
    else if isBlank c then scanFrom (offset + 1) line cs
    else if c = '#' then
      let comment := cs.takeWhile inComment
      scanFrom (offset + 1 + comment.length) line (cs.drop comment.length)
    else
      match lexeme c cs with
      | .error d => ⟨[], some (offset, d)⟩
      | .ok (l, more) =>
        let rest := scanFrom (offset + 1 + more) line (cs.drop more)
        { rest with tokens := ⟨l, offset, line⟩ :: rest.tokens }
termination_by cs => cs.length
decreasing_by all_goals simp only [List.length_cons, List.length_drop]; omega

end Scan

def scan (text : List Char) : Scan := Scan.scanFrom 0 1 text

end ObjectQuery
