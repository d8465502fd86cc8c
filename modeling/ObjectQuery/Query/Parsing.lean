import ObjectQuery.Query.Scan
import ObjectQuery.Query.Tree

/-!
# Reading a query

    query     : call+
    call      : name arguments? block?
    arguments : "(" argument* ")"
    argument  : value | name ":" value
    value     : name | number | string | literal
    block     : "{" call+ "}"

The reader takes one token after the other. Its state holds the blocks that are open, each with the
call it belongs to and the calls before that one, and the position within the call at hand.

A call is complete when a token follows that can follow a call, or the end of the query; only then
are its arguments checked. So a token that cannot follow is reported before arguments out of order.

Which tokens can follow a call is not made to depend on the blocks that are open. The end of the
query is listed as expected within a block too, and a closing brace outside of one; what does not
fit there is reported once the call is complete.
-/

set_option autoImplicit false

namespace ObjectQuery

inductive ParseCause
  | notText (className : String)
  | lexical (defect : LexicalDefect)
  | unexpected (lexeme : Lexeme)
  | unexpectedEnd
  | positionalAfterNamed (call : String) (value : Atom)
  | repeatedArgument (call name : String)
deriving DecidableEq, Repr

structure ParseError where
  cause : ParseCause
  location : Option Location
  expected : List TokenKind
deriving DecidableEq, Repr

namespace ParseError

def text (e : ParseError) : String :=
  match e.cause with
  | .notText className => s!"Expected query text to be a string, got {className}."
  | .lexical (.character c) => s!"Unexpected character {Literal.render (String.singleton c)}"
  | .lexical (.string raw d) => s!"Invalid string literal {raw}: {d.message}"
  | .lexical (.overlong digits) =>
    s!"Exceeds the limit ({Word.maxDigits} digits) for integer string conversion: value has " ++
      s!"{digits} digits; use sys.set_int_max_str_digits() to increase the limit"
  | .unexpected l => s!"Unexpected {l.kind.description} {l.value.literal}"
  | .unexpectedEnd => "Unexpected end of query"
  | .positionalAfterNamed call value =>
    s!"Positional argument {value.value.literal} of \"{call}\" follows a named argument."
  | .repeatedArgument call name => s!"Argument \"{name}\" of \"{call}\" is given more than once."

def expectedNames (e : ParseError) : List String := e.expected.map TokenKind.description

/-- Whether it is an error that callers are told of. That digits cannot be converted is an error of
the conversion, and nothing turns it into one of the reader. -/
def isTold (e : ParseError) : Bool :=
  match e.cause with
  | .lexical (.overlong _) => false
  | _ => true

/-- The text, and if callers are told of the error also where it happened and what could have been
there instead. -/
def message (e : ParseError) : String :=
  let place := e.location.elim [] fun l => [s!"({l.describe})"]
  let expected :=
    if e.expected.isEmpty then [] else [s!"Expected one of: {Value.joined e.expectedNames}."]
  if e.isTold then String.intercalate " " (e.text :: place ++ expected) else e.text

end ParseError

namespace Parsing

/-- A call of which everything before its block is known. -/
structure Head where
  name : String
  arguments : List Argument
  location : Location
deriving DecidableEq, Repr

/-- An open block: the call it belongs to, and the calls before that, latest first. -/
structure Frame where
  head : Head
  before : List Call

/-- Where in a call the next token stands. -/
inductive Phase
  /-- At the beginning of the query or of a block. -/
  | opened
  | afterName (head : Head)
  /-- Between the parentheses. The arguments so far are the latest first. -/
  | inArguments (head : Head)
  /-- After a bare word that may turn out to be the name of an argument. -/
  | afterWord (head : Head) (word : String) (location : Location)
  | afterColon (head : Head) (name : String) (location : Location)
  | afterArguments (head : Head)
  | afterBlock (head : Head) (selections : List Call)
  | afterCall

structure State where
  frames : List Frame
  /-- The calls of the innermost block, latest first. -/
  calls : List Call
  phase : Phase

def initial : State := ⟨[], [], .opened⟩

def atomKinds : List TokenKind := [.literal, .name, .number, .string]

/-- What is listed as expected. -/
def State.expected (s : State) : List TokenKind :=
  match s.phase with
  | .opened => [.name]
  | .afterName _ => [.openParen, .openBrace, .closeBrace, .endOfQuery, .name]
  | .inArguments _ => .closeParen :: atomKinds
  | .afterWord .. => .closeParen :: .colon :: atomKinds
  | .afterColon .. => atomKinds
  | .afterArguments _ => [.openBrace, .closeBrace, .endOfQuery, .name]
  | .afterBlock .. => [.closeBrace, .endOfQuery, .name]
  | .afterCall => if s.frames.isEmpty then [.endOfQuery, .name] else [.closeBrace, .name]

/-- What is wrong with arguments that come after one given by name, the names before it known. -/
def misplaced (call : String) : List String → List Argument → Option ParseCause
  | _, [] => none
  | names, a :: rest =>
    match a.name with
    | none => some (.positionalAfterNamed call a.value)
    | some name =>
      if names.contains name then some (.repeatedArgument call name)
      else misplaced call (name :: names) rest

/-- What is wrong with the order of arguments: positions come first, and no name comes twice. -/
def disorder (call : String) (arguments : List Argument) : Option ParseCause :=
  misplaced call [] (arguments.dropWhile Argument.isPositional)

/-- Ends a call. -/
def State.complete (s : State) (head : Head) (selections : List Call) :
    Except ParseError State :=
  match disorder head.name head.arguments with
  | some cause => .error ⟨cause, some head.location, []⟩
  | none =>
    let call := Call.mk head.name head.arguments selections head.location
    .ok { s with calls := call :: s.calls, phase := .afterCall }

/-- Ends the call at hand, if it may end here. -/
def State.settle (s : State) : Except ParseError State :=
  match s.phase with
  | .afterName head | .afterArguments head => s.complete head []
  | .afterBlock head selections => s.complete head selections
  | _ => .ok s

def State.refuse {α : Type} (s : State) (l : Lexeme) (here : Location) : Except ParseError α :=
  .error ⟨.unexpected l, some here, s.expected⟩

def State.enter (s : State) (head : Head) : State :=
  ⟨⟨head, s.calls⟩ :: s.frames, [], .opened⟩

def Head.add (head : Head) (value : Atom) (name : Option String) (here : Location) : Head :=
  { head with arguments := ⟨value, name, here⟩ :: head.arguments }

def Head.close (head : Head) : Head := { head with arguments := head.arguments.reverse }

/-- Takes a token after a complete call. -/
def State.next (s : State) (l : Lexeme) (here : Location) : Except ParseError State :=
  match l with
  | .atom (.name n) => .ok { s with phase := .afterName ⟨n, [], here⟩ }
  | .closeBrace =>
    match s.frames with
    | [] => s.refuse l here
    | frame :: frames => .ok ⟨frames, frame.before, .afterBlock frame.head s.calls.reverse⟩
  | _ => s.refuse l here

/-- Takes a token that has to follow the call at hand. -/
def State.follow (s : State) (l : Lexeme) (here : Location) : Except ParseError State :=
  match l with
  | .atom (.name _) | .closeBrace => do (← s.settle).next l here
  | _ => s.refuse l here

/-- Takes a token between parentheses, in front of an argument. -/
def State.argument (s : State) (head : Head) (l : Lexeme) (here : Location) :
    Except ParseError State :=
  match l with
  | .closeParen => .ok { s with phase := .afterArguments head.close }
  | .atom (.name n) => .ok { s with phase := .afterWord head n here }
  | .atom a => .ok { s with phase := .inArguments (head.add a none here) }
  | _ => s.refuse l here

def State.step (s : State) (l : Lexeme) (here : Location) : Except ParseError State :=
  match s.phase with
  | .opened =>
    match l with
    | .atom (.name n) => .ok { s with phase := .afterName ⟨n, [], here⟩ }
    | _ => s.refuse l here
  | .afterName head =>
    match l with
    | .openParen => .ok { s with phase := .inArguments head }
    | .openBrace => .ok (s.enter head)
    | _ => s.follow l here
  | .inArguments head => s.argument head l here
  | .afterWord head word there =>
    match l with
    | .colon => .ok { s with phase := .afterColon head word there }
    | .openParen | .openBrace | .closeBrace => s.refuse l here
    | _ => s.argument (head.add (.name word) none there) l here
  | .afterColon head name there =>
    match l with
    | .atom a => .ok { s with phase := .inArguments (head.add a (some name) there) }
    | _ => s.refuse l here
  | .afterArguments head =>
    match l with
    | .openBrace => .ok (s.enter head)
    | _ => s.follow l here
  | .afterBlock .. => s.follow l here
  | .afterCall => s.next l here

def State.refuseEnd {α : Type} (s : State) (here : Location) : Except ParseError α :=
  .error ⟨.unexpectedEnd, some here, s.expected⟩

def State.finish (s : State) (here : Location) : Except ParseError Query := do
  let s ← s.settle
  match s.phase, s.frames with
  | .afterCall, [] => .ok s.calls.reverse
  | _, _ => s.refuseEnd here

def run (place : Nat → Location) (s : State) (tokens : List Token) : Except ParseError State :=
  tokens.foldlM (fun s t => s.step t.lexeme (place t.offset)) s

end Parsing

/-- Reads a text. What cannot be read as a token is reported only if all before it is in order. -/
def Query.parse (text : String) : Except ParseError Query := do
  let cs := text.toList
  let place := Location.ofOffset cs
  let scanned := scan cs
  let s ← Parsing.run place Parsing.initial scanned.tokens
  match scanned.failure with
  | some (offset, d) => .error ⟨.lexical d, some (place offset), []⟩
  | none => s.finish (place cs.length)

def Query.ofValue : Value → Except ParseError Query
  | .text s => parse s
  | v => .error ⟨.notText v.className, none, []⟩

/-- The tokens of a text, all of which have to be readable. -/
def tokenize (text : String) : Except ParseError (List Token) :=
  let cs := text.toList
  let scanned := scan cs
  match scanned.failure with
  | some (offset, d) => .error ⟨.lexical d, some (Location.ofOffset cs offset), []⟩
  | none => .ok scanned.tokens

end ObjectQuery
