import Mathlib.Data.List.ReduceOption
import ObjectQuery.Proofs.Query.Shape

/-!
# Derivations

    query     : call+
    call      : name arguments? block?
    arguments : "(" argument* ")"
    argument  : value | name ":" value
    value     : name | number | string | literal
    block     : "{" call+ "}"

A derivation in this grammar is a tree that has the tokens at its leaves, with the places they stand
at. From the leaves there is one way back: tokens have at most one derivation. What a derivation
derives, and what it is read as, has nothing to do with a reader.
-/

set_option autoImplicit false

namespace ObjectQuery

/-- A leaf with what its token says, and where the token stands. -/
structure Terminal (α : Type) where
  content : α
  offset : Nat
  line : Nat

/-- A leaf that says nothing but which mark it is. -/
abbrev Mark : Type := Terminal Unit

def Terminal.token {α : Type} (x : Terminal α) (lexeme : α → Lexeme) : Token :=
  ⟨lexeme x.content, x.offset, x.line⟩

/-- A leaf that is a name. -/
def Terminal.named (x : Terminal String) : Token := x.token fun n => .atom (.name n)

/-- A leaf that is a mark. -/
def Terminal.marked (x : Mark) (lexeme : Lexeme) : Token := x.token fun _ => lexeme

/-- An argument: `value` or `name ":" value`. -/
inductive ArgumentTree
  | positional (value : Terminal Atom)
  | named (name : Terminal String) (colon : Mark) (value : Terminal Atom)

/-- What is in parentheses: `"(" argument* ")"`. -/
structure ArgumentsTree where
  opening : Mark
  arguments : List ArgumentTree
  closing : Mark

/-- A call up to its block: `name arguments?`. -/
structure HeadTree where
  name : Terminal String
  parentheses : Option ArgumentsTree

mutual

/-- A call, without a block or with one: `"{" call+ "}"`. -/
inductive CallTree
  | plain (head : HeadTree)
  | block (head : HeadTree) (opening : Mark) (calls : CallsTree) (closing : Mark)

/-- Calls, one after the other: `call+`. -/
inductive CallsTree
  | one (call : CallTree)
  | more (first : CallTree) (rest : CallsTree)

end

namespace ArgumentTree

def tokens : ArgumentTree → List Token
  | positional value => [value.token .atom]
  | named name colon value => [name.named, colon.marked .colon, value.token .atom]

def name? : ArgumentTree → Option String
  | positional _ => none
  | named name _ _ => some name.content

def read (place : Nat → Location) : ArgumentTree → Argument
  | positional value => ⟨value.content, none, place value.offset⟩
  | named name _ value => ⟨value.content, some name.content, place name.offset⟩

@[simp] theorem name_read (place : Nat → Location) (a : ArgumentTree) :
    (a.read place).name = a.name? := by
  cases a <;> rfl

end ArgumentTree

def ArgumentsTree.tokens (p : ArgumentsTree) : List Token :=
  p.opening.marked .openParen ::
    (p.arguments.flatMap ArgumentTree.tokens ++ [p.closing.marked .closeParen])

/-- Names of arguments, absent where one is given by position: those come first, and no name comes
twice. -/
def NamesInOrder (names : List (Option String)) : Prop :=
  names.Pairwise (fun a b => b = none → a = none) ∧ names.reduceOption.Nodup

namespace HeadTree

def arguments (h : HeadTree) : List ArgumentTree := h.parentheses.elim [] (·.arguments)

def tokens (h : HeadTree) : List Token :=
  h.name.named :: h.parentheses.elim [] ArgumentsTree.tokens

/-- The call with some selections. -/
def read (place : Nat → Location) (h : HeadTree) (selections : List Call) : Call :=
  .mk h.name.content (h.arguments.map (·.read place)) selections (place h.name.offset)

def InOrder (h : HeadTree) : Prop := NamesInOrder (h.arguments.map (·.name?))

end HeadTree

mutual

def CallTree.tokens : CallTree → List Token
  | .plain head => head.tokens
  | .block head opening calls closing =>
    head.tokens ++ opening.marked .openBrace :: (calls.tokens ++ [closing.marked .closeBrace])

def CallsTree.tokens : CallsTree → List Token
  | .one call => call.tokens
  | .more first rest => first.tokens ++ rest.tokens

end

mutual

def CallTree.read (place : Nat → Location) : CallTree → Call
  | .plain head => head.read place []
  | .block head _ calls _ => head.read place (calls.read place)

/-- The calls, in the order of the text. -/
def CallsTree.read (place : Nat → Location) : CallsTree → List Call
  | .one call => [call.read place]
  | .more first rest => first.read place :: rest.read place

end

mutual

/-- Whether the arguments are in order, those of the calls within it included. -/
def CallTree.InOrder : CallTree → Prop
  | .plain head => head.InOrder
  | .block head _ calls _ => head.InOrder ∧ calls.InOrder

def CallsTree.InOrder : CallsTree → Prop
  | .one call => call.InOrder
  | .more first rest => first.InOrder ∧ rest.InOrder

end

/-- Whether some tokens begin with none of some kinds. -/
def Avoids (kinds : List TokenKind) (tokens : List Token) : Prop :=
  ∀ t ∈ tokens.head?, t.lexeme.kind ∉ kinds

section
variable {kinds kinds' : List TokenKind} {t : Token} {r r' : List Token}

theorem avoids_cons : Avoids kinds (t :: r) ↔ t.lexeme.kind ∉ kinds := by
  simp [Avoids]

theorem avoids_nil : Avoids kinds [] := nofun

theorem Avoids.mono (h : Avoids kinds r) (hk : ∀ k ∈ kinds', k ∈ kinds) : Avoids kinds' r :=
  fun t ht hmem => h t ht (hk _ hmem)

theorem not_avoids_cons (h : Avoids kinds (t :: r)) (ht : t.lexeme.kind ∈ kinds) : False :=
  avoids_cons.mp h ht

end

/-- Kinds of tokens that make a call longer. -/
def TokenKind.inCall : List TokenKind := [.openParen, .openBrace]

/-- Kinds of tokens that make a list of calls longer. -/
def TokenKind.inCalls : List TokenKind := .name :: inCall

section
variable {r : List Token}

theorem Avoids.openParen (h : Avoids TokenKind.inCall r) : Avoids [.openParen] r :=
  h.mono (by decide)

theorem Avoids.inCall (h : Avoids TokenKind.inCalls r) : Avoids TokenKind.inCall r :=
  h.mono (by decide)

theorem avoids_openBrace (x : Mark) : Avoids [.openParen] (x.marked .openBrace :: r) := by
  refine avoids_cons.mpr ?_
  show TokenKind.openBrace ∉ _
  decide

theorem not_avoids_openBrace {x : Mark} (h : Avoids TokenKind.inCall (x.marked .openBrace :: r)) :
    False := by
  refine not_avoids_cons h ?_
  show TokenKind.openBrace ∈ _
  decide

theorem avoids_closeBrace (x : Mark) : Avoids TokenKind.inCalls (x.marked .closeBrace :: r) := by
  refine avoids_cons.mpr ?_
  show TokenKind.closeBrace ∉ _
  decide

end

theorem CallTree.exists_tokens (d : CallTree) :
    ∃ (name : Terminal String) (r : List Token), d.tokens = name.named :: r := by
  cases d with
  | plain head => exact ⟨head.name, _, by rw [CallTree.tokens, HeadTree.tokens]⟩
  | block head opening calls closing =>
    exact ⟨head.name, _, by rw [CallTree.tokens, HeadTree.tokens, List.cons_append]⟩

theorem CallsTree.exists_tokens (ds : CallsTree) :
    ∃ (name : Terminal String) (r : List Token), ds.tokens = name.named :: r := by
  cases ds with
  | one d =>
    obtain ⟨name, r, h⟩ := d.exists_tokens
    exact ⟨name, r, by rw [CallsTree.tokens, h]⟩
  | more d ds =>
    obtain ⟨name, r, h⟩ := d.exists_tokens
    exact ⟨name, _, by rw [CallsTree.tokens, h, List.cons_append]⟩

/-- Calls do not make the call before them longer, but they are more calls. -/
theorem CallsTree.avoids_append (ds : CallsTree) (r : List Token) :
    Avoids TokenKind.inCall (ds.tokens ++ r) ∧ ¬Avoids TokenKind.inCalls (ds.tokens ++ r) := by
  obtain ⟨name, r', h⟩ := ds.exists_tokens
  rw [h, List.cons_append, avoids_cons, avoids_cons]
  show TokenKind.name ∉ _ ∧ ¬TokenKind.name ∉ _
  decide

section
variable {r r' : List Token}

theorem Terminal.named_inj {x y : Terminal String} (h : x.named = y.named) : x = y := by
  cases x
  cases y
  cases h
  rfl

theorem Terminal.marked_inj {x y : Mark} {l : Lexeme} (h : x.marked l = y.marked l) : x = y := by
  cases x
  cases y
  cases h
  rfl

theorem Terminal.atom_inj {x y : Terminal Atom} (h : x.token .atom = y.token .atom) : x = y := by
  cases x
  cases y
  cases h
  rfl

/-- Behind an argument there is no colon. -/
theorem ArgumentTree.not_colon (as : List ArgumentTree) (x y : Mark) (s : List Token) :
    as.flatMap tokens ++ x.marked .closeParen :: r ≠ y.marked .colon :: s := by
  intro h
  cases as with
  | nil => cases (List.cons.inj h).1
  | cons a as =>
    cases a with
    | positional value => cases (List.cons.inj h).1
    | named name colon value => cases (List.cons.inj h).1

theorem ArgumentTree.unique {as bs : List ArgumentTree} {x y : Mark}
    (h : as.flatMap tokens ++ x.marked .closeParen :: r
      = bs.flatMap tokens ++ y.marked .closeParen :: r') : as = bs ∧ x = y ∧ r = r' := by
  induction as generalizing bs with
  | nil =>
    cases bs with
    | nil =>
      obtain ⟨hx, hr⟩ := List.cons.inj h
      exact ⟨rfl, Terminal.marked_inj hx, hr⟩
    | cons b bs => cases b <;> cases (List.cons.inj h).1
  | cons a as ih =>
    cases bs with
    | nil => cases a <;> cases (List.cons.inj h).1
    | cons b bs =>
      rw [List.flatMap_cons, List.flatMap_cons, List.append_assoc, List.append_assoc] at h
      cases a with
      | positional v =>
        cases b with
        | positional w =>
          obtain ⟨hv, h⟩ := List.cons.inj h
          obtain ⟨rfl, rfl, rfl⟩ := ih h
          exact ⟨by rw [Terminal.atom_inj hv], rfl, rfl⟩
        | named m c w => exact absurd (List.cons.inj h).2 (not_colon as x c _)
      | named n c v =>
        cases b with
        | positional w => exact absurd (List.cons.inj h).2.symm (not_colon bs y c _)
        | named m d w =>
          obtain ⟨hn, h⟩ := List.cons.inj h
          obtain ⟨hc, h⟩ := List.cons.inj h
          obtain ⟨hv, h⟩ := List.cons.inj h
          obtain ⟨rfl, rfl, rfl⟩ := ih h
          rw [Terminal.named_inj hn, Terminal.marked_inj hc, Terminal.atom_inj hv]
          exact ⟨rfl, rfl, rfl⟩

theorem ArgumentsTree.unique {p q : ArgumentsTree} (h : p.tokens ++ r = q.tokens ++ r') :
    p = q ∧ r = r' := by
  obtain ⟨opening, arguments, closing⟩ := p
  obtain ⟨opening', arguments', closing'⟩ := q
  rw [tokens, tokens, List.cons_append, List.cons_append, List.append_assoc,
    List.append_assoc] at h
  obtain ⟨hopening, h⟩ := List.cons.inj h
  obtain rfl : opening = opening' := Terminal.marked_inj hopening
  obtain ⟨harguments, hclosing, hr⟩ := ArgumentTree.unique h
  cases harguments
  cases hclosing
  exact ⟨rfl, hr⟩

theorem HeadTree.unique {g h : HeadTree} (heq : g.tokens ++ r = h.tokens ++ r')
    (hr : Avoids [.openParen] r) (hr' : Avoids [.openParen] r') : g = h ∧ r = r' := by
  obtain ⟨name, parentheses⟩ := g
  obtain ⟨name', parentheses'⟩ := h
  obtain ⟨hname, hrest⟩ := List.cons.inj heq
  obtain rfl := Terminal.named_inj hname
  cases parentheses with
  | none =>
    cases parentheses' with
    | none => exact ⟨rfl, hrest⟩
    | some q =>
      obtain rfl : r = q.tokens ++ r' := hrest
      exact (not_avoids_cons hr List.mem_cons_self).elim
  | some p =>
    cases parentheses' with
    | none =>
      obtain rfl : p.tokens ++ r = r' := hrest
      exact (not_avoids_cons hr' List.mem_cons_self).elim
    | some q =>
      obtain ⟨rfl, rfl⟩ := ArgumentsTree.unique hrest
      exact ⟨rfl, rfl⟩

mutual

theorem CallTree.unique : ∀ {d e : CallTree} {r r' : List Token},
    d.tokens ++ r = e.tokens ++ r' → Avoids TokenKind.inCall r →
    Avoids TokenKind.inCall r' → d = e ∧ r = r'
  | .plain g, .plain h, r, r', heq, hr, hr' => by
    obtain ⟨rfl, rfl⟩ := HeadTree.unique heq hr.openParen hr'.openParen
    exact ⟨rfl, rfl⟩
  | .plain g, .block h opening calls closing, r, r', heq, hr, hr' => by
    rw [CallTree.tokens, CallTree.tokens, List.append_assoc, List.cons_append] at heq
    obtain ⟨_, rfl⟩ := HeadTree.unique heq hr.openParen (avoids_openBrace opening)
    exact (not_avoids_openBrace hr).elim
  | .block g opening calls closing, .plain h, r, r', heq, hr, hr' => by
    rw [CallTree.tokens, CallTree.tokens, List.append_assoc, List.cons_append] at heq
    obtain ⟨_, rfl⟩ := HeadTree.unique heq (avoids_openBrace opening) hr'.openParen
    exact (not_avoids_openBrace hr').elim
  | .block g opening calls closing, .block h opening' calls' closing', r, r', heq, hr, hr' => by
    simp only [CallTree.tokens, List.append_assoc, List.cons_append, List.nil_append] at heq
    obtain ⟨rfl, hblock⟩ := HeadTree.unique heq (avoids_openBrace _) (avoids_openBrace _)
    obtain ⟨hopening, hcalls⟩ := List.cons.inj hblock
    obtain ⟨rfl, hend⟩ := CallsTree.unique hcalls (avoids_closeBrace _) (avoids_closeBrace _)
    obtain ⟨hclosing, rfl⟩ := List.cons.inj hend
    exact ⟨by rw [Terminal.marked_inj hopening, Terminal.marked_inj hclosing], rfl⟩

theorem CallsTree.unique : ∀ {ds es : CallsTree} {r r' : List Token},
    ds.tokens ++ r = es.tokens ++ r' → Avoids TokenKind.inCalls r →
    Avoids TokenKind.inCalls r' → ds = es ∧ r = r'
  | .one d, .one e, r, r', heq, hr, hr' => by
    obtain ⟨rfl, rfl⟩ := CallTree.unique heq hr.inCall hr'.inCall
    exact ⟨rfl, rfl⟩
  | .one d, .more e es, r, r', heq, hr, hr' => by
    rw [CallsTree.tokens, CallsTree.tokens, List.append_assoc] at heq
    obtain ⟨_, rfl⟩ := CallTree.unique heq hr.inCall (es.avoids_append r').1
    exact absurd hr (es.avoids_append r').2
  | .more d ds, .one e, r, r', heq, hr, hr' => by
    rw [CallsTree.tokens, CallsTree.tokens, List.append_assoc] at heq
    obtain ⟨_, rfl⟩ := CallTree.unique heq (ds.avoids_append r).1 hr'.inCall
    exact absurd hr' (ds.avoids_append r).2
  | .more d ds, .more e es, r, r', heq, hr, hr' => by
    rw [CallsTree.tokens, CallsTree.tokens, List.append_assoc, List.append_assoc] at heq
    obtain ⟨rfl, hrest⟩ := CallTree.unique heq (ds.avoids_append r).1 (es.avoids_append r').1
    obtain ⟨rfl, rfl⟩ := CallsTree.unique hrest hr hr'
    exact ⟨rfl, rfl⟩

end

end

/-- The grammar is unambiguous. -/
theorem CallsTree.tokens_injective : Function.Injective CallsTree.tokens := by
  intro ds es h
  have hrest : ds.tokens ++ [] = es.tokens ++ [] := by rw [h]
  exact (CallsTree.unique hrest avoids_nil avoids_nil).1

end ObjectQuery
