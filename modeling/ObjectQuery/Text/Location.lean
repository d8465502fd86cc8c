/-!
# Places in a text

A place is a line and a column, both counted from one. Lines end at newline characters only, and
columns count characters. `Location.ofOffset` reads the place off the characters before it, so an
offset behind the end of the text stands for the end.
-/

set_option autoImplicit false

namespace ObjectQuery

structure Location where
  line : Nat
  column : Nat
deriving DecidableEq, Repr

namespace Location

def start : Location := ⟨1, 1⟩

def advance (here : Location) (c : Char) : Location :=
  if c = '\n' then ⟨here.line + 1, 1⟩ else ⟨here.line, here.column + 1⟩

def ofOffset (text : List Char) (offset : Nat) : Location :=
  (text.take offset).foldl advance start

@[simp] theorem ofOffset_zero (text : List Char) : ofOffset text 0 = start := rfl

@[simp] theorem advance_newline (here : Location) : here.advance '\n' = ⟨here.line + 1, 1⟩ := rfl

theorem advance_of_ne {c : Char} (here : Location) (h : c ≠ '\n') :
    here.advance c = ⟨here.line, here.column + 1⟩ := by
  simp [advance, h]

/-- The words in which messages point at a place. -/
def describe (here : Location) : String :=
  s!"line {here.line}, column {here.column}"

end Location

end ObjectQuery
