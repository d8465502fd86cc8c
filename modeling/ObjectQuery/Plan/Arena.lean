import ObjectQuery.Plan.Selections

/-!
# Writing arenas

The projections of a call side by side instead of within each other. An output refers by a path to
what it is projected to, and the arena has a block for every path. All blocks of a call are written
into one arena, each one after the blocks within it, and what is written at a path takes the place
of what was written there before.
-/

set_option autoImplicit false

namespace ObjectQuery

/-- Sets what belongs to a key, in its place if something does already. -/
def Dictionary.put {κ α : Type} [BEq κ] (entries : List (κ × α)) (k : κ) (a : α) : List (κ × α) :=
  if entries.any (·.1 == k) then entries.map fun e => if e.1 == k then (k, a) else e
  else entries ++ [(k, a)]

/-- An output and, if it is no leaf, whether records are needed for it and where their block is. -/
inductive Step
  | leaf (name : String) (leaf : Leaf)
  | nested (name : String) (source : Source) (fetches : Bool) (child : Path)

namespace Step

def name : Step → String
  | leaf n _ => n
  | nested n _ _ _ => n

def isNested : Step → Bool
  | leaf .. => false
  | nested .. => true

def child? : Step → Option Path
  | leaf .. => none
  | nested _ _ _ child => some child

end Step

structure Block where
  typeName : String
  steps : List Step

abbrev Arena : Type := List (Path × Block)

/-- What is compiled while an arena is written. -/
abbrev Writing (α : Type) : Type := StateT Arena (Except CompileError) α

namespace Context

mutual

/-- The step for a selection at a path, `depth` blocks deep. -/
def writeStep (limit : Int) (context : Context) (path : Path) (depth : Nat) : Call → Writing Step
  | .mk name arguments selections location => do
    let c := Call.mk name arguments selections location
    match ← context.select c with
    | .leaf l => return .leaf name l
    | .nested inner source => do
      let path := path ++ [name]
      c.checkBlock limit path (depth + 1)
      let steps ← inner.writeSteps limit path (depth + 1) selections
      modify (Dictionary.put · path ⟨inner.typeName, steps⟩)
      return .nested name source (steps.any Step.isNested) path

def writeSteps (limit : Int) (context : Context) (path : Path) (depth : Nat) :
    List Call → Writing (List Step)
  | [] => return []
  | c :: cs => do
    return (← context.writeStep limit path depth c) :: (← context.writeSteps limit path depth cs)

end

/-- The arena of a call, which is empty at first. -/
def write (limit : Int) (context : Context) (c : Call) : Except CompileError Arena := do
  c.checkBlock limit [] 1
  let (steps, arena) ← (context.writeSteps limit [] 1 c.selections).run []
  return Dictionary.put arena [] ⟨context.typeName, steps⟩

end Context

end ObjectQuery
