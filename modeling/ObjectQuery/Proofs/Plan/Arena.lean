import Mathlib.Data.List.Infix
import ObjectQuery.Proofs.Dictionary
import ObjectQuery.Proofs.Plan.Blocks

/-!
# The arena of a call

Writing the blocks of a call into one arena comes to the same as compiling them within each other:
since no name is selected twice in a block, no two blocks are written at one path. Every block but
that of the call itself is the one of exactly one step, which is in the block before it on the path.
-/

set_option autoImplicit false

namespace ObjectQuery

open Outcome

/-- An output at a path, as a step. -/
def Output.step (path : Path) : Output → Step
  | leaf n l => .leaf n l
  | nested n s _ os => .nested n s (needsRecords os) (path ++ [n])

namespace Output

mutual

/-- The blocks of an output at a path, each one after the blocks within it. -/
def written (path : Path) : Output → Arena
  | leaf .. => []
  | nested n _ t os =>
    writtenAll (path ++ [n]) os ++ [(path ++ [n], ⟨t, os.map (step (path ++ [n]))⟩)]

def writtenAll (path : Path) : List Output → Arena
  | [] => []
  | o :: os => o.written path ++ writtenAll path os

end

@[simp] theorem name_step (path : Path) (o : Output) : (o.step path).name = o.name := by
  cases o <;> rfl

@[simp] theorem isNested_step (path : Path) (o : Output) : (o.step path).isNested = o.isNested := by
  cases o <;> rfl

theorem child?_step (path : Path) (o : Output) : (o.step path).child? = o.childPath? path := by
  cases o <;> rfl

theorem any_isNested_step (path : Path) (os : List Output) :
    (os.map (step path)).any Step.isNested = needsRecords os := by
  rw [List.any_map, needsRecords]
  exact congrArg os.any (funext fun o => isNested_step path o)

theorem childPath?_eq_some {path child : Path} {o : Output} (h : o.childPath? path = some child) :
    child = path ++ [o.name] := by
  cases o with
  | leaf => cases h
  | nested => exact (Option.some.inj h).symm

mutual

/-- No two outputs within each other have one name. -/
def Separate : Output → Prop
  | leaf .. => True
  | nested _ _ _ os => (os.map name).Nodup ∧ SeparateAll os

def SeparateAll : List Output → Prop
  | [] => True
  | o :: os => o.Separate ∧ SeparateAll os

end

theorem ne_of_prefix {path k : Path} {m n : String} (hm : path ++ [m] <+: k)
    (hn : path ++ [n] <+: k) : m = n := by
  have hlength : (path ++ [m]).length = (path ++ [n]).length := by simp
  have heq := (List.prefix_of_prefix_length_le hm hn hlength.le).eq_of_length hlength
  exact List.singleton_inj.mp (List.append_cancel_left heq)

mutual

/-- The blocks of an output are at its path and beyond. -/
theorem prefix_of_mem_written (path : Path) :
    (o : Output) → ∀ k ∈ (o.written path).map Prod.fst, path ++ [o.name] <+: k
  | leaf n l, k, hk => by
    rw [written] at hk
    cases hk
  | nested n s t os, k, hk => by
    rw [written, List.map_append, List.mem_append, List.map_singleton, List.mem_singleton] at hk
    rcases hk with hk | rfl
    · obtain ⟨o, _, hprefix⟩ := prefix_of_mem_writtenAll (path ++ [n]) os k hk
      exact (List.prefix_append _ _).trans hprefix
    · exact List.prefix_rfl

theorem prefix_of_mem_writtenAll (path : Path) :
    (os : List Output) → ∀ k ∈ (writtenAll path os).map Prod.fst,
      ∃ o ∈ os, path ++ [o.name] <+: k
  | [], k, hk => by
    rw [writtenAll] at hk
    cases hk
  | o :: os, k, hk => by
    rw [writtenAll, List.map_append, List.mem_append] at hk
    rcases hk with hk | hk
    · exact ⟨o, List.mem_cons_self, prefix_of_mem_written path o k hk⟩
    · obtain ⟨p, hp, hprefix⟩ := prefix_of_mem_writtenAll path os k hk
      exact ⟨p, List.mem_cons_of_mem o hp, hprefix⟩

end

theorem notMem_writtenAll (path : Path) (os : List Output) :
    path ∉ (writtenAll path os).map Prod.fst := by
  intro h
  obtain ⟨o, _, hprefix⟩ := prefix_of_mem_writtenAll path os path h
  have hlength := hprefix.length_le
  rw [List.length_append, List.length_singleton] at hlength
  omega

mutual

theorem nodup_written (path : Path) :
    (o : Output) → o.Separate → ((o.written path).map Prod.fst).Nodup
  | leaf n l, _ => by
    rw [written]
    exact List.nodup_nil
  | nested n s t os, h => by
    rw [written, List.map_append, List.map_singleton, ← List.concat_eq_append, List.nodup_concat]
    exact ⟨notMem_writtenAll _ os, nodup_writtenAll _ os h.1 h.2⟩

theorem nodup_writtenAll (path : Path) :
    (os : List Output) → (os.map name).Nodup → SeparateAll os →
      ((writtenAll path os).map Prod.fst).Nodup
  | [], _, _ => by
    rw [writtenAll]
    exact List.nodup_nil
  | o :: os, hnames, h => by
    rw [List.map_cons, List.nodup_cons] at hnames
    rw [writtenAll, List.map_append, List.nodup_append']
    refine ⟨nodup_written path o h.1, nodup_writtenAll path os hnames.2 h.2, fun k hk hrest => ?_⟩
    obtain ⟨p, hp, hprefix⟩ := prefix_of_mem_writtenAll path os k hrest
    have hsame := ne_of_prefix (prefix_of_mem_written path o k hk) hprefix
    exact hnames.1 (hsame ▸ List.mem_map_of_mem hp)

end

end Output

namespace Projection

/-- What is to be presented at a path, as a block. -/
def block (path : Path) (p : Projection) : Block := ⟨p.typeName, p.outputs.map (Output.step path)⟩

/-- The blocks of a projection, each one after the blocks within it. -/
def written (p : Projection) : Arena := Output.writtenAll [] p.outputs ++ [([], p.block [])]

end Projection

namespace Context

/-- Whether nothing has been written where a selection of a name is, or beyond. -/
def Fresh (arena : Arena) (path : Path) (name : String) : Prop :=
  ∀ k ∈ arena.map Prod.fst, ¬path ++ [name] <+: k

variable {limit : Int}

theorem outputs_names {context : Context} {path : Path} {depth : Nat} {cs : List Call}
    {os : List Output} (h : context.outputs limit path depth cs = .ok os) :
    os.map Output.name = cs.map Call.name := by
  induction cs generalizing os with
  | nil =>
    cases h
    rfl
  | cons c cs ih =>
    obtain ⟨o, rest, ho, hrest, rfl⟩ := outputs_cons_eq_ok h
    rw [List.map_cons, List.map_cons, output_name ho, ih hrest]

/-- Nothing has been written within a place where nothing has been written. -/
theorem Fresh.within {arena : Arena} {path : Path} {name : String} (h : Fresh arena path name)
    (inner : String) : Fresh arena (path ++ [name]) inner :=
  fun k hk hprefix => h k hk ((List.prefix_append _ _).trans hprefix)

theorem Fresh.append {arena : Arena} {path : Path} {name : String} {o : Output}
    (h : Fresh arena path name) (hne : name ≠ o.name) :
    Fresh (arena ++ o.written path) path name := by
  intro k hk hprefix
  rw [List.map_append, List.mem_append] at hk
  rcases hk with hk | hk
  · exact h k hk hprefix
  · exact hne (Output.ne_of_prefix hprefix (Output.prefix_of_mem_written path o k hk))

/-- The block of a selection is written where nothing is, however much has been written within. -/
theorem put_block {arena : Arena} {path : Path} {name : String} (h : Fresh arena path name)
    (os : List Output) (block : Block) :
    Dictionary.put (arena ++ Output.writtenAll (path ++ [name]) os) (path ++ [name]) block =
      arena ++ (Output.writtenAll (path ++ [name]) os ++ [(path ++ [name], block)]) := by
  rw [Dictionary.put_of_notMem, List.append_assoc]
  rw [List.map_append, List.mem_append, not_or]
  exact ⟨fun hk => h _ hk List.prefix_rfl, Output.notMem_writtenAll _ os⟩

theorem run_writeStep_leaf {context : Context} {path : Path} {depth : Nat} {c : Call} {l : Leaf}
    (h : context.select c = .ok (.leaf l)) (arena : Arena) :
    (context.writeStep limit path depth c).run arena = .ok (.leaf c.name l, arena) := by
  cases c
  simp [writeStep, h, Call.name]

theorem run_writeStep_nested {context inner : Context} {path : Path} {depth : Nat} {c : Call}
    {source : Source} (h : context.select c = .ok (.nested inner source)) (arena : Arena) :
    (context.writeStep limit path depth c).run arena = do
      c.checkBlock limit (path ++ [c.name]) (depth + 1)
      let (steps, arena) ←
        (inner.writeSteps limit (path ++ [c.name]) (depth + 1) c.selections).run arena
      return (.nested c.name source (steps.any Step.isNested) (path ++ [c.name]),
        Dictionary.put arena (path ++ [c.name]) ⟨inner.typeName, steps⟩) := by
  cases c
  simp [writeStep, h, Call.name, Call.selections]

theorem run_writeSteps_cons (context : Context) (path : Path) (depth : Nat) (c : Call)
    (cs : List Call) (arena : Arena) :
    (context.writeSteps limit path depth (c :: cs)).run arena = do
      let (step, arena) ← (context.writeStep limit path depth c).run arena
      let (steps, arena) ← (context.writeSteps limit path depth cs).run arena
      return (step :: steps, arena) := by
  simp only [writeSteps, StateT.run_bind, StateT.run_pure]

mutual

/-- Writing a selection where nothing is yet adds the blocks of its output. -/
theorem run_writeStep (context : Context) (path : Path) (depth : Nat) :
    (c : Call) → (arena : Arena) → Fresh arena path c.name →
      (context.writeStep limit path depth c).run arena =
        (context.output limit path depth c).map fun o => (o.step path, arena ++ o.written path)
  | .mk name arguments selections location, arena, hfresh => by
    have hfresh : Fresh arena path name := hfresh
    rw [output]
    cases hselect : context.select (.mk name arguments selections location) with
    | error e =>
      simp [writeStep, hselect, Except.map]
    | ok selected =>
      cases selected with
      | leaf l =>
        rw [run_writeStep_leaf hselect]
        simp [Except.map, Output.written, Output.step, Call.name]
      | nested inner source =>
        rw [run_writeStep_nested hselect]
        cases hblock : Call.checkBlock (.mk name arguments selections location) limit
            (path ++ [name]) (depth + 1) with
        | error e =>
          simp [Call.name, hblock, Except.map]
        | ok u =>
          obtain ⟨_, _, hnames⟩ := Call.checkBlock_eq_ok_iff.mp hblock
          have hsteps := run_writeSteps inner (path ++ [name]) (depth + 1) selections arena hnames
            fun s _ => hfresh.within s.name
          simp only [Call.name, Call.selections, hblock, ok_bind, hsteps]
          cases inner.outputs limit (path ++ [name]) (depth + 1) selections with
          | error e => rfl
          | ok os =>
            have hput := put_block hfresh os ⟨inner.typeName, os.map (Output.step (path ++ [name]))⟩
            simp only [Except.map, ok_bind, pure_eq_ok, Output.any_isNested_step]
            rw [hput]
            rfl

theorem run_writeSteps (context : Context) (path : Path) (depth : Nat) :
    (cs : List Call) → (arena : Arena) → (cs.map Call.name).Nodup →
      (∀ c ∈ cs, Fresh arena path c.name) →
      (context.writeSteps limit path depth cs).run arena =
        (context.outputs limit path depth cs).map fun os =>
          (os.map (Output.step path), arena ++ Output.writtenAll path os)
  | [], arena, _, _ => by
    simp [writeSteps, outputs, Output.writtenAll, Except.map]
  | c :: cs, arena, hnames, hfresh => by
    rw [List.map_cons, List.nodup_cons] at hnames
    rw [List.forall_mem_cons] at hfresh
    rw [run_writeSteps_cons, outputs, run_writeStep context path depth c arena hfresh.1]
    cases ho : context.output limit path depth c with
    | error e => rfl
    | ok o =>
      have hrest : ∀ d ∈ cs, Fresh (arena ++ o.written path) path d.name := by
        intro d hd
        refine (hfresh.2 d hd).append fun hsame => ?_
        rw [output_name ho] at hsame
        exact hnames.1 (hsame ▸ List.mem_map_of_mem hd)
      have hsteps := run_writeSteps context path depth cs _ hnames.2 hrest
      simp only [Except.map, ok_bind, hsteps]
      cases context.outputs limit path depth cs with
      | error e => rfl
      | ok os => simp [Output.writtenAll]

end

/-- The arena of a call is that of its projection, and there is one if there is the other. -/
theorem write_eq (context : Context) (c : Call) :
    context.write limit c = (context.project limit c).map Projection.written := by
  rw [write, project]
  cases hblock : c.checkBlock limit [] 1 with
  | error e => rfl
  | ok u =>
    obtain ⟨_, _, hnames⟩ := Call.checkBlock_eq_ok_iff.mp hblock
    have hsteps : (context.writeSteps limit [] 1 c.selections).run [] = _ :=
      run_writeSteps context [] 1 c.selections [] hnames fun s _ k hk => absurd hk List.not_mem_nil
    rw [ok_bind, ok_bind, hsteps]
    cases context.outputs limit [] 1 c.selections with
    | error e => rfl
    | ok os =>
      have hroot := Output.notMem_writtenAll [] os
      simp only [Except.map, ok_bind, pure_eq_ok, Projection.written, Projection.block,
        List.nil_append, Dictionary.put_of_notMem hroot]

end Context

namespace Context

variable {limit : Int}

mutual

theorem separate_of_output (context : Context) (path : Path) (depth : Nat) :
    (c : Call) → (o : Output) → context.output limit path depth c = .ok o → o.Separate
  | .mk name arguments selections location, o, h => by
    rw [output] at h
    obtain ⟨selected, _, h⟩ := bind_eq_ok.mp h
    cases selected with
    | leaf l =>
      cases h
      exact trivial
    | nested inner source =>
      obtain ⟨_, hblock, h⟩ := bind_eq_ok.mp h
      obtain ⟨os, hos, h⟩ := bind_eq_ok.mp h
      cases h
      obtain ⟨_, _, hnames⟩ := Call.checkBlock_eq_ok_iff.mp hblock
      exact ⟨outputs_names hos ▸ hnames, separate_of_outputs inner _ _ selections os hos⟩

theorem separate_of_outputs (context : Context) (path : Path) (depth : Nat) :
    (cs : List Call) → (os : List Output) → context.outputs limit path depth cs = .ok os →
      Output.SeparateAll os
  | [], os, h => by
    cases h
    exact trivial
  | c :: cs, os, h => by
    obtain ⟨o, rest, ho, hrest, rfl⟩ := outputs_cons_eq_ok h
    exact ⟨separate_of_output context path depth c o ho,
      separate_of_outputs context path depth cs rest hrest⟩

end

end Context

namespace Call

/-- The selection that a path of names leads to. -/
def at? : Path → Call → Option Call
  | [], c => some c
  | n :: rest, c => (c.selections.find? (·.name == n)).bind (at? rest)

theorem at?_cons {c s : Call} {rest : Path} (hnames : (c.selections.map name).Nodup)
    (hs : s ∈ c.selections) : c.at? (s.name :: rest) = s.at? rest := by
  have hfound : (c.selections.find? (·.name == s.name)).isSome :=
    List.find?_isSome.mpr ⟨s, hs, beq_self_eq_true s.name⟩
  obtain ⟨d, hd⟩ := Option.isSome_iff_exists.mp hfound
  have hname : d.name = s.name := by simpa using List.find?_some hd
  obtain rfl := List.inj_on_of_nodup_map hnames (List.mem_of_find?_eq_some hd) hs hname
  rw [at?, hd, Option.bind_some]

end Call

/-- Whether the steps of a block are those for the selections of a call. -/
def Block.IsOf (block : Block) (c : Call) : Prop :=
  block.steps.map Step.name = c.selections.map Call.name ∧ (block.steps.map Step.name).Nodup

theorem Block.isOf_outputs {c : Call} {os : List Output} (t : String) (path : Path)
    (hnames : (c.selections.map Call.name).Nodup)
    (hos : os.map Output.name = c.selections.map Call.name) :
    (Block.mk t (os.map (Output.step path))).IsOf c := by
  have hsteps : (os.map (Output.step path)).map Step.name = c.selections.map Call.name := by
    rw [List.map_map, ← hos]
    exact List.map_congr_left fun o _ => Output.name_step path o
  exact ⟨hsteps, hsteps ▸ hnames⟩

namespace Context

variable {limit : Int}

mutual

/-- The blocks of a selection are those of the selections within it, each at the path to it. -/
theorem isOf_of_output (context : Context) (path : Path) (depth : Nat) :
    (c : Call) → (o : Output) → context.output limit path depth c = .ok o →
      ∀ e ∈ o.written path, ∃ rest d, e.1 = path ++ c.name :: rest ∧ c.at? rest = some d ∧
        e.2.IsOf d
  | .mk name arguments selections location, o, h, e, he => by
    rw [output] at h
    obtain ⟨selected, _, h⟩ := bind_eq_ok.mp h
    cases selected with
    | leaf l =>
      cases h
      cases he
    | nested inner source =>
      obtain ⟨_, hblock, h⟩ := bind_eq_ok.mp h
      obtain ⟨os, hos, h⟩ := bind_eq_ok.mp h
      cases h
      obtain ⟨_, _, hnames⟩ := Call.checkBlock_eq_ok_iff.mp hblock
      rw [Output.written, List.mem_append, List.mem_singleton] at he
      rcases he with he | rfl
      · obtain ⟨s, hs, rest, d, hpath, hd, hof⟩ :=
          isOf_of_outputs inner (path ++ [name]) (depth + 1) selections os hos e he
        refine ⟨s.name :: rest, d, ?_, (Call.at?_cons hnames hs).trans hd, hof⟩
        rw [hpath, List.append_assoc]
        rfl
      · exact ⟨[], _, rfl, rfl, Block.isOf_outputs _ _ hnames (outputs_names hos)⟩

theorem isOf_of_outputs (context : Context) (path : Path) (depth : Nat) :
    (cs : List Call) → (os : List Output) → context.outputs limit path depth cs = .ok os →
      ∀ e ∈ Output.writtenAll path os, ∃ s ∈ cs, ∃ rest d, e.1 = path ++ s.name :: rest ∧
        s.at? rest = some d ∧ e.2.IsOf d
  | [], os, h, e, he => by
    cases h
    cases he
  | c :: cs, os, h, e, he => by
    obtain ⟨o, rest, ho, hrest, rfl⟩ := outputs_cons_eq_ok h
    rw [Output.writtenAll, List.mem_append] at he
    rcases he with he | he
    · exact ⟨c, List.mem_cons_self, isOf_of_output context path depth c o ho e he⟩
    · obtain ⟨s, hs, hof⟩ := isOf_of_outputs context path depth cs rest hrest e he
      exact ⟨s, List.mem_cons_of_mem c hs, hof⟩

end

end Context

namespace Arena

def paths (a : Arena) : List Path := a.map Prod.fst

/-- The paths that steps refer to, as often as they do. -/
def children (a : Arena) : List Path := a.flatMap fun e => e.2.steps.filterMap Step.child?

/-- Whether an arena is one of blocks within each other, those of a call and what it selects. -/
structure WellFormed (c : Call) (a : Arena) : Prop where
  root : [] ∈ a.paths
  nodup : a.paths.Nodup
  child : ∀ e ∈ a, ∀ step ∈ e.2.steps, ∀ k, step.child? = some k →
    k = e.1 ++ [step.name] ∧ k ∈ a.paths
  parent : ∀ k ∈ a.paths, k ≠ [] → a.children.count k = 1
  selections : ∀ e ∈ a, ∃ d, c.at? e.1 = some d ∧ e.2.IsOf d

@[simp] theorem paths_append (a b : Arena) : (a ++ b).paths = a.paths ++ b.paths :=
  List.map_append

@[simp] theorem children_append (a b : Arena) : (a ++ b).children = a.children ++ b.children :=
  List.flatMap_append

end Arena

namespace Output

theorem filterMap_child?_step (path : Path) (os : List Output) :
    (os.map (step path)).filterMap Step.child? = os.filterMap (childPath? path) := by
  rw [List.filterMap_map]
  exact List.filterMap_congr fun o _ => child?_step path o

mutual

/-- The paths of blocks are those that steps refer to. -/
theorem children_written (path : Path) : (o : Output) →
    ((o.written path).children ++ (o.childPath? path).toList).Perm (o.written path).paths
  | leaf n l => by
    rw [written]
    exact List.Perm.nil
  | nested n s t os => by
    have hinner := children_writtenAll (path ++ [n]) os
    rw [written, Arena.children_append, Arena.paths_append]
    refine List.Perm.append_right _ ?_
    rw [← filterMap_child?_step] at hinner
    refine List.Perm.trans (.of_eq ?_) hinner
    simp [Arena.children]

theorem children_writtenAll (path : Path) : (os : List Output) →
    ((writtenAll path os).children ++ os.filterMap (childPath? path)).Perm
      (writtenAll path os).paths
  | [] => by
    rw [writtenAll]
    exact List.Perm.nil
  | o :: os => by
    have hfirst := children_written path o
    have hrest := children_writtenAll path os
    have hsplit : (o :: os).filterMap (childPath? path) =
        (o.childPath? path).toList ++ os.filterMap (childPath? path) := by
      cases h : o.childPath? path <;> simp [h]
    rw [writtenAll, Arena.children_append, Arena.paths_append, hsplit]
    refine List.Perm.trans ?_ (hfirst.append hrest)
    rw [List.append_assoc, List.append_assoc]
    exact (List.perm_append_comm_assoc _ _ _).append_left _

end

mutual

/-- Whether blocks come before or after those within them, they are the same ones. -/
theorem written_perm (path : Path) : (o : Output) →
    (o.written path).Perm ((Projection.arenaOf path o).map fun e => (e.1, e.2.block e.1))
  | leaf n l => by
    rw [written]
    exact List.Perm.nil
  | nested n s t os => by
    rw [written, Projection.arenaOf, List.map_cons]
    exact (List.perm_append_singleton _ _).trans ((writtenAll_perm (path ++ [n]) os).cons _)

theorem writtenAll_perm (path : Path) : (os : List Output) →
    (writtenAll path os).Perm ((Projection.arenaOfAll path os).map fun e => (e.1, e.2.block e.1))
  | [] => by
    rw [writtenAll]
    exact List.Perm.nil
  | o :: os => by
    rw [writtenAll, Projection.arenaOfAll, List.map_append]
    exact (written_perm path o).append (writtenAll_perm path os)

end

end Output

namespace Projection

variable {p : Projection}

theorem written_perm (p : Projection) :
    p.written.Perm (p.arena.map fun e => (e.1, e.2.block e.1)) :=
  (List.perm_append_singleton _ _).trans ((Output.writtenAll_perm [] p.outputs).cons _)

/-- The blocks but the first are those that steps refer to. -/
theorem children_written (p : Projection) :
    p.written.children.Perm (Output.writtenAll [] p.outputs).paths := by
  have hinner := Output.children_writtenAll [] p.outputs
  rw [← Output.filterMap_child?_step] at hinner
  refine List.Perm.trans (.of_eq ?_) hinner
  simp [written, block, Arena.children]

theorem wellFormed_written {context : Context} {limit : Int} {c : Call}
    (h : context.project limit c = .ok p) : p.written.WellFormed c := by
  obtain ⟨_, hblock, hp⟩ := bind_eq_ok.mp h
  obtain ⟨os, hos, hp⟩ := bind_eq_ok.mp hp
  cases hp
  obtain ⟨_, _, hnames⟩ := Call.checkBlock_eq_ok_iff.mp hblock
  have hsame := Context.outputs_names hos
  have hseparate := Context.separate_of_outputs context [] 1 c.selections os hos
  have hnodup := Output.nodup_writtenAll [] os (hsame ▸ hnames) hseparate
  have hroot := Output.notMem_writtenAll [] os
  have hchildren := children_written ⟨context.typeName, os⟩
  have hpaths : (written ⟨context.typeName, os⟩).paths =
      (Output.writtenAll [] os).paths ++ [[]] := Arena.paths_append _ _
  refine ⟨?_, ?_, ?_, ?_, ?_⟩
  · rw [hpaths]
    exact List.mem_append_right _ (List.mem_singleton_self [])
  · rw [hpaths, ← List.concat_eq_append, List.nodup_concat]
    exact ⟨hroot, hnodup⟩
  · intro e he step hstep k hk
    have hmem := (written_perm ⟨context.typeName, os⟩).mem_iff.mp he
    obtain ⟨⟨path, q⟩, _, rfl⟩ := List.mem_map.mp hmem
    obtain ⟨o, _, rfl⟩ := List.mem_map.mp hstep
    refine ⟨?_, ?_⟩
    · rw [Output.child?_step] at hk
      rw [Output.childPath?_eq_some hk, Output.name_step]
    · have hchild : k ∈ (written ⟨context.typeName, os⟩).children :=
        List.mem_flatMap.mpr ⟨_, he, List.mem_filterMap.mpr ⟨_, hstep, hk⟩⟩
      rw [hpaths]
      exact List.mem_append_left _ (hchildren.mem_iff.mp hchild)
  · intro k hk hne
    rw [hpaths, List.mem_append, List.mem_singleton, or_iff_left hne] at hk
    rw [hchildren.count_eq]
    exact List.count_eq_one_of_mem hnodup hk
  · intro e he
    rw [written, List.mem_append, List.mem_singleton] at he
    rcases he with he | rfl
    · obtain ⟨s, hs, rest, d, hpath, hd, hof⟩ :=
        Context.isOf_of_outputs context [] 1 c.selections os hos e he
      exact ⟨d, by rw [hpath, List.nil_append, Call.at?_cons hnames hs, hd], hof⟩
    · exact ⟨c, rfl, Block.isOf_outputs _ _ hnames hsame⟩

end Projection

end ObjectQuery
