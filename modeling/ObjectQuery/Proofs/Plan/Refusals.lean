import ObjectQuery.Plan.Compile
import ObjectQuery.Proofs.Plan.Selections

/-!
# What selections are refused with

Whoever makes a query is told what is wrong with it: a call or a selection is refused, or changes
are, or a value does not fit its scalar. A selection on records of a snapshot or on metadata fails
in no other way, since whatever a field of those leads to is there.
-/

set_option autoImplicit false

namespace ObjectQuery

open Outcome

/-- Whether an error is one that callers are told of. -/
def CompileError.Told : CompileError → Prop
  | .refused _ => True
  | .unauthorized _ _ => True
  | .coercion (.unfit ..) => True
  | .coercion .outOfRange => False
  | .unresolved _ => False
  | .misuse _ => False

namespace Call

variable {α : Type} (c : Call)

theorem told_refuse (o : Objection) : FailsWith CompileError.Told (c.refuse o : Except _ α) :=
  failsWith_error trivial

theorem told_noPositional : FailsWith CompileError.Told c.noPositional := by
  unfold noPositional
  split
  · exact failsWith_ok ()
  · exact c.told_refuse _

theorem told_onePositional : FailsWith CompileError.Told c.onePositional := by
  unfold onePositional
  split
  · exact failsWith_ok _
  · exact c.told_refuse _

theorem told_twoPositional : FailsWith CompileError.Told c.twoPositional := by
  unfold twoPositional
  split
  · exact failsWith_ok _
  · exact c.told_refuse _

theorem told_threePositional : FailsWith CompileError.Told c.threePositional := by
  unfold threePositional
  split
  · exact failsWith_ok _
  · exact c.told_refuse _

theorem told_allowing (names : List String) : FailsWith CompileError.Told (c.allowing names) := by
  unfold allowing
  split
  · exact c.told_refuse _
  · exact failsWith_ok _

theorem told_nameIn (a : Argument) (what : String) :
    FailsWith CompileError.Told (c.nameIn a what) := by
  unfold nameIn
  split
  · exact failsWith_ok _
  · exact c.told_refuse _

theorem told_textIn (a : Argument) (what : String) :
    FailsWith CompileError.Told (c.textIn a what) := by
  unfold textIn
  split
  · exact failsWith_ok _
  · exact failsWith_ok _
  · exact c.told_refuse _

theorem told_countIn (a : Argument) : FailsWith CompileError.Told (c.countIn a) := by
  unfold countIn
  split
  · exact failsWith_ok _
  · exact c.told_refuse _

theorem told_withoutArguments : FailsWith CompileError.Told c.withoutArguments := by
  unfold withoutArguments
  split
  · exact failsWith_ok ()
  · exact c.told_refuse _

theorem told_asLeaf (kind : LeafKind) : FailsWith CompileError.Told (c.asLeaf kind) := by
  unfold asLeaf
  split
  · exact failsWith_ok ()
  · exact c.told_refuse _

theorem told_checkBlock (limit : Int) (path : Path) (depth : Nat) :
    FailsWith CompileError.Told (c.checkBlock limit path depth) := by
  unfold checkBlock
  split
  · exact c.told_refuse _
  · split
    · exact c.told_refuse _
    · split
      · exact told_refuse _ _
      · exact failsWith_ok ()

end Call

theorem Argument.told_id (a : Argument) : FailsWith CompileError.Told a.id :=
  failsWith_mapError fun _ => trivial

theorem Argument.told_flag (a : Argument) : FailsWith CompileError.Told a.flag :=
  failsWith_mapError fun _ => trivial

theorem Page.told_ofArguments (c : Call) (named : List (String × Argument)) :
    FailsWith CompileError.Told (ofArguments c named) := by
  have hoptional {α β : Type} (o : Option α) {f : α → Except CompileError β}
      (hf : ∀ a, FailsWith CompileError.Told (f a)) : FailsWith CompileError.Told (o.mapM f) := by
    cases o with
    | none => exact failsWith_ok none
    | some a => exact (hf a).bind fun _ _ => failsWith_ok _
  exact (hoptional _ c.told_countIn).bind fun _ _ =>
    (hoptional _ Argument.told_id).bind fun _ _ => failsWith_ok _

theorem Selected.told_plain (c : Call) (kind : LeafKind) (l : Leaf) :
    FailsWith CompileError.Told (plain c kind l) :=
  c.told_withoutArguments.bind fun _ _ => (c.told_asLeaf kind).bind fun _ _ => failsWith_ok _

namespace Snapshot

variable {i : Snapshot} {t u : ObjectType} {f : Field} {c : Call} {n : String}

theorem target_of_type? (h : i.schema.type? n = some u) (f : Field) :
    i.target f (.text n) = .ok u := by
  rw [target, Value.text?_text, Option.bind_some, h]

theorem told_selectConnection {reverse : Value} (h : i.schema.type? n = some u) :
    FailsWith CompileError.Told (i.selectConnection f (.text n) reverse c) := by
  unfold selectConnection
  dsimp only
  split
  · exact (c.told_refuse _).bind nofun
  · refine (c.told_allowing _).bind fun named _ => ?_
    refine (Page.told_ofArguments c named).bind fun page _ => ?_
    rw [target_of_type? h]
    exact failsWith_ok _

theorem told_selectDeclared (ht : t ∈ i.schema.types) (hf : f ∈ t.declared) :
    FailsWith CompileError.Told (i.selectDeclared f c) := by
  obtain ⟨k, hk⟩ := i.valid.exists_kindOf ht hf
  unfold selectDeclared
  rw [hk]
  -- Whatever the kind, the schema has the type that the field leads to.
  cases Schema.kinded_of_kindOf hk with
  | connection hc =>
    obtain ⟨n, u, hn, hu, _⟩ := i.valid.connection_target ht hf hc
    rw [hn]
    exact told_selectConnection hu
  | scalar => exact Selected.told_plain _ _ _
  | scalarList => exact Selected.told_plain _ _ _
  | objectList _ _ _ _ hu =>
    refine c.told_withoutArguments.bind fun _ _ => ?_
    rw [target_of_type? hu]
    exact failsWith_ok _
  | @reference n u _ _ _ _ hu =>
    refine c.told_withoutArguments.bind fun _ _ => ?_
    rw [target_of_type? hu]
    exact failsWith_ok _

theorem told_select (ht : t ∈ i.schema.types) : FailsWith CompileError.Told (i.select t c) := by
  unfold select
  split
  · exact Selected.told_plain _ _ _
  · split
    · rename_i f hf
      exact told_selectDeclared ht (ObjectType.mem_of_field? hf)
    · split
      · exact Selected.told_plain _ _ _
      · exact c.told_refuse _

end Snapshot

namespace Metadata

variable {t u : ObjectType} {f : Field} {c : Call} {selected : Selected}

/-- What the type of a field leads to, if the field is no leaf. -/
def leadsTo? (f : Field) : Option Value :=
  if f.isConnection then some f.ofType
  else if f.isList then if Scalar.isNamedBy f.ofType then none else some f.ofType
  else if Scalar.isNamedBy f.type then none else some f.type

theorem declared_leads : (types.all fun t => t.declared.all fun f =>
    (leadsTo? f).all fun v => (v.text?.bind schema.type?).isSome) = true := by decide

theorem target_of_leadsTo? (ht : t ∈ types) (hf : f ∈ t.declared) {v : Value}
    (hv : leadsTo? f = some v) : ∃ u, target f v = .ok u := by
  have hall := List.all_eq_true.mp (List.all_eq_true.mp declared_leads t ht) f hf
  rw [hv, Option.all_some] at hall
  obtain ⟨u, hu⟩ := Option.isSome_iff_exists.mp hall
  exact ⟨u, by rw [target, hu]⟩

theorem told_selectDeclared (ht : t ∈ types) (hf : f ∈ t.declared) :
    FailsWith CompileError.Told (selectDeclared f c) := by
  have htarget {v : Value} (hv : leadsTo? f = some v) :
      FailsWith CompileError.Told (target f v) := by
    obtain ⟨u, hu⟩ := target_of_leadsTo? ht hf hv
    rw [hu]
    exact failsWith_ok u
  unfold selectDeclared
  split
  · rename_i hc
    exact (htarget (by simp [leadsTo?, hc])).bind fun _ _ => failsWith_ok _
  · rename_i hc
    split
    · rename_i hl
      split
      · exact Selected.told_plain _ _ _
      · rename_i hs
        exact (htarget (by simp [leadsTo?, hc, hl, Scalar.isNamedBy, hs])).bind
          fun _ _ => failsWith_ok _
    · rename_i hl
      split
      · exact Selected.told_plain _ _ _
      · rename_i hs
        exact (htarget (by simp [leadsTo?, hc, hl, Scalar.isNamedBy, hs])).bind
          fun _ _ => failsWith_ok _

theorem told_select (ht : t ∈ types) : FailsWith CompileError.Told (select t c) := by
  refine c.told_withoutArguments.bind fun _ _ => ?_
  split
  · exact Selected.told_plain _ _ _
  · split
    · rename_i f hf
      exact told_selectDeclared ht (ObjectType.mem_of_field? hf)
    · exact c.told_refuse _

theorem mem_of_target {v : Value} (h : target f v = .ok u) : u ∈ types := by
  unfold target at h
  split at h
  · rename_i hbind
    cases h
    obtain ⟨n, _, hu⟩ := Option.bind_eq_some_iff.mp hbind
    exact Schema.mem_of_type? hu
  · cases h

end Metadata

/-- Whether a type is one of those that are declared. -/
def Realm.Declares : Realm → ObjectType → Prop
  | .data i, t => t ∈ i.schema.types
  | .metadata, t => t ∈ Metadata.types

/-- Whether what is selected on is of a type that is declared. -/
def Context.Sound : Context → Prop
  | .object realm t => realm.Declares t
  | .connection _ realm t => realm.Declares t
  | .edges realm t => realm.Declares t

theorem Metadata.sound_of_select {t : ObjectType} {c : Call} {inner : Context} {source : Source}
    (h : select t c = .ok (.nested inner source)) : inner.Sound := by
  cases selects_of_select h with
  | listed _ _ hu => exact mem_of_target hu
  | objectList _ _ _ _ hu => exact mem_of_target hu
  | object _ _ _ _ hu => exact mem_of_target hu

namespace Context

variable {context inner : Context} {c : Call} {source : Source} {limit : Int}

theorem Sound.told_select (h : context.Sound) : FailsWith CompileError.Told (context.select c) := by
  cases context with
  | object realm t =>
    cases realm with
    | data i => exact Snapshot.told_select h
    | metadata => exact Metadata.told_select h
  | connection parent realm t =>
    refine c.told_withoutArguments.bind fun _ _ => ?_
    split
    · exact Selected.told_plain _ _ _
    · split
      · exact failsWith_ok _
      · split
        · exact failsWith_ok _
        · exact c.told_refuse _
  | edges realm t =>
    refine c.told_withoutArguments.bind fun _ _ => ?_
    split
    · exact Selected.told_plain _ _ _
    · split
      · exact failsWith_ok _
      · exact c.told_refuse _

theorem Sound.of_select (h : context.Sound) (hs : context.select c = .ok (.nested inner source)) :
    inner.Sound := by
  cases context with
  | object realm t =>
    cases realm with
    | data i =>
      cases Snapshot.selects_of_select hs with
      | embedded _ _ _ hu => exact Schema.mem_of_type? hu
      | objectList _ _ _ hu => exact Schema.mem_of_type? hu
      | related _ _ _ hu => exact Schema.mem_of_type? hu
      | connection _ _ _ hu => exact Schema.mem_of_type? hu
    | metadata => exact Metadata.sound_of_select hs
  | connection parent realm t => cases ofConnection_of_select hs <;> exact h
  | edges realm t =>
    cases ofEdges_of_select hs
    exact h

mutual

theorem Sound.told_output {context : Context} (h : context.Sound) (path : Path) (depth : Nat) :
    (c : Call) → FailsWith CompileError.Told (context.output limit path depth c)
  | .mk name arguments selections location => by
    rw [output]
    refine h.told_select.bind fun selected hs => ?_
    cases selected with
    | leaf l => exact failsWith_ok _
    | nested inner source =>
      refine (Call.told_checkBlock _ _ _ _).bind fun _ _ => ?_
      exact ((h.of_select hs).told_outputs _ _ selections).bind fun _ _ => failsWith_ok _

theorem Sound.told_outputs {context : Context} (h : context.Sound) (path : Path) (depth : Nat) :
    (cs : List Call) → FailsWith CompileError.Told (context.outputs limit path depth cs)
  | [] => by
    rw [outputs]
    exact failsWith_ok []
  | c :: cs => by
    rw [outputs]
    refine (h.told_output path depth c).bind fun _ _ => ?_
    exact (h.told_outputs path depth cs).bind fun _ _ => failsWith_ok _

end

theorem Sound.told_project (h : context.Sound) :
    FailsWith CompileError.Told (context.project limit c) :=
  (c.told_checkBlock _ _ _).bind fun _ _ =>
    (h.told_outputs [] 1 c.selections).bind fun _ _ => failsWith_ok _

end Context

end ObjectQuery
