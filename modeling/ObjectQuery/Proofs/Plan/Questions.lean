import ObjectQuery.Proofs.Plan.Typing
import ObjectQuery.Proofs.Store.Layout

/-!
# Questions about one record

A query for the record of an id is compiled to the same plan wherever its words stand and however
the id is written. What the plan is depends on what is selected: the id of the record, a reference,
or a connection with the number or the ids of its records.
-/

set_option autoImplicit false

namespace ObjectQuery

open Outcome

namespace Call

variable {c : Call} {cs ds : List Call} {n : String} {ss : List Call}

/-- A call without arguments. -/
def plain (name : String) (selections : List Call) : Call := .mk name [] selections .start

def ofId : Call := plain idName []

def ofCount : Call := plain countName []

/-- The ids of the records of a connection. -/
def ofNodes : Call := plain nodesName [ofId]

theorem same_plain (h : c.same (plain n ss) = true) :
    c.name = n ∧ c.arguments = [] ∧ sameAll c.selections ss = true := by
  obtain ⟨name, arguments, selections, location⟩ := c
  simp only [same, plain, Bool.and_eq_true, beq_iff_eq] at h
  obtain ⟨⟨hname, harguments⟩, hselections⟩ := h
  cases arguments with
  | nil => exact ⟨hname, rfl, hselections⟩
  | cons => cases harguments

theorem of_same {d : Call} (h : c.same d = true) : c.name = d.name ∧
    (c.arguments.map fun b => (b.name, b.value)) = (d.arguments.map fun b => (b.name, b.value)) ∧
    sameAll c.selections d.selections = true := by
  obtain ⟨n, as, ss, l⟩ := c
  obtain ⟨m, bs, ts, k⟩ := d
  simp only [same, Bool.and_eq_true, beq_iff_eq, sameArguments_iff] at h
  obtain ⟨⟨hname, harguments⟩, hselections⟩ := h
  refine ⟨hname, ?_, hselections⟩
  have hplaces := congrArg (List.map fun b : Argument => (b.name, b.value)) harguments
  rwa [List.map_map, List.map_map] at hplaces

theorem eq_nil_of_sameAll (h : sameAll cs [] = true) : cs = [] := by
  cases cs with
  | nil => rfl
  | cons => cases h

theorem sameAll_cons {d : Call} (h : sameAll cs (d :: ds) = true) :
    ∃ c rest, cs = c :: rest ∧ c.same d = true ∧ sameAll rest ds = true := by
  cases cs with
  | nil => cases h
  | cons c rest =>
    rw [sameAll, Bool.and_eq_true] at h
    exact ⟨c, rest, rfl, h.1, h.2⟩

theorem sameAll_refl (cs : List Call) : sameAll cs cs = true := (sameAll_iff cs cs).mpr rfl

theorem names_of_sameAll (h : sameAll cs ds = true) : cs.map name = ds.map name := by
  have hname (c : Call) : c.unplaced.name = c.name := by
    obtain ⟨name, arguments, selections, location⟩ := c
    rfl
  have hplaces := congrArg (List.map name) ((sameAll_iff cs ds).mp h)
  simpa only [unplacedAll_eq, List.map_map, Function.comp_def, hname] using hplaces

/-- Selections that make a block: there are some, and no two of one name. -/
def Block (cs : List Call) : Prop := cs ≠ [] ∧ (cs.map name).Nodup

theorem block_singleton (c : Call) : Block [c] := ⟨List.cons_ne_nil c [], List.nodup_singleton _⟩

theorem checkBlock_of_sameAll {limit : Int} {path : Path} {depth : Nat}
    (h : sameAll c.selections ss = true) (hs : Block ss) (hdepth : depth ≤ limit) :
    c.checkBlock limit path depth = .ok () := by
  have hnames := names_of_sameAll h
  refine checkBlock_eq_ok_iff.mpr ⟨hdepth, fun hnil => hs.1 ?_, hnames ▸ hs.2⟩
  rw [hnil] at hnames
  exact List.map_eq_nil_iff.mp hnames.symm

end Call

/-- A question is what is selected on the record of an id. Queries that ask it may write the id as
a word, a text or a number, and may stand anywhere. -/
def Query.AsksFor (q : Query) (typeName id : String) (selections : List Call) : Prop :=
  ∃ c a, q = [c] ∧ c.name = "node" ∧
    (c.arguments.map fun b => (b.name, b.value)) = [(none, .name typeName), (none, a)] ∧
    Scalar.idOf a.value = .ok id ∧ Call.sameAll c.selections selections = true

def Query.ofRecord (typeName id : String) (selections : List Call) : Query :=
  [.mk "node" [⟨.name typeName, none, .start⟩, ⟨.string id, none, .start⟩] selections .start]

theorem Query.ofRecord_asksFor (typeName id : String) (selections : List Call) :
    (ofRecord typeName id selections).AsksFor typeName id selections :=
  ⟨_, _, rfl, rfl, rfl, rfl, Call.sameAll_refl selections⟩

section Plans

variable {i : Snapshot} {limit : Int} {path : Path} {depth : Nat} {t u : ObjectType} {f : Field}
  {c : Call} {cs ss : List Call} {context inner : Context} {source : Source} {os : List Output}
  {parent n r : String}

namespace Context

theorem output_of_leaf {l : Leaf} (h : context.select c = .ok (.leaf l)) :
    context.output limit path depth c = .ok (.leaf c.name l) := by
  obtain ⟨name, arguments, selections, location⟩ := c
  rw [output, h]
  rfl

/-- A selection with others in turn, where nothing of it depends on its place. -/
theorem output_of_nested (hc : c.same (.plain n ss) = true) (hs : Call.Block ss)
    (hdepth : ((depth + 1 : Nat) : Int) ≤ limit)
    (hselect : context.select c = .ok (.nested inner source))
    (hos : ∀ cs, Call.sameAll cs ss = true →
      inner.outputs limit (path ++ [n]) (depth + 1) cs = .ok os) :
    context.output limit path depth c = .ok (.nested n source inner.typeName os) := by
  obtain ⟨hname, _, hselections⟩ := Call.same_plain hc
  have hblock : c.checkBlock limit (path ++ [n]) (depth + 1) = .ok () :=
    Call.checkBlock_of_sameAll hselections hs hdepth
  have houtputs := hos _ hselections
  obtain ⟨name, arguments, selections, location⟩ := c
  obtain rfl : name = n := hname
  rw [output]
  exact bind_eq_ok.mpr ⟨_, hselect, bind_eq_ok.mpr ⟨(), hblock, bind_eq_ok.mpr ⟨os, houtputs, rfl⟩⟩⟩

theorem outputs_of_cons {d : Call} {o : Output}
    (ho : ∀ c, c.same d = true → context.output limit path depth c = .ok o)
    (hos : ∀ cs, Call.sameAll cs ss = true → context.outputs limit path depth cs = .ok os)
    (h : Call.sameAll cs (d :: ss) = true) :
    context.outputs limit path depth cs = .ok (o :: os) := by
  obtain ⟨c, rest, rfl, hc, hrest⟩ := Call.sameAll_cons h
  rw [outputs, ho c hc, ok_bind, hos rest hrest]
  rfl

theorem outputs_of_nil (h : Call.sameAll cs [] = true) :
    context.outputs limit path depth cs = .ok [] := by
  obtain rfl := Call.eq_nil_of_sameAll h
  rfl

end Context

namespace Snapshot

theorem select_declared (hn : c.name ≠ typenameName) (hf : t.field? c.name = some f) :
    i.select t c = i.selectDeclared f c := by
  rw [select, if_neg hn, hf]

theorem select_scalar (hn : c.name ≠ typenameName) (hf : t.field? c.name = some f) {s : Scalar}
    (hk : i.schema.kindOf f = .ok (.scalar s)) (ha : c.arguments = []) (hs : c.selections = []) :
    i.select t c = .ok (.leaf (.field c.name)) := by
  rw [select_declared hn hf]
  exact bind_eq_ok.mpr ⟨_, mapError_eq_ok.mpr hk, Selected.plain_eq_ok_iff.mpr ⟨ha, hs, rfl⟩⟩

theorem select_reference (hn : c.name ≠ typenameName) (hf : t.field? c.name = some f)
    (hk : i.schema.kindOf f = .ok (.reference n true)) (hu : i.schema.type? n = some u)
    (ha : c.arguments = []) :
    i.select t c = .ok (.nested (.object (.data i) u) (.related c.name n)) := by
  rw [select_declared hn hf, ← Schema.label_eq hu]
  refine bind_eq_ok.mpr ⟨_, mapError_eq_ok.mpr hk, ?_⟩
  exact bind_eq_ok.mpr ⟨(), Call.withoutArguments_eq_ok_iff.mpr ha,
    bind_eq_ok.mpr ⟨u, target_of_type? hu f, rfl⟩⟩

theorem select_connection (hn : c.name ≠ typenameName) (hf : t.field? c.name = some f)
    (hk : i.schema.kindOf f = .ok (.connection (.text n) (.text r)))
    (hu : i.schema.type? n = some u) (ha : c.arguments = []) :
    i.select t c = .ok (.nested (.connection c.name (.data i) u)
      (.connection n r ⟨none, none⟩)) := by
  have hpositional : c.positional = [] := by rw [Call.positional, ha, List.filter_nil]
  have hnamed : c.namedArguments = [] := by rw [Call.namedArguments, ha, List.filterMap_nil]
  have hallowed : c.allowing Page.argumentNames = .ok [] :=
    Call.allowing_eq_ok.mpr ⟨hnamed.symm, by simp [hnamed]⟩
  have hconnection : i.selectConnection f (.text n) (.text r) c = .ok (.nested
      (.connection c.name (.data i) u) (.connection n r ⟨none, none⟩)) := by
    rw [selectConnection, hpositional]
    exact bind_eq_ok.mpr ⟨[], hallowed, bind_eq_ok.mpr ⟨⟨none, none⟩, rfl,
      bind_eq_ok.mpr ⟨u, target_of_type? hu f, by rw [Schema.label_eq hu]; rfl⟩⟩⟩
  rw [select_declared hn hf]
  exact bind_eq_ok.mpr ⟨_, mapError_eq_ok.mpr hk, hconnection⟩

end Snapshot

/-- The id of a record, presented as it is. -/
def idOutput : Output := .leaf idName (.field idName)

def countOutput : Output := .leaf countName (.field countName)

/-- The ids of the records of a connection. -/
def nodesOutput (u : ObjectType) : Output :=
  .nested nodesName (.embedded nodesName true) u.label [idOutput]

/-- A field of one scalar, presented as it is. -/
theorem outputs_scalar (hname : n ≠ typenameName) (hf : t.field? n = some f) {s : Scalar}
    (hk : i.schema.kindOf f = .ok (.scalar s)) (h : Call.sameAll cs [.plain n []] = true) :
    (Context.object (.data i) t).outputs limit path depth cs = .ok [.leaf n (.field n)] := by
  refine Context.outputs_of_cons (fun c hc => ?_) (fun _ => Context.outputs_of_nil) h
  obtain ⟨rfl, harguments, hselections⟩ := Call.same_plain hc
  have hselect : (Context.object (.data i) t).select c = .ok (.leaf (.field c.name)) :=
    Snapshot.select_scalar hname hf hk harguments (Call.eq_nil_of_sameAll hselections)
  exact Context.output_of_leaf hselect

theorem outputs_id (hi : i.rules.registry = .standard) (ht : t ∈ i.schema.types)
    (hnode : t.isNode = true) (h : Call.sameAll cs [.ofId] = true) :
    (Context.object (.data i) t).outputs limit path depth cs = .ok [idOutput] := by
  obtain ⟨f, hf, hk⟩ := i.valid.exists_idField hi ht hnode
  exact outputs_scalar (by decide) hf hk h

theorem output_count {realm : Realm} (h : c.same .ofCount = true) :
    (Context.connection parent realm t).output limit path depth c = .ok countOutput := by
  obtain ⟨hname, harguments, hselections⟩ := Call.same_plain h
  have hselect : (Context.connection parent realm t).select c =
      .ok (.leaf (.field countName)) :=
    bind_eq_ok.mpr ⟨(), Call.withoutArguments_eq_ok_iff.mpr harguments, (if_pos hname).trans
      (Selected.plain_eq_ok_iff.mpr ⟨harguments, Call.eq_nil_of_sameAll hselections, rfl⟩)⟩
  rw [Context.output_of_leaf hselect, hname]
  rfl

/-- The records of a connection, with anything of theirs. -/
theorem output_nodes_of {realm : Realm} (hs : Call.Block ss)
    (hdepth : ((depth + 1 : Nat) : Int) ≤ limit)
    (hos : ∀ cs, Call.sameAll cs ss = true →
      (Context.object realm t).outputs limit (path ++ [nodesName]) (depth + 1) cs = .ok os)
    (h : c.same (.plain nodesName ss) = true) :
    (Context.connection parent realm t).output limit path depth c =
      .ok (.nested nodesName (.embedded nodesName true) t.label os) := by
  obtain ⟨hname, harguments, _⟩ := Call.same_plain h
  have hselect : (Context.connection parent realm t).select c =
      .ok (.nested (.object realm t) (.embedded nodesName true)) :=
    bind_eq_ok.mpr ⟨(), Call.withoutArguments_eq_ok_iff.mpr harguments,
      (if_neg (ne_of_eq_of_ne hname (by decide))).trans (if_pos hname)⟩
  exact Context.output_of_nested h hs hdepth hselect hos

theorem output_nodes (hi : i.rules.registry = .standard) (ht : t ∈ i.schema.types)
    (hnode : t.isNode = true) (hdepth : ((depth + 1 : Nat) : Int) ≤ limit)
    (h : c.same .ofNodes = true) :
    (Context.connection parent (.data i) t).output limit path depth c = .ok (nodesOutput t) :=
  output_nodes_of (Call.block_singleton _) hdepth (fun _ => outputs_id hi ht hnode) h

theorem outputs_connection (hname : n ≠ typenameName) (hf : t.field? n = some f)
    {target reverse : String}
    (hk : i.schema.kindOf f = .ok (.connection (.text target) (.text reverse)))
    (hu : i.schema.type? target = some u) (hs : Call.Block ss)
    (hdepth : ((depth + 1 : Nat) : Int) ≤ limit) (hos : ∀ cs, Call.sameAll cs ss = true →
      (Context.connection n (.data i) u).outputs limit (path ++ [n]) (depth + 1) cs = .ok os)
    (h : Call.sameAll cs [.plain n ss] = true) :
    (Context.object (.data i) t).outputs limit path depth cs =
      .ok [.nested n (.connection target reverse ⟨none, none⟩)
        (Context.connection n (.data i) u).typeName os] := by
  refine Context.outputs_of_cons (fun c hc => ?_) (fun _ => Context.outputs_of_nil) h
  obtain ⟨rfl, harguments, _⟩ := Call.same_plain hc
  exact Context.output_of_nested hc hs hdepth
    (Snapshot.select_connection hname hf hk hu harguments) hos

theorem outputs_reference (hname : n ≠ typenameName) (hf : t.field? n = some f) {target : String}
    (hk : i.schema.kindOf f = .ok (.reference target true)) (hu : i.schema.type? target = some u)
    (hs : Call.Block ss) (hdepth : ((depth + 1 : Nat) : Int) ≤ limit)
    (hos : ∀ cs, Call.sameAll cs ss = true →
      (Context.object (.data i) u).outputs limit (path ++ [n]) (depth + 1) cs = .ok os)
    (h : Call.sameAll cs [.plain n ss] = true) :
    (Context.object (.data i) t).outputs limit path depth cs =
      .ok [.nested n (.related n target) u.label os] := by
  refine Context.outputs_of_cons (fun c hc => ?_) (fun _ => Context.outputs_of_nil) h
  obtain ⟨rfl, harguments, _⟩ := Call.same_plain hc
  have hselect : (Context.object (.data i) t).select c =
      .ok (.nested (.object (.data i) u) (.related c.name target)) :=
    Snapshot.select_reference hname hf hk hu harguments
  exact Context.output_of_nested hc hs hdepth hselect hos

/-- A query that asks for a record has the plan to fetch it. -/
theorem Query.AsksFor.compile_eq {credentials : Credentials} {id : String} {q : Query}
    (hq : q.AsksFor n id ss) (ht : i.schema.type? n = some t) (hnode : t.isNode = true)
    (hs : Call.Block ss) (hlimit : 1 ≤ limit) (hos : ∀ cs, Call.sameAll cs ss = true →
      (Context.object (.data i) t).outputs limit [] 1 cs = .ok os) :
    q.compile credentials i limit = .ok [.fetchNode n id ⟨n, os⟩] := by
  obtain ⟨c, a, rfl, hname, harguments, hid, hselections⟩ := hq
  have hproject : (Context.object (.data i) t).project limit c = .ok ⟨n, os⟩ := by
    refine bind_eq_ok.mpr ⟨(), Call.checkBlock_of_sameAll hselections hs hlimit, ?_⟩
    rw [hos _ hselections, ← Schema.label_eq ht]
    rfl
  have hcall : Compile.call credentials i limit c = .ok (.fetchNode n id ⟨n, os⟩) := by
    rw [Compile.call, hname]
    show Compile.node i limit c = _
    rw [Compile.node_eq harguments ht hnode hid, hproject, ok_bind, Schema.label_eq ht]
    rfl
  rw [compile, List.mapM_cons, hcall]
  rfl

end Plans

end ObjectQuery
