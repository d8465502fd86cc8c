import ObjectQuery.Proofs.Query.BothEnds
import ObjectQuery.Proofs.Query.Descriptions
import ObjectQuery.Proofs.Query.Namespace
import ObjectQuery.Proofs.Schema.Kinds
import ObjectQuery.Proofs.Schema.Reloading
import ObjectQuery.Store.Answering

/-!
# What introspection tells

A query for the types of a schema, with all there is to know of them and of their fields, is
answered without a question to the store. The answer loses nothing: where each list of fields stands
as a connection, its nodes are put in the place of it, and what is then read as a definition has the
types of the schema, each with its plural, and after them the ones that describe schemas.
-/

set_option autoImplicit false

namespace ObjectQuery

open Outcome

namespace Metadata

variable {t u : ObjectType} {f : Field} {c : Call} {n : String}

/-- Whether a type of metadata has a field that is shown as it is. -/
def Shows (t : ObjectType) (n : String) : Prop :=
  n ≠ typenameName ∧ ∃ f, t.field? n = some f ∧ leadsTo? f = none

theorem shows_of_all {names : List String} (h : (names.all fun n => n != typenameName &&
    (t.field? n).any fun f => (leadsTo? f).isNone) = true) : ∀ n ∈ names, Shows t n := by
  intro n hn
  obtain ⟨hname, hfield⟩ := Bool.and_eq_true_iff.mp (List.all_eq_true.mp h n hn)
  obtain ⟨f, hf, hnone⟩ := (Option.any_eq_true _ _).mp hfield
  exact ⟨bne_iff_ne.mp hname, f, hf, Option.isNone_iff_eq_none.mp hnone⟩

theorem selectDeclared_leaf (hf : leadsTo? f = none) (ha : c.arguments = [])
    (hs : c.selections = []) : selectDeclared f c = .ok (.leaf (.field c.name)) := by
  have hplain (kind : LeafKind) : Selected.plain c kind (.field c.name) =
      .ok (.leaf (.field c.name)) := Selected.plain_eq_ok_iff.mpr ⟨ha, hs, rfl⟩
  unfold leadsTo? at hf
  unfold selectDeclared
  split at hf
  · cases hf
  rename_i hconnection
  rw [if_neg hconnection]
  split at hf
  · rename_i hlist
    rw [if_pos hlist]
    split at hf
    · rename_i hscalar
      obtain ⟨scalar, hscalar⟩ := Option.isSome_iff_exists.mp hscalar
      rw [hscalar]
      exact hplain _
    · cases hf
  · rename_i hlist
    rw [if_neg hlist]
    split at hf
    · rename_i hscalar
      obtain ⟨scalar, hscalar⟩ := Option.isSome_iff_exists.mp hscalar
      rw [hscalar]
      exact hplain _
    · cases hf

theorem select_leaf (h : Shows t c.name) (ha : c.arguments = []) (hs : c.selections = []) :
    select t c = .ok (.leaf (.field c.name)) := by
  obtain ⟨hn, f, hf, hleaf⟩ := h
  refine bind_eq_ok.mpr ⟨(), Call.withoutArguments_eq_ok_iff.mpr ha, ?_⟩
  rw [if_neg hn, hf]
  exact selectDeclared_leaf hleaf ha hs

theorem select_connection (hn : c.name ≠ typenameName) (hf : t.field? c.name = some f)
    (hc : f.isConnection = true) (hu : target f f.ofType = .ok u) (ha : c.arguments = []) :
    select t c = .ok (.nested (.connection c.name .metadata u) (.listed c.name)) := by
  refine bind_eq_ok.mpr ⟨(), Call.withoutArguments_eq_ok_iff.mpr ha, ?_⟩
  rw [if_neg hn, hf]
  show selectDeclared f c = _
  rw [selectDeclared, if_pos hc, hu]
  rfl

end Metadata

/-- Fields that are shown as they are. -/
def leavesOf (names : List String) : List Output := names.map fun n => .leaf n (.field n)

/-- A list, with how many elements it has and something of each. -/
def listingOf (n : String) (u : ObjectType) (os : List Output) : Output :=
  .nested n (.listed n) (u.label ++ connectionMarker)
    [countOutput, .nested nodesName (.embedded nodesName true) u.label os]

/-- Selections of fields without anything of their own. -/
def Call.plains (names : List String) : List Call := names.map (Call.plain · [])

/-- The selection of a list, with how many elements it has and something of each. -/
def Call.listing (n : String) (ss : List Call) : Call := .plain n [.ofCount, .plain nodesName ss]

section Plans

variable {limit : Int} {path : Path} {depth : Nat} {t u : ObjectType} {f : Field} {c : Call}
  {cs ss : List Call} {os : List Output} {names : List String} {n : String}

theorem outputs_leaves (h : ∀ n ∈ names, Metadata.Shows t n)
    (hos : ∀ cs, Call.sameAll cs ss = true →
      (Context.object .metadata t).outputs limit path depth cs = .ok os)
    (hcs : Call.sameAll cs (Call.plains names ++ ss) = true) :
    (Context.object .metadata t).outputs limit path depth cs = .ok (leavesOf names ++ os) := by
  induction names generalizing cs with
  | nil => exact hos cs hcs
  | cons n names ih =>
    obtain ⟨hn, hrest⟩ := List.forall_mem_cons.mp h
    refine Context.outputs_of_cons (fun c hc => ?_) (fun _ => ih hrest) hcs
    obtain ⟨rfl, harguments, hselections⟩ := Call.same_plain hc
    exact Context.output_of_leaf
      (Metadata.select_leaf hn harguments (Call.eq_nil_of_sameAll hselections))

theorem output_listing (hn : n ≠ typenameName) (hf : t.field? n = some f)
    (hc : f.isConnection = true) (hu : Metadata.target f f.ofType = .ok u) (hs : Call.Block ss)
    (hdepth : ((depth + 2 : Nat) : Int) ≤ limit) (hos : ∀ cs, Call.sameAll cs ss = true →
      (Context.object .metadata u).outputs limit (path ++ [n] ++ [nodesName]) (depth + 2) cs =
        .ok os)
    (h : c.same (.listing n ss) = true) :
    (Context.object .metadata t).output limit path depth c = .ok (listingOf n u os) := by
  obtain ⟨rfl, harguments, _⟩ := Call.same_plain h
  have hselect : (Context.object .metadata t).select c =
      .ok (.nested (.connection c.name .metadata u) (.listed c.name)) :=
    Metadata.select_connection hn hf hc hu harguments
  have hblock : Call.Block [.ofCount, .plain nodesName ss] := by
    have hnames : ([.ofCount, .plain nodesName ss] : List Call).map Call.name =
        [countName, nodesName] := rfl
    exact ⟨List.cons_ne_nil _ _, hnames ▸ by decide⟩
  refine Context.output_of_nested h hblock (by omega) hselect fun cs hcs => ?_
  refine Context.outputs_of_cons (fun c hc => output_count hc) (fun cs hcs => ?_) hcs
  exact Context.outputs_of_cons (fun c hc => output_nodes_of hs hdepth hos hc)
    (fun _ => Context.outputs_of_nil) hcs

end Plans

/-- What is shown of a list: how many elements it has, and each of them. -/
def Result.counted (nodes : List Result) : Result :=
  .object [("count", .value (.int nodes.length)), ("nodes", .list nodes)]

namespace Output

variable {σ α : Type} [Store σ] {s : σ} {record : Value} {entries : List (String × Value)}
  {os : List Output} {shown : List (String × Result)} {n : String} {u : ObjectType}

theorem yields_leaves (names : List String)
    (hs : (evaluateAll (.object entries) os : Access σ _).Yields s shown) :
    (evaluateAll (.object entries) (leavesOf names ++ os) : Access σ _).Yields s
      (names.map (fun n => (n, .value ((Value.object entries).held n))) ++ shown) := by
  induction names with
  | nil => exact hs
  | cons n names ih => exact yields_cons (yields_leaf rfl) ih

theorem yields_counted {xs : List α} {item : α → Value} {present : α → List (String × Result)}
    (h : record.entry n = .ok (.list (xs.map item))) (hne : ∀ x ∈ xs, item x ≠ .null)
    (hs : ∀ x ∈ xs, (evaluateAll (item x) os : Access σ _).Yields s (present x)) :
    (evaluate record (listingOf n u os) : Access σ Result).Yields s
      (.counted (xs.map fun x => .object (present x))) := by
  have hnodes : (evaluate (connectionRecord (xs.map item) (xs.map item).length
      (positions (xs.map item).length))
      (.nested nodesName (.embedded nodesName true) u.label os) : Access σ Result).Yields s
      (.list (xs.map fun x => if (item x).isNull then .null else .object (present x))) :=
    yields_items item rfl fun x hx _ => hs x hx
  have hshown : (xs.map fun x => if (item x).isNull then Result.null else .object (present x)) =
      xs.map fun x => .object (present x) :=
    List.map_congr_left fun x hx => by
      rw [Value.isNull_eq_false (hne x hx), if_neg Bool.false_ne_true]
  rw [hshown] at hnodes
  have hcount := yields_count (σ := σ) (s := s) (xs.map item) (xs.map item).length
    (positions (xs.map item).length)
  rw [List.length_map] at hcount hnodes
  rw [Result.counted, List.length_map]
  refine yields_listed h ?_
  rw [List.length_map]
  exact yields_cons hcount (yields_cons hnodes yields_nil)

end Output

namespace Result

mutual

def toValue : Result → Value
  | value v => v
  | object entries => .object (entriesToValues entries)
  | list items => .list (itemsToValues items)

def entriesToValues : List (String × Result) → List (String × Value)
  | [] => []
  | (name, x) :: entries => (name, x.toValue) :: entriesToValues entries

def itemsToValues : List Result → List Value
  | [] => []
  | x :: items => x.toValue :: itemsToValues items

end

/-- An object with the nodes of a connection in the place of it. -/
def withNodesOf (name : String) : Result → Result
  | object entries =>
    .object (entries.map fun e => if e.1 == name then (e.1, (e.2.part? "nodes").getD null) else e)
  | x => x

theorem entriesToValues_append (xs ys : List (String × Result)) :
    entriesToValues (xs ++ ys) = entriesToValues xs ++ entriesToValues ys := by
  induction xs with
  | nil => rfl
  | cons x xs ih => rw [List.cons_append, entriesToValues, ih]; rfl

theorem entriesToValues_leaves (names : List String) (v : String → Value) :
    entriesToValues (names.map fun n => (n, .value (v n))) = names.map fun n => (n, v n) := by
  induction names with
  | nil => rfl
  | cons n names ih => rw [List.map_cons, entriesToValues, ih]; rfl

theorem itemsToValues_eq (xs : List Result) : itemsToValues xs = xs.map toValue := by
  induction xs with
  | nil => rfl
  | cons x xs ih => rw [itemsToValues, ih]; rfl

end Result

namespace Introspection

open Metadata

/-- What is shown of a field as it is. -/
def ofField : List String :=
  ["name", "type", "ofType", "description", "deprecationReason", "reverseName", "unique",
    "nonNull"]

/-- What is shown of a type as it is. -/
def ofType : List String :=
  ["name", "pluralName", "kind", "description", "isNode", "interfaces"]

def text : String :=
  "schema() \x7b types \x7b count nodes \x7b name pluralName kind description isNode interfaces " ++
  "fields \x7b count nodes \x7b name type ofType description deprecationReason reverseName unique " ++
  "nonNull \x7d \x7d \x7d \x7d \x7d"

def typeSelections : List Call :=
  Call.plains ofType ++ [.listing "fields" (Call.plains ofField)]

def selections : List Call := [.listing "types" typeSelections]

theorem parse_text : ∃ c, Query.parse text = .ok [c] ∧
    c.same (.plain "schema" selections) = true := by
  have hread : (Query.parse text).toOption.any (fun q =>
      Call.sameAll q [.plain "schema" selections]) = true := by
    rw [← String.ofList_toList (s := text)]
    refine (congrArg (fun x => Option.any _ (Except.toOption x)) (Query.parse_ofList _)).trans ?_
    decide +kernel
  obtain ⟨q, hq, hsame⟩ := exists_of_any hread
  obtain ⟨c, rest, rfl, hc, hrest⟩ := Call.sameAll_cons hsame
  obtain rfl := Call.eq_nil_of_sameAll hrest
  exact ⟨c, hq, hc⟩

def typeOutputs : List Output :=
  leavesOf ofType ++ [listingOf "fields" fieldType (leavesOf ofField)]

def projection : Projection := ⟨schemaType.label, [listingOf "types" typeType typeOutputs]⟩

section Plan

variable {limit : Int} {path : Path} {depth : Nat} {cs : List Call} {c : Call}

theorem outputs_fieldType (hcs : Call.sameAll cs (Call.plains ofField) = true) :
    (Context.object .metadata fieldType).outputs limit path depth cs = .ok (leavesOf ofField) := by
  have hshows : ∀ n ∈ ofField, Shows fieldType n := shows_of_all (by decide)
  rw [← List.append_nil (Call.plains ofField)] at hcs
  rw [← List.append_nil (leavesOf ofField)]
  exact outputs_leaves hshows (fun _ => Context.outputs_of_nil) hcs

theorem outputs_typeType (hdepth : ((depth + 2 : Nat) : Int) ≤ limit)
    (hcs : Call.sameAll cs typeSelections = true) :
    (Context.object .metadata typeType).outputs limit path depth cs = .ok typeOutputs := by
  have hshows : ∀ n ∈ ofType, Shows typeType n := shows_of_all (by decide)
  have hblock : Call.Block (Call.plains ofField) := ⟨by decide, by decide⟩
  refine outputs_leaves hshows (fun cs hcs => ?_) hcs
  refine Context.outputs_of_cons (fun c hc => ?_) (fun _ => Context.outputs_of_nil) hcs
  exact output_listing (f := connectionField "fields" "Field") (by decide) rfl rfl rfl hblock hdepth
    (fun _ => outputs_fieldType) hc

theorem outputs_schemaType (hlimit : 5 ≤ limit) (hcs : Call.sameAll cs selections = true) :
    (Context.object .metadata schemaType).outputs limit [] 1 cs =
      .ok [listingOf "types" typeType typeOutputs] := by
  have hblock : Call.Block typeSelections := ⟨by decide, by decide⟩
  refine Context.outputs_of_cons (fun c hc => ?_) (fun _ => Context.outputs_of_nil) hcs
  refine output_listing (f := connectionField "types" "Type") (by decide) rfl rfl rfl hblock
    (by omega) (fun cs hcs => ?_) hc
  exact outputs_typeType (by omega) hcs

theorem compile_eq {credentials : Credentials} {i : Snapshot} (hlimit : 5 ≤ limit)
    (hc : c.same (.plain "schema" selections) = true) :
    Query.compile credentials i limit [c] =
      .ok [.introspection i.schema.toRecord projection] := by
  obtain ⟨hname, harguments, hselections⟩ := Call.same_plain hc
  have hproject : (Context.object .metadata schemaType).project limit c = .ok projection := by
    have hblock : Call.Block selections := Call.block_singleton _
    refine bind_eq_ok.mpr ⟨(), Call.checkBlock_of_sameAll hselections hblock (by omega), ?_⟩
    rw [outputs_schemaType hlimit hselections]
    rfl
  have hcall : Compile.call credentials i limit c =
      .ok (.introspection i.schema.toRecord projection) := by
    have hpositional : c.noPositional = .ok () := by
      rw [Call.noPositional, Call.positional, harguments]
      rfl
    have hallowed : c.allowing [] = .ok [] := by
      rw [Call.allowing, Call.namedArguments, harguments]
      rfl
    rw [Compile.call, hname]
    show Compile.schema i limit c = _
    rw [Compile.schema, hpositional, ok_bind, hallowed, ok_bind, hproject]
    rfl
  rw [Query.compile, List.mapM_cons, hcall]
  rfl

end Plan

def shownField (f : Field) : List (String × Result) :=
  ofField.map fun n => (n, .value (f.toValue.held n))

def shownType (t : ObjectType) : List (String × Result) :=
  ofType.map (fun n => (n, .value (t.toRecord.held n))) ++
    [("fields", .counted (t.declared.map fun f => .object (shownField f)))]

section Shown

variable {σ : Type} [Store σ] {s : σ}

theorem yields_shownField (f : Field) :
    (Output.evaluateAll f.toValue (leavesOf ofField) : Access σ _).Yields s (shownField f) := by
  have hnil : (Output.evaluateAll f.toValue [] : Access σ _).Yields s [] := Output.yields_nil
  have hshown := Output.yields_leaves ofField hnil
  rwa [List.append_nil, List.append_nil] at hshown

theorem yields_shownType {t : ObjectType} (h : t.Legible) :
    (Output.evaluateAll t.toRecord typeOutputs : Access σ _).Yields s (shownType t) := by
  have hfields : t.toRecord.entry "fields" = .ok (.list (t.declared.map Field.toValue)) := by
    show Except.ok t.members.toValue = _
    rw [h.members, Members.ofFields, Members.toValue, List.map_map]
    rfl
  have hcounted := Output.yields_counted (σ := σ) (s := s) (u := fieldType) hfields
    (fun f _ => f.toValue_ne_null) fun f _ => yields_shownField f
  exact Output.yields_leaves ofType (Output.yields_cons hcounted Output.yields_nil)

theorem yields_run {s' : Schema} (h : ∀ t ∈ s'.types, t.Legible) :
    (CallPlan.run (.introspection s'.toRecord projection) : Access σ _).Yields s
      (.object [("types", .counted (s'.describable.map fun t => .object (shownType t)))]) := by
  have hlegible : ∀ t ∈ s'.describable, t.Legible := fun t ht =>
    (List.mem_append.mp ht).elim (h t) (types_legible t)
  have htypes : s'.toRecord.entry "types" = .ok (.list (s'.describable.map ObjectType.toRecord)) :=
    rfl
  have hcounted := Output.yields_counted (σ := σ) (s := s) (u := typeType) htypes
    (fun t _ => t.toRecord_ne_null) fun t ht => yields_shownType (hlegible t ht)
  exact (Output.yields_cons hcounted Output.yields_nil).bind (Access.yields_pure _ s)

end Shown

/-- What is read as the definition of a type. -/
def readable (x : Result) : Value := (x.withNodesOf "fields").toValue

theorem readable_shownType {t : ObjectType} (h : t.members = .ofFields t.declared) :
    readable (.object (shownType t)) = t.toRecord := by
  have hfield (f : Field) : (Result.object (shownField f)).toValue = f.toValue :=
    congrArg Value.object (Result.entriesToValues_leaves ofField f.toValue.held)
  have hfields : Result.itemsToValues (t.declared.map fun f => .object (shownField f)) =
      t.declared.map Field.toValue := by
    rw [Result.itemsToValues_eq, List.map_map]
    exact List.map_congr_left fun f _ => hfield f
  have hmembers : t.members.toValue = .list (t.declared.map Field.toValue) := by
    rw [h, Members.ofFields, Members.toValue, List.map_map]
    rfl
  have hreplaced : (Result.object (shownType t)).withNodesOf "fields" =
      .object (ofType.map (fun n => (n, .value (t.toRecord.held n))) ++
        [("fields", .list (t.declared.map fun f => .object (shownField f)))]) := rfl
  rw [readable, hreplaced, Result.toValue, Result.entriesToValues_append,
    Result.entriesToValues_leaves, Result.entriesToValues, Result.toValue, hfields, ← hmembers]
  rfl

end Introspection

theorem Metadata.types_settled : ∀ t ∈ types, t.Settled := by
  have hread : ∀ t ∈ types, ObjectType.read false t.toValue = .ok t := by
    simp only [types, List.forall_mem_cons, List.not_mem_nil, false_implies, implies_true, and_true]
    exact ⟨rfl, rfl, rfl, rfl, rfl, rfl, rfl⟩
  exact fun t ht => ObjectType.settled_of_read (hread t ht) (types_legible t ht).members

namespace Schema

variable {rules : Validation.Rules} {s : Schema} {v : Value} {limit : Int}

/-- The types of a schema that was read are all told, and those that describe schemas after them.
Each is told with whether it is stored and with as many fields as it has, and what is told can be
read as the types themselves, with the plurals they are called by. No store is asked for any of
it. -/
theorem Valid.introspection_reloads (hs : s.Valid rules)
    (hload : Draft.load v = .ok (.ofSchema s)) (hlimit : 5 ≤ limit) :
    ∃ i shown, Snapshot.ofSchema rules s = .ok i ∧
      (∀ {σ : Type} [Store σ] (credentials : Option Credentials) (store : σ),
        Query.execute i Introspection.text credentials limit store =
          (.ok [.object [("types", .counted shown)]], store)) ∧
      Draft.load (.object [("types", .list (shown.map Introspection.readable))]) =
        .ok (.ofSchema ⟨(s.types ++ Metadata.types).map ObjectType.resolved⟩) ∧
      List.Forall₂ (fun t x => x.part? "isNode" = some (.value (.bool t.isNode)) ∧
          ∃ fields, x.part? "fields" = some (.counted fields) ∧
            fields.length = t.declared.length)
        (s.types ++ Metadata.types) shown := by
  obtain ⟨i, hi, rfl, rfl⟩ := Snapshot.exists_of_valid hs
  have hsettled : ∀ t ∈ i.schema.describable, t.Settled := fun t ht =>
    (List.mem_append.mp ht).elim (Draft.settled_of_load hload hs) (Metadata.types_settled t)
  refine ⟨i, i.schema.describable.map fun t => .object (Introspection.shownType t), hi,
    fun credentials store => ?_, ?_, ?_⟩
  · obtain ⟨c, hparse, hc⟩ := Introspection.parse_text
    have hplan : Plan.ofText (.ofCaller credentials) i limit Introspection.text =
        .ok [.introspection i.schema.toRecord Introspection.projection] := by
      rw [Plan.ofText, hparse]
      show Except.mapError _ (Query.compile _ i limit [c]) = _
      rw [Introspection.compile_eq hlimit hc]
      rfl
    have hrun := Plan.yields_singleton (Introspection.yields_run (s := store) i.valid.legible)
    rw [Query.execute_of_ofText_ok hplan, hrun]
    rfl
  · have hrecords : (i.schema.describable.map fun t => .object (Introspection.shownType t)).map
        Introspection.readable = i.schema.describable.map ObjectType.toRecord := by
      rw [List.map_map]
      exact List.map_congr_left fun t ht => Introspection.readable_shownType (hsettled t ht).members
    rw [hrecords]
    exact Draft.load_records hsettled
  · refine List.forall₂_map_right_iff.mpr (List.forall₂_same.mpr fun t _ => ⟨rfl, _, rfl, ?_⟩)
    exact List.length_map ..

end Schema

theorem library_introspection_reloads :
    Library.schema.Valid .standard ∧
    Draft.load Library.schema.toValue = .ok (.ofSchema Library.schema) ∧ (5 : Int) ≤ 5 ∧
      ∃ i shown, Snapshot.ofSchema .standard Library.schema = .ok i ∧
        Query.execute i Introspection.text none 5 Library.memory =
          (.ok [.object [("types", .counted shown)]], Library.memory) ∧
        Draft.load (.object [("types", .list (shown.map Introspection.readable))]) =
          .ok (.ofSchema
            ⟨(Library.schema.types ++ Metadata.types).map ObjectType.resolved⟩) := by
  have hvalid : Library.schema.Valid .standard := by rfl
  have hload : Draft.load Library.schema.toValue = .ok (.ofSchema Library.schema) := rfl
  have hlimit : (5 : Int) ≤ 5 := Int.le_refl 5
  obtain ⟨i, shown, hi, hshown, hread, _⟩ :=
    Schema.Valid.introspection_reloads hvalid hload hlimit
  exact ⟨hvalid, hload, hlimit, i, shown, hi, hshown none Library.memory, hread⟩

end ObjectQuery
