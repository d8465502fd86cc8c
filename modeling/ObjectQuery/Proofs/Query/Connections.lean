import ObjectQuery.Proofs.Plan.Arena
import ObjectQuery.Proofs.Plan.Planning
import ObjectQuery.Proofs.Plan.Uniformity
import ObjectQuery.Proofs.Query.Backends
import ObjectQuery.Proofs.Query.Survival
import ObjectQuery.Proofs.Store.Totals

/-!
# Connections

A connection is run in one of two ways. If nothing but the count is selected, the store is asked for
the count alone, and otherwise for a page, which comes with a count. Both counts are the same. What
is selected on the records of the page is presented twice if both nodes and edges are selected,
along two paths, and it comes out the same both times.
-/

set_option autoImplicit false

namespace ObjectQuery

open Outcome

/-- A connection of a plan: one of a type, or one of a record. -/
inductive Connection
  | ofType (typeName : String) (filters : Filters) (page : Page) (projection : Projection)
  | ofRecord (record : Value) (name target reverse : String) (page : Page) (typeName : String)
      (outputs : List Output)

namespace Connection

def page : Connection → Page
  | ofType _ _ page _ => page
  | ofRecord _ _ _ _ page _ _ => page

def outputs : Connection → List Output
  | ofType _ _ _ p => p.outputs
  | ofRecord _ _ _ _ _ _ outputs => outputs

/-- The type of the records. -/
def target : Connection → String
  | ofType typeName _ _ _ => typeName
  | ofRecord _ _ target _ _ _ _ => target

/-- The same connection with nothing but its count. -/
def counting : Connection → Connection
  | ofType typeName filters page p => ofType typeName filters page ⟨p.typeName, [countOutput]⟩
  | ofRecord record name target reverse page typeName _ =>
    ofRecord record name target reverse page typeName [countOutput]

/-- What a store is asked for the count. -/
def asked : Connection → List Request
  | ofType typeName filters _ _ => [.countMany typeName filters]
  | ofRecord record _ target reverse _ _ _ =>
    match record.required idName with
    | .ok owner => [.countRelated target reverse owner]
    | .error _ => []

section Running

variable {σ : Type} [Store σ]

def run : Connection → Access σ Result
  | ofType typeName filters page p => (CallPlan.fetchNodes typeName filters page p).run
  | ofRecord record name target reverse page typeName outputs =>
    Output.evaluate record (.nested name (.connection target reverse page) typeName outputs)

def fetch : Connection → Page → Access σ Fetched
  | ofType typeName filters _ _, page => Store.fetchMany typeName filters page
  | ofRecord record _ target reverse _ _ _, page => do
    Store.fetchRelated target reverse (← Access.ofExcept (record.required idName)) page

def count : Connection → Access σ Nat
  | ofType typeName filters _ _ => Store.countMany typeName filters
  | ofRecord record _ target reverse _ _ _ => do
    Store.countRelated target reverse (← Access.ofExcept (record.required idName))

/-- The count by a store that has no way of its own to count. -/
def countByPage : Connection → Access σ Nat
  | ofType typeName filters _ _ => Store.countManyByPage typeName filters
  | ofRecord record _ target reverse _ _ _ => do
    Store.countRelatedByPage target reverse (← Access.ofExcept (record.required idName))

end Running

end Connection

/-- A call with other selections. -/
def Call.selecting (selections : List Call) : Call → Call
  | .mk name arguments _ location => .mk name arguments selections location

variable {credentials : Credentials} {i : Snapshot} {limit : Int} {c d : Call} {x : Connection}
  {t : ObjectType} {path : Path} {depth : Nat} {parent : String} {os : List Output}

/-- A connection that a call of a query, or a selection in it, is compiled to. The record is any
that the selection may come to be made on. -/
inductive Connection.Compiled (credentials : Credentials) (i : Snapshot) (limit : Int) (c : Call) :
    Connection → Prop
  | ofType {typeName : String} {filters : Filters} {page : Page} {p : Projection}
      (h : Compile.call credentials i limit c = .ok (.fetchNodes typeName filters page p)) :
      Compiled credentials i limit c (.ofType typeName filters page p)
  | ofRecord {t : ObjectType} {path : Path} {depth : Nat} {record : Value}
      {name target reverse : String} {page : Page} {typeName : String} {outputs : List Output}
      (h : (Context.object (.data i) t).output limit path depth c =
        .ok (.nested name (.connection target reverse page) typeName outputs)) :
      Compiled credentials i limit c
        (.ofRecord record name target reverse page typeName outputs)

theorem Context.block_of_project {context : Context} {p : Projection}
    (h : context.project limit c = .ok p) : (1 : Int) ≤ limit ∧ Call.Block c.selections := by
  obtain ⟨_, hblock, _⟩ := bind_eq_ok.mp h
  exact Call.checkBlock_eq_ok_iff.mp hblock

/-- What is selected on in turn, and the block of selections on it. -/
theorem Context.nested_of_output {context : Context} {name typeName : String} {source : Source}
    (h : context.output limit path depth c = .ok (.nested name source typeName os)) :
    ∃ inner, context.select c = .ok (.nested inner source) ∧ name = c.name ∧
      typeName = inner.typeName ∧ ((depth + 1 : Nat) : Int) ≤ limit ∧ Call.Block c.selections ∧
      inner.outputs limit (path ++ [c.name]) (depth + 1) c.selections = .ok os := by
  obtain ⟨n, arguments, selections, location⟩ := c
  rw [output] at h
  obtain ⟨selected, hs, h⟩ := bind_eq_ok.mp h
  cases selected with
  | leaf l => cases h
  | nested inner source =>
    obtain ⟨_, hblock, h⟩ := bind_eq_ok.mp h
    obtain ⟨os', hos, h⟩ := bind_eq_ok.mp h
    cases h
    obtain ⟨hdepth, hselections⟩ := Call.checkBlock_eq_ok_iff.mp hblock
    exact ⟨inner, hs, rfl, rfl, hdepth, hselections, hos⟩

/-- A connection of a record is of the records of some type. -/
theorem Snapshot.connection_of_select {inner : Context} {target reverse : String} {page : Page}
    (h : i.select t c = .ok (.nested inner (.connection target reverse page))) :
    ∃ u, inner = .connection c.name (.data i) u ∧ page = .of c := by
  generalize hselected : Selected.nested inner (.connection target reverse page) = selected at h
  cases selects_of_select h with
  | connection =>
    cases hselected
    exact ⟨_, rfl, rfl⟩
  | _ => cases hselected

theorem Compile.nodes_of_call {typeName : String} {filters : Filters} {page : Page}
    {p : Projection}
    (h : call credentials i limit c = .ok (.fetchNodes typeName filters page p)) :
    c.name = "nodes" ∧ nodes i limit c = .ok (.fetchNodes typeName filters page p) := by
  unfold call at h
  split at h
  · cases h
  · rename_i o ho
    obtain ⟨_, _, h⟩ := bind_eq_ok.mp h
    cases hmutation : o.isMutation with
    | true =>
      obtain ⟨_, _, _, _, _, _, hp⟩ :=
        exists_compiled (Operation.ofName?_eq_some_iff.mp ho) hmutation h
      cases hp
    | false =>
      cases o with
      | nodes => exact ⟨Operation.ofName?_eq_some_iff.mp ho, h⟩
      | schema =>
        obtain ⟨_, _, h⟩ := bind_eq_ok.mp h
        obtain ⟨_, _, h⟩ := bind_eq_ok.mp h
        obtain ⟨_, _, h⟩ := bind_eq_ok.mp h
        cases h
      | type =>
        obtain ⟨_, _, h⟩ := bind_eq_ok.mp h
        obtain ⟨_, _, h⟩ := bind_eq_ok.mp h
        obtain ⟨_, _, h⟩ := bind_eq_ok.mp h
        split at h
        · cases h
        · obtain ⟨_, _, h⟩ := bind_eq_ok.mp h
          cases h
      | node =>
        obtain ⟨_, _, _, _, _, _, _, _, _, _, hp⟩ := node_eq_ok h
        cases hp
      | _ => cases hmutation

/-- A call for records is compiled with any block in place of its own that can be. -/
theorem Compile.nodes_selecting {typeName : String} {filters : Filters} {page : Page}
    {p : Projection} {ss : List Call}
    (h : nodes i limit c = .ok (.fetchNodes typeName filters page p)) (hs : Call.Block ss)
    (hos : ∀ t, (Context.connection c.name (.data i) t).outputs limit [] 1 ss = .ok os) :
    nodes i limit (c.selecting ss) = .ok (.fetchNodes typeName filters page ⟨p.typeName, os⟩) := by
  obtain ⟨n, arguments, selections, location⟩ := c
  obtain ⟨a, ha, h⟩ := bind_eq_ok.mp h
  obtain ⟨name, hname, h⟩ := bind_eq_ok.mp h
  obtain ⟨t, ht, h⟩ := bind_eq_ok.mp h
  obtain ⟨named, hnamed, h⟩ := bind_eq_ok.mp h
  obtain ⟨chosen, hchosen, h⟩ := bind_eq_ok.mp h
  obtain ⟨fs, hfs, h⟩ := bind_eq_ok.mp h
  obtain ⟨projection, hp, h⟩ := bind_eq_ok.mp h
  cases h
  have hblock : (Call.mk n arguments ss location).checkBlock limit [] 1 = .ok () :=
    Call.checkBlock_eq_ok_iff.mpr ⟨(Context.block_of_project hp).1, hs⟩
  have htypeName : p.typeName = (Context.connection n (.data i) t).typeName := by
    obtain ⟨_, _, hp⟩ := bind_eq_ok.mp hp
    obtain ⟨_, _, hp⟩ := bind_eq_ok.mp hp
    cases hp
    rfl
  have hproject : (Context.connection n (.data i) t).project limit
      (.mk n arguments ss location) = .ok ⟨p.typeName, os⟩ :=
    bind_eq_ok.mpr ⟨(), hblock, bind_eq_ok.mpr ⟨os, hos t, by rw [htypeName]; rfl⟩⟩
  exact bind_eq_ok.mpr ⟨a, ha, bind_eq_ok.mpr ⟨name, hname, bind_eq_ok.mpr ⟨t, ht,
    bind_eq_ok.mpr ⟨named, hnamed, bind_eq_ok.mpr ⟨_, hchosen, bind_eq_ok.mpr ⟨_, hfs,
      bind_eq_ok.mpr ⟨_, hproject, rfl⟩⟩⟩⟩⟩⟩⟩

/-- What a connection of a record is does not depend on what is selected on it. -/
theorem Snapshot.select_selecting {inner : Context} {target reverse : String} {page : Page}
    (h : i.select t c = .ok (.nested inner (.connection target reverse page))) (ss : List Call) :
    i.select t (c.selecting ss) = .ok (.nested inner (.connection target reverse page)) := by
  obtain ⟨n, arguments, selections, location⟩ := c
  have hdeclared {f : Field} {typeName reverse : Value} (d : Call) (hn : d.name ≠ typenameName)
      (hf : t.field? d.name = some f)
      (hk : i.schema.kindOf f = .ok (.connection typeName reverse)) :
      i.select t d = i.selectConnection f typeName reverse d := by
    rw [select_declared hn hf, selectDeclared, hk]
    rfl
  generalize hselected : Selected.nested inner (.connection target reverse page) = selected at h
  cases selects_of_select h with
  | connection hn hf hk hu =>
    rw [hdeclared _ hn hf hk] at h
    exact (hdeclared (.mk n arguments ss location) hn hf hk).trans h
  | _ => cases hselected

namespace Connection

theorem Compiled.exists_outputs (h : x.Compiled credentials i limit c) :
    ∃ t parent path depth, (Context.connection parent (.data i) t).outputs limit path depth
      c.selections = .ok x.outputs ∧ Call.Block c.selections ∧ x.page = .of c := by
  cases h with
  | ofType h =>
    cases Compile.planned_of_call h with
    | nodes _ _ _ hp =>
      exact ⟨_, _, _, _, Context.project_eq_ok hp, (Context.block_of_project hp).2, rfl⟩
  | ofRecord h =>
    obtain ⟨inner, hs, _, _, _, hblock, hos⟩ := Context.nested_of_output h
    obtain ⟨u, rfl, hpage⟩ := Snapshot.connection_of_select hs
    exact ⟨u, _, _, _, hos, hblock, hpage⟩

/-- The count by itself can be selected wherever a connection can. -/
theorem Compiled.counting (h : x.Compiled credentials i limit c) :
    x.counting.Compiled credentials i limit (c.selecting [.ofCount]) := by
  have hos (parent : String) (t : ObjectType) (path : Path) (depth : Nat) :
      (Context.connection parent (.data i) t).outputs limit path depth [.ofCount] =
        .ok [countOutput] :=
    Context.outputs_of_cons (fun _ => output_count) (fun _ => Context.outputs_of_nil)
      (Call.sameAll_refl _)
  cases h with
  | @ofType n fs page p h =>
    obtain ⟨hname, hnodes⟩ := Compile.nodes_of_call h
    have hselecting : (c.selecting [.ofCount]).name = "nodes" := by
      obtain ⟨_, _, _, _⟩ := c
      exact hname
    have hcall : Compile.call credentials i limit (c.selecting [.ofCount]) =
        .ok (.fetchNodes n fs page ⟨p.typeName, [countOutput]⟩) := by
      rw [Compile.call, hselecting]
      exact Compile.nodes_selecting hnodes (Call.block_singleton _) fun t => hos _ t _ _
    exact .ofType hcall
  | @ofRecord t path depth record _ target reverse page _ _ h =>
    obtain ⟨inner, hs, rfl, rfl, hdepth, _, _⟩ := Context.nested_of_output h
    obtain ⟨u, rfl, _⟩ := Snapshot.connection_of_select hs
    have hselect := Snapshot.select_selecting hs [.ofCount]
    obtain ⟨n, arguments, selections, location⟩ := c
    have hblock : (Call.mk n arguments [.ofCount] location).checkBlock limit (path ++ [n])
        (depth + 1) = .ok () :=
      Call.checkBlock_eq_ok_iff.mpr ⟨hdepth, Call.block_singleton _⟩
    have houtput : (Context.object (.data i) t).output limit path depth
        (.mk n arguments [.ofCount] location) =
          .ok (.nested n (.connection target reverse page) _ [countOutput]) :=
      bind_eq_ok.mpr ⟨_, hselect, bind_eq_ok.mpr ⟨(), hblock,
        bind_eq_ok.mpr ⟨_, hos _ _ _ _, rfl⟩⟩⟩
    exact .ofRecord houtput

end Connection

/-- A block of counts is one count. -/
theorem Context.outputs_eq_count {cs : List Call}
    (hos : (Context.connection parent (.data i) t).outputs limit path depth cs = .ok os)
    (hblock : Call.Block cs) (hcount : ∀ d ∈ cs, d.name = countName) : os = [countOutput] := by
  obtain ⟨hne, hnames⟩ := hblock
  obtain ⟨d, rest, rfl⟩ := List.exists_cons_of_ne_nil hne
  obtain ⟨hd, hrest⟩ := List.forall_mem_cons.mp hcount
  obtain rfl : rest = [] := by
    refine List.eq_nil_iff_forall_not_mem.mpr fun e he => ?_
    refine (List.nodup_cons.mp hnames).1 ?_
    rw [hd, ← hrest e he]
    exact List.mem_map_of_mem he
  obtain ⟨o, others, ho, hothers, rfl⟩ := outputs_cons_eq_ok hos
  cases hothers
  rcases output_eq_ok ho with ⟨l, hl, rfl⟩ | ⟨inner, source, os', hl, _, rfl⟩
  · cases ofConnection_of_select hl with
    | count => rw [hd, countOutput]
  · cases ofConnection_of_select hl with
    | nodes hn => exact absurd (hd.symm.trans hn) (by decide)
    | edges hn => exact absurd (hd.symm.trans hn) (by decide)

namespace Access

variable {σ α β : Type} {s : σ}

theorem Keeps.yields {y : Access σ α} {a : α} (h : y.Keeps) (ha : (y.result s).1 = .ok a) :
    y.Yields s a :=
  Prod.ext ha (h.result_snd s)

/-- An answer is made of answers to all questions that were asked on the way. -/
theorem Keeps.exists_of_bind {y : Access σ α} {f : α → Access σ β} {b : β} (hy : y.Keeps)
    (h : (y >>= f).Yields s b) : ∃ a, y.Yields s a ∧ (f a).Yields s b := by
  obtain ⟨a, u, ha, hb⟩ := result_bind_eq_ok.mp h
  have hu := hy.result_snd s
  rw [ha] at hu
  obtain rfl : u = s := hu
  exact ⟨a, ha, hb⟩

theorem forall₂_of_mapM {f : α → Access σ β} {xs : List α} {ys : List β}
    (hf : ∀ x, (f x).Keeps) (h : (xs.mapM f).Yields s ys) :
    List.Forall₂ (fun x y => (f x).Yields s y) xs ys := by
  induction xs generalizing ys with
  | nil =>
    cases h
    exact .nil
  | cons x xs ih =>
    rw [List.mapM_cons] at h
    obtain ⟨y, hy, h⟩ := (hf x).exists_of_bind h
    obtain ⟨rest, hrest, h⟩ := (keeps_mapM hf xs).exists_of_bind h
    cases h
    exact .cons hy (ih hrest)

/-- Lists of results of the same questions, the ones of them as parts of objects, are the same. -/
theorem map_entry_eq {qs : List (Value × Value)} {shown objects : List Result}
    {present : Value → Access σ Result} {name : String}
    (hshown : List.Forall₂ (fun q r => (present q.2).Yields s r) qs shown)
    (hobjects : List.Forall₂ (fun q r => ∃ part, r.part? name = some part ∧
      (present q.2).Yields s part) qs objects) :
    objects.map (·.part? name) = shown.map some := by
  induction hshown generalizing objects with
  | nil =>
    cases hobjects
    rfl
  | cons hfirst _ ih =>
    obtain _ | ⟨⟨part, hpart, hyields⟩, hrest⟩ := hobjects
    rw [List.map_cons, List.map_cons, hpart, hyields.unique hfirst, ih hrest]

end Access

section Presenting

variable {σ : Type} [Store σ] {s : σ} {v : Value} {entries : List (String × Result)}

namespace Output

/-- Presents an element of a list. -/
def presentItem (os : List Output) (v : Value) : Access σ Result :=
  unlessNull v fun v => do return .object (← evaluateAll v os)

theorem keeps_presentItem (hs : Store.Steady σ) (os : List Output) (v : Value) :
    (presentItem os v : Access σ Result).Keeps :=
  keeps_unlessNull fun v => (keeps_evaluateAll hs os v).bind fun _ => Access.keeps_pure _

/-- What is presented for a list. -/
theorem exists_items (hs : Store.Steady σ) {name field typeName : String} {items : List Value}
    {shown : Result} (hv : v.entry field = .ok (.list items))
    (h : (evaluate v (.nested name (.embedded field true) typeName os)).Yields s shown) :
    ∃ results, shown = .list results ∧
      List.Forall₂ (fun item r => (presentItem os item).Yields s r) items results := by
  rw [evaluate, hv] at h
  have hmap : (do return .list (← items.mapM (presentItem os)) : Access σ Result).Yields s shown := h
  obtain ⟨results, hresults, h⟩ :=
    (Access.keeps_mapM (keeps_presentItem hs os) items).exists_of_bind hmap
  cases h
  exact ⟨results, rfl, Access.forall₂_of_mapM (keeps_presentItem hs os) hresults⟩

theorem forall₂_of_evaluateAll (hs : Store.Steady σ) (h : (evaluateAll v os).Yields s entries) :
    List.Forall₂ (fun o e => e.1 = o.name ∧ (evaluate v o).Yields s e.2) os entries := by
  induction os generalizing entries with
  | nil =>
    cases h
    exact .nil
  | cons o os ih =>
    rw [evaluateAll] at h
    obtain ⟨shown, hshown, h⟩ := (keeps_evaluate hs o v).exists_of_bind h
    obtain ⟨rest, hrest, h⟩ := (keeps_evaluateAll hs os v).exists_of_bind h
    cases h
    exact .cons ⟨rfl, hshown⟩ (ih hrest)

end Output

theorem Context.forall₂_outputs {context : Context} {cs : List Call}
    (h : context.outputs limit path depth cs = .ok os) :
    List.Forall₂ (fun c o => context.output limit path depth c = .ok o) cs os := by
  induction cs generalizing os with
  | nil =>
    cases h
    exact .nil
  | cons c cs ih =>
    obtain ⟨o, rest, ho, hrest, rfl⟩ := outputs_cons_eq_ok h
    exact .cons ho (ih hrest)

/-- An object shows something for every selection, under the name of it. -/
theorem Context.exists_entry (hs : Store.Steady σ) {context : Context} {cs : List Call}
    (hos : context.outputs limit path depth cs = .ok os) (hnames : (cs.map Call.name).Nodup)
    (h : (Output.evaluateAll v os).Yields s entries) (hc : c ∈ cs) :
    ∃ o shown, o ∈ os ∧ context.output limit path depth c = .ok o ∧
      (Output.evaluate v o).Yields s shown ∧
      (Result.object entries).part? c.name = some shown := by
  have hshown := Output.forall₂_of_evaluateAll hs h
  obtain ⟨o, ho, houtput⟩ := exists_left_of_mem (forall₂_outputs hos).flip hc
  obtain ⟨e, he, hname, heval⟩ := exists_left_of_mem hshown.flip ho
  have hkeys : entries.map Prod.fst = cs.map Call.name := by
    rw [← outputs_names hos, ← List.forall₂_eq_eq_eq, List.forall₂_map_left_iff,
      List.forall₂_map_right_iff]
    exact hshown.flip.imp fun _ _ h => h.1
  refine ⟨o, e.2, ho, houtput, heval, Dictionary.lookup_of_mem (hkeys ▸ hnames) ?_⟩
  rw [← output_name houtput, ← hname]
  exact he

namespace Connection

/-- What a connection is presented from. -/
def fetched (x : Connection) : Access σ Fetched :=
  if needsRecords x.outputs then x.fetch x.page else do return ⟨[], ← x.count⟩

theorem run_eq (x : Connection) : (x.run : Access σ Result) = do
    let f ← x.fetched
    let v ← Access.ofExcept (fetchedRecord f)
    return .object (← Output.evaluateAll v x.outputs) := by
  cases x with
  | ofType n filters page p => rfl
  | ofRecord record name target reverse page typeName os =>
    have hfetched : (fetched (.ofRecord record name target reverse page typeName os) :
        Access σ Fetched) =
        Access.ofExcept (record.required idName) >>=
          Output.fetchRelated os target reverse page := by
      unfold fetched
      split
      · rename_i hneeds
        have hrelated : (Output.fetchRelated os target reverse page : Value → Access σ Fetched) =
            (Store.fetchRelated target reverse · page) := funext fun _ => if_pos hneeds
        rw [hrelated]
        rfl
      · rename_i hneeds
        have hrelated : (Output.fetchRelated os target reverse page : Value → Access σ Fetched) =
            fun owner => do return ⟨[], ← Store.countRelated target reverse owner⟩ :=
          funext fun _ => if_neg hneeds
        rw [hrelated, count, bind_assoc]
    rw [run, Output.evaluate, hfetched, bind_assoc]
    rfl

/-- Where only the count is selected, the store is only asked for the count. -/
theorem run_of_counting (h : x.outputs = [countOutput]) :
    (x.run : Access σ Result) = do return .object [(countName, .value (.int (← x.count)))] := by
  rw [run_eq, fetched, h, if_neg (by decide), bind_assoc]
  rfl

theorem keeps_fetch (hs : Store.Steady σ) (x : Connection) (page : Page) :
    (x.fetch page : Access σ Fetched).Keeps := by
  cases x with
  | ofType n filters _ _ => exact hs.fetchMany n filters page
  | ofRecord record _ target reverse _ _ _ =>
    exact (Access.keeps_ofExcept _).bind fun owner => hs.fetchRelated target reverse owner page

theorem keeps_count (hs : Store.Steady σ) (x : Connection) : (x.count : Access σ Nat).Keeps := by
  cases x with
  | ofType n filters _ _ => exact hs.countMany n filters
  | ofRecord record _ target reverse _ _ _ =>
    exact (Access.keeps_ofExcept _).bind fun owner => hs.countRelated target reverse owner

theorem keeps_fetched (hs : Store.Steady σ) (x : Connection) :
    (x.fetched : Access σ Fetched).Keeps := by
  unfold fetched
  split
  · exact keeps_fetch hs x x.page
  · exact (keeps_count hs x).bind fun _ => Access.keeps_pure _

theorem keeps_run (hs : Store.Steady σ) (x : Connection) : (x.run : Access σ Result).Keeps := by
  rw [run_eq]
  exact (keeps_fetched hs x).bind fun _ => (Access.keeps_ofExcept _).bind fun _ =>
    (Output.keeps_evaluateAll hs _ _).bind fun _ => Access.keeps_pure _

theorem countByPage_eq (x : Connection) : (x.countByPage : Access σ Nat) = do
    return (← x.fetch Store.emptyPage).count := by
  cases x with
  | ofType n filters page p => rfl
  | ofRecord record name target reverse page typeName os =>
    rw [countByPage, fetch, bind_assoc]
    rfl

/-- A recorded store lists the request for the count and no other. -/
theorem result_count (x : Connection) (s : σ) (requests : List Request) :
    (x.count : Access (Recorded σ) Nat).result ⟨s, requests⟩ =
      (((x.count : Access σ Nat).result s).1,
        ⟨((x.count : Access σ Nat).result s).2, requests ++ x.asked⟩) := by
  cases x with
  | ofType n filters page p => rfl
  | ofRecord record name target reverse page typeName os =>
    rw [count, count, asked]
    cases record.required idName with
    | ok owner => rfl
    | error m =>
      dsimp only
      rw [List.append_nil]
      rfl

end Connection

section Parts

variable {qs : List (Value × Value)} {total : Nat} {cs : List Call}

namespace Context

theorem count_entry (hs : Store.Steady σ)
    (hos : (connection parent (.data i) t).outputs limit path depth cs = .ok os)
    (hnames : (cs.map Call.name).Nodup)
    (h : (Output.evaluateAll (connectionRecord (qs.map Prod.snd) total (qs.map Prod.fst))
      os).Yields s entries)
    (hc : c ∈ cs) (hname : c.name = countName) :
    (Result.object entries).part? countName = some (.value (.int total)) := by
  obtain ⟨o, shown, _, ho, hshown, hentry⟩ := exists_entry hs hos hnames h hc
  rw [hname] at hentry
  rcases output_eq_ok ho with ⟨l, hl, rfl⟩ | ⟨inner, source, os', hl, _, rfl⟩
  · cases ofConnection_of_select hl with
    | count =>
      cases hshown
      exact hentry
  · cases ofConnection_of_select hl with
    | nodes hn => exact absurd (hname.symm.trans hn) (by decide)
    | edges hn => exact absurd (hname.symm.trans hn) (by decide)

theorem nodes_entry (hs : Store.Steady σ)
    (hos : (connection parent (.data i) t).outputs limit path depth cs = .ok os)
    (hnames : (cs.map Call.name).Nodup)
    (h : (Output.evaluateAll (connectionRecord (qs.map Prod.snd) total (qs.map Prod.fst))
      os).Yields s entries)
    (hc : c ∈ cs) (hname : c.name = nodesName) :
    ∃ inner nodes, (object (.data i) t).outputs limit (path ++ [c.name]) (depth + 1)
        c.selections = .ok inner ∧
      (Result.object entries).part? nodesName = some (.list nodes) ∧
      List.Forall₂ (fun q r => (Output.presentItem inner q.2).Yields s r) qs nodes := by
  obtain ⟨o, shown, _, ho, hshown, hentry⟩ := exists_entry hs hos hnames h hc
  rw [hname] at hentry
  rcases output_eq_ok ho with ⟨l, hl, rfl⟩ | ⟨inner, source, os', hl, hos', rfl⟩
  · cases ofConnection_of_select hl with
    | count hn => exact absurd (hname.symm.trans hn) (by decide)
  · cases ofConnection_of_select hl with
    | nodes =>
      have hentries : (connectionRecord (qs.map Prod.snd) total (qs.map Prod.fst)).entry nodesName =
          .ok (.list (qs.map Prod.snd)) := rfl
      obtain ⟨nodes, rfl, hnodes⟩ := Output.exists_items hs hentries hshown
      exact ⟨os', nodes, hos', hentry, List.forall₂_map_left_iff.mp hnodes⟩
    | edges hn => exact absurd (hname.symm.trans hn) (by decide)

theorem edges_entry (hs : Store.Steady σ)
    (hos : (connection parent (.data i) t).outputs limit path depth cs = .ok os)
    (hnames : (cs.map Call.name).Nodup)
    (h : (Output.evaluateAll (connectionRecord (qs.map Prod.snd) total (qs.map Prod.fst))
      os).Yields s entries)
    (hc : c ∈ cs) (hname : c.name = edgesName) :
    ∃ inner results, (edges (.data i) t).outputs limit (path ++ [c.name]) (depth + 1)
        c.selections = .ok inner ∧ (c.selections.map Call.name).Nodup ∧
      (Result.object entries).part? edgesName = some (.list results) ∧
      List.Forall₂ (fun q r => ∃ parts,
        (Output.evaluateAll (edgeRecord q.1 q.2) inner).Yields s parts ∧ r = .object parts)
        qs results := by
  obtain ⟨o, shown, _, ho, hshown, hentry⟩ := exists_entry hs hos hnames h hc
  rw [hname] at hentry
  rcases output_eq_ok ho with ⟨l, hl, rfl⟩ | ⟨inner, source, os', hl, hos', rfl⟩
  · cases ofConnection_of_select hl with
    | count hn => exact absurd (hname.symm.trans hn) (by decide)
  · obtain ⟨_, _, _, _, _, hblock, _⟩ := nested_of_output ho
    cases ofConnection_of_select hl with
    | nodes hn => exact absurd (hname.symm.trans hn) (by decide)
    | edges =>
      obtain ⟨results, rfl, hresults⟩ :=
        Output.exists_items hs (entry_edgesName qs total Prod.fst Prod.snd) hshown
      refine ⟨os', results, hos', hblock.2, hentry, ?_⟩
      refine (List.forall₂_map_left_iff.mp hresults).imp fun q r hr => ?_
      obtain ⟨parts, hparts, hr⟩ := (Output.keeps_evaluateAll hs os' _).exists_of_bind hr
      cases hr
      exact ⟨parts, hparts, rfl⟩

theorem cursor_entry (hs : Store.Steady σ) {q : Value × Value}
    (hos : (edges (.data i) t).outputs limit path depth cs = .ok os)
    (hnames : (cs.map Call.name).Nodup)
    (h : (Output.evaluateAll (edgeRecord q.1 q.2) os).Yields s entries)
    (hc : c ∈ cs) (hname : c.name = cursorName) :
    (Result.object entries).part? cursorName = some (.value q.1) := by
  obtain ⟨o, shown, _, ho, hshown, hentry⟩ := exists_entry hs hos hnames h hc
  rw [hname] at hentry
  rcases output_eq_ok ho with ⟨l, hl, rfl⟩ | ⟨inner, source, os', hl, _, rfl⟩
  · cases ofEdges_of_select hl with
    | cursor =>
      cases hshown
      exact hentry
  · cases ofEdges_of_select hl with
    | node hn => exact absurd (hname.symm.trans hn) (by decide)

theorem node_entry (hs : Store.Steady σ) {q : Value × Value}
    (hos : (edges (.data i) t).outputs limit path depth cs = .ok os)
    (hnames : (cs.map Call.name).Nodup)
    (h : (Output.evaluateAll (edgeRecord q.1 q.2) os).Yields s entries)
    (hc : c ∈ cs) (hname : c.name = nodeName) :
    ∃ inner shown, (object (.data i) t).outputs limit (path ++ [c.name]) (depth + 1)
        c.selections = .ok inner ∧
      (Result.object entries).part? nodeName = some shown ∧
      (Output.presentItem inner q.2).Yields s shown := by
  obtain ⟨o, shown, _, ho, hshown, hentry⟩ := exists_entry hs hos hnames h hc
  rw [hname] at hentry
  rcases output_eq_ok ho with ⟨l, hl, rfl⟩ | ⟨inner, source, os', hl, hos', rfl⟩
  · cases ofEdges_of_select hl with
    | cursor hn => exact absurd (hname.symm.trans hn) (by decide)
  · cases ofEdges_of_select hl with
    | node => exact ⟨os', shown, hos', hentry, hshown⟩

end Context

end Parts

namespace Connection

/-- What is shown of a connection says the same as everything else does that is said of it. -/
structure Shows (x : Connection) (c : Call) (s : σ) (shown : Result) : Prop where
  /-- The count is the one that is shown by itself, and the one by a store that cannot count. -/
  count : countName ∈ c.selections.map Call.name → ∃ n : Nat,
    shown.part? countName = some (.value (.int n)) ∧
    x.counting.run.Yields s (.object [(countName, .value (.int n))]) ∧ x.countByPage.Yields s n
  /-- The nodes are the nodes of the edges, if the same is selected on them. -/
  nodes : ∀ a ∈ c.selections, a.name = nodesName → ∀ b ∈ c.selections, b.name = edgesName →
    ∀ d ∈ b.selections, d.name = nodeName → Call.sameAll d.selections a.selections = true →
    ∃ nodes edges, shown.part? nodesName = some (.list nodes) ∧
      shown.part? edgesName = some (.list edges) ∧
      edges.map (·.part? nodeName) = nodes.map some
  /-- The cursors are the ids of the records. -/
  cursors : ∀ b ∈ c.selections, b.name = edgesName → ∀ d ∈ b.selections, d.name = cursorName →
    ∃ f ids edges, (x.fetch x.page).Yields s f ∧ f.records.mapM (·.required idName) = .ok ids ∧
      shown.part? edgesName = some (.list edges) ∧
      edges.map (·.part? cursorName) = ids.map fun id => some (.value id)

/-- A store in which what is said of a connection agrees. -/
structure Agrees (x : Connection) (c : Call) (s : σ) : Prop where
  shows : ∀ shown, (x.run.result s).1 = .ok shown → x.Shows c s shown
  default : x.countByPage.result s = x.count.result s

/-- What is shown is made of a page of records with their ids. -/
theorem exists_of_run (hs : Store.Steady σ) {shown : Result} (h : (x.run.result s).1 = .ok shown) :
    ∃ (qs : List (Value × Value)) (total : Nat) (entries : List (String × Result)),
      x.fetched.Yields s ⟨qs.map Prod.snd, total⟩ ∧
      (qs.map Prod.snd).mapM (·.required idName) = .ok (qs.map Prod.fst) ∧
      (Output.evaluateAll (connectionRecord (qs.map Prod.snd) total (qs.map Prod.fst))
        x.outputs).Yields s entries ∧ shown = .object entries := by
  have hrun := (keeps_run hs x).yields h
  rw [run_eq] at hrun
  obtain ⟨f, hf, hrun⟩ := (keeps_fetched hs x).exists_of_bind hrun
  obtain ⟨v, hv, hrun⟩ := (Access.keeps_ofExcept _).exists_of_bind hrun
  obtain ⟨entries, hentries, hrun⟩ := (Output.keeps_evaluateAll hs x.outputs v).exists_of_bind hrun
  cases hrun
  obtain ⟨hv, _⟩ := Access.result_ofExcept_eq_ok.mp hv
  obtain ⟨ids, hids, hv⟩ := bind_eq_ok.mp hv
  cases hv
  have hlength := (mapM_eq_ok.mp hids).length_eq
  have hsnd : (ids.zip f.records).map Prod.snd = f.records := List.map_snd_zip hlength.le
  have hfst : (ids.zip f.records).map Prod.fst = ids := List.map_fst_zip hlength.ge
  refine ⟨ids.zip f.records, f.count, entries, ?_, ?_, ?_, rfl⟩
  · rw [hsnd]
    exact hf
  · rw [hsnd, hfst]
    exact hids
  · rw [hsnd, hfst]
    exact hentries

theorem count_of_fetched (hs : Store.Steady σ) (ht : Tallying x.fetch x.count s) {f : Fetched}
    (h : x.fetched.Yields s f) : x.count.Yields s f.count := by
  unfold fetched at h
  split at h
  · exact ht.page _ _ h
  · obtain ⟨n, hn, h⟩ := (keeps_count hs x).exists_of_bind h
    cases h
    exact hn

/-- Where edges are selected the page is fetched. -/
theorem fetch_of_fetched (hos : (Context.connection parent (.data i) t).outputs limit path depth
      c.selections = .ok x.outputs) (hd : d ∈ c.selections) (hname : d.name = edgesName)
    {f : Fetched} (h : x.fetched.Yields s f) : (x.fetch x.page).Yields s f := by
  obtain ⟨o, ho, houtput⟩ := exists_left_of_mem (Context.forall₂_outputs hos).flip hd
  have hneeds : needsRecords x.outputs = true := by
    refine List.any_eq_true.mpr ⟨o, ho, ?_⟩
    rcases Context.output_eq_ok houtput with ⟨l, hl, rfl⟩ | ⟨_, _, _, _, _, rfl⟩
    · cases Context.ofConnection_of_select hl with
      | count hn => exact absurd (hname.symm.trans hn) (by decide)
    · rfl
  rwa [fetched, if_pos hneeds] at h

/-- In a store that tallies everything agrees. -/
theorem Compiled.agrees_of_tallying (h : x.Compiled credentials i limit c) (hs : Store.Steady σ)
    (ht : Tallying x.fetch x.count s) : x.Agrees c s := by
  have hdefault : x.countByPage.result s = x.count.result s := by
    rw [countByPage_eq]
    exact ht.empty
  refine ⟨fun shown hrun => ?_, hdefault⟩
  obtain ⟨t, parent, path, depth, hos, hblock, _⟩ := h.exists_outputs
  obtain ⟨qs, total, entries, hfetched, hids, hentries, rfl⟩ := exists_of_run hs hrun
  refine ⟨fun hcount => ?_, fun a ha hnodes b hb hedges d hd hnode hsame => ?_,
    fun b hb hedges d hd hcursor => ?_⟩
  · obtain ⟨e, he, hname⟩ := List.mem_map.mp hcount
    have htotal := count_of_fetched hs ht hfetched
    refine ⟨total, Context.count_entry hs hos hblock.2 hentries he hname, ?_, ?_⟩
    · have hcounting : x.counting.outputs = [countOutput] ∧
          (x.counting.count : Access σ Nat) = x.count := by
        cases x <;> exact ⟨rfl, rfl⟩
      rw [run_of_counting hcounting.1, hcounting.2]
      exact htotal.bind (Access.yields_pure _ s)
    · exact hdefault.trans htotal
  · obtain ⟨inner, nodes, hinner, hshown, hnodes⟩ :=
      Context.nodes_entry hs hos hblock.2 hentries ha hnodes
    obtain ⟨within, edges, hwithin, hnames, hshown', hedges⟩ :=
      Context.edges_entry hs hos hblock.2 hentries hb hedges
    refine ⟨nodes, edges, hshown, hshown', Access.map_entry_eq hnodes (hedges.imp ?_)⟩
    rintro q _ ⟨parts, hparts, rfl⟩
    obtain ⟨inner', shown, hinner', hentry, hyields⟩ :=
      Context.node_entry hs hwithin hnames hparts hd hnode
    have hunique (parent : String) : ((Place.object t).context i parent) = .object (.data i) t := rfl
    rw [← hunique ""] at hinner hinner'
    obtain rfl := Context.outputs_unique _ _ hsame hinner' hinner
    exact ⟨shown, hentry, hyields⟩
  · obtain ⟨within, edges, hwithin, hnames, hshown, hparts⟩ :=
      Context.edges_entry hs hos hblock.2 hentries hb hedges
    refine ⟨_, _, edges, fetch_of_fetched hos hb hedges hfetched, hids, hshown, ?_⟩
    rw [List.map_map, ← List.forall₂_eq_eq_eq, List.forall₂_map_left_iff,
      List.forall₂_map_right_iff]
    refine hparts.flip.imp ?_
    rintro _ q ⟨parts, hparts, rfl⟩
    exact Context.cursor_entry hs hwithin hnames hparts hd hcursor

end Connection

end Presenting

namespace Connection

theorem tallying_relational {r : Relational} (h : r.Readable) (x : Connection) :
    Tallying x.fetch x.count r := by
  cases x with
  | ofType n filters page p => exact h.tallying n filters
  | ofRecord record name target reverse page typeName os =>
    exact .of_owner (fun owner => h.tallying target [(reverse, owner)]) _

theorem tallying_memory (m : Memory) (x : Connection) : Tallying x.fetch x.count m := by
  cases x with
  | ofType n filters page p => exact m.tallying n filters
  | ofRecord record name target reverse page typeName os =>
    exact .of_owner (fun owner => m.tallying target [(reverse, owner)]) _

theorem orderly_relational {r : Relational} (h : r.Readable) (hpage : x.page = .of c)
    (hfits : ∀ k, x.page.first = some (.int k) → Datum.fits k = true) :
    Orderly (x.fetch x.page) x.count r := by
  rw [hpage] at hfits ⊢
  cases x with
  | ofType n filters page p => exact h.orderly n filters hfits
  | ofRecord record name target reverse page typeName os =>
    exact .of_owner (fun owner => h.orderly target [(reverse, owner)] hfits) _

theorem orderly_memory {m : Memory} (h : Keyed (m.recordsOf x.target)) (hpage : x.page = .of c) :
    Orderly (x.fetch x.page) x.count m := by
  rw [hpage]
  cases x with
  | ofType n filters page p => exact Memory.orderly h filters c
  | ofRecord record name target reverse page typeName os =>
    exact .of_owner (fun owner => Memory.orderly h [(reverse, owner)] c) _

/-- A connection of which only the count is selected is run by one request for the count, and comes
to the same count as the connection with anything selected. In a database, and in memory where the
ids of the records are distinct texts, there is a count if and only if there is a page, and cursors
go up. -/
theorem counts_and_ends_agree (h : x.Compiled credentials i limit c) :
    x.counting.Compiled credentials i limit (c.selecting [.ofCount]) ∧
    ((∀ d ∈ c.selections, d.name = countName) → ∀ {σ : Type} [Store σ] (s : σ)
      (requests : List Request), (x.run : Access (Recorded σ) Result).result ⟨s, requests⟩ =
        (((x.count : Access σ Nat).result s).1.map fun n =>
            .object [(countName, .value (.int n))],
          ⟨((x.count : Access σ Nat).result s).2, requests ++ x.asked⟩)) ∧
    (∀ (rules : Validation.Rules) (s : Schema) (r₀ r : Relational), s.Valid rules →
      rules.registry = .standard → Relational.create .standard s = .ok r₀ → r₀.Reached r →
      (∀ k, x.page.first = some (.int k) → Datum.fits k = true) →
      x.Agrees c r ∧ Orderly (x.fetch x.page) x.count r) ∧
    ∀ m : Memory, x.Agrees c m ∧
      (Keyed (m.recordsOf x.target) → Orderly (x.fetch x.page) x.count m) := by
  obtain ⟨t, parent, path, depth, hos, hblock, hpage⟩ := h.exists_outputs
  refine ⟨h.counting, fun hcount σ _ s requests => ?_, fun rules s r₀ r hvalid hrules hcreate
    hreached hfits => ?_, fun m => ⟨h.agrees_of_tallying Memory.steady (tallying_memory m x),
      fun hkeyed => orderly_memory hkeyed hpage⟩⟩
  · have houtputs := Context.outputs_eq_count hos hblock hcount
    rw [run_of_counting houtputs, Access.result_bind, result_count]
    rcases (x.count : Access σ Nat).result s with ⟨n, u⟩
    cases n <;> rfl
  · have hreadable := (hreached.identifying (.of_create hvalid hrules hcreate)).readable
    exact ⟨h.agrees_of_tallying Relational.steady (tallying_relational hreadable x),
      orderly_relational hreadable hpage hfits⟩

end Connection

namespace Library

/-- All books, as nodes and as edges. -/
def ends : Call :=
  call "nodes" [(none, .name "Book")] [
    call "count" [] [],
    call "nodes" [] [call "title" [] []],
    call "edges" [] [call "cursor" [] [], call "node" [] [call "title" [] []]]]

def books : Connection :=
  .ofType "Book" [] ⟨none, none⟩ ⟨"BookConnection", [
    .leaf "count" (.field "count"),
    .nested "nodes" (.embedded "nodes" true) "Book" [.leaf "title" (.field "title")],
    .nested "edges" (.embedded "edges" true) "BookEdge" [
      .leaf "cursor" (.field "cursor"),
      .nested "node" (.embedded "node" false) "Book" [.leaf "title" (.field "title")]]]⟩

def volumes : Value := .list [.object [("id", .text "b"), ("title", .text "B")]]

/-- Two books that have one id. -/
def twins : Memory where
  schema := schema
  records := [("Book", [
    .object [("id", .text "b"), ("title", .text "B")],
    .object [("id", .text "b"), ("title", .text "C")]])]

end Library

theorem library_books_agree : Library.books.Compiled {} Library.snapshot defaultLimit Library.ends ∧
    Library.books.counting.Compiled {} Library.snapshot defaultLimit
      (Library.ends.selecting [.ofCount]) ∧
    (Library.books.counting.run.result (Recorded.mk Library.memory [])).2.requests =
      [.countMany "Book" []] ∧
    (∃ r₀ r, Relational.create .standard Library.schema = .ok r₀ ∧ r₀.Reached r ∧
      (Library.books.run.result r).1.isOk = true ∧ Library.books.Agrees Library.ends r ∧
      Orderly (Library.books.fetch ⟨none, none⟩) Library.books.count r) ∧
    (Library.books.run.result Library.memory).1.isOk = true ∧
    Library.books.Agrees Library.ends Library.memory ∧
    Orderly (Library.books.fetch ⟨none, none⟩) Library.books.count Library.memory := by
  have hcompiled : Library.books.Compiled {} Library.snapshot defaultLimit Library.ends :=
    .ofType rfl
  obtain ⟨hcounting, _, hdatabase, hmemory⟩ := Connection.counts_and_ends_agree hcompiled
  obtain ⟨_, hcount, _⟩ := Connection.counts_and_ends_agree hcounting
  have hcalls := hcount (List.forall_mem_singleton.mpr rfl) Library.memory []
  have hfound : ((Relational.create .standard Library.schema).toOption.any fun r₀ =>
      (Library.books.run.result
        ((Relational.insertRecords "Book" Library.volumes).result r₀).2).1.isOk) = true := by
    decide +kernel
  obtain ⟨r₀, hcreate, hshown⟩ := exists_of_any hfound
  have hstart : r₀.Reached r₀ := .start
  have hreached := hstart.insert "Book" Library.volumes
  obtain ⟨hagrees, horderly⟩ := hdatabase _ _ _ _ Library.snapshot.valid rfl hcreate hreached nofun
  have hkeyed : Keyed (Library.memory.recordsOf "Book") :=
    Library.sound.keyed (n := "Book") (t := Library.bookType) rfl rfl
  refine ⟨hcompiled, hcounting, ?_, ⟨r₀, _, hcreate, hreached, hshown, hagrees, horderly⟩, ?_,
    (hmemory Library.memory).1, (hmemory Library.memory).2 hkeyed⟩
  · rw [hcalls]
    rfl
  · decide +kernel

/-- Nothing tells records with one id in memory apart, and the same cursor is shown for both. -/
theorem library_twins_not_ascending :
    Library.books.Compiled {} Library.snapshot defaultLimit Library.ends ∧
    ∃ shown edges, (Library.books.run.result Library.twins).1 = .ok shown ∧
      shown.part? edgesName = some (.list edges) ∧
      edges.map (·.part? cursorName) =
        ["b", "b"].map (fun id => some (.value (.text id))) ∧
      ¬["b", "b"].Pairwise (· < ·) :=
  ⟨.ofType rfl, _, _, rfl, rfl, rfl, by decide⟩

end ObjectQuery
