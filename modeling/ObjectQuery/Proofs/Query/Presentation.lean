import ObjectQuery.Plan.Compile
import ObjectQuery.Proofs.Outcome
import ObjectQuery.Proofs.Plan.Arena
import ObjectQuery.Proofs.Plan.Calls
import ObjectQuery.Proofs.Plan.Planning
import ObjectQuery.Proofs.Query.Execution
import ObjectQuery.Store.Presentation

/-!
# Results have the shape of queries

Presenting records out of the arena of a call is presenting them as its projection says: every block
that is asked for is there, and a step only leads to a block further down. What is presented has an
entry for every selection, in the same order and all the way down; there is nothing in place of an
object only where a record holds nothing or a store has no record of an id.
-/

set_option autoImplicit false

namespace ObjectQuery

open Outcome

/-- Where no name comes twice, entries that are set one after the other are listed. -/
theorem Step.foldlM_put {σ : Type} (f : Step → Access σ Result) (steps : List Step)
    (entries : List (String × Result))
    (hd : (entries.map Prod.fst ++ steps.map name).Nodup) :
    steps.foldlM (fun entries step => do
        let shown ← f step
        return Dictionary.put entries step.name shown) entries = do
      return entries ++ (← steps.mapM fun step => do return (step.name, ← f step)) := by
  induction steps generalizing entries with
  | nil => simp
  | cons step steps ih =>
    have hnew : step.name ∉ entries.map Prod.fst := by
      intro hmem
      exact (List.nodup_append.mp hd).2.2 _ hmem _ List.mem_cons_self rfl
    have hrest (shown : Result) :
        ((entries ++ [(step.name, shown)]).map Prod.fst ++ steps.map name).Nodup := by
      rw [List.map_append, List.append_assoc]
      exact hd
    simp only [List.foldlM_cons, List.mapM_cons, bind_assoc, pure_bind]
    refine bind_congr fun shown => ?_
    rw [Dictionary.put_of_notMem hnew, ih _ (hrest shown)]
    simp

section Presenting

variable {σ : Type} [Store σ]

/-- Whether all blocks of a list are found in an arena. -/
def Arena.Holds (arena : Arena) (blocks : Arena) : Prop :=
  ∀ e ∈ blocks, arena.lookup e.1 = some e.2

theorem Arena.Holds.of_append {arena a b : Arena} (h : arena.Holds (a ++ b)) :
    arena.Holds a ∧ arena.Holds b :=
  ⟨fun e he => h e (List.mem_append_left b he), fun e he => h e (List.mem_append_right a he)⟩

variable {arena : Arena} {absent : Failure}

theorem Arena.present_of_lookup {height : Nat} {path : Path} {t : String} {os : List Output}
    (hblock : arena.lookup path = some (Projection.block path ⟨t, os⟩))
    (hnames : (os.map Output.name).Nodup)
    (hsteps : ∀ record : Value,
      os.mapM (fun o => do
        return (o.name, ← (o.step path).evaluate (arena.present absent height) record)) =
      (Output.evaluateAll record os : Access σ _)) :
    (arena.present absent (height + 1) path : Value → Access σ Result) =
      fun record => do return .object (← Output.evaluateAll record os) := by
  funext record
  have hd : (([] : List (String × Result)).map Prod.fst ++
      (os.map (Output.step path)).map Step.name).Nodup := by
    rw [List.map_map, List.map_nil, List.nil_append]
    simpa [Function.comp_def] using hnames
  rw [Arena.present, hblock]
  simp only [Projection.block]
  rw [Step.foldlM_put _ _ _ hd, ← hsteps record]
  simp [List.mapM_map, Function.comp_def]

mutual

/-- With its blocks at hand, a step is evaluated as its output. -/
theorem Output.evaluate_step (path : Path) :
    (o : Output) → (height : Nat) → o.Separate → arena.Holds (o.written path) →
      (o.written path).length ≤ height → ∀ record : Value,
      (o.step path).evaluate (arena.present absent height) record =
        (o.evaluate record : Access σ Result)
  | .leaf n (.field f), height, _, _, _, record => by
    rw [evaluate]
    rfl
  | .leaf n (.typeName t), height, _, _, _, record => by
    rw [evaluate]
    rfl
  | .nested n source t os, height, hseparate, hblocks, hheight, record => by
    rw [written] at hblocks hheight
    rw [List.length_append, List.length_singleton] at hheight
    obtain ⟨below, rfl⟩ : ∃ below, height = below + 1 := ⟨height - 1, by omega⟩
    obtain ⟨hinner, hown⟩ := hblocks.of_append
    have hpresent := Arena.present_of_lookup (hown _ (List.mem_singleton_self _)) hseparate.1
      (evaluateAll_step (path ++ [n]) os below hseparate.2 hinner (by omega))
    cases source with
    | embedded field isList =>
      rw [step, Step.evaluate, hpresent, evaluate]
    | listed field =>
      rw [step, Step.evaluate, hpresent, evaluate]
    | related field target =>
      rw [step, Step.evaluate, hpresent]
      unfold evaluate
      rfl
    | connection target reverse page =>
      rw [step, Step.evaluate, hpresent]
      unfold evaluate
      rfl

theorem Output.evaluateAll_step (path : Path) :
    (os : List Output) → (height : Nat) → SeparateAll os → arena.Holds (writtenAll path os) →
      (writtenAll path os).length ≤ height → ∀ record : Value,
      os.mapM (fun o => do
        return (o.name, ← (o.step path).evaluate (arena.present absent height) record)) =
      (evaluateAll record os : Access σ _)
  | [], _, _, _, _, record => by
    rw [evaluateAll]
    rfl
  | o :: os, height, hseparate, hblocks, hheight, record => by
    rw [writtenAll] at hblocks hheight
    rw [List.length_append] at hheight
    obtain ⟨hfirst, hrest⟩ := hblocks.of_append
    rw [List.mapM_cons, evaluateAll, evaluate_step path o height hseparate.1 hfirst (by omega),
      evaluateAll_step path os height hseparate.2 hrest (by omega)]
    simp

end

theorem Projection.present_written {context : Context} {limit : Int} {c : Call} {p : Projection}
    (h : context.project limit c = .ok p) (absent : Failure) {height : Nat}
    (hheight : p.written.length ≤ height) :
    (p.written.present absent height [] : Value → Access σ Result) = p.present := by
  have hholds : p.written.Holds p.written := fun e he =>
    Dictionary.lookup_of_mem (wellFormed_written h).nodup he
  obtain ⟨hblocks, hroot⟩ := Arena.Holds.of_append hholds
  obtain ⟨_, hblock, hp⟩ := bind_eq_ok.mp h
  obtain ⟨os, hos, hp⟩ := bind_eq_ok.mp hp
  cases hp
  obtain ⟨_, _, hnames⟩ := Call.checkBlock_eq_ok_iff.mp hblock
  rw [written, List.length_append, List.length_singleton] at hheight
  obtain ⟨below, rfl⟩ := Nat.exists_eq_add_one.mpr (Nat.zero_lt_of_lt hheight)
  have hlength : (Output.writtenAll [] os).length ≤ below := Nat.le_of_succ_le_succ hheight
  exact Arena.present_of_lookup (hroot _ (List.mem_singleton_self _))
    (Context.outputs_names hos ▸ hnames)
    (Output.evaluateAll_step [] os below (Context.separate_of_outputs _ _ _ _ os hos) hblocks
      hlength)

end Presenting

/-- What a projection is presented from, if there is anything. -/
inductive Lead
  | nothing
  | object (v : Value)
  | list (items : List Value)

section Shape

variable {σ : Type} [Store σ]

/-- What the source of a projection leads to, from a record and with a store as it is before and
after. -/
inductive Source.Finds (outputs : List Output) (record : Value) : σ → Source → Lead → σ → Prop
  | empty {s : σ} {field : String} {isList : Bool} (hv : record.entry field = .ok .null) :
      Finds outputs record s (embedded field isList) .nothing s
  | embedded {s : σ} {field : String} {v : Value} (hv : record.entry field = .ok v)
      (hne : v ≠ .null) : Finds outputs record s (embedded field false) (.object v) s
  | items {s : σ} {field : String} {v : Value} {items : List Value}
      (hv : record.entry field = .ok v) (hne : v ≠ .null) (hi : v.parts = .ok items) :
      Finds outputs record s (embedded field true) (.list items) s
  | listed {s : σ} {field : String} {v inner : Value} (hv : record.entry field = .ok v)
      (hi : listRecord v = .ok inner) : Finds outputs record s (listed field) (.object inner) s
  | unrelated {s : σ} {field target : String} (hv : record.entry field = .ok .null) :
      Finds outputs record s (related field target) .nothing s
  | lacking {s t : σ} {field target : String} {id : Value} (hv : record.entry field = .ok id)
      (hne : id ≠ .null) (hf : (Store.fetchById target id).result s = (.ok none, t)) :
      Finds outputs record s (related field target) .nothing t
  | related {s t : σ} {field target : String} {id found : Value} (hv : record.entry field = .ok id)
      (hne : id ≠ .null) (hf : (Store.fetchById target id).result s = (.ok (some found), t)) :
      Finds outputs record s (related field target) (.object found) t
  | fetched {s t : σ} {target reverse : String} {page : Page} {owner inner : Value} {f : Fetched}
      (hneeds : needsRecords outputs = true) (ho : record.required idName = .ok owner)
      (hf : (Store.fetchRelated target reverse owner page).result s = (.ok f, t))
      (hi : fetchedRecord f = .ok inner) :
      Finds outputs record s (connection target reverse page) (.object inner) t
  | counted {s t : σ} {target reverse : String} {page : Page} {owner : Value} {count : Nat}
      (hneeds : needsRecords outputs = false) (ho : record.required idName = .ok owner)
      (hf : (Store.countRelated target reverse owner).result s = (.ok count, t)) :
      Finds outputs record s (connection target reverse page)
        (.object (connectionRecord [] count [])) t

mutual

/-- Whether a result is one for a selection on a record. There is nothing where nothing is found. -/
inductive Mirrors : σ → Value → Call → Output → Result → σ → Prop
  | field {s : σ} {record v : Value} {c : Call} {field : String} (hs : c.selections = [])
      (hv : record.entry field = .ok v) :
      Mirrors s record c (.leaf c.name (.field field)) (.value v) s
  | typeName {s : σ} {record : Value} {c : Call} {t : String} (hs : c.selections = []) :
      Mirrors s record c (.leaf c.name (.typeName t)) (.value (.text t)) s
  | nothing {s t : σ} {record : Value} {c : Call} {source : Source} {n : String} {os : List Output}
      (hf : source.Finds os record s .nothing t) :
      Mirrors s record c (.nested c.name source n os) .null t
  | object {s t u : σ} {record inner : Value} {c : Call} {source : Source} {n : String}
      {os : List Output} {entries : List (String × Result)}
      (hf : source.Finds os record s (.object inner) u)
      (h : MirrorsAll u inner c.selections os entries t) :
      Mirrors s record c (.nested c.name source n os) (.object entries) t
  | list {s t u : σ} {record : Value} {c : Call} {source : Source} {n : String} {os : List Output}
      {items : List Value} {results : List Result} (hf : source.Finds os record s (.list items) u)
      (h : MirrorsItems u items c.selections os results t) :
      Mirrors s record c (.nested c.name source n os) (.list results) t

/-- Whether results are those for the objects of a list, which may be null. -/
inductive MirrorsItems : σ → List Value → List Call → List Output → List Result → σ → Prop
  | nil {s : σ} {cs : List Call} {os : List Output} : MirrorsItems s [] cs os [] s
  | empty {s t : σ} {items : List Value} {cs : List Call} {os : List Output}
      {results : List Result} (h : MirrorsItems s items cs os results t) :
      MirrorsItems s (.null :: items) cs os (.null :: results) t
  | object {s t u : σ} {item : Value} {items : List Value} {cs : List Call} {os : List Output}
      {entries : List (String × Result)} {results : List Result} (hne : item ≠ .null)
      (hitem : MirrorsAll s item cs os entries u) (h : MirrorsItems u items cs os results t) :
      MirrorsItems s (item :: items) cs os (.object entries :: results) t

/-- Whether there is an entry for every selection, in the same order, and nothing else. -/
inductive MirrorsAll :
    σ → Value → List Call → List Output → List (String × Result) → σ → Prop
  | nil {s : σ} {record : Value} : MirrorsAll s record [] [] [] s
  | cons {s t u : σ} {record : Value} {c : Call} {o : Output} {r : Result} {cs : List Call}
      {os : List Output} {entries : List (String × Result)} (h : Mirrors s record c o r u)
      (hs : MirrorsAll u record cs os entries t) :
      MirrorsAll s record (c :: cs) (o :: os) ((c.name, r) :: entries) t

end

/-- What a call leads to. -/
inductive CallPlan.Finds : σ → CallPlan → Lead → σ → Prop
  | lacking {s t : σ} {typeName id : String} {p : Projection}
      (hf : (Store.fetchById typeName (.text id)).result s = (.ok none, t)) :
      Finds s (fetchNode typeName id p) .nothing t
  | found {s t : σ} {typeName id : String} {p : Projection} {record : Value}
      (hf : (Store.fetchById typeName (.text id)).result s = (.ok (some record), t)) :
      Finds s (fetchNode typeName id p) (.object record) t
  | fetched {s t : σ} {typeName : String} {filters : Filters} {page : Page} {p : Projection}
      {f : Fetched} {inner : Value} (hneeds : needsRecords p.outputs = true)
      (hf : (Store.fetchMany typeName filters page).result s = (.ok f, t))
      (hi : fetchedRecord f = .ok inner) :
      Finds s (fetchNodes typeName filters page p) (.object inner) t
  | counted {s t : σ} {typeName : String} {filters : Filters} {page : Page} {p : Projection}
      {count : Nat} (hneeds : needsRecords p.outputs = false)
      (hf : (Store.countMany typeName filters).result s = (.ok count, t)) :
      Finds s (fetchNodes typeName filters page p) (.object (connectionRecord [] count [])) t
  | introspection {s : σ} {record : Value} {p : Projection} :
      Finds s (introspection record p) (.object record) s
  | changed {s t : σ} {change : SchemaChange} {success failure : Value} {p : Projection}
      {made : Bool} (hf : (Store.change change).result s = (.ok made, t)) :
      Finds s (mutation change success failure p) (.object (if made then success else failure)) t

/-- Whether a result is one for a call. -/
inductive CallPlan.Mirrors (s : σ) (c : Call) (p : CallPlan) : Result → σ → Prop
  | nothing {t : σ} (hf : p.Finds s .nothing t) : CallPlan.Mirrors s c p .null t
  | object {t u : σ} {record : Value} {entries : List (String × Result)}
      (hf : p.Finds s (.object record) u)
      (h : MirrorsAll u record c.selections p.projection.outputs entries t) :
      CallPlan.Mirrors s c p (.object entries) t

/-- Whether results are those for the calls of a query, one after the other. -/
inductive Plan.Mirrors : σ → Query → Plan → List Result → σ → Prop
  | nil {s : σ} : Plan.Mirrors s [] [] [] s
  | cons {s t u : σ} {c : Call} {p : CallPlan} {r : Result} {q : Query} {plan : Plan}
      {results : List Result} (h : p.Mirrors s c r u) (hs : Plan.Mirrors u q plan results t) :
      Plan.Mirrors s (c :: q) (p :: plan) (r :: results) t

end Shape

section Mirroring

variable {σ : Type} [Store σ] {limit : Int} {record : Value} {n typeName : String}
  {os : List Output} {s t : σ} {r : Result}

/-- How what a source leads to is presented. -/
def Lead.present (outputs : List Output) : Lead → Access σ Result
  | nothing => pure Result.null
  | object v => do return .object (← Output.evaluateAll v outputs)
  | list items => do
    return .list (← items.mapM fun item => Output.unlessNull item fun item => do
      return .object (← Output.evaluateAll item outputs))

/-- Whether a result is what is presented from what a source leads to. -/
def Source.Shown (source : Source) (record : Value) (os : List Output) (s : σ) (r : Result)
    (t : σ) : Prop :=
  ∃ found u, source.Finds os record s found u ∧ (found.present os).result u = (.ok r, t)

namespace Output

theorem shown_embedded {field : String} {isList : Bool}
    (h : (evaluate record (.nested n (.embedded field isList) typeName os)).result s = (.ok r, t)) :
    (Source.embedded field isList).Shown record os s r t := by
  rw [evaluate] at h
  obtain ⟨v, hv, h⟩ := Access.result_ofExcept_bind_eq_ok.mp h
  unfold unlessNull at h
  split at h
  · exact ⟨.nothing, s, .empty hv, h⟩
  · rename_i hne
    cases isList with
    | false => exact ⟨.object v, s, .embedded hv hne, h⟩
    | true =>
      obtain ⟨items, hitems, h⟩ := Access.result_ofExcept_bind_eq_ok.mp h
      exact ⟨.list items, s, .items hv hne hitems, h⟩

theorem shown_listed {field : String}
    (h : (evaluate record (.nested n (.listed field) typeName os)).result s = (.ok r, t)) :
    (Source.listed field).Shown record os s r t := by
  rw [evaluate] at h
  obtain ⟨v, hv, h⟩ := Access.result_ofExcept_bind_eq_ok.mp h
  obtain ⟨inner, hinner, h⟩ := Access.result_ofExcept_bind_eq_ok.mp h
  exact ⟨.object inner, s, .listed hv hinner, h⟩

theorem shown_related {field target : String}
    (h : (evaluate record (.nested n (.related field target) typeName os)).result s = (.ok r, t)) :
    (Source.related field target).Shown record os s r t := by
  rw [evaluate] at h
  obtain ⟨id, hid, h⟩ := Access.result_ofExcept_bind_eq_ok.mp h
  unfold unlessNull at h
  split at h
  · exact ⟨.nothing, s, .unrelated hid, h⟩
  · rename_i hne
    obtain ⟨found, w, hfound, h⟩ := Access.result_bind_eq_ok.mp h
    cases found with
    | none => exact ⟨.nothing, w, .lacking hid hne hfound, h⟩
    | some found => exact ⟨.object found, w, .related hid hne hfound, h⟩

theorem shown_connection {target reverse : String} {page : Page}
    (h : (evaluate record (.nested n (.connection target reverse page) typeName os)).result s =
      (.ok r, t)) : (Source.connection target reverse page).Shown record os s r t := by
  rw [evaluate] at h
  obtain ⟨owner, howner, h⟩ := Access.result_ofExcept_bind_eq_ok.mp h
  obtain ⟨f, w, hf, h⟩ := Access.result_bind_eq_ok.mp h
  obtain ⟨inner, hinner, h⟩ := Access.result_ofExcept_bind_eq_ok.mp h
  unfold fetchRelated at hf
  split at hf
  · rename_i hneeds
    exact ⟨.object inner, w, .fetched hneeds howner hf hinner, h⟩
  · rename_i hneeds
    obtain ⟨count, z, hcount, hf⟩ := Access.result_bind_eq_ok.mp hf
    cases hf
    cases hinner
    exact ⟨.object _, w, .counted (Bool.eq_false_iff.mpr hneeds) howner hcount, h⟩

theorem shown_of_evaluate {source : Source}
    (h : (evaluate record (.nested n source typeName os)).result s = (.ok r, t)) :
    source.Shown record os s r t := by
  cases source with
  | embedded field isList => exact shown_embedded h
  | listed field => exact shown_listed h
  | related field target => exact shown_related h
  | connection target reverse page => exact shown_connection h

end Output

/-- Whether what is presented for some selections has an entry for each. -/
def MirrorsPresented (σ : Type) [Store σ] (cs : List Call) (os : List Output) : Prop :=
  ∀ (record : Value) (s t : σ) (entries : List (String × Result)),
    (Output.evaluateAll record os).result s = (.ok entries, t) → MirrorsAll s record cs os entries t

theorem MirrorsPresented.items {cs : List Call} (hall : MirrorsPresented σ cs os)
    {items : List Value} {results : List Result}
    (h : (items.mapM fun item => Output.unlessNull item fun item => do
      return .object (← Output.evaluateAll item os) : Access σ _).result s = (.ok results, t)) :
    MirrorsItems s items cs os results t := by
  induction items generalizing s results with
  | nil =>
    cases h
    exact .nil
  | cons item items ih =>
    rw [List.mapM_cons] at h
    obtain ⟨r, u, hr, h⟩ := Access.result_bind_eq_ok.mp h
    obtain ⟨rs, v, hrs, h⟩ := Access.result_bind_eq_ok.mp h
    cases h
    unfold Output.unlessNull at hr
    split at hr
    · cases hr
      exact .empty (ih hrs)
    · rename_i hne
      obtain ⟨entries, w, hentries, hr⟩ := Access.result_bind_eq_ok.mp hr
      cases hr
      exact .object hne (hall item s _ entries hentries) (ih hrs)

theorem MirrorsPresented.nested {c : Call} {source : Source}
    (hall : MirrorsPresented σ c.selections os) (h : source.Shown record os s r t) :
    Mirrors s record c (.nested c.name source typeName os) r t := by
  obtain ⟨found, u, hf, h⟩ := h
  cases found with
  | nothing =>
    cases h
    exact .nothing hf
  | object inner =>
    obtain ⟨entries, v, hentries, h⟩ := Access.result_bind_eq_ok.mp h
    cases h
    exact .object hf (hall inner u _ entries hentries)
  | list items =>
    obtain ⟨results, v, hresults, h⟩ := Access.result_bind_eq_ok.mp h
    cases h
    exact .list hf (hall.items hresults)

mutual

theorem mirrors_of_evaluate (context : Context) (path : Path) (depth : Nat) :
    (c : Call) → (o : Output) → context.output limit path depth c = .ok o →
      ∀ (record : Value) (s t : σ) (r : Result), (o.evaluate record).result s = (.ok r, t) →
        Mirrors s record c o r t
  | .mk name arguments selections location, o, h, record, s, t, r, hr => by
    rw [Context.output] at h
    obtain ⟨selected, hselect, h⟩ := bind_eq_ok.mp h
    cases selected with
    | leaf l =>
      cases h
      have hempty := Context.selections_of_select hselect
      cases l with
      | field f =>
        rw [Output.evaluate] at hr
        obtain ⟨v, hv, hr⟩ := Access.result_ofExcept_bind_eq_ok.mp hr
        cases hr
        exact .field hempty hv
      | typeName n =>
        rw [Output.evaluate] at hr
        cases hr
        exact .typeName hempty
    | nested inner source =>
      obtain ⟨_, _, h⟩ := bind_eq_ok.mp h
      obtain ⟨os, hos, h⟩ := bind_eq_ok.mp h
      cases h
      exact MirrorsPresented.nested
        (c := .mk name arguments selections location)
        (mirrorsPresented_of_outputs inner (path ++ [name]) (depth + 1) selections os hos)
        (Output.shown_of_evaluate hr)

theorem mirrorsPresented_of_outputs (context : Context) (path : Path) (depth : Nat) :
    (cs : List Call) → (os : List Output) → context.outputs limit path depth cs = .ok os →
      MirrorsPresented σ cs os
  | [], os, h, record, s, t, entries, hentries => by
    cases h
    rw [Output.evaluateAll] at hentries
    cases hentries
    exact .nil
  | c :: cs, os, h, record, s, t, entries, hentries => by
    obtain ⟨o, rest, ho, hrest, rfl⟩ := Context.outputs_cons_eq_ok h
    rw [Output.evaluateAll] at hentries
    obtain ⟨r, u, hr, hentries⟩ := Access.result_bind_eq_ok.mp hentries
    obtain ⟨rs, v, hrs, hentries⟩ := Access.result_bind_eq_ok.mp hentries
    cases hentries
    rw [Context.output_name ho]
    exact .cons (mirrors_of_evaluate context path depth c o ho record s u r hr)
      (mirrorsPresented_of_outputs context path depth cs rest hrest record u _ rs hrs)

end

end Mirroring

namespace Compile

variable {credentials : Credentials} {i : Snapshot} {limit : Int} {c : Call} {p : CallPlan}

/-- Whatever a call is for, what it gives is projected as its selections say. -/
theorem exists_project_of_call (h : call credentials i limit c = .ok p) :
    ∃ context : Context, context.project limit c = .ok p.projection := by
  cases planned_of_call h with
  | node _ _ hp => exact ⟨_, hp⟩
  | nodes _ _ _ hp => exact ⟨_, hp⟩
  | introspection _ hp => exact ⟨_, hp⟩
  | mutation _ _ _ hp => exact ⟨_, hp⟩

end Compile

namespace CallPlan

variable {σ : Type} [Store σ] {context : Context} {limit : Int} {c : Call} {p : CallPlan}

theorem runIn_written (h : context.project limit c = .ok p.projection) (absent : Failure)
    {height : Nat} (hheight : p.projection.written.length ≤ height) :
    (p.runIn p.projection.written absent height : Access σ Result) = p.run := by
  rw [runIn, Projection.present_written h absent hheight, run_eq_runWith]

theorem mirrors_of_run (h : context.project limit c = .ok p.projection) {s t : σ} {r : Result}
    (hr : p.run.result s = (.ok r, t)) : p.Mirrors s c r t := by
  have hobject {record : Value} {u : σ} (hf : p.Finds s (.object record) u)
      (hr : (p.projection.present record).result u = (.ok r, t)) : p.Mirrors s c r t := by
    obtain ⟨entries, v, hentries, hr⟩ := Access.result_bind_eq_ok.mp hr
    cases hr
    exact .object hf (mirrorsPresented_of_outputs context [] 1 _ _ (Context.project_eq_ok h) record
      u _ entries hentries)
  cases p with
  | fetchNode typeName id projection =>
    obtain ⟨found, u, hfound, hr⟩ := Access.result_bind_eq_ok.mp hr
    cases found with
    | none =>
      cases hr
      exact .nothing (.lacking hfound)
    | some found => exact hobject (.found hfound) hr
  | fetchNodes typeName filters page projection =>
    obtain ⟨f, u, hf, hr⟩ := Access.result_bind_eq_ok.mp hr
    obtain ⟨inner, hinner, hr⟩ := Access.result_ofExcept_bind_eq_ok.mp hr
    unfold Projection.fetch at hf
    split at hf
    · rename_i hneeds
      exact hobject (.fetched hneeds hf hinner) hr
    · rename_i hneeds
      obtain ⟨count, w, hcount, hf⟩ := Access.result_bind_eq_ok.mp hf
      cases hf
      cases hinner
      exact hobject (.counted (Bool.eq_false_iff.mpr hneeds) hcount) hr
  | introspection record projection => exact hobject .introspection hr
  | mutation change success failure projection =>
    obtain ⟨made, u, hmade, hr⟩ := Access.result_bind_eq_ok.mp hr
    exact hobject (.changed hmade) hr

end CallPlan

namespace Query

variable {credentials : Credentials} {i : Snapshot} {limit : Int} {q : Query} {plan : Plan}

theorem mirrors_of_run {σ : Type} [Store σ]
    (h : List.Forall₂ (fun c p => ∃ context : Context, context.project limit c =
      .ok (CallPlan.projection p)) q plan) {s t : σ} {results : List Result}
    (hr : plan.run.result s = (.ok results, t)) : plan.Mirrors s q results t := by
  induction h generalizing s results with
  | nil =>
    cases hr
    exact .nil
  | @cons c p q plan hp _ ih =>
    obtain ⟨context, hproject⟩ := hp
    rw [Plan.run, List.mapM_cons] at hr
    obtain ⟨r, u, hfirst, hr⟩ := Access.result_bind_eq_ok.mp hr
    obtain ⟨rs, v, hrest, hr⟩ := Access.result_bind_eq_ok.mp hr
    cases hr
    exact .cons (CallPlan.mirrors_of_run hproject hfirst) (ih hrest)

/-- Every call of a query that has a plan has an arena, the one that is written for its selections.
It is well-formed, and what is presented out of it is what the plan says. If all calls have results,
each has the shape of what its call selects. -/
theorem arenas_wellFormed (h : q.compile credentials i limit = .ok plan) :
    List.Forall₂ (fun c p => ∃ a : Arena,
        (∃ context : Context, context.project limit c = .ok p.projection ∧
          context.write limit c = .ok a) ∧
        a.Perm (p.projection.arena.map fun e => (e.1, e.2.block e.1)) ∧ a.WellFormed c ∧
        ∀ (σ : Type) [Store σ] (absent : Failure) (height : Nat), a.length ≤ height →
          (p.runIn a absent height : Access σ Result) = p.run) q plan ∧
      ∀ (σ : Type) [Store σ] (s t : σ) (results : List Result),
        plan.run.result s = (.ok results, t) → Plan.Mirrors s q plan results t := by
  have hprojects := (mapM_eq_ok.mp h).imp fun c p hp => Compile.exists_project_of_call hp
  refine ⟨hprojects.imp fun c p hp => ?_, fun σ _ s t results hr => mirrors_of_run hprojects hr⟩
  obtain ⟨context, hproject⟩ := hp
  have hwrite : context.write limit c = .ok p.projection.written := by
    rw [Context.write_eq, hproject]
    rfl
  exact ⟨p.projection.written, ⟨context, hproject, hwrite⟩, p.projection.written_perm,
    Projection.wellFormed_written hproject,
    fun σ _ absent height => CallPlan.runIn_written hproject absent⟩

end Query

namespace Library

/-- An author without a home, a book by an author who is not there, and one by nobody. -/
def sparse : Memory where
  schema := schema
  records := [
    ("Author", [.object [("id", .text "a")]]),
    ("Book", [
      .object [("id", .text "b"), ("title", .text "B"), ("author", .text "z")],
      .object [("id", .text "c")]])]

def lookups : Query := [
  call "node" [(none, .name "Author"), (none, .string "a")] [
    call "home" [] [call "street" [] []], call "books" [] [call "count" [] []]],
  call "node" [(none, .name "Book"), (none, .string "b")] [
    call "title" [] [], call "author" [] [call "__typename" [] []]],
  call "node" [(none, .name "Book"), (none, .string "c")] [
    call "title" [] [], call "author" [] [call "__typename" [] []]],
  call "node" [(none, .name "Book"), (none, .string "d")] [call "title" [] []]]

def found : List Result := [
  .object [("home", .null), ("books", .object [("count", .value (.int 0))])],
  .object [("title", .value (.text "B")), ("author", .null)],
  .object [("title", .value .null), ("author", .null)],
  .null]

end Library

/-- Calls by id are presented out of their arenas. There is nothing in place of a home, of two
authors and of a book that are not there, and of nothing else. -/
theorem library_arenas : ∃ plan,
    Library.lookups.compile {} Library.snapshot defaultLimit = .ok plan ∧
    List.Forall₂ (fun c p => ∃ a : Arena, a.WellFormed c ∧ ∀ absent,
      (p.runIn a absent a.length : Access Memory Result) = p.run) Library.lookups plan ∧
    plan.run.result Library.sparse = (.ok Library.found, Library.sparse) ∧
    Plan.Mirrors Library.sparse Library.lookups plan Library.found Library.sparse := by
  obtain ⟨plan, hplan⟩ : ∃ p,
    Library.lookups.compile {} Library.snapshot defaultLimit = .ok p := ⟨_, rfl⟩
  obtain ⟨harenas, hmirrors⟩ := Query.arenas_wellFormed hplan
  have hrun : plan.run.result Library.sparse = (.ok Library.found, Library.sparse) := by
    cases hplan
    rfl
  refine ⟨plan, hplan, harenas.imp fun c p hp => ?_, hrun, hmirrors Memory _ _ _ hrun⟩
  obtain ⟨a, _, _, ha, hrun⟩ := hp
  exact ⟨a, ha, fun absent => hrun Memory absent a.length le_rfl⟩

end ObjectQuery
