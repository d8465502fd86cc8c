import ObjectQuery.Proofs.Query.Blame

/-!
# Presenting metadata

Metadata is held by plans, with all that can be selected on it, so it is presented without a
question to a store and without fail. What is presented of the result of a change says whether the
change was made, wherever that is selected.
-/

set_option autoImplicit false

namespace ObjectQuery

open Outcome

/-- Where what is selected comes from. -/
def Context.realm : Context → Realm
  | object realm _ => realm
  | connection _ realm _ => realm
  | edges realm _ => realm

theorem Context.realm_of_select {context inner : Context} {source : Source} {c : Call}
    (hr : context.realm = .metadata) (hs : context.select c = .ok (.nested inner source)) :
    inner.realm = .metadata := by
  cases context with
  | object realm t =>
    cases hr
    cases Metadata.selects_of_select hs with
    | listed => rfl
    | objectList => rfl
    | object => rfl
  | connection parent realm t =>
    cases ofConnection_of_select hs with
    | nodes => exact hr
    | edges => exact hr
  | edges realm t =>
    cases ofEdges_of_select hs with
    | node => exact hr

section Presenting

variable {σ : Type} [Store σ] {s : σ} {i : Snapshot} {q : Query} {inner : Context}
  {source : Source} {record v : Value} {outputs : List Output} {shown : List (String × Result)}
  {limit : Int}

namespace Output

/-- What an output shows of a record. -/
def Displays (s : σ) (record : Value) (o : Output) (shown : String × Result) : Prop :=
  shown.1 = o.name ∧ (evaluate record o : Access σ Result).Yields s shown.2

theorem yields_of_displays (h : List.Forall₂ (Displays s record) outputs shown) :
    (evaluateAll record outputs : Access σ _).Yields s shown := by
  induction h with
  | nil => exact yields_nil
  | @cons o x _ _ hx _ ih =>
    have hcons := yields_cons hx.2 ih
    rwa [← hx.1] at hcons

theorem yields_listed {parts : List Value} {name field typeName : String}
    (h : record.entry field = .ok (.list parts))
    (hs : (evaluateAll (connectionRecord parts parts.length (positions parts.length)) outputs :
      Access σ _).Yields s shown) :
    (evaluate record (.nested name (.listed field) typeName outputs) :
      Access σ Result).Yields s (.object shown) := by
  rw [evaluate]
  refine (Access.yields_ofExcept h s).bind ?_
  exact (Access.yields_ofExcept (listRecord_list parts) s).bind (hs.bind (Access.yields_pure _ s))

end Output

/-- What is embedded in a record is presented if all that is in it is. -/
theorem Source.Gives.exists_displays (h : source.Gives i q v inner) (hr : inner.realm = .metadata)
    (hall : ∀ w, inner.Reads i w → ∃ shown, List.Forall₂ (Output.Displays s w) outputs shown)
    (name typeName : String) :
    ∃ shown, Output.Displays s v (.nested name source typeName outputs) (name, shown) := by
  cases h with
  | null he => exact ⟨.null, rfl, Output.yields_embedded_null he⟩
  | @object _ _ w he hw =>
    by_cases hnull : w = .null
    · rw [hnull] at he
      exact ⟨.null, rfl, Output.yields_embedded_null he⟩
    · obtain ⟨shown, hshown⟩ := hall w hw
      exact ⟨.object shown, rfl,
        Output.yields_embedded he hnull (Output.yields_of_displays hshown)⟩
  | @items _ _ items he hw =>
    have hitem (w : Value) :
        ∃ shown, inner.Reads i w → List.Forall₂ (Output.Displays s w) outputs shown := by
      by_cases hreads : inner.Reads i w
      · obtain ⟨shown, hshown⟩ := hall w hreads
        exact ⟨shown, fun _ => hshown⟩
      · exact ⟨[], fun h => absurd h hreads⟩
    choose present hpresent using hitem
    rw [← List.map_id items] at he
    have hyields : ∀ w ∈ items, id w ≠ .null →
        (Output.evaluateAll (id w) outputs : Access σ _).Yields s (present w) :=
      fun w hmem hne => Output.yields_of_displays (hpresent w (hw w hmem hne))
    exact ⟨_, rfl, Output.yields_items id he hyields⟩
  | listed he hw =>
    obtain ⟨shown, hshown⟩ := hall _ (.connection hw _ _)
    exact ⟨.object shown, rfl, Output.yields_listed he (Output.yields_of_displays hshown)⟩
  | unrelated he => exact ⟨.null, rfl, Output.yields_related_null he⟩
  | related => cases hr
  | connection => cases hr

namespace Context

mutual

theorem exists_displays (hi : i.rules.registry = .standard) (context : Context)
    (hr : context.realm = .metadata) (path : Path) (depth : Nat) :
    (c : Call) → (o : Output) → context.output limit path depth c = .ok o →
      ∀ v, context.Reads i v → ∃ shown, Output.Displays s v o (c.name, shown)
  | .mk name arguments selections location, o, h, v, hv => by
    rcases output_eq_ok h with ⟨l, _, rfl⟩ | ⟨inner, source, os, hselect, hos, rfl⟩
    · obtain ⟨entries, rfl⟩ := hv.exists_entries
      cases l with
      | field f => exact ⟨_, rfl, Output.yields_leaf rfl⟩
      | typeName n => exact ⟨_, rfl, Access.yields_pure _ s⟩
    · have hinner := realm_of_select hr hselect
      have hgives := hv.gives (q := [.mk name arguments selections location]) hi
        (fun hlong => ⟨_, List.mem_singleton_self _, hlong⟩) hselect
      refine hgives.exists_displays hinner (fun w hw => ?_) name inner.typeName
      exact exists_displaysAll hi inner hinner (path ++ [name]) (depth + 1) selections os hos w hw

theorem exists_displaysAll (hi : i.rules.registry = .standard) (context : Context)
    (hr : context.realm = .metadata) (path : Path) (depth : Nat) :
    (cs : List Call) → (os : List Output) → context.outputs limit path depth cs = .ok os →
      ∀ v, context.Reads i v → ∃ shown, List.Forall₂ (Output.Displays s v) os shown
  | [], os, h, v, hv => by
    cases h
    exact ⟨[], .nil⟩
  | c :: cs, os, h, v, hv => by
    obtain ⟨o, rest, ho, hrest, rfl⟩ := outputs_cons_eq_ok h
    obtain ⟨first, hfirst⟩ := exists_displays hi context hr path depth c o ho v hv
    obtain ⟨others, hothers⟩ := exists_displaysAll hi context hr path depth cs rest hrest v hv
    exact ⟨(c.name, first) :: others, .cons hfirst hothers⟩

end

end Context

end Presenting

section Results

variable {σ : Type} [Store σ] {limit : Int} {c : Call} {t : ObjectType} {p : Projection}

/-- What a result is called that says whether a change was made. -/
def successName : String := "success"

/-- What is shown of a change: an entry for each output, and that it was made or not made wherever
there is one that says so. -/
def Projection.Reports (p : Projection) (made : Bool) (shown : Result) : Prop :=
  ∃ entries, shown = .object entries ∧ entries.map (·.1) = p.outputs.map Output.name ∧
    ∀ v, (successName, v) ∈ entries → v = .value (.bool made)

theorem Metadata.select_success {selected : Selected} (ht : t.members = resultFields)
    (hn : c.name = successName) (h : select t c = .ok selected) :
    selected = .leaf (.field successName) := by
  have hfield : t.field? successName = some (flagField successName) := by
    rw [ObjectType.field?, ObjectType.declared, ht]
    rfl
  obtain ⟨_, _, h⟩ := bind_eq_ok.mp h
  rw [hn, if_neg (by decide), hfield] at h
  have hplain : Selected.plain c (.scalar "boolean") (.field c.name) = .ok selected := h
  rw [Selected.plain_eq_ok hplain, hn]

theorem Context.output_success {o : Output} (ht : t.members = Metadata.resultFields)
    {cs : List Call} {os : List Output} {path : Path} {depth : Nat}
    (h : (object .metadata t).outputs limit path depth cs = .ok os) (ho : o ∈ os)
    (hn : o.name = successName) : o = .leaf successName (.field successName) := by
  induction cs generalizing os with
  | nil =>
    cases h
    cases ho
  | cons c cs ih =>
    obtain ⟨first, rest, hfirst, hrest, rfl⟩ := outputs_cons_eq_ok h
    rcases List.mem_cons.mp ho with rfl | ho
    · have hc := (output_name hfirst).symm.trans hn
      rcases output_eq_ok hfirst with ⟨l, hselect, rfl⟩ | ⟨inner, source, os, hselect, _, rfl⟩
      · cases Metadata.select_success ht hc hselect
        rw [hc]
      · cases Metadata.select_success ht hc hselect
    · exact ih hrest ho

/-- The result of a change is presented, and says whether the change was made. -/
theorem Projection.exists_reports {i : Snapshot} (hi : i.rules.registry = .standard)
    (ht : t.members = Metadata.resultFields)
    (hp : (Context.object .metadata t).project limit c = .ok p) (made : Bool)
    {changes : List Value} (hc : ∀ v ∈ changes, Metadata.Describes Metadata.changeType v) (s : σ) :
    ∃ shown, p.Reports made shown ∧
      (p.present (.object [("success", .bool made), ("changes", .list changes)]) :
        Access σ Result).Yields s shown := by
  have hos := Context.project_eq_ok hp
  obtain ⟨entries, hentries⟩ := Context.exists_displaysAll (s := s) (i := i) hi
    (.object .metadata t) rfl [] 1 c.selections p.outputs hos _
    (.object (.metadata (Metadata.describes_result ht made hc)))
  refine ⟨.object entries, ⟨entries, rfl, ?_, fun v hv => ?_⟩,
    (Output.yields_of_displays hentries).bind (Access.yields_pure _ s)⟩
  · have hnames := hentries.flip.imp fun _ _ h => h.1
    rw [← List.forall₂_eq_eq_eq, List.forall₂_map_left_iff, List.forall₂_map_right_iff]
    exact hnames
  · obtain ⟨o, ho, hname, hyields⟩ := exists_left_of_mem hentries hv
    rw [Context.output_success ht hos ho hname.symm] at hyields
    have hbool : (Output.evaluate (.object [("success", .bool made), ("changes", .list changes)])
        (.leaf successName (.field successName)) : Access σ Result).Yields s
          (.value (.bool made)) := Output.yields_leaf rfl
    exact Except.ok.inj (congrArg Prod.fst (hyields.symm.trans hbool))

end Results

end ObjectQuery
