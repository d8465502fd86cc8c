import ObjectQuery.Proofs.Query.Answer
import ObjectQuery.Proofs.Schema.Kinds

/-!
# What selections are compiled to

For each way in which a selection is accepted, what it comes to.
-/

set_option autoImplicit false

namespace ObjectQuery

open Outcome

namespace Call

variable {c : Call} {kind : LeafKind}

theorem allowing_eq_ok {names : List String} {named : List (String × Argument)} :
    c.allowing names = .ok named ↔
      named = c.namedArguments ∧ ∀ a ∈ c.namedArguments, a.1 ∈ names := by
  unfold allowing
  split
  · rename_i name a hfind
    refine iff_of_false nofun fun h => ?_
    have hunknown := List.find?_some hfind
    have hknown := h.2 _ (List.mem_of_find?_eq_some hfind)
    simp [hknown] at hunknown
  · rename_i hfind
    have hknown : ∀ a ∈ c.namedArguments, a.1 ∈ names := by
      intro a ha
      simpa using List.find?_eq_none.mp hfind a ha
    rw [Except.ok.injEq, eq_comm]
    exact (and_iff_left hknown).symm

theorem countIn_eq_ok {a : Argument} {n : Nat} (h : c.countIn a = .ok n) :
    a.value = .number (.whole (.ofNat n)) := by
  unfold countIn at h
  split at h
  · rename_i hv
    cases h
    exact hv
  · cases h

end Call

theorem Argument.id_eq_ok {a : Argument} {id : String} (h : a.id = .ok id) :
    Scalar.idOf a.value.value = .ok id :=
  mapError_eq_ok.mp h

/-- The page that a call chooses. -/
def Page.of (c : Call) : Page := ⟨c.firstCount?.map fun n => .int n, c.afterId?.map .text⟩

theorem Page.ofArguments_eq_ok {c : Call} {page : Page}
    (h : Page.ofArguments c c.namedArguments = .ok page) : page = .of c := by
  simp only [ofArguments, bind_eq_ok, pure_eq_ok, Except.ok.injEq] at h
  obtain ⟨first, hfirst, after, hafter, rfl⟩ := h
  have hf : first = c.firstCount? := by
    unfold Call.firstCount? Call.given?
    cases hl : c.namedArguments.lookup firstName with
    | none =>
      rw [hl] at hfirst
      cases hfirst
      rfl
    | some a =>
      rw [hl] at hfirst
      obtain ⟨n, hn, hsome⟩ := bind_eq_ok.mp hfirst
      cases hsome
      rw [Option.map_some, Call.countIn_eq_ok hn]
  have ha : after = c.afterId? := by
    unfold Call.afterId? Call.given?
    cases hl : c.namedArguments.lookup afterName with
    | none =>
      rw [hl] at hafter
      cases hafter
      rfl
    | some a =>
      rw [hl] at hafter
      obtain ⟨id, hid, hsome⟩ := bind_eq_ok.mp hafter
      cases hsome
      rw [Option.map_some, Option.bind_some, Argument.id_eq_ok hid]
      rfl
  rw [hf, ha, Page.of]

theorem Selected.plain_eq_ok {c : Call} {kind : LeafKind} {l : Leaf} {selected : Selected}
    (h : Selected.plain c kind l = .ok selected) : selected = .leaf l := by
  simp only [plain, bind_eq_ok, pure_eq_ok, Except.ok.injEq] at h
  obtain ⟨_, _, _, _, rfl⟩ := h
  rfl

namespace Snapshot

variable {i : Snapshot} {t u : ObjectType} {f : Field} {c : Call} {selected : Selected}

theorem target_eq_ok {name : Value} (h : i.target f name = .ok u) :
    ∃ n, name = .text n ∧ i.schema.type? n = some u := by
  unfold target at h
  split at h
  · rename_i hbind
    cases h
    obtain ⟨n, hn, hu⟩ := Option.bind_eq_some_iff.mp hbind
    exact ⟨n, Value.text?_eq_some_iff.mp hn, hu⟩
  · cases h

/-- What a selection on a record comes to, by the kind of the field that it names. -/
inductive Selects (i : Snapshot) (t : ObjectType) (c : Call) : Selected → Prop where
  | typeName (hn : c.name = typenameName) : Selects i t c (.leaf (.typeName t.label))
  | builtIn (hn : c.name ≠ typenameName) (hf : t.field? c.name = none)
      (hb : i.hasBuiltIn t c.name = true) : Selects i t c (.leaf (.field c.name))
  | scalar {f : Field} {s : Scalar} (hn : c.name ≠ typenameName) (hf : t.field? c.name = some f)
      (hk : i.schema.kindOf f = .ok (.scalar s)) : Selects i t c (.leaf (.field c.name))
  | scalarList {f : Field} {s : Scalar} (hn : c.name ≠ typenameName)
      (hf : t.field? c.name = some f) (hk : i.schema.kindOf f = .ok (.scalarList s)) :
      Selects i t c (.leaf (.field c.name))
  | embedded {f : Field} {n : String} {u : ObjectType} (hn : c.name ≠ typenameName)
      (hf : t.field? c.name = some f) (hk : i.schema.kindOf f = .ok (.reference n false))
      (hu : i.schema.type? n = some u) :
      Selects i t c (.nested (.object (.data i) u) (.embedded c.name false))
  | objectList {f : Field} {n : String} {u : ObjectType} (hn : c.name ≠ typenameName)
      (hf : t.field? c.name = some f) (hk : i.schema.kindOf f = .ok (.objectList n))
      (hu : i.schema.type? n = some u) :
      Selects i t c (.nested (.object (.data i) u) (.embedded c.name true))
  | related {f : Field} {n : String} {u : ObjectType} (hn : c.name ≠ typenameName)
      (hf : t.field? c.name = some f) (hk : i.schema.kindOf f = .ok (.reference n true))
      (hu : i.schema.type? n = some u) :
      Selects i t c (.nested (.object (.data i) u) (.related c.name u.label))
  | connection {f : Field} {n : String} {reverse : Value} {u : ObjectType}
      (hn : c.name ≠ typenameName) (hf : t.field? c.name = some f)
      (hk : i.schema.kindOf f = .ok (.connection (.text n) reverse))
      (hu : i.schema.type? n = some u) :
      Selects i t c (.nested (.connection c.name (.data i) u)
        (.connection u.label reverse.inline (.of c)))

theorem selects_of_selectDeclared (hn : c.name ≠ typenameName) (hf : t.field? c.name = some f)
    (h : i.selectDeclared f c = .ok selected) : i.Selects t c selected := by
  unfold selectDeclared at h
  obtain ⟨k, hk, h⟩ := bind_eq_ok.mp h
  rw [mapError_eq_ok] at hk
  cases k with
  | connection typeName reverse =>
    simp only [selectConnection] at h
    split at h
    · obtain ⟨_, hr, _⟩ := bind_eq_ok.mp h
      cases hr
    · obtain ⟨named, hnamed, h⟩ := bind_eq_ok.mp h
      obtain ⟨page, hpage, h⟩ := bind_eq_ok.mp h
      obtain ⟨u, ht, hselected⟩ := bind_eq_ok.mp h
      obtain ⟨n, rfl, hu⟩ := target_eq_ok ht
      rw [(Call.allowing_eq_ok.mp hnamed).1] at hpage
      cases Page.ofArguments_eq_ok hpage
      cases hselected
      exact .connection hn hf hk hu
  | scalar s =>
    cases Selected.plain_eq_ok h
    exact .scalar hn hf hk
  | scalarList s =>
    cases Selected.plain_eq_ok h
    exact .scalarList hn hf hk
  | objectList n =>
    obtain ⟨_, _, h⟩ := bind_eq_ok.mp h
    obtain ⟨u, hu, h⟩ := bind_eq_ok.mp h
    obtain ⟨_, hname, hu⟩ := target_eq_ok hu
    cases hname
    cases h
    exact .objectList hn hf hk hu
  | reference n isNode =>
    obtain ⟨_, _, h⟩ := bind_eq_ok.mp h
    obtain ⟨u, hu, h⟩ := bind_eq_ok.mp h
    obtain ⟨_, hname, hu⟩ := target_eq_ok hu
    cases hname
    cases h
    cases isNode with
    | true => exact .related hn hf hk hu
    | false => exact .embedded hn hf hk hu

theorem selects_of_select (h : i.select t c = .ok selected) : i.Selects t c selected := by
  unfold select at h
  split at h
  · rename_i hn
    cases Selected.plain_eq_ok h
    exact .typeName hn
  · rename_i hn
    split at h
    · rename_i f hf
      exact selects_of_selectDeclared hn hf h
    · rename_i hf
      split at h
      · rename_i hb
        cases Selected.plain_eq_ok h
        exact .builtIn hn hf hb
      · cases h

end Snapshot

namespace Metadata

variable {t u : ObjectType} {f : Field} {c : Call} {selected : Selected}

/-- What a selection on metadata comes to, by what the field that it names is declared with. -/
inductive Selects (t : ObjectType) (c : Call) : Selected → Prop where
  | leaf {kind : LeafKind} {l : Leaf} (h : Selected.plain c kind l = .ok (.leaf l)) :
      Selects t c (.leaf l)
  | listed {f : Field} {u : ObjectType} (hf : t.field? c.name = some f)
      (hc : f.isConnection = true) (hu : target f f.ofType = .ok u) :
      Selects t c (.nested (.connection c.name .metadata u) (.listed c.name))
  | objectList {f : Field} {u : ObjectType} (hf : t.field? c.name = some f)
      (hc : f.isConnection = false) (hl : f.isList = true) (hs : Scalar.named? f.ofType = none)
      (hu : target f f.ofType = .ok u) :
      Selects t c (.nested (.object .metadata u) (.embedded c.name true))
  | object {f : Field} {u : ObjectType} (hf : t.field? c.name = some f)
      (hc : f.isConnection = false) (hl : f.isList = false) (hs : Scalar.named? f.type = none)
      (hu : target f f.type = .ok u) :
      Selects t c (.nested (.object .metadata u) (.embedded c.name false))

theorem Selects.of_plain {kind : LeafKind} {l : Leaf} (h : Selected.plain c kind l = .ok selected) :
    Selects t c selected := by
  cases Selected.plain_eq_ok h
  exact .leaf h

theorem selects_of_selectDeclared (hf : t.field? c.name = some f)
    (h : selectDeclared f c = .ok selected) : Selects t c selected := by
  unfold selectDeclared at h
  split at h
  · rename_i hc
    obtain ⟨u, hu, h⟩ := bind_eq_ok.mp h
    cases h
    exact .listed hf hc hu
  · rename_i hc
    have hc := Bool.eq_false_iff.mpr hc
    split at h
    · rename_i hl
      split at h
      · exact .of_plain h
      · rename_i hs
        obtain ⟨u, hu, h⟩ := bind_eq_ok.mp h
        cases h
        exact .objectList hf hc hl hs hu
    · rename_i hl
      split at h
      · exact .of_plain h
      · rename_i hs
        obtain ⟨u, hu, h⟩ := bind_eq_ok.mp h
        cases h
        exact .object hf hc (Bool.eq_false_iff.mpr hl) hs hu

theorem selects_of_select (h : select t c = .ok selected) : Selects t c selected := by
  obtain ⟨_, _, h⟩ := bind_eq_ok.mp h
  split at h
  · exact .of_plain h
  · split at h
    · rename_i f hf
      exact selects_of_selectDeclared hf h
    · cases h

end Metadata

namespace Context

variable {parent : String} {realm : Realm} {t : ObjectType} {c : Call} {selected : Selected}

/-- What a selection on a connection comes to. -/
inductive OfConnection (realm : Realm) (t : ObjectType) (c : Call) : Selected → Prop where
  | count (hn : c.name = countName) : OfConnection realm t c (.leaf (.field countName))
  | nodes (hn : c.name = nodesName) :
      OfConnection realm t c (.nested (.object realm t) (.embedded nodesName true))
  | edges (hn : c.name = edgesName) :
      OfConnection realm t c (.nested (.edges realm t) (.embedded edgesName true))

theorem ofConnection_of_select (h : (connection parent realm t).select c = .ok selected) :
    OfConnection realm t c selected := by
  obtain ⟨_, _, h⟩ := bind_eq_ok.mp h
  split at h
  · rename_i hn
    cases Selected.plain_eq_ok h
    exact .count hn
  · split at h
    · rename_i hn
      cases h
      exact .nodes hn
    · split at h
      · rename_i hn
        cases h
        exact .edges hn
      · cases h

/-- What a selection on edges comes to. -/
inductive OfEdges (realm : Realm) (t : ObjectType) (c : Call) : Selected → Prop where
  | cursor (hn : c.name = cursorName) : OfEdges realm t c (.leaf (.field cursorName))
  | node (hn : c.name = nodeName) :
      OfEdges realm t c (.nested (.object realm t) (.embedded nodeName false))

theorem ofEdges_of_select (h : (edges realm t).select c = .ok selected) :
    OfEdges realm t c selected := by
  obtain ⟨_, _, h⟩ := bind_eq_ok.mp h
  split at h
  · rename_i hn
    cases Selected.plain_eq_ok h
    exact .cursor hn
  · split at h
    · rename_i hn
      cases h
      exact .node hn
    · cases h

variable {limit : Int} {context : Context} {path : Path} {depth : Nat}

theorem output_eq_ok {o : Output} (h : context.output limit path depth c = .ok o) :
    (∃ l, context.select c = .ok (.leaf l) ∧ o = .leaf c.name l) ∨
      ∃ inner source os, context.select c = .ok (.nested inner source) ∧
        inner.outputs limit (path ++ [c.name]) (depth + 1) c.selections = .ok os ∧
        o = .nested c.name source inner.typeName os := by
  obtain ⟨name, arguments, selections, location⟩ := c
  rw [output] at h
  obtain ⟨selected, hs, h⟩ := bind_eq_ok.mp h
  cases selected with
  | leaf l =>
    cases h
    exact .inl ⟨l, hs, rfl⟩
  | nested inner source =>
    obtain ⟨_, _, h⟩ := bind_eq_ok.mp h
    obtain ⟨os, hos, h⟩ := bind_eq_ok.mp h
    cases h
    exact .inr ⟨inner, source, os, hs, hos, rfl⟩

theorem outputs_cons_eq_ok {cs : List Call} {os : List Output}
    (h : context.outputs limit path depth (c :: cs) = .ok os) :
    ∃ o rest, context.output limit path depth c = .ok o ∧
      context.outputs limit path depth cs = .ok rest ∧ os = o :: rest := by
  rw [outputs] at h
  obtain ⟨o, ho, h⟩ := bind_eq_ok.mp h
  obtain ⟨rest, hrest, h⟩ := bind_eq_ok.mp h
  cases h
  exact ⟨o, rest, ho, hrest, rfl⟩

theorem output_name {o : Output} (h : context.output limit path depth c = .ok o) :
    o.name = c.name := by
  rcases output_eq_ok h with ⟨l, _, rfl⟩ | ⟨inner, source, os, _, _, rfl⟩
  · rfl
  · rfl

theorem project_eq_ok {p : Projection} (h : context.project limit c = .ok p) :
    context.outputs limit [] 1 c.selections = .ok p.outputs := by
  obtain ⟨_, _, h⟩ := bind_eq_ok.mp h
  obtain ⟨os, hos, h⟩ := bind_eq_ok.mp h
  cases h
  exact hos

end Context

end ObjectQuery
