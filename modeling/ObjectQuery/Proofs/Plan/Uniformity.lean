import ObjectQuery.Proofs.Plan.Questions

/-!
# The same selections anywhere

What selections are compiled to does not depend on where they stand: not on how deep they are, on
the path to them, on their places in the text, or on the name of the connection that they are made
on.
-/

set_option autoImplicit false

namespace ObjectQuery

variable {i : Snapshot} {t : ObjectType} {realm : Realm} {c d : Call}
  {selected selected' : Selected}

theorem Call.given?_eq (c : Call) (name : String) : c.given? name =
    ((c.arguments.map fun b => (b.name, b.value)).filterMap fun b =>
      b.1.map fun n => (n, b.2)).lookup name := by
  unfold given? namedArguments
  induction c.arguments with
  | nil => rfl
  | cons a as ih =>
    rw [List.filterMap_cons, List.map_cons, List.filterMap_cons]
    cases a.name with
    | none => exact ih
    | some n =>
      simp only [Option.map_some, List.lookup_cons]
      cases name == n with
      | true => rfl
      | false => exact ih

theorem Page.of_congr (h : (c.arguments.map fun b => (b.name, b.value)) =
    d.arguments.map fun b => (b.name, b.value)) : Page.of c = .of d := by
  have hgiven (name : String) : c.given? name = d.given? name := by
    rw [Call.given?_eq, Call.given?_eq, h]
  unfold Page.of Call.firstCount? Call.afterId?
  rw [hgiven firstName, hgiven afterName]

theorem Snapshot.Selects.unique (hname : c.name = d.name) (hpage : Page.of c = .of d)
    (h : i.Selects t c selected) (h' : i.Selects t d selected') : selected = selected' := by
  cases h <;> cases h' <;> simp_all

namespace Context

theorem OfConnection.unique (hname : c.name = d.name) (h : OfConnection realm t c selected)
    (h' : OfConnection realm t d selected') : selected = selected' := by
  cases h <;> cases h' <;> simp_all [countName, nodesName, edgesName]

theorem OfEdges.unique (hname : c.name = d.name) (h : OfEdges realm t c selected)
    (h' : OfEdges realm t d selected') : selected = selected' := by
  cases h <;> cases h' <;> simp_all [cursorName, nodeName]

variable {place : Place} {parent parent' : String}

theorem select_unique (h : c.same d = true)
    (hc : (place.context i parent).select c = .ok selected)
    (hd : (place.context i parent').select d = .ok selected') : selected = selected' := by
  obtain ⟨hname, harguments, _⟩ := Call.of_same h
  cases place with
  | object t =>
    exact (Snapshot.selects_of_select hc).unique hname (Page.of_congr harguments)
      (Snapshot.selects_of_select hd)
  | connection t => exact (ofConnection_of_select hc).unique hname (ofConnection_of_select hd)
  | edges t => exact (ofEdges_of_select hc).unique hname (ofEdges_of_select hd)

/-- Selections on records lead to records and connections of them, never to metadata. -/
theorem exists_place {inner : Context} {source : Source}
    (h : (place.context i parent).select c = .ok (.nested inner source)) :
    ∃ (next : Place) (name : String), inner = next.context i name := by
  cases place with
  | object t =>
    cases Snapshot.selects_of_select h with
    | embedded => exact ⟨.object _, "", rfl⟩
    | objectList => exact ⟨.object _, "", rfl⟩
    | related => exact ⟨.object _, "", rfl⟩
    | connection => exact ⟨.connection _, c.name, rfl⟩
  | connection t =>
    cases ofConnection_of_select h with
    | nodes => exact ⟨.object _, "", rfl⟩
    | edges => exact ⟨.edges _, "", rfl⟩
  | edges t =>
    cases ofEdges_of_select h with
    | node => exact ⟨.object _, "", rfl⟩

end Context

namespace Context

variable {limit limit' : Int}

mutual

theorem output_unique {place : Place} {parent parent' : String} {path path' : Path}
    {depth depth' : Nat} {o o' : Output} : ∀ c d : Call, c.same d = true →
      (place.context i parent).output limit path depth c = .ok o →
      (place.context i parent').output limit' path' depth' d = .ok o' → o = o'
  | .mk n as ss l, .mk m bs ts k, h, hc, hd => by
    obtain ⟨hname, _, hselections⟩ := Call.of_same h
    obtain rfl : n = m := hname
    rcases output_eq_ok hc with ⟨l, hl, rfl⟩ | ⟨inner, source, os, hs, hos, rfl⟩
    · rcases output_eq_ok hd with ⟨l', hl', rfl⟩ | ⟨_, _, _, hs', _, rfl⟩
      · cases select_unique h hl hl'
        rfl
      · cases select_unique h hl hs'
    · rcases output_eq_ok hd with ⟨l', hl', rfl⟩ | ⟨_, _, os', hs', hos', rfl⟩
      · cases select_unique h hs hl'
      · cases select_unique h hs hs'
        obtain ⟨next, name, rfl⟩ := exists_place hs
        rw [outputs_unique ss ts hselections hos hos']
        rfl

theorem outputs_unique {place : Place} {parent parent' : String} {path path' : Path}
    {depth depth' : Nat} {os os' : List Output} : ∀ cs ds : List Call, Call.sameAll cs ds = true →
      (place.context i parent).outputs limit path depth cs = .ok os →
      (place.context i parent').outputs limit' path' depth' ds = .ok os' → os = os'
  | [], [], _, hc, hd => by
    cases hc
    cases hd
    rfl
  | [], _ :: _, h, _, _ => by cases h
  | _ :: _, [], h, _, _ => by cases h
  | c :: cs, d :: ds, h, hc, hd => by
    rw [Call.sameAll, Bool.and_eq_true] at h
    obtain ⟨o, rest, ho, hrest, rfl⟩ := outputs_cons_eq_ok hc
    obtain ⟨o', rest', ho', hrest', rfl⟩ := outputs_cons_eq_ok hd
    rw [output_unique c d h.1 ho ho', outputs_unique cs ds h.2 hrest hrest']

end

end Context

end ObjectQuery
