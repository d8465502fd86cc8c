import ObjectQuery.Plan.Compile
import ObjectQuery.Proofs.Dictionary
import ObjectQuery.Proofs.Number.Comparison
import ObjectQuery.Proofs.Plan.Blocks
import ObjectQuery.Proofs.Plan.Calls
import ObjectQuery.Proofs.Plan.Refusals
import ObjectQuery.Proofs.Query.Execution
import ObjectQuery.Proofs.Query.Grammar
import ObjectQuery.Proofs.Query.Recognition
import ObjectQuery.Proofs.Query.RoundTrip

/-!
# Well-typed selections

What may be selected on the records of a type, on a connection and on its edges, said without the
compiler: by the declared kind of a field, which arguments it takes and what is selected on in turn.
A call for a record has a plan if and only if its selections are well-typed at the type of the
record, where blocks are not nested too deeply.
-/

set_option autoImplicit false

namespace ObjectQuery

open Outcome

/-- What selections are made at. -/
inductive Place
  | object (type : ObjectType)
  | connection (type : ObjectType)
  | edges (type : ObjectType)

/-- Whether an atom stands for an id: it is a word or a text, or a number that is whole. -/
def Atom.Identifies : Atom → Prop
  | .number (.fraction x) => ∃ n : Int, x.compareInt? n = some .eq
  | _ => True

/-- An argument that says how many records a page has, or after which id it begins. -/
inductive Argument.ChoosesPage (a : Argument) : Prop
  | first (n : Nat) (hn : a.name = some "first") (hv : a.value = .number (.whole n))
  | after (hn : a.name = some "after") (hv : a.value.Identifies)

/-- A selection with arguments that it takes, by what it leads to: the place where its own
selections are made, or nowhere if it is a leaf. -/
inductive Leads (i : Snapshot) (c : Call) : Place → Option Place → Prop
  | typeName {t : ObjectType} (hn : c.name = "__typename") (ha : c.arguments = []) :
      Leads i c (.object t) none
  | builtIn {t : ObjectType} {b : Field} (hf : t.field? c.name = none)
      (hb : b ∈ i.rules.registry.typeFields t.name) (hn : b.name = .text c.name)
      (ha : c.arguments = []) : Leads i c (.object t) none
  | scalar {t : ObjectType} {f : Field} {s : Scalar} (hn : c.name ≠ "__typename")
      (hf : t.field? c.name = some f) (hk : i.schema.kindOf f = .ok (.scalar s))
      (ha : c.arguments = []) : Leads i c (.object t) none
  | scalarList {t : ObjectType} {f : Field} {s : Scalar} (hn : c.name ≠ "__typename")
      (hf : t.field? c.name = some f) (hk : i.schema.kindOf f = .ok (.scalarList s))
      (ha : c.arguments = []) : Leads i c (.object t) none
  /-- An object within the record, or one that it refers to. -/
  | reference {t u : ObjectType} {f : Field} {n : String} {isNode : Bool}
      (hn : c.name ≠ "__typename") (hf : t.field? c.name = some f)
      (hk : i.schema.kindOf f = .ok (.reference n isNode)) (hu : i.schema.type? n = some u)
      (ha : c.arguments = []) : Leads i c (.object t) (some (.object u))
  | objectList {t u : ObjectType} {f : Field} {n : String} (hn : c.name ≠ "__typename")
      (hf : t.field? c.name = some f) (hk : i.schema.kindOf f = .ok (.objectList n))
      (hu : i.schema.type? n = some u) (ha : c.arguments = []) :
      Leads i c (.object t) (some (.object u))
  | connection {t u : ObjectType} {f : Field} {n : String} {reverse : Value}
      (hn : c.name ≠ "__typename") (hf : t.field? c.name = some f)
      (hk : i.schema.kindOf f = .ok (.connection (.text n) reverse))
      (hu : i.schema.type? n = some u) (ha : ∀ a ∈ c.arguments, a.ChoosesPage) :
      Leads i c (.object t) (some (.connection u))
  | count {t : ObjectType} (hn : c.name = "count") (ha : c.arguments = []) :
      Leads i c (.connection t) none
  | nodes {t : ObjectType} (hn : c.name = "nodes") (ha : c.arguments = []) :
      Leads i c (.connection t) (some (.object t))
  | edges {t : ObjectType} (hn : c.name = "edges") (ha : c.arguments = []) :
      Leads i c (.connection t) (some (.edges t))
  | cursor {t : ObjectType} (hn : c.name = "cursor") (ha : c.arguments = []) :
      Leads i c (.edges t) none
  | node {t : ObjectType} (hn : c.name = "node") (ha : c.arguments = []) :
      Leads i c (.edges t) (some (.object t))

/-- A leaf has no selections. Everything else has some, of which no two have one name. -/
inductive WellTyped (i : Snapshot) : Place → Call → Prop
  | leaf {place : Place} {c : Call} (hl : Leads i c place none) (hs : c.selections = []) :
      WellTyped i place c
  | block {place inner : Place} {c : Call} (hl : Leads i c place (some inner))
      (hs : c.selections ≠ []) (hd : (c.selections.map Call.name).Nodup)
      (ht : ∀ s ∈ c.selections, WellTyped i inner s) : WellTyped i place c

/-- A block of well-typed selections. -/
structure WellTypedBlock (i : Snapshot) (place : Place) (selections : List Call) : Prop where
  nonempty : selections ≠ []
  nodup : (selections.map Call.name).Nodup
  wellTyped : ∀ s ∈ selections, WellTyped i place s

theorem Binary64.toInt?_isSome_iff (x : Binary64) :
    x.toInt?.isSome = true ↔ ∃ n : Int, x.compareInt? n = some .eq := by
  cases x with
  | nan => simp [toInt?, compareInt?]
  | signed s rank =>
    have hone : (one : Int) ≠ 0 := by exact_mod_cast Nat.ne_of_gt one_pos
    by_cases hr : rank.val < infinite
    · simp only [toInt?, compareInt?, hr, true_and, if_true, Option.some.injEq,
        compare_eq_iff_eq]
      constructor
      · intro h
        split at h
        · rename_i hmod
          refine ⟨withSign s (units rank / one), ?_⟩
          rw [← withSign_mul, Nat.div_mul_cancel (Nat.dvd_of_mod_eq_zero hmod)]
        · cases h
      · rintro ⟨n, hn⟩
        have hdvd : one ∣ units rank := by
          refine Int.natCast_dvd_natCast.mp ?_
          have hmul : (one : Int) ∣ withSign s (units rank) := hn ▸ Dvd.intro_left n rfl
          cases s with
          | false => exact hmul
          | true => exact Int.dvd_neg.mp hmul
        rw [if_pos (Nat.mod_eq_zero_of_dvd hdvd)]
        rfl
    · rw [toInt?, if_neg fun h => hr h.1]
      refine iff_of_false Bool.false_ne_true ?_
      rintro ⟨n, hn⟩
      rw [compareInt?, if_neg hr] at hn
      cases s <;> cases hn

theorem Atom.identifies_iff (a : Atom) :
    a.Identifies ↔ ∃ id, Scalar.idOf a.value = .ok id := by
  cases a with
  | number n =>
    cases n with
    | whole n => exact iff_of_true trivial ⟨toString n, rfl⟩
    | fraction x =>
      rw [Identifies, ← x.toInt?_isSome_iff]
      show _ ↔ ∃ id, Scalar.idOf (.float x) = .ok id
      simp only [Scalar.idOf, Scalar.whole?]
      cases x.toInt? <;> simp
  | name s => exact iff_of_true trivial ⟨s, rfl⟩
  | string s => exact iff_of_true trivial ⟨s, rfl⟩
  | literal s => exact iff_of_true trivial ⟨s, rfl⟩

theorem Argument.exists_id_iff (a : Argument) : (∃ id, a.id = .ok id) ↔ a.value.Identifies := by
  simp only [Argument.id, mapError_eq_ok, a.value.identifies_iff]

namespace Call

variable {c : Call}

theorem exists_countIn_iff {a : Argument} :
    (∃ n, c.countIn a = .ok n) ↔ ∃ n : Nat, a.value = .number (.whole n) := by
  constructor
  · rintro ⟨n, hn⟩
    exact ⟨n, countIn_eq_ok hn⟩
  · rintro ⟨n, hn⟩
    exact ⟨n, by rw [countIn, hn]⟩

theorem mem_namedArguments {n : String} {a : Argument} :
    (n, a) ∈ c.namedArguments ↔ a ∈ c.arguments ∧ a.name = some n := by
  simp only [namedArguments, List.mem_filterMap, Option.map_eq_some_iff, Prod.mk.injEq]
  constructor
  · rintro ⟨b, hb, m, hm, rfl, rfl⟩
    exact ⟨hb, hm⟩
  · rintro ⟨ha, hn⟩
    exact ⟨a, ha, n, hn, rfl, rfl⟩

theorem Formed.names_nodup (h : c.Formed) : (c.namedArguments.map Prod.fst).Nodup := by
  obtain ⟨name, arguments, selections, location⟩ := c
  obtain ⟨_, _, hd, _⟩ := h
  have hnodup := (Parsing.disorder_eq_none_iff.mp hd).2
  have hnames : (namedArguments (.mk name arguments selections location)).map Prod.fst =
      (arguments.map Argument.name).reduceOption := by
    rw [namedArguments, List.map_filterMap, List.reduceOption, List.filterMap_map]
    refine List.filterMap_congr fun a _ => ?_
    rw [Function.comp_apply]
    cases a.name <;> rfl
  exact hnames ▸ hnodup

/-- Where no name is given twice, the argument of a name is the one that is looked up. -/
theorem Formed.lookup_eq (h : c.Formed) {n : String} {a : Argument} :
    c.namedArguments.lookup n = some a ↔ a ∈ c.arguments ∧ a.name = some n := by
  rw [← mem_namedArguments]
  exact Dictionary.lookup_eq_some_iff_mem h.names_nodup

end Call

namespace Page

variable {c : Call}

theorem exists_ofArguments_iff {named : List (String × Argument)} :
    (∃ page, ofArguments c named = .ok page) ↔
      (∀ a, named.lookup firstName = some a → ∃ n : Nat, a.value = .number (.whole n)) ∧
        ∀ a, named.lookup afterName = some a → a.value.Identifies := by
  have hoptional {α β : Type} (o : Option α) (f : α → Except CompileError β) :
      (∃ b, o.mapM f = .ok b) ↔ ∀ a, o = some a → ∃ b, f a = .ok b := by
    cases o with
    | none => exact iff_of_true ⟨none, rfl⟩ nofun
    | some a =>
      simp only [Option.mapM_some, Option.some.injEq, forall_eq']
      cases f a <;> simp
  simp only [← Call.exists_countIn_iff (c := c), ← Argument.exists_id_iff, ← hoptional]
  unfold ofArguments
  constructor
  · rintro ⟨page, h⟩
    obtain ⟨first, hfirst, h⟩ := bind_eq_ok.mp h
    obtain ⟨after, hafter, _⟩ := bind_eq_ok.mp h
    exact ⟨⟨first, hfirst⟩, ⟨after, hafter⟩⟩
  · rintro ⟨⟨first, hfirst⟩, ⟨after, hafter⟩⟩
    exact ⟨_, bind_eq_ok.mpr ⟨first, hfirst, bind_eq_ok.mpr ⟨after, hafter, rfl⟩⟩⟩

/-- A call chooses a page if all of its arguments do. -/
theorem exists_iff_choosesPage (h : c.Formed) :
    (c.positional = [] ∧ (∀ a ∈ c.namedArguments, a.1 ∈ argumentNames) ∧
        ∃ page, ofArguments c c.namedArguments = .ok page) ↔
      ∀ a ∈ c.arguments, a.ChoosesPage := by
  rw [exists_ofArguments_iff]
  constructor
  · rintro ⟨hpositional, hallowed, hfirst, hafter⟩ a ha
    cases hn : a.name with
    | none =>
      have hmem : a ∈ c.positional :=
        List.mem_filter.mpr ⟨ha, by rw [Argument.isPositional, hn]; rfl⟩
      rw [hpositional] at hmem
      cases hmem
    | some n =>
      have hlookup := h.lookup_eq.mpr ⟨ha, hn⟩
      have hname := hallowed _ (Call.mem_namedArguments.mpr ⟨ha, hn⟩)
      rw [argumentNames, List.mem_cons, List.mem_singleton] at hname
      rcases hname with rfl | rfl
      · obtain ⟨m, hm⟩ := hfirst a hlookup
        exact .first m hn hm
      · exact .after hn (hafter a hlookup)
  · intro hall
    refine ⟨?_, ?_, ?_, ?_⟩
    · refine List.filter_eq_nil_iff.mpr fun a ha => ?_
      cases hall a ha with
      | first _ hn _ => simp [Argument.isPositional, hn]
      | after hn _ => simp [Argument.isPositional, hn]
    · rintro ⟨n, a⟩ hmem
      obtain ⟨ha, hname⟩ := Call.mem_namedArguments.mp hmem
      cases hall a ha with
      | first _ hn _ =>
        cases hname.symm.trans hn
        exact List.mem_cons_self
      | after hn _ =>
        cases hname.symm.trans hn
        exact List.mem_cons_of_mem _ (List.mem_singleton_self _)
    · intro a hlookup
      obtain ⟨ha, hname⟩ := h.lookup_eq.mp hlookup
      cases hall a ha with
      | first n _ hv => exact ⟨n, hv⟩
      | after hn _ => exact absurd (Option.some.inj (hname.symm.trans hn)) (by decide)
    · intro a hlookup
      obtain ⟨ha, hname⟩ := h.lookup_eq.mp hlookup
      cases hall a ha with
      | first _ hn _ => exact absurd (Option.some.inj (hname.symm.trans hn)) (by decide)
      | after _ hv => exact hv

end Page

/-- The place as the compiler has it, within what has a name. -/
def Place.context (i : Snapshot) (parent : String) : Place → Context
  | object t => .object (.data i) t
  | connection t => .connection parent (.data i) t
  | edges t => .edges (.data i) t

/-- What a selection that leads somewhere comes to. -/
inductive Comes (i : Snapshot) (c : Call) : Selected → Option Place → Prop
  | leaf {l : Leaf} (hs : c.selections = []) : Comes i c (.leaf l) none
  | nested {inner : Place} {context : Context} {source : Source}
      (hc : context = inner.context i c.name) : Comes i c (.nested context source) (some inner)

section Selecting

variable {i : Snapshot} {t : ObjectType} {f : Field} {c : Call} {parent : String}
  {place : Place} {selected : Selected}

theorem Comes.of_plain {kind : LeafKind} {l : Leaf} (h : Selected.plain c kind l = .ok selected) :
    c.arguments = [] ∧ Comes i c selected none := by
  obtain ⟨ha, hs, rfl⟩ := Selected.plain_eq_ok_iff.mp h
  exact ⟨ha, .leaf hs⟩

theorem Leads.of_selectDeclared (hc : c.Formed) (hn : c.name ≠ "__typename")
    (hf : t.field? c.name = some f) (h : i.selectDeclared f c = .ok selected) :
    ∃ next, Comes i c selected next ∧ Leads i c (.object t) next := by
  obtain ⟨k, hk, h⟩ := bind_eq_ok.mp h
  rw [mapError_eq_ok] at hk
  cases k with
  | scalar s =>
    obtain ⟨ha, hcomes⟩ := Comes.of_plain h
    exact ⟨none, hcomes, .scalar hn hf hk ha⟩
  | scalarList s =>
    obtain ⟨ha, hcomes⟩ := Comes.of_plain h
    exact ⟨none, hcomes, .scalarList hn hf hk ha⟩
  | objectList n =>
    obtain ⟨_, ha, h⟩ := bind_eq_ok.mp h
    obtain ⟨u, hu, h⟩ := bind_eq_ok.mp h
    obtain ⟨_, hname, hu⟩ := Snapshot.target_eq_ok hu
    cases hname
    cases h
    exact ⟨some (.object u), .nested rfl,
      .objectList hn hf hk hu (Call.withoutArguments_eq_ok_iff.mp ha)⟩
  | reference n isNode =>
    obtain ⟨_, ha, h⟩ := bind_eq_ok.mp h
    obtain ⟨u, hu, h⟩ := bind_eq_ok.mp h
    obtain ⟨_, hname, hu⟩ := Snapshot.target_eq_ok hu
    cases hname
    cases h
    exact ⟨some (.object u), .nested rfl,
      .reference hn hf hk hu (Call.withoutArguments_eq_ok_iff.mp ha)⟩
  | connection typeName reverse =>
    simp only [Snapshot.selectConnection] at h
    split at h
    · obtain ⟨_, hr, _⟩ := bind_eq_ok.mp h
      cases hr
    · rename_i hpositional
      obtain ⟨named, hnamed, h⟩ := bind_eq_ok.mp h
      obtain ⟨page, hpage, h⟩ := bind_eq_ok.mp h
      obtain ⟨u, htarget, hselected⟩ := bind_eq_ok.mp h
      obtain ⟨n, rfl, hu⟩ := Snapshot.target_eq_ok htarget
      obtain ⟨rfl, hallowed⟩ := Call.allowing_eq_ok.mp hnamed
      cases hselected
      have hempty : c.positional = [] := by simpa using hpositional
      exact ⟨some (.connection u), .nested rfl, .connection hn hf hk hu
        ((Page.exists_iff_choosesPage hc).mp ⟨hempty, hallowed, page, hpage⟩)⟩

/-- What is accepted follows the rules. -/
theorem Leads.of_select (hc : c.Formed) (h : (place.context i parent).select c = .ok selected) :
    ∃ next, Comes i c selected next ∧ Leads i c place next := by
  cases place with
  | object t =>
    simp only [Place.context, Context.select, Snapshot.select] at h
    split at h
    · rename_i hn
      obtain ⟨ha, hcomes⟩ := Comes.of_plain h
      exact ⟨none, hcomes, .typeName hn ha⟩
    · rename_i hn
      split at h
      · rename_i f hf
        exact of_selectDeclared hc hn hf h
      · rename_i hf
        split at h
        · rename_i hbuiltIn
          obtain ⟨b, hb, hname⟩ := List.any_eq_true.mp hbuiltIn
          obtain ⟨ha, hcomes⟩ := Comes.of_plain h
          exact ⟨none, hcomes, .builtIn hf hb (Value.spells_iff.mp hname) ha⟩
        · cases h
  | connection t =>
    obtain ⟨_, ha, h⟩ := bind_eq_ok.mp h
    have ha := Call.withoutArguments_eq_ok_iff.mp ha
    split at h
    · rename_i hn
      exact ⟨none, (Comes.of_plain h).2, .count hn ha⟩
    · split at h
      · rename_i hn
        cases h
        exact ⟨some (.object t), .nested rfl, .nodes hn ha⟩
      · split at h
        · rename_i hn
          cases h
          exact ⟨some (.edges t), .nested rfl, .edges hn ha⟩
        · cases h
  | edges t =>
    obtain ⟨_, ha, h⟩ := bind_eq_ok.mp h
    have ha := Call.withoutArguments_eq_ok_iff.mp ha
    split at h
    · rename_i hn
      exact ⟨none, (Comes.of_plain h).2, .cursor hn ha⟩
    · split at h
      · rename_i hn
        cases h
        exact ⟨some (.object t), .nested rfl, .node hn ha⟩
      · cases h

/-- What follows the rules is accepted, a leaf if it has no selections. -/
theorem Leads.exists_select {next : Option Place} (hc : c.Formed) (h : Leads i c place next)
    (hs : next = none → c.selections = []) (parent : String) :
    ∃ selected, (place.context i parent).select c = .ok selected ∧ Comes i c selected next := by
  have hplain (kind : LeafKind) (l : Leaf) (ha : c.arguments = []) (hs : c.selections = []) :
      Selected.plain c kind l = .ok (.leaf l) :=
    Selected.plain_eq_ok_iff.mpr ⟨ha, hs, rfl⟩
  have hwithout (ha : c.arguments = []) : c.withoutArguments = .ok () :=
    Call.withoutArguments_eq_ok_iff.mpr ha
  have hdeclared {t : ObjectType} {f : Field} {selected : Selected} (hn : c.name ≠ "__typename")
      (hf : t.field? c.name = some f) (h : i.selectDeclared f c = .ok selected) :
      (Place.context i parent (.object t)).select c = .ok selected := by
    show i.select t c = _
    rw [Snapshot.select, if_neg (show c.name ≠ typenameName from hn), hf]
    exact h
  cases h with
  | @typeName t hn ha =>
    exact ⟨_, (if_pos hn).trans (hplain .typeName (.typeName t.label) ha (hs rfl)), .leaf (hs rfl)⟩
  | @builtIn t b hf hb hname ha =>
    have hbuiltIn : i.hasBuiltIn t c.name = true :=
      List.any_eq_true.mpr ⟨b, hb, Value.spells_iff.mpr hname⟩
    show ∃ selected, i.select t c = _ ∧ _
    simp only [Snapshot.select, hf, if_pos hbuiltIn]
    split
    · exact ⟨_, hplain _ _ ha (hs rfl), .leaf (hs rfl)⟩
    · exact ⟨_, hplain _ _ ha (hs rfl), .leaf (hs rfl)⟩
  | scalar hn hf hk ha =>
    exact ⟨_, hdeclared hn hf (bind_eq_ok.mpr ⟨_, mapError_eq_ok.mpr hk,
      hplain _ _ ha (hs rfl)⟩), .leaf (hs rfl)⟩
  | scalarList hn hf hk ha =>
    exact ⟨_, hdeclared hn hf (bind_eq_ok.mpr ⟨_, mapError_eq_ok.mpr hk,
      hplain _ _ ha (hs rfl)⟩), .leaf (hs rfl)⟩
  | reference hn hf hk hu ha =>
    exact ⟨_, hdeclared hn hf (bind_eq_ok.mpr ⟨_, mapError_eq_ok.mpr hk,
      bind_eq_ok.mpr ⟨(), hwithout ha,
        bind_eq_ok.mpr ⟨_, Snapshot.target_of_type? hu _, rfl⟩⟩⟩), .nested rfl⟩
  | objectList hn hf hk hu ha =>
    exact ⟨_, hdeclared hn hf (bind_eq_ok.mpr ⟨_, mapError_eq_ok.mpr hk,
      bind_eq_ok.mpr ⟨(), hwithout ha,
        bind_eq_ok.mpr ⟨_, Snapshot.target_of_type? hu _, rfl⟩⟩⟩), .nested rfl⟩
  | @connection t u f n reverse hn hf hk hu ha =>
    obtain ⟨hpositional, hallowed, page, hpage⟩ := (Page.exists_iff_choosesPage hc).mpr ha
    have hconnection : i.selectConnection f (.text n) reverse c = .ok (.nested
        (.connection c.name (.data i) u) (.connection u.label reverse.inline page)) := by
      rw [Snapshot.selectConnection, hpositional]
      exact bind_eq_ok.mpr ⟨_, Call.allowing_eq_ok.mpr ⟨rfl, hallowed⟩,
        bind_eq_ok.mpr ⟨page, hpage, bind_eq_ok.mpr ⟨u, Snapshot.target_of_type? hu f, rfl⟩⟩⟩
    exact ⟨_, hdeclared hn hf (bind_eq_ok.mpr ⟨_, mapError_eq_ok.mpr hk, hconnection⟩),
      .nested rfl⟩
  | count hn ha =>
    exact ⟨_, bind_eq_ok.mpr ⟨(), hwithout ha,
      (if_pos hn).trans (hplain .count (.field countName) ha (hs rfl))⟩, .leaf (hs rfl)⟩
  | nodes hn ha =>
    exact ⟨_, bind_eq_ok.mpr ⟨(), hwithout ha,
      (if_neg (ne_of_eq_of_ne hn (by decide))).trans (if_pos hn)⟩, .nested rfl⟩
  | edges hn ha =>
    exact ⟨_, bind_eq_ok.mpr ⟨(), hwithout ha,
      (if_neg (ne_of_eq_of_ne hn (by decide))).trans
        ((if_neg (ne_of_eq_of_ne hn (by decide))).trans (if_pos hn))⟩, .nested rfl⟩
  | cursor hn ha =>
    exact ⟨_, bind_eq_ok.mpr ⟨(), hwithout ha,
      (if_pos hn).trans (hplain .cursor (.field cursorName) ha (hs rfl))⟩, .leaf (hs rfl)⟩
  | node hn ha =>
    exact ⟨_, bind_eq_ok.mpr ⟨(), hwithout ha,
      (if_neg (ne_of_eq_of_ne hn (by decide))).trans (if_pos hn)⟩, .nested rfl⟩

end Selecting

section Blocks

variable {i : Snapshot} {limit : Int}

mutual

/-- Where blocks are not nested too deeply, what has an output is what is well-typed. -/
theorem exists_output_iff (place : Place) (parent : String) (path : Path) (depth : Nat) :
    (c : Call) → c.Formed → (depth : Int) + c.nesting ≤ limit →
      ((∃ o, (place.context i parent).output limit path depth c = .ok o) ↔ WellTyped i place c)
  | .mk name arguments selections location, hc, hdepth => by
    have hwithin : ∀ s ∈ selections, ((depth + 1 : Nat) : Int) + s.nesting ≤ limit := by
      intro s hs
      have := Call.nesting_lt_of_mem hs
      rw [Call.nesting_eq] at hdepth
      simp only [Call.selections] at hdepth
      omega
    constructor
    · rintro ⟨o, ho⟩
      rw [Context.output] at ho
      obtain ⟨selected, hselect, ho⟩ := bind_eq_ok.mp ho
      obtain ⟨next, hcomes, hleads⟩ := Leads.of_select hc hselect
      cases hcomes with
      | leaf hs => exact .leaf hleads hs
      | @nested inner _ source hcontext =>
        subst hcontext
        obtain ⟨_, hblock, ho⟩ := bind_eq_ok.mp ho
        obtain ⟨os, hos, _⟩ := bind_eq_ok.mp ho
        obtain ⟨_, hs, hd⟩ := Call.checkBlock_eq_ok_iff.mp hblock
        exact .block hleads hs hd
          ((exists_outputs_iff _ _ _ _ selections hc.2.2.2 hwithin).mp ⟨os, hos⟩)
    · intro h
      cases h with
      | leaf hl hs =>
        obtain ⟨selected, hselect, hcomes⟩ := hl.exists_select hc (fun _ => hs) parent
        cases hcomes
        exact ⟨_, by rw [Context.output]; exact bind_eq_ok.mpr ⟨_, hselect, rfl⟩⟩
      | @block _ inner _ hl hs hd ht =>
        obtain ⟨selected, hselect, hcomes⟩ := hl.exists_select hc nofun parent
        cases hcomes with
        | @nested _ _ source hcontext =>
        subst hcontext
        obtain ⟨os, hos⟩ := (exists_outputs_iff inner name (path ++ [name]) (depth + 1) selections
          hc.2.2.2 hwithin).mpr ht
        refine ⟨.nested name source (inner.context i name).typeName os, ?_⟩
        rw [Context.output]
        refine bind_eq_ok.mpr ⟨_, hselect, bind_eq_ok.mpr ⟨(), ?_, bind_eq_ok.mpr ⟨os, hos, rfl⟩⟩⟩
        refine Call.checkBlock_eq_ok_iff.mpr ⟨?_, hs, hd⟩
        have := Call.nestingAll_pos hs
        rw [Call.nesting_eq] at hdepth
        omega

theorem exists_outputs_iff (place : Place) (parent : String) (path : Path) (depth : Nat) :
    (cs : List Call) → Call.FormedAll cs → (∀ c ∈ cs, (depth : Int) + c.nesting ≤ limit) →
      ((∃ os, (place.context i parent).outputs limit path depth cs = .ok os) ↔
        ∀ c ∈ cs, WellTyped i place c)
  | [], _, _ => iff_of_true ⟨[], rfl⟩ nofun
  | c :: cs, hc, hdepth => by
    rw [List.forall_mem_cons] at hdepth ⊢
    rw [← exists_output_iff place parent path depth c hc.1 hdepth.1,
      ← exists_outputs_iff place parent path depth cs hc.2 hdepth.2]
    constructor
    · rintro ⟨os, hos⟩
      obtain ⟨o, rest, ho, hrest, _⟩ := Context.outputs_cons_eq_ok hos
      exact ⟨⟨o, ho⟩, rest, hrest⟩
    · rintro ⟨⟨o, ho⟩, rest, hrest⟩
      refine ⟨o :: rest, ?_⟩
      rw [Context.outputs]
      exact bind_eq_ok.mpr ⟨o, ho, bind_eq_ok.mpr ⟨rest, hrest, rfl⟩⟩

end

end Blocks

namespace Compile

variable {i : Snapshot} {limit : Int} {t : ObjectType} {c : Call} {n : String} {a : Atom}

theorem exists_project_iff (hc : c.Formed) (hdepth : c.nesting ≤ limit) :
    (∃ p, (Context.object (.data i) t).project limit c = .ok p) ↔
      WellTypedBlock i (.object t) c.selections := by
  obtain ⟨name, arguments, selections, location⟩ := c
  have hwithin : ∀ s ∈ selections, ((1 : Nat) : Int) + s.nesting ≤ limit := by
    intro s hs
    have := Call.nesting_lt_of_mem hs
    rw [Call.nesting_eq] at hdepth
    simp only [Call.selections] at hdepth
    omega
  have houtputs := exists_outputs_iff (i := i) (.object t) name [] 1 selections hc.2.2.2 hwithin
  constructor
  · rintro ⟨p, hp⟩
    obtain ⟨_, hblock, hp⟩ := bind_eq_ok.mp hp
    obtain ⟨os, hos, _⟩ := bind_eq_ok.mp hp
    obtain ⟨_, hs, hd⟩ := Call.checkBlock_eq_ok_iff.mp hblock
    exact ⟨hs, hd, houtputs.mp ⟨os, hos⟩⟩
  · rintro ⟨hs, hd, ht⟩
    obtain ⟨os, hos⟩ := houtputs.mpr ht
    refine ⟨⟨t.label, os⟩, bind_eq_ok.mpr ⟨(), ?_, bind_eq_ok.mpr ⟨os, hos, rfl⟩⟩⟩
    refine Call.checkBlock_eq_ok_iff.mpr ⟨?_, hs, hd⟩
    have := Call.nestingAll_pos hs
    rw [Call.nesting_eq] at hdepth
    omega

/-- With a type that is in order, all depends on the id and the selections. -/
theorem node_of_positional
    (harguments : c.arguments.map (fun b => (b.name, b.value)) = [(none, .name n), (none, a)])
    (ht : i.schema.type? n = some t) (hnode : t.isNode = true) :
    node i limit c = do
      let id ← Argument.id ⟨a, none, .start⟩
      return .fetchNode t.label id (← (Context.object (.data i) t).project limit c) := by
  obtain ⟨x, rest, hx, hxa, hrest⟩ := List.map_eq_cons_iff.mp harguments
  obtain ⟨y, nothing, rfl, hya, hnothing⟩ := List.map_eq_cons_iff.mp hrest
  obtain rfl := List.map_eq_nil_iff.mp hnothing
  obtain ⟨hxn, hxv⟩ := Prod.mk.inj hxa
  obtain ⟨hyn, rfl⟩ := Prod.mk.inj hya
  have htwo : c.twoPositional = .ok (x, y) := by
    have hpositional : c.positional = [x, y] := by
      simp [Call.positional, hx, Argument.isPositional, hxn, hyn]
    rw [Call.twoPositional, hpositional]
  have hnone : c.allowing [] = .ok c.namedArguments := by
    refine Call.allowing_eq_ok.mpr ⟨rfl, ?_⟩
    simp [Call.namedArguments, hx, hxn, hyn]
  have htype : typeArgument c x = .ok n := Call.nameIn_eq_ok.mpr hxv
  rw [node, htwo]
  simp only [ok_bind, hnone, htype, nodeType_eq_ok.mpr ⟨ht, hnode⟩]
  rfl

/-- With a type and an id that are in order, all depends on the selections. -/
theorem node_eq {id : String}
    (harguments : c.arguments.map (fun b => (b.name, b.value)) = [(none, .name n), (none, a)])
    (ht : i.schema.type? n = some t) (hnode : t.isNode = true)
    (hid : Scalar.idOf a.value = .ok id) :
    node i limit c =
      do return .fetchNode t.label id (← (Context.object (.data i) t).project limit c) := by
  have hidentifies : Argument.id ⟨a, none, .start⟩ = .ok id := mapError_eq_ok.mpr hid
  rw [node_of_positional harguments ht hnode, hidentifies]
  rfl

theorem exists_node_iff
    (harguments : c.arguments.map (fun b => (b.name, b.value)) = [(none, .name n), (none, a)])
    (ht : i.schema.type? n = some t) (hnode : t.isNode = true)
    (hid : ∃ v, Scalar.id.coerce a.value = .ok v) :
    (∃ p, node i limit c = .ok p) ↔ ∃ p, (Context.object (.data i) t).project limit c = .ok p := by
  obtain ⟨v, hv⟩ := hid
  obtain ⟨id, hid, _⟩ := map_eq_ok.mp (mapError_eq_ok.mp hv)
  rw [node_eq harguments ht hnode hid]
  cases (Context.object (.data i) t).project limit c <;> simp

/-- A call for a record by its id has a plan if and only if its selections are well-typed at the
type of the record, where blocks are not nested too deeply. -/
theorem node_call_iff_wellTyped {text : String} {q : Query} (credentials : Credentials)
    (hq : Query.parse text = .ok q) (hmem : c ∈ q) (hname : c.name = "node")
    (harguments : c.arguments.map (fun b => (b.name, b.value)) = [(none, .name n), (none, a)])
    (ht : i.schema.type? n = some t) (hnode : t.isNode = true)
    (hid : ∃ v, Scalar.id.coerce a.value = .ok v) (hdepth : c.nesting ≤ limit) :
    (∃ p, Query.compile credentials i limit [c] = .ok p) ↔
      WellTypedBlock i (.object t) c.selections := by
  have hc : c.Formed := (Call.formedAll_iff q).mp (Query.formed_of_parse hq).2 c hmem
  rw [← exists_project_iff hc hdepth, ← exists_node_iff harguments ht hnode hid]
  have hcall : call credentials i limit c = node i limit c := by
    rw [call, hname]
    rfl
  rw [Query.compile, List.mapM_cons, hcall]
  cases node i limit c <;> simp

end Compile

namespace Library

/-- An author with a page of the books, as nodes and as edges. -/
def selecting : List Char :=
  ("node(Author, a) \x7b __typename home \x7b street \x7d books(first: 2, after: b) \x7b count " ++
    "nodes \x7b title author \x7b id \x7d \x7d edges \x7b cursor node \x7b title \x7d \x7d \x7d \x7d").toList

/-- Whether a call is for the author and has a plan. -/
def isPlanned (c : Call) : Bool :=
  c.name == "node" &&
    decide (c.arguments.map (fun b => (b.name, b.value)) =
      [(none, .name "Author"), (none, .name "a")]) &&
    decide ((c.nesting : Int) ≤ defaultLimit) &&
    (Query.compile {} snapshot defaultLimit [c]).isOk

end Library

/-- What is selected of an author is well-typed, since the call has a plan. -/
theorem library_selections_wellTyped : ∃ c,
    Query.parse (String.ofList Library.selecting) = .ok [c] ∧
      WellTypedBlock Library.snapshot (.object Library.authorType) c.selections := by
  have hread : (Query.parse (String.ofList Library.selecting)).toOption.any (fun q =>
      q.length == 1 && q.all Library.isPlanned) = true := by
    refine (congrArg (fun x => Option.any _ (Except.toOption x)) (Query.parse_ofList _)).trans ?_
    decide +kernel
  obtain ⟨q, hq, hplanned⟩ := exists_of_any hread
  rw [Bool.and_eq_true, beq_iff_eq] at hplanned
  obtain ⟨c, rfl⟩ := List.length_eq_one_iff.mp hplanned.1
  have hc := List.all_eq_true.mp hplanned.2 c List.mem_cons_self
  simp only [Library.isPlanned, Bool.and_eq_true, beq_iff_eq, decide_eq_true_eq] at hc
  obtain ⟨⟨⟨hname, harguments⟩, hdepth⟩, hplan⟩ := hc
  refine ⟨c, hq, (Compile.node_call_iff_wellTyped {} hq List.mem_cons_self hname harguments rfl rfl
    ⟨.text "a", rfl⟩ hdepth).mp ?_⟩
  cases h : Query.compile {} Library.snapshot defaultLimit [c] with
  | ok p => exact ⟨p, rfl⟩
  | error e =>
    rw [h] at hplan
    cases hplan

end ObjectQuery
