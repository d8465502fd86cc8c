import ObjectQuery.Proofs.Plan.Questions
import ObjectQuery.Proofs.Query.Backends
import ObjectQuery.Proofs.Store.Acceptance

/-!
# Where the results differ

A type that is called like a list may have connections. The field at the other end of one is then
taken for a list of its own, and the two stores no longer mean the same by holding the id of a
record: in a database a list is held as its text, and a text can be an id.
-/

set_option autoImplicit false

namespace ObjectQuery

open Outcome Access

namespace Schema

variable {rules : Validation.Rules} {s : Schema} {t u : ObjectType} {f g : Field} {k : FieldKind}
  {n r : String}

theorem Connects.isList (h : Connects s t f n r u g) (ht : t.name = .text listMarker)
    (hk : s.kindOf g = .ok k) : (∃ c, k = .scalarList c) ∨ ∃ m, k = .objectList m := by
  have htype : g.type = .text listMarker := h.type.trans ht
  have hlist : g.isList = true := Value.spells_iff.mpr htype
  cases kinded_of_kindOf hk with
  | connection hc =>
    rw [Field.isConnection, htype] at hc
    cases hc
  | scalarList => exact .inl ⟨_, rfl⟩
  | objectList => exact .inr ⟨_, rfl⟩
  | scalar _ hno =>
    rw [hlist] at hno
    cases hno
  | reference _ hno =>
    rw [hlist] at hno
    cases hno

end Schema

namespace Confusion

/-- The id of a record of the type that is called like a list: the text of an empty list. -/
def ownerId : String := "[]"

def owner : Value := .object [(idName, .text ownerId)]

def member (reverse : String) : Value := .object [(idName, .text "member"), (reverse, .list [])]

/-- A record, and one that holds an empty list where it should hold the id of a record. -/
def data (target reverse : String) : List (String × Value) :=
  [(listMarker, owner), (target, member reverse)]

theorem eq_of_required_owner {n : String} {v : Value} (h : owner.required n = .ok v) :
    n = idName ∧ v = .text ownerId := by
  simpa using Value.mem_of_required h

theorem eq_of_required_member {reverse n : String} {v : Value}
    (h : (member reverse).required n = .ok v) :
    (n = idName ∧ v = .text "member") ∨ (n = reverse ∧ v = .list []) := by
  simpa using Value.mem_of_required h

/-- A connection of a type that is called like a list, which can be selected. -/
structure Confused (i : Snapshot) (t : ObjectType) (f : Field) (name target reverse : String)
    (u : ObjectType) (g : Field) (k : FieldKind) : Prop where
  registry : i.rules.registry = .standard
  type : i.schema.type? listMarker = some t
  field : t.field? name = some f
  isConnection : f.isConnection = true
  selectable : name ≠ typenameName
  connects : Schema.Connects i.schema t f target reverse u g
  kind : i.schema.kindOf g = .ok k

namespace Confused

variable {i : Snapshot} {t u : ObjectType} {f g : Field} {name target reverse : String}
  {k : FieldKind} {l : TableLayout}

theorem exists_of_not_unlisted (hi : i.rules.registry = .standard) (h : ¬ i.schema.Unlisted) :
    ∃ t f name target reverse u g k, Confused i t f name target reverse u g k := by
  simp only [Schema.Unlisted, not_forall] at h
  obtain ⟨t, ht, f, hf, hc, hname⟩ := h
  have htm := Schema.mem_of_type? ht
  obtain ⟨_, target, reverse, u, g, hg⟩ := i.valid.connects htm hf hc
  obtain ⟨k, hk⟩ := i.valid.exists_kindOf (Schema.mem_of_type? hg.target)
    (ObjectType.mem_of_field? hg.field)
  obtain ⟨name, hn⟩ := i.valid.exists_fieldName htm hf
  exact ⟨t, f, name, target, reverse, u, g, k, hi, ht, i.valid.field?_of_mem htm hf hn, hc,
    fun heq => hname (hn.trans (congrArg Value.text heq)), hg, hk⟩

variable (h : Confused i t f name target reverse u g k)

include h

theorem isNode : t.isNode = true :=
  (i.valid.connects (Schema.mem_of_type? h.type) (ObjectType.mem_of_field? h.field)
    h.isConnection).1

theorem isList : (∃ c, k = .scalarList c) ∨ ∃ m, k = .objectList m :=
  h.connects.isList (Schema.type?_name h.type) h.kind

theorem stores {v : Value} (hv : v.ReadsBack) : k.Stores v := by
  rcases h.isList with ⟨_, rfl⟩ | ⟨_, rfl⟩ <;> exact hv

theorem column?_eq (n : String) : k.column? n = some { name := n, type := .json } := by
  rcases h.isList with ⟨_, rfl⟩ | ⟨_, rfl⟩ <;> rfl

theorem reverse_ne_idName : reverse ≠ idName := by
  rintro rfl
  obtain ⟨g', hg', hk'⟩ := i.valid.exists_idField h.registry
    (Schema.mem_of_type? h.connects.target) h.connects.isNode
  cases h.connects.field.symm.trans hg'
  rcases h.isList with ⟨_, rfl⟩ | ⟨_, rfl⟩ <;> cases h.kind.symm.trans hk'

theorem conforms_owner : i.Conforms t owner := by
  obtain ⟨g', hg', hk'⟩ := i.valid.exists_idField h.registry (Schema.mem_of_type? h.type) h.isNode
  refine ⟨⟨ownerId, rfl⟩, fun n v hv => .inl ?_⟩
  obtain ⟨rfl, rfl⟩ := eq_of_required_owner hv
  exact ⟨g', _, hg', hk', .inr (.id ownerId)⟩

theorem conforms_member : i.Conforms u (member reverse) := by
  obtain ⟨g', hg', hk'⟩ := i.valid.exists_idField h.registry
    (Schema.mem_of_type? h.connects.target) h.connects.isNode
  refine ⟨⟨"member", rfl⟩, fun n v hv => .inl ?_⟩
  rcases eq_of_required_member hv with ⟨rfl, rfl⟩ | ⟨rfl, rfl⟩
  · exact ⟨g', _, hg', hk', .inr (.id "member")⟩
  · exact ⟨g, k, h.connects.field, h.kind, h.stores (Value.readsBack_of_fits nofun)⟩

theorem admits : i.Admits (data target reverse) := by
  constructor
  · intro e he
    rcases List.mem_pair.mp he with rfl | rfl
    · exact ⟨t, h.type, h.isNode, h.conforms_owner⟩
    · exact ⟨u, h.connects.target, h.connects.isNode, h.conforms_member⟩
  · have hne : owner.idText ≠ (member reverse).idText := by
      show ownerId ≠ "member"
      decide
    simp [data, hne]

theorem takes_owner (hl : LaidOut i.schema .standard t l) : l.Takes owner := by
  intro c hc v hv
  obtain ⟨hn, rfl⟩ := eq_of_required_owner hv
  have hcolumn := TableLayout.column?_of_mem hl.distinct hc
  rw [hn, hl.column?_id i.valid h.registry (Schema.mem_of_type? h.type) h.isNode] at hcolumn
  cases hcolumn
  exact ⟨_, rfl⟩

theorem takes_member (hl : LaidOut i.schema .standard u l) : l.Takes (member reverse) := by
  intro c hc v hv
  have hcolumn := TableLayout.column?_of_mem hl.distinct hc
  have hu := Schema.mem_of_type? h.connects.target
  rcases eq_of_required_member hv with ⟨hn, rfl⟩ | ⟨hn, rfl⟩
  · rw [hn, hl.column?_id i.valid h.registry hu h.connects.isNode] at hcolumn
    cases hcolumn
    exact ⟨_, rfl⟩
  · rw [hn, hl.column?_eq i.valid h.registry hu h.connects.field h.kind, h.column?_eq] at hcolumn
    cases hcolumn
    exact ⟨_, rfl⟩

theorem exists_store {created : Relational}
    (hcreate : Relational.create .standard i.schema = .ok created) :
    ∃ r, created.store (data target reverse) = .ok r := by
  obtain ⟨hschema, htables, htallies⟩ := Tallies.create hcreate
  refine htallies.exists_store h.registry hschema htables h.admits.keyed fun e he => ?_
  rcases List.mem_pair.mp he with rfl | rfl
  · exact ⟨t, h.type, h.isNode, fun l hl => h.takes_owner hl⟩
  · exact ⟨u, h.connects.target, h.connects.isNode, fun l hl => h.takes_member hl⟩

end Confused

def countCall : Call := .mk countName [] [] .start

def fieldCall (name : String) : Call := .mk name [] [countCall] .start

def call (name : String) : Call :=
  .mk "node" [⟨.name listMarker, none, .start⟩, ⟨.string ownerId, none, .start⟩] [fieldCall name]
    .start

theorem asks (name : String) : (call name).Asks := by
  intro o ho
  cases ho
  rfl

def output (i : Snapshot) (name target reverse : String) (u : ObjectType) : Output :=
  .nested name (.connection target reverse ⟨none, none⟩)
    (Context.connection name (.data i) u).typeName [.leaf countName (.field countName)]

namespace Confused

variable {i : Snapshot} {t u : ObjectType} {f g : Field} {name target reverse : String}
  {k : FieldKind} {l : TableLayout} (h : Confused i t f name target reverse u g k)

include h

theorem compile_eq : Query.compile {} i defaultLimit [call name] =
    .ok [.fetchNode listMarker ownerId ⟨t.label, [output i name target reverse u]⟩] := by
  have hkind : i.schema.kindOf f = .ok (.connection (.text target) (.text reverse)) := by
    rw [Schema.kindOf, if_pos h.isConnection, h.connects.ofType, h.connects.reverseName]
    rfl
  have hasks : Query.AsksFor [call name] listMarker ownerId [.plain name [.ofCount]] :=
    Query.ofRecord_asksFor _ _ _
  rw [Schema.label_eq h.type]
  refine hasks.compile_eq h.type h.isNode (Call.block_singleton _) (by decide) fun _ => ?_
  exact outputs_connection h.selectable h.field hkind h.connects.target (Call.block_singleton _)
    (by decide) fun _ => Context.outputs_of_cons (fun _ => output_count) fun _ =>
      Context.outputs_of_nil

end Confused

def answer (name : String) (count : Nat) : List Result :=
  [.object [(name, .object [(countName, .value (.int count))])]]

theorem eq_of_answers_alike {name : String} {m n : Nat}
    (h : List.Forall₂ Result.Alike (answer name m) (answer name n)) : m = n := by
  obtain ⟨hresult, _⟩ := List.forall₂_cons.mp h
  cases hresult.entriesAlike.head.entriesAlike.head with
  | value hcount => exact Int.ofNat.inj hcount.eq_of_int

theorem yields_answer {σ : Type} [Store σ] {s : σ} {i : Snapshot} {u : ObjectType} {x : Value}
    {name target reverse label : String} {count : Nat}
    (hfind : (Store.fetchById listMarker (.text ownerId) : Access σ _).Yields s (some x))
    (hid : x.required idName = .ok (.text ownerId))
    (hcount : (Store.countRelated target reverse (.text ownerId) : Access σ _).Yields s count) :
    (Plan.run [.fetchNode listMarker ownerId ⟨label, [output i name target reverse u]⟩] :
      Access σ _).Yields s (answer name count) := by
  have hpage : (Output.fetchRelated [.leaf countName (.field countName)] target reverse
      ⟨none, none⟩ (.text ownerId) : Access σ _).Yields s ⟨[], count⟩ :=
    hcount.bind (yields_pure _ s)
  have hshown : (Output.evaluateAll (connectionRecord [] count [])
      [.leaf countName (.field countName)] : Access σ _).Yields s
      [(countName, .value (.int count))] :=
    Output.yields_cons (Output.yields_leaf rfl) Output.yields_nil
  have houtput : (Output.evaluate x (output i name target reverse u) : Access σ _).Yields s
      (.object [(countName, .value (.int count))]) :=
    Output.yields_connection hid hpage rfl hshown
  exact Plan.yields_singleton
    (CallPlan.yields_fetchNode hfind (Output.yields_cons houtput Output.yields_nil))

/-- A list in a column and an id that is its text are the same to a database. -/
theorem isHeld_ownerId : (Wanted.datum (ColumnType.json.adapt (.text ownerId))).isHeld .json
    (some (.list [])) = true := by decide +kernel

namespace Confused

variable {i : Snapshot} {t u : ObjectType} {f g : Field} {name target reverse : String}
  {k : FieldKind} {l : TableLayout} {r : Relational} {pairs : String → List (Value × Row)}
  (h : Confused i t f name target reverse u g k)

theorem eq_of_mem_recordsOf {x : Value} {n : String}
    (hx : x ∈ ((Memory.empty i.schema).store (data target reverse)).recordsOf n) :
    x = owner ∨ x = member reverse := by
  rw [Memory.recordsOf_store] at hx
  obtain ⟨e, he, rfl⟩ :=
    List.mem_map.mp (show x ∈ ((data target reverse).filter (·.1 == n)).map (·.2) from hx)
  rcases List.mem_pair.mp (List.mem_of_mem_filter he) with rfl | rfl
  · exact .inl rfl
  · exact .inr rfl

theorem member_mem_recordsOf :
    member reverse ∈ ((Memory.empty i.schema).store (data target reverse)).recordsOf target := by
  rw [Memory.recordsOf_store]
  refine List.mem_append_right _ (List.mem_map.mpr ⟨(target, member reverse), ?_, rfl⟩)
  simp [data]

theorem find?_owner : (((Memory.empty i.schema).store (data target reverse)).recordsOf
    listMarker).find? (·.idText == ownerId) = some owner := by
  rw [Memory.recordsOf_store]
  rfl

include h

/-- In memory no list is an id. -/
theorem select_eq_nil :
    ((Memory.empty i.schema).store (data target reverse)).select target
      [(reverse, .text ownerId)] = .ok [] := by
  rw [Memory.select_eq (h.admits.keyed target), List.filter_eq_nil_iff.mpr]
  · rw [inOrder, List.mergeSort_nil]
  · intro x hx
    have hheld : x.held reverse = .null ∨ x.held reverse = .list [] := by
      have hne := h.reverse_ne_idName
      rcases eq_of_mem_recordsOf hx with rfl | rfl
      · left
        simp [owner, Value.held, List.lookup_cons, beq_false_of_ne hne]
      · right
        simp [member, Value.held, List.lookup_cons, beq_false_of_ne hne]
    rcases hheld with hheld | hheld <;> simp [hheld, Value.equal, Value.number?]

theorem memory_yields :
    (Plan.run [.fetchNode listMarker ownerId ⟨t.label, [output i name target reverse u]⟩] :
      Access Memory _).Yields ((Memory.empty i.schema).store (data target reverse))
      (answer name 0) := by
  have hfind := Memory.find_eq (h.admits.keyed listMarker) ownerId
  rw [find?_owner] at hfind
  have hcount : (do return (← ((Memory.empty i.schema).store (data target reverse)).select target
      [(reverse, .text ownerId)]).length : Except Misuse Nat) = .ok 0 := by
    rw [h.select_eq_nil]
    rfl
  exact yields_answer (Memory.yields_ask hfind) rfl (Memory.yields_ask hcount)

/-- A row whose list has the text of the id is counted. -/
theorem pos_of_countMany (hb : Paired i ((Memory.empty i.schema).store (data target reverse)) r
    pairs) : ∃ count, 0 < count ∧ r.countMany target [(reverse, .text ownerId)] = .ok count := by
  have hu := Schema.mem_of_type? h.connects.target
  obtain ⟨l, hl⟩ := Relational.exists_layout hb.schema hb.tables h.connects.target
    h.connects.isNode
  have hlists := hb.lists h.connects.target hl
  have hcolumn : l.column? reverse = some { name := reverse, type := .json } := by
    rw [(hb.laidOut h.connects.target hl).2.column?_eq i.valid h.registry hu h.connects.field
      h.kind, h.column?_eq]
  refine ⟨_, ?_, Relational.countMany_text hl hlists hcolumn⟩
  have hmember : member reverse ∈
      ((Memory.empty i.schema).store (data target reverse)).recordsOf target :=
    member_mem_recordsOf
  rw [hb.tallies.records] at hmember
  obtain ⟨p, hp, hfst⟩ := List.mem_map.mp hmember
  obtain ⟨hmem, _⟩ := TableLayout.mem_of_column? hcolumn
  have hrequired : p.1.required reverse = .ok (.list []) := by
    rw [hfst, member, Value.required, List.lookup_cons, beq_false_of_ne h.reverse_ne_idName]
    simp
  have hcell := hlists.stored p hp _ hmem
  dsimp only at hcell
  rw [hrequired] at hcell
  have hget : some (Value.list []) = p.2.get reverse := Except.ok.inj hcell
  apply List.length_pos_of_mem
  rw [Relational.rowsWith, List.mem_filter]
  refine ⟨List.mem_map_of_mem hp, ?_⟩
  dsimp only
  rw [← hget]
  exact isHeld_ownerId

theorem relational_yields (hb : Paired i ((Memory.empty i.schema).store (data target reverse)) r
    pairs) : ∃ count, 0 < count ∧
      (Plan.run [.fetchNode listMarker ownerId ⟨t.label, [output i name target reverse u]⟩] :
        Access Relational _).Yields r (answer name count) := by
  obtain ⟨count, hpos, hcount⟩ := h.pos_of_countMany hb
  obtain ⟨l, hl⟩ := Relational.exists_layout hb.schema hb.tables h.type h.isNode
  have hlists := hb.lists h.type hl
  obtain ⟨found, hfound⟩ : ∃ found, r.find listMarker (.text ownerId) = .ok found :=
    Relational.exists_find hl hlists
  have hmeeting := Memory.find_eq_meeting (hb.tallies.records listMarker) hlists.keyed ownerId
  rw [Memory.find_eq (h.admits.keyed listMarker), find?_owner] at hmeeting
  obtain ⟨p, hp, hfst⟩ := Option.map_eq_some_iff.mp (Except.ok.inj hmeeting).symm
  have hrow : found = some (Relational.record l p.2) := by
    rw [Relational.find_eq_ok hl hlists hfound, hp]
    rfl
  subst hrow
  have hmem := Relational.mem_of_mem_meeting (List.mem_of_head? hp)
  obtain ⟨_, hid⟩ := hb.required_id h.type hl hmem
  have hidText : p.1.idText = ownerId := by
    rw [hfst]
    rfl
  rw [hidText] at hid
  exact ⟨count, hpos, yields_answer (Relational.yields_ask hfound) hid
    (Relational.yields_ask hcount)⟩

end Confused

end Confusion

/-- Whatever is asked of two stores for a schema, one in memory and one in a database that was set
up like `created`, the results are alike if both have the same records stored and neither fails. -/
def Snapshot.Agrees (i : Snapshot) (created : Relational) : Prop :=
  ∀ (credentials : Credentials) (limit : Int) (q : Query) (p : Plan)
    (data : List (String × Value)) (r r' : Relational) (m' : Memory) (as bs : List Result),
    i.Admits data → created.store data = .ok r → (∀ c ∈ q, c.Asks) →
    q.compile credentials i limit = .ok p →
    p.run.result ((Memory.empty i.schema).store data) = (.ok as, m') →
    p.run.result r = (.ok bs, r') → List.Forall₂ Result.Alike as bs

theorem Confusion.Confused.not_agrees {i : Snapshot} {t u : ObjectType} {f g : Field}
    {name target reverse : String} {k : FieldKind}
    (h : Confused i t f name target reverse u g k) {created : Relational}
    (hcreate : Relational.create .standard i.schema = .ok created) : ¬ i.Agrees created := by
  intro hagrees
  obtain ⟨r, hr⟩ := h.exists_store hcreate
  obtain ⟨pairs, hb⟩ := Paired.exists_of_store h.registry h.admits hcreate hr
  obtain ⟨count, hpos, hrows⟩ := h.relational_yields hb
  have hasks : ∀ c ∈ [call name], c.Asks := by
    intro c hc
    obtain rfl := List.mem_singleton.mp hc
    exact asks name
  have halike := hagrees _ _ _ _ _ _ _ _ _ _ h.admits hr hasks h.compile_eq h.memory_yields hrows
  have hzero : 0 = count := eq_of_answers_alike halike
  omega

namespace Library

def data : List (String × Value) := [
  ("Author", .object [("id", .text "a"), ("home", .object [("street", .text "Elm")])]),
  ("Book", .object [("id", .text "c"), ("author", .null)]),
  ("Book", .object [("id", .text "b"), ("title", .text "B"), ("author", .text "a")])]

theorem unlisted : schema.Unlisted := by
  intro t ht
  cases ht

theorem conforms_of_forall {t : ObjectType} {entries : List (String × Value)}
    (hid : HasId (.object entries)) (h : ∀ e ∈ entries, ∃ f k, t.field? e.1 = some f ∧
      schema.kindOf f = .ok k ∧ k.Stores e.2) : snapshot.Conforms t (.object entries) :=
  ⟨hid, fun _ _ hv => .inl (h _ (Value.mem_of_required hv))⟩

theorem admits : snapshot.Admits data := by
  constructor
  · intro e he
    simp only [data, List.mem_cons, List.not_mem_nil, or_false] at he
    rcases he with rfl | rfl | rfl
    · refine ⟨authorType, rfl, rfl, conforms_of_forall ⟨"a", rfl⟩ fun e he => ?_⟩
      rcases List.mem_pair.mp he with rfl | rfl
      · exact ⟨_, _, rfl, rfl, .inr (.id "a")⟩
      · exact ⟨_, _, rfl, rfl, Value.readsBack_of_fits nofun⟩
    · refine ⟨bookType, rfl, rfl, conforms_of_forall ⟨"c", rfl⟩ fun e he => ?_⟩
      rcases List.mem_pair.mp he with rfl | rfl
      · exact ⟨_, _, rfl, rfl, .inr (.id "c")⟩
      · exact ⟨_, _, rfl, rfl, .inl rfl⟩
    · refine ⟨bookType, rfl, rfl, conforms_of_forall ⟨"b", rfl⟩ fun e he => ?_⟩
      simp only [List.mem_cons, List.not_mem_nil, or_false] at he
      rcases he with rfl | rfl | rfl
      · exact ⟨_, _, rfl, rfl, .inr (.id "b")⟩
      · exact ⟨_, _, rfl, rfl, .inr (.string "B")⟩
      · exact ⟨_, _, rfl, rfl, .inr (.id "a")⟩
  · decide

theorem asks : ∀ c ∈ query, c.Asks := by
  intro c hc o ho
  rcases List.mem_pair.mp (show c ∈ [_, _] from hc) with rfl | rfl <;> cases ho <;> rfl

end Library

namespace Tagged

def listType : ObjectType where
  name := .text listMarker
  members := .ofFields [
    idField,
    { name := .text "users", type := .text connectionMarker, ofType := .text "Item",
      reverseName := .text "tags" }]
  interfaces := .list [.text nodeInterface]

def itemType : ObjectType where
  name := .text "Item"
  members := .ofFields [
    idField,
    { name := .text "tags", type := .text listMarker, ofType := .text "string",
      reverseName := .text "users" }]
  interfaces := .list [.text nodeInterface]

def schema : Schema := ⟨[Library.userType, listType, itemType]⟩

def snapshot : Snapshot where
  schema := schema
  rules := .standard
  kinds := schema.kinds.toOption.getD []
  valid := by rfl
  kinds_eq := by rfl

end Tagged

end ObjectQuery
