import ObjectQuery.Proofs.Plan.Questions
import ObjectQuery.Proofs.Schema.Relations

/-!
# Relations read from both ends

From one end a relation is read as the records that hold an id, from the other as the record of the
id that is held. Where ids are distinct these are the same pairs of records, as long as neither end
is called like the name of the type, which is selected before any field.
-/

set_option autoImplicit false

namespace ObjectQuery

open Outcome Access

/-- Every query that asks this has a plan, and running it on a store in memory gives this result and
leaves the store as it is. -/
def Gives (credentials : Credentials) (i : Snapshot) (limit : Int) (m : Memory)
    (typeName id : String) (selections : List Call) (result : Result) : Prop :=
  ∀ q : Query, q.AsksFor typeName id selections →
    ∃ p, q.compile credentials i limit = .ok p ∧ p.run.result m = (.ok [result], m)

theorem Gives.unique {credentials : Credentials} {i : Snapshot} {limit : Int} {m : Memory}
    {typeName id : String} {selections : List Call} {x y : Result}
    (hx : Gives credentials i limit m typeName id selections x)
    (hy : Gives credentials i limit m typeName id selections y) : x = y := by
  have hasks := Query.ofRecord_asksFor typeName id selections
  obtain ⟨p, hp, hx⟩ := hx _ hasks
  obtain ⟨p', hp', hy⟩ := hy _ hasks
  cases hp.symm.trans hp'
  have hsame := Except.ok.inj (congrArg Prod.fst (hx.symm.trans hy))
  exact List.singleton_inj.mp hsame

section Answers

variable {credentials : Credentials} {i : Snapshot} {limit : Int} {m : Memory} {t u : ObjectType}
  {f g : Field} {x : Value} {xs : List Value} {ss : List Call} {os : List Output}
  {owner name target reverse n : String}

/-- What is presented of a record if its id is all that is asked for. -/
def idShown (id : String) : Result := .object [(idName, .value (.text id))]

theorem yields_id (h : HasId x) :
    (Output.evaluateAll x [idOutput] : Access Memory _).Yields m
      [(idName, .value (.text x.idText))] := by
  have hid : x.entry idName = .ok (.text x.idText) := by rw [h.entry_eq, h.held_eq]
  exact Output.yields_cons (Output.yields_leaf hid) Output.yields_nil

theorem yields_count {σ : Type} [Store σ] {s : σ} (xs : List Value) (count : Nat)
    (cursors : List Value) :
    (Output.evaluate (connectionRecord xs count cursors) countOutput : Access σ _).Yields s
      (.value (.int count)) :=
  Output.yields_leaf rfl

/-- The elements of a connection, each presented in the same way. -/
theorem yields_nodes_of {σ : Type} [Store σ] {s : σ} {present : Value → List (String × Result)}
    (hne : ∀ x ∈ xs, x ≠ .null)
    (hshown : ∀ x ∈ xs, (Output.evaluateAll x os : Access σ _).Yields s (present x))
    (count : Nat) (cursors : List Value) (label : String) :
    (Output.evaluate (connectionRecord xs count cursors)
        (.nested nodesName (.embedded nodesName true) label os) : Access σ _).Yields s
      (.list (xs.map fun x => .object (present x))) := by
  have hitems : (xs.map fun x => Result.object (present x)) =
      xs.map fun x => if x.isNull then .null else .object (present x) := by
    refine List.map_congr_left fun x hx => ?_
    rw [Value.isNull_eq_false (hne x hx), if_neg Bool.false_ne_true]
  rw [hitems]
  exact Output.yields_items id (by rw [List.map_id]; rfl) fun x hx _ => hshown x hx

theorem HasId.ne_null (h : HasId x) : x ≠ .null := by
  obtain ⟨entries, rfl⟩ := h.exists_entries
  exact nofun

theorem yields_nodes_ids (h : Keyed xs) (count : Nat) (cursors : List Value) :
    (Output.evaluate (connectionRecord xs count cursors) (nodesOutput u) :
      Access Memory _).Yields m (.list ((xs.map Value.idText).map idShown)) := by
  rw [List.map_map]
  exact yields_nodes_of (fun x hx => (h.hasId x hx).ne_null)
    (fun x hx => yields_id (h.hasId x hx)) count cursors u.label

theorem yields_fetchById (h : Keyed (m.recordsOf n)) (v : Value) :
    (Store.fetchById n v : Access Memory _).Yields m
      (v.text?.bind ((m.world i.schema).byId? n)) :=
  Memory.yields_ask (Memory.find_eq_bind h v)

/-- The answer to a question about a record that is there. -/
theorem gives_of_mem {shown : List (String × Result)} (ht : i.schema.type? n = some t)
    (hnode : t.isNode = true) (hk : Keyed (m.recordsOf n)) (hx : x ∈ m.recordsOf n)
    (hs : Call.Block ss) (hlimit : 1 ≤ limit) (hos : ∀ cs, Call.sameAll cs ss = true →
      (Context.object (.data i) t).outputs limit [] 1 cs = .ok os)
    (hshown : (Output.evaluateAll x os : Access Memory _).Yields m shown) :
    Gives credentials i limit m n x.idText ss (.object shown) := by
  intro q hq
  have hfound : (Store.fetchById n (.text x.idText) : Access Memory _).Yields m (some x) := by
    have hfind := hk.find?_eq_some_iff.mpr ⟨hx, rfl⟩
    exact Memory.yields_ask ((Memory.find_eq hk _).trans (congrArg Except.ok hfind))
  exact ⟨_, hq.compile_eq ht hnode hs hlimit hos,
    Plan.yields_singleton (CallPlan.yields_fetchNode hfound hshown)⟩

end Answers

/-- A connection and the reference at its other end, where both can be selected and the records of
both types have distinct ids. -/
structure Linked (i : Snapshot) (m : Memory) (owner name target reverse : String) (t : ObjectType)
    (f : Field) (u : ObjectType) (g : Field) : Prop where
  registry : i.rules.registry = .standard
  type : i.schema.type? owner = some t
  isNode : t.isNode = true
  field : t.field? name = some f
  kind : i.schema.kindOf f = .ok (.connection (.text target) (.text reverse))
  selectable : name ≠ typenameName
  farType : i.schema.type? target = some u
  farIsNode : u.isNode = true
  farField : u.field? reverse = some g
  farKind : i.schema.kindOf g = .ok (.reference owner true)
  farSelectable : reverse ≠ typenameName
  owners : Keyed (m.recordsOf owner)
  targets : Keyed (m.recordsOf target)

namespace Memory

variable {m : Memory} {target reverse : String} {a b : Value}

/-- The records that hold the id of an owner. -/
def holding (m : Memory) (target reverse : String) (a : Value) : List Value :=
  inOrder ((m.recordsOf target).filter fun b => (b.held reverse).spells a.idText)

theorem mem_holding : b ∈ m.holding target reverse a ↔
    b ∈ m.recordsOf target ∧ b.held reverse = .text a.idText := by
  rw [holding, mem_inOrder, List.mem_filter, Value.spells_iff]

/-- Whether a record holds the id of an owner that there is. -/
def refers (m : Memory) (owner reverse : String) (b : Value) : Bool :=
  (m.recordsOf owner).any fun a => (b.held reverse).spells a.idText

theorem refers_iff {owner : String} :
    m.refers owner reverse b = true ↔ ∃ a ∈ m.recordsOf owner, b.held reverse = .text a.idText := by
  simp only [refers, List.any_eq_true, Value.spells_iff]

end Memory

namespace Linked

variable {credentials : Credentials} {i : Snapshot} {limit : Int} {m : Memory} {t u : ObjectType}
  {f g : Field} {a b : Value} {ss : List Call} {os : List Output}
  {owner name target reverse : String}

theorem exists_of_connection (hi : i.rules.registry = .standard)
    (ht : i.schema.type? owner = some t) (hf : t.field? name = some f)
    (hk : i.schema.kindOf f = .ok (.connection (.text target) (.text reverse)))
    (hmarker : ¬t.CalledLikeMarker) (hname : name ≠ typenameName)
    (hreverse : reverse ≠ typenameName) (howners : Keyed (m.recordsOf owner))
    (htargets : Keyed (m.recordsOf target)) :
    ∃ u g, Linked i m owner name target reverse t f u g := by
  have htm := Schema.mem_of_type? ht
  obtain ⟨hnode, u, g, hfar, hg⟩ := i.valid.exists_farEnd htm (ObjectType.mem_of_field? hf) hk
  obtain ⟨_, howner, hback⟩ := (i.valid.referredBack_iff htm hnode hg).mpr hmarker
  cases (Schema.type?_name ht).symm.trans howner
  exact ⟨u, g, hi, ht, hnode, hf, hk, hname, hfar.type, hfar.isNode, hfar.field, hback, hreverse,
    howners, htargets⟩

variable (h : Linked i m owner name target reverse t f u g)

include h

theorem keyed_holding (a : Value) : Keyed (m.holding target reverse a) :=
  (h.targets.filter _).inOrder

/-- What is presented of the records that hold the id of an owner. -/
theorem gives_connection {presented : Value} {shown : List (String × Result)}
    (ha : a ∈ m.recordsOf owner) (hs : Call.Block ss) (hlimit : 2 ≤ limit)
    (hos : ∀ cs, Call.sameAll cs ss = true →
      (Context.connection name (.data i) u).outputs limit [name] 2 cs = .ok os)
    (hp : fetchedRecord (fetchedFor os (m.holding target reverse a)
      (m.holding target reverse a).length) = .ok presented)
    (hshown : (Output.evaluateAll presented os : Access Memory _).Yields m shown) :
    Gives credentials i limit m owner a.idText [.plain name ss]
      (.object [(name, .object shown)]) := by
  have hid := (h.owners.hasId a ha).required_eq
  -- Without a bound on either side the page is all of the records.
  have hfetched : (Output.fetchRelated os target reverse ⟨none, none⟩ (.text a.idText) :
      Access Memory _).Yields m (fetchedFor os (m.holding target reverse a)
        (m.holding target reverse a).length) :=
    yields_fetchRelated (i := i) (c := .plain name []) h.targets os reverse a.idText
  exact gives_of_mem h.type h.isNode h.owners ha (Call.block_singleton _) (by omega)
    (fun _ => outputs_connection h.selectable h.field h.kind h.farType hs hlimit hos)
    (Output.yields_cons (Output.yields_connection hid hfetched hp hshown) Output.yields_nil)

/-- The record that a reference leads to, if there is one. -/
theorem gives_reference (credentials : Credentials) (hb : b ∈ m.recordsOf target)
    (hlimit : 2 ≤ limit) :
    Gives credentials i limit m target b.idText [.plain reverse [.ofId]]
      (.object [(reverse, ((b.held reverse).text?.bind ((m.world i.schema).byId? owner)).elim .null
        fun a => idShown a.idText)]) := by
  have hentry := (h.targets.hasId b hb).entry_eq reverse
  have hfound := yields_fetchById (i := i) h.owners (b.held reverse)
  refine gives_of_mem h.farType h.farIsNode h.targets hb (Call.block_singleton _) (by omega)
    (fun _ => outputs_reference h.farSelectable h.farField h.farKind h.type
      (Call.block_singleton _) hlimit fun _ => outputs_id h.registry (Schema.mem_of_type? h.type)
        h.isNode) (Output.yields_cons ?_ Output.yields_nil)
  -- For what is not there the store is not asked.
  by_cases hnull : b.held reverse = .null
  · rw [hnull] at hentry ⊢
    exact Output.yields_related_null hentry
  · cases hlookup : (b.held reverse).text?.bind ((m.world i.schema).byId? owner) with
    | none =>
      rw [hlookup] at hfound
      exact Output.yields_related_none hentry hnull hfound
    | some a =>
      rw [hlookup] at hfound
      obtain ⟨id, _, hfind⟩ := Option.bind_eq_some_iff.mp hlookup
      have ha := h.owners.hasId a (List.mem_of_find?_eq_some hfind)
      exact Output.yields_related hentry hnull hfound (yields_id ha)

theorem output_nodes {parent : String} {path : Path} {c : Call} (hlimit : 3 ≤ limit)
    (hc : c.same .ofNodes = true) :
    (Context.connection parent (.data i) u).output limit path 2 c = .ok (nodesOutput u) :=
  ObjectQuery.output_nodes h.registry (Schema.mem_of_type? h.farType) h.farIsNode hlimit hc

theorem gives_nodes (ha : a ∈ m.recordsOf owner) (hlimit : 3 ≤ limit) :
    Gives credentials i limit m owner a.idText [.plain name [.ofNodes]]
      (.object [(name, .object [(nodesName,
        .list (((m.holding target reverse a).map Value.idText).map idShown))])]) := by
  have hos : ∀ cs, Call.sameAll cs [.ofNodes] = true →
      (Context.connection name (.data i) u).outputs limit [name] 2 cs = .ok [nodesOutput u] :=
    fun _ => Context.outputs_of_cons (fun _ => h.output_nodes hlimit) fun _ =>
      Context.outputs_of_nil
  have hk := h.keyed_holding a
  have hfetched : fetchedRecord (fetchedFor [nodesOutput u] (m.holding target reverse a)
      (m.holding target reverse a).length) = .ok _ := fetchedRecord_eq hk _
  refine h.gives_connection ha (Call.block_singleton _) (by omega) hos hfetched ?_
  exact Output.yields_cons (yields_nodes_ids hk _ _) Output.yields_nil

/-- The number by itself, for which no records are fetched. -/
theorem gives_count (ha : a ∈ m.recordsOf owner) (hlimit : 2 ≤ limit) :
    Gives credentials i limit m owner a.idText [.plain name [.ofCount]]
      (.object [(name, .object [(countName,
        .value (.int (m.holding target reverse a).length))])]) := by
  refine h.gives_connection ha (Call.block_singleton _) hlimit (fun _ => Context.outputs_of_cons
    (fun c hc => output_count hc) fun _ => Context.outputs_of_nil) rfl ?_
  exact Output.yields_cons (yields_count _ _ _) Output.yields_nil

theorem gives_count_nodes (ha : a ∈ m.recordsOf owner) (hlimit : 3 ≤ limit) :
    Gives credentials i limit m owner a.idText [.plain name [.ofCount, .ofNodes]]
      (.object [(name, .object [
        (countName, .value (.int (m.holding target reverse a).length)),
        (nodesName, .list (((m.holding target reverse a).map Value.idText).map idShown))])]) := by
  have hos : ∀ cs, Call.sameAll cs [.ofCount, .ofNodes] = true →
      (Context.connection name (.data i) u).outputs limit [name] 2 cs =
        .ok [countOutput, nodesOutput u] :=
    fun _ => Context.outputs_of_cons (fun _ => output_count) fun _ =>
      Context.outputs_of_cons (fun _ => h.output_nodes hlimit) fun _ => Context.outputs_of_nil
  have hk := h.keyed_holding a
  have hfetched : fetchedRecord (fetchedFor [countOutput, nodesOutput u]
      (m.holding target reverse a) (m.holding target reverse a).length) = .ok _ :=
    fetchedRecord_eq hk _
  refine h.gives_connection ha ⟨by simp, by decide⟩ (by omega) hos hfetched ?_
  exact Output.yields_cons (yields_count _ _ _)
    (Output.yields_cons (yields_nodes_ids hk _ _) Output.yields_nil)

theorem mem_ids_iff (hb : b ∈ m.recordsOf target) :
    b.idText ∈ (m.holding target reverse a).map Value.idText ↔ b.held reverse = .text a.idText := by
  constructor
  · intro hid
    obtain ⟨b', hb', hid⟩ := List.mem_map.mp hid
    obtain ⟨hmem, hheld⟩ := Memory.mem_holding.mp hb'
    obtain rfl := List.inj_on_of_nodup_map h.targets.distinct hmem hb hid
    exact hheld
  · intro hheld
    exact List.mem_map_of_mem (Memory.mem_holding.mpr ⟨hb, hheld⟩)

theorem disjoint : (m.recordsOf owner).Pairwise fun a a' =>
    ((m.holding target reverse a).map Value.idText).Disjoint
      ((m.holding target reverse a').map Value.idText) := by
  refine (List.pairwise_map.mp h.owners.distinct).imp fun hne id hid hid' => ?_
  obtain ⟨b, hb, rfl⟩ := List.mem_map.mp hid
  obtain ⟨hmem, hheld⟩ := Memory.mem_holding.mp hb
  exact hne (Value.text.inj (hheld.symm.trans ((h.mem_ids_iff hmem).mp hid')))

theorem perm : ((m.recordsOf owner).flatMap fun a =>
      (m.holding target reverse a).map Value.idText).Perm
    (((m.recordsOf target).filter (m.refers owner reverse)).map Value.idText) := by
  -- Neither side lists an id twice, so that the same ids are listed is enough.
  have hlisted : ((m.recordsOf owner).flatMap fun a =>
      (m.holding target reverse a).map Value.idText).Nodup :=
    List.nodup_flatMap.mpr ⟨fun a _ => (h.keyed_holding a).distinct, h.disjoint⟩
  refine (List.perm_ext_iff_of_nodup hlisted (h.targets.filter _).distinct).mpr fun id => ?_
  simp only [List.mem_flatMap, List.mem_map, List.mem_filter, Memory.refers_iff, Memory.mem_holding]
  constructor
  · rintro ⟨a, ha, b, ⟨hb, hheld⟩, rfl⟩
    exact ⟨b, ⟨hb, a, ha, hheld⟩, rfl⟩
  · rintro ⟨b, ⟨hb, a, ha, hheld⟩, rfl⟩
    exact ⟨a, ha, b, ⟨hb, hheld⟩, rfl⟩

theorem gives_reference_iff (ha : a ∈ m.recordsOf owner) (hb : b ∈ m.recordsOf target)
    (hlimit : 2 ≤ limit) :
    Gives credentials i limit m target b.idText [.plain reverse [.ofId]]
      (.object [(reverse, idShown a.idText)]) ↔ b.held reverse = .text a.idText := by
  have hgives := h.gives_reference credentials hb hlimit
  constructor
  · intro hshown
    have hsame := hgives.unique hshown
    cases hlookup : (b.held reverse).text?.bind ((m.world i.schema).byId? owner) with
    | none =>
      rw [hlookup] at hsame
      cases hsame
    | some a' =>
      rw [hlookup] at hsame
      obtain ⟨id, hid, hfind⟩ := Option.bind_eq_some_iff.mp hlookup
      obtain ⟨_, hfound⟩ := h.owners.find?_eq_some_iff.mp hfind
      have hids : a'.idText = a.idText := by
        simpa [idShown] using hsame
      rw [Value.text?_eq_some_iff.mp hid, ← hfound, hids]
  · intro hheld
    have hlookup : (m.world i.schema).byId? owner a.idText = some a :=
      h.owners.find?_eq_some_iff.mpr ⟨ha, rfl⟩
    rwa [hheld, Value.text?_text, Option.bind_some, hlookup] at hgives

theorem gives_reference_null (hb : b ∈ m.recordsOf target)
    (hrefers : m.refers owner reverse b = false) (hlimit : 2 ≤ limit) :
    Gives credentials i limit m target b.idText [.plain reverse [.ofId]]
      (.object [(reverse, .null)]) := by
  have hgives := h.gives_reference credentials hb hlimit
  have hlookup : (b.held reverse).text?.bind ((m.world i.schema).byId? owner) = none := by
    rw [Option.bind_eq_none_iff]
    intro id hid
    by_contra hfound
    obtain ⟨a, ha⟩ := Option.ne_none_iff_exists'.mp hfound
    obtain ⟨hmem, rfl⟩ := h.owners.find?_eq_some_iff.mp ha
    rw [Memory.refers_iff.mpr ⟨a, hmem, Value.text?_eq_some_iff.mp hid⟩] at hrefers
    cases hrefers
  rwa [hlookup] at hgives

end Linked

/-- A relation as it is read from its two ends: from that of the owners with the ids of those that
belong to each, from the other with the id of the owner. -/
structure ReadFromBothEnds (credentials : Credentials) (i : Snapshot) (limit : Int) (m : Memory)
    (owner name target reverse : String) (ids : Value → List String) : Prop where
  nodes : ∀ a ∈ m.recordsOf owner,
    Gives credentials i limit m owner a.idText [.plain name [.ofNodes]]
      (.object [(name, .object [(nodesName, .list ((ids a).map idShown))])])
  count : ∀ a ∈ m.recordsOf owner,
    Gives credentials i limit m owner a.idText [.plain name [.ofCount]]
      (.object [(name, .object [(countName, .value (.int (ids a).length))])])
  count_nodes : ∀ a ∈ m.recordsOf owner,
    Gives credentials i limit m owner a.idText [.plain name [.ofCount, .ofNodes]]
      (.object [(name, .object [(countName, .value (.int (ids a).length)),
        (nodesName, .list ((ids a).map idShown))])])
  mem_ids : ∀ a ∈ m.recordsOf owner, ∀ b ∈ m.recordsOf target,
    b.idText ∈ ids a ↔ b.held reverse = .text a.idText
  reference : ∀ a ∈ m.recordsOf owner, ∀ b ∈ m.recordsOf target,
    Gives credentials i limit m target b.idText [.plain reverse [.ofId]]
      (.object [(reverse, idShown a.idText)]) ↔ b.held reverse = .text a.idText
  /-- Where no owner has the id that is held, or none is held, there is nothing to refer to. -/
  dangling : ∀ b ∈ m.recordsOf target, m.refers owner reverse b = false →
    Gives credentials i limit m target b.idText [.plain reverse [.ofId]]
      (.object [(reverse, .null)])
  disjoint : (m.recordsOf owner).Pairwise fun a a' => (ids a).Disjoint (ids a')
  /-- Who belongs to an owner that there is belongs to one, and once. -/
  once : ((m.recordsOf owner).flatMap ids).Perm
    (((m.recordsOf target).filter (m.refers owner reverse)).map Value.idText)
  sum : ((m.recordsOf owner).map fun a => (ids a).length).sum =
    (m.recordsOf target).countP (m.refers owner reverse)

/-- A connection of a valid schema and the field at its other end are read as the same pairs of
records, unless the type of the owners is called like a marker or one of the two fields is called
like the name of the type. -/
theorem Snapshot.readFromBothEnds {credentials : Credentials} {i : Snapshot} {limit : Int}
    {m : Memory} {t : ObjectType} {f : Field} {owner name target reverse : String}
    (hlimit : 3 ≤ limit) (hi : i.rules.registry = .standard) (ht : i.schema.type? owner = some t)
    (hf : t.field? name = some f)
    (hk : i.schema.kindOf f = .ok (.connection (.text target) (.text reverse)))
    (hmarker : ¬t.CalledLikeMarker) (hname : name ≠ typenameName)
    (hreverse : reverse ≠ typenameName) (howners : Keyed (m.recordsOf owner))
    (htargets : Keyed (m.recordsOf target)) :
    ∃ ids, ReadFromBothEnds credentials i limit m owner name target reverse ids := by
  obtain ⟨u, g, h⟩ :=
    Linked.exists_of_connection hi ht hf hk hmarker hname hreverse howners htargets
  refine ⟨fun a => (m.holding target reverse a).map Value.idText, ?_, ?_, ?_, ?_, ?_, ?_,
    h.disjoint, h.perm, ?_⟩
  · exact fun a ha => h.gives_nodes ha hlimit
  · intro a ha
    rw [List.length_map]
    exact h.gives_count ha (by omega)
  · intro a ha
    rw [List.length_map]
    exact h.gives_count_nodes ha hlimit
  · exact fun a _ b hb => h.mem_ids_iff hb
  · exact fun a ha b hb => h.gives_reference_iff ha hb (by omega)
  · exact fun b hb hrefers => h.gives_reference_null hb hrefers (by omega)
  · rw [← List.length_flatMap, h.perm.length_eq, List.length_map, List.countP_eq_length_filter]

namespace Library

/-- Two authors, and three books: one of an author that there is not, one of an author that there
is, and one with a number where the id of an author should be. -/
def scattered : Memory where
  schema := schema
  records := [
    ("Author", [.object [("id", .text "a")], .object [("id", .text "d")]]),
    ("Book", [
      .object [("id", .text "c"), ("author", .text "gone")],
      .object [("id", .text "b"), ("author", .text "a")],
      .object [("id", .text "e"), ("author", .int 7)]])]

theorem keyed_authors : Keyed (scattered.recordsOf "Author") := by
  refine ⟨fun r hr => ?_, by decide⟩
  rcases List.mem_pair.mp (show r ∈ [_, _] from hr) with rfl | rfl
  · exact ⟨"a", rfl⟩
  · exact ⟨"d", rfl⟩

theorem keyed_books : Keyed (scattered.recordsOf "Book") := by
  refine ⟨fun r hr => ?_, by decide⟩
  replace hr : r ∈ [_, _, _] := hr
  simp only [List.mem_cons, List.not_mem_nil, or_false] at hr
  rcases hr with rfl | rfl | rfl
  · exact ⟨"c", rfl⟩
  · exact ⟨"b", rfl⟩
  · exact ⟨"e", rfl⟩

def booksOfAuthor : List Char :=
  "node(Author, a) \x7b books \x7b nodes \x7b id \x7d \x7d \x7d".toList

theorem asksFor_booksOfAuthor : ∃ q, Query.parse (String.ofList booksOfAuthor) = .ok q ∧
    q.AsksFor "Author" "a" [.plain "books" [.ofNodes]] := by
  have hread : (Query.parse (String.ofList booksOfAuthor)).toOption.any (fun q =>
      q.length == 1 && q.all fun c => c.name == "node" &&
        decide (c.arguments.map (fun b => (b.name, b.value)) =
          [(none, .name "Author"), (none, .name "a")]) &&
        Call.sameAll c.selections [.plain "books" [.ofNodes]]) = true := by
    refine (congrArg (fun x => Option.any _ (Except.toOption x)) (Query.parse_ofList _)).trans ?_
    decide +kernel
  obtain ⟨q, hq, hcalls⟩ := exists_of_any hread
  rw [Bool.and_eq_true, beq_iff_eq] at hcalls
  obtain ⟨c, rfl⟩ := List.length_eq_one_iff.mp hcalls.1
  have hc := List.all_eq_true.mp hcalls.2 c List.mem_cons_self
  simp only [Bool.and_eq_true, beq_iff_eq, decide_eq_true_eq] at hc
  obtain ⟨⟨hname, harguments⟩, hselections⟩ := hc
  exact ⟨[c], hq, c, .name "a", rfl, hname, harguments, rfl, hselections⟩

end Library

/-- A book is listed for its author and no other book is. -/
theorem library_read_from_both_ends :
    3 ≤ defaultLimit ∧ ¬Library.authorType.CalledLikeMarker ∧
      Keyed (Library.scattered.recordsOf "Author") ∧ Keyed (Library.scattered.recordsOf "Book") ∧
      ∃ (q : Query) (p : Plan) (ids : List String),
        Query.parse (String.ofList Library.booksOfAuthor) = .ok q ∧
        q.compile {} Library.snapshot defaultLimit = .ok p ∧
        p.run.result Library.scattered = (.ok [.object [("books", .object [("nodes",
          .list (ids.map idShown))])]], Library.scattered) ∧
        "b" ∈ ids ∧ "c" ∉ ids ∧ "e" ∉ ids := by
  have hmarker : ¬Library.authorType.CalledLikeMarker := by
    rintro (h | h) <;> exact absurd (Value.text.inj h) (by decide)
  have hlimit : 3 ≤ defaultLimit := by decide
  refine ⟨hlimit, hmarker, Library.keyed_authors, Library.keyed_books, ?_⟩
  obtain ⟨ids, h⟩ : ∃ ids, ReadFromBothEnds {} Library.snapshot defaultLimit Library.scattered
      "Author" "books" "Book" "author" ids :=
    Snapshot.readFromBothEnds hlimit rfl rfl rfl rfl hmarker (by decide) (by decide)
      Library.keyed_authors Library.keyed_books
  obtain ⟨q, hq, hasks⟩ := Library.asksFor_booksOfAuthor
  obtain ⟨p, hp, hrun⟩ := h.nodes _ List.mem_cons_self q hasks
  have hids := h.mem_ids _ List.mem_cons_self
  refine ⟨q, p, _, hq, hp, hrun, ?_, ?_, ?_⟩
  · exact (hids _ (List.mem_cons_of_mem _ List.mem_cons_self)).mpr rfl
  · intro hc
    have hheld : Value.text "gone" = .text "a" := (hids _ List.mem_cons_self).mp hc
    exact absurd (Value.text.inj hheld) (by decide)
  · intro he
    have hheld : Value.int 7 = .text "a" :=
      (hids _ (List.mem_cons_of_mem _ (List.mem_cons_of_mem _ List.mem_cons_self))).mp he
    cases hheld

namespace Veiled

/-- Two relations with a field that is called like the name of the type, one at either end. -/
def shelfType : ObjectType where
  name := .text "Shelf"
  members := .ofFields [
    idField,
    { name := .text typenameName, type := .text connectionMarker, ofType := .text "Book",
      reverseName := .text "shelf" },
    { name := .text "notes", type := .text connectionMarker, ofType := .text "Note",
      reverseName := .text typenameName }]
  interfaces := .list [.text nodeInterface]

def bookType : ObjectType where
  name := .text "Book"
  members := .ofFields [
    idField,
    { name := .text "shelf", type := .text "Shelf", reverseName := .text typenameName }]
  interfaces := .list [.text nodeInterface]

def noteType : ObjectType where
  name := .text "Note"
  members := .ofFields [
    idField,
    { name := .text typenameName, type := .text "Shelf", reverseName := .text "notes" }]
  interfaces := .list [.text nodeInterface]

def schema : Schema := ⟨[Library.userType, shelfType, bookType, noteType]⟩

def snapshot : Snapshot where
  schema := schema
  rules := .standard
  kinds := schema.kinds.toOption.getD []
  valid := by rfl
  kinds_eq := by rfl

def memory : Memory where
  schema := schema
  records := [
    ("Shelf", [.object [("id", .text "s")]]),
    ("Book", [.object [("id", .text "b"), ("shelf", .text "s")]]),
    ("Note", [.object [("id", .text "n"), (typenameName, .text "s")]])]

theorem keyed_of_mem {n id : String} {entries : List (String × Value)}
    (h : memory.recordsOf n = [.object entries])
    (hid : (Value.object entries).held idName = .text id) :
    Keyed (memory.recordsOf n) := by
  rw [h]
  refine ⟨fun r hr => ?_, List.nodup_singleton _⟩
  obtain rfl := List.mem_singleton.mp hr
  exact ⟨id, hid⟩

end Veiled

/-- With either end called like the name of the type, the other one is read alone. -/
theorem veiled_not_read_from_both_ends :
    (∀ t ∈ Veiled.schema.types, ¬t.CalledLikeMarker) ∧
      (∀ n ∈ ["Shelf", "Book", "Note"], Keyed (Veiled.memory.recordsOf n)) ∧
      (∃ f, Veiled.shelfType.field? typenameName = some f ∧
        Veiled.schema.kindOf f = .ok (.connection (.text "Book") (.text "shelf"))) ∧
      (∃ f, Veiled.shelfType.field? "notes" = some f ∧
        Veiled.schema.kindOf f = .ok (.connection (.text "Note") (.text typenameName))) ∧
      (¬∃ ids, ReadFromBothEnds {} Veiled.snapshot defaultLimit Veiled.memory "Shelf" typenameName
        "Book" "shelf" ids) ∧
      ¬∃ ids, ReadFromBothEnds {} Veiled.snapshot defaultLimit Veiled.memory "Shelf" "notes" "Note"
        typenameName ids := by
  refine ⟨?_, ?_, ⟨_, rfl, rfl⟩, ⟨_, rfl, rfl⟩, ?_, ?_⟩
  · intro t ht
    simp only [Veiled.schema, List.mem_cons, List.not_mem_nil, or_false] at ht
    rcases ht with rfl | rfl | rfl | rfl <;> rintro (h | h) <;>
      exact absurd (Value.text.inj h) (by decide)
  · intro n hn
    simp only [List.mem_cons, List.not_mem_nil, or_false] at hn
    rcases hn with rfl | rfl | rfl
    · exact Veiled.keyed_of_mem rfl rfl
    · exact Veiled.keyed_of_mem rfl rfl
    · exact Veiled.keyed_of_mem rfl rfl
  · rintro ⟨ids, h⟩
    obtain ⟨p, hp, _⟩ := h.nodes _ List.mem_cons_self _ (Query.ofRecord_asksFor _ _ _)
    cases hp
  · rintro ⟨ids, h⟩
    have hgives := (h.reference _ List.mem_cons_self _ List.mem_cons_self).mpr rfl
    obtain ⟨p, hp, _⟩ := hgives _ (Query.ofRecord_asksFor _ _ _)
    cases hp

end ObjectQuery
