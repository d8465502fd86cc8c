import ObjectQuery.Proofs.Schema.Cascade

/-!
# The kinds of a valid schema

A schema that passes validation resolves: a snapshot of it can be taken, with the kind of every
field it declares and of nothing else, and once each. What a kind says is borne out by the schema:
scalars are built in, the types that are named are there and are nodes or not as the kind has it,
and a connection leads from a node to a field of a node that is declared with its owner.
-/

set_option autoImplicit false

namespace ObjectQuery

open Outcome Validation

/-- The scalar that a value names is called so. -/
theorem Scalar.eq_of_named? {v : Value} {c : Scalar} (h : Scalar.named? v = some c) :
    v = .text c.name := by
  cases v with
  | text n =>
    have hname := List.find?_some h
    rw [beq_iff_eq.mp hname]
  | _ => cases h

namespace Schema

/-- The fields that are declared, type by type. -/
def spots (s : Schema) : List Spot :=
  s.types.flatMap fun t => t.declared.map fun f => ⟨t.name, f.name⟩

/-- A kind of a field of a type that the schema bears out. -/
inductive Grounded (s : Schema) (t : ObjectType) (f : Field) : FieldKind → Prop
  | scalar {c : Scalar} (type : f.type = .text c.name) : Grounded s t f (.scalar c)
  | reference {n : String} {u : ObjectType} (type : f.type = .text n)
      (target : s.type? n = some u) : Grounded s t f (.reference n u.isNode)
  | connection {n r : String} {u : ObjectType} {g : Field} (owner : t.isNode)
      (ends : s.Connects t f n r u g) : Grounded s t f (.connection (.text n) (.text r))
  | scalarList {c : Scalar} (element : f.ofType = .text c.name) : Grounded s t f (.scalarList c)
  | objectList {n : String} {u : ObjectType} (element : f.ofType = .text n)
      (target : s.type? n = some u) (embedded : u.isNode = false) : Grounded s t f (.objectList n)

/-- One kind of each field that is declared, each of them borne out. -/
structure Resolves (s : Schema) (kinds : List (Spot × FieldKind)) : Prop where
  spots : kinds.map Prod.fst = s.spots
  once : s.spots.Nodup
  grounded : ∀ e ∈ kinds, ∃ t ∈ s.types, ∃ f ∈ t.declared,
    e.1 = ⟨t.name, f.name⟩ ∧ s.kindOf f = .ok e.2 ∧ s.Grounded t f e.2

section
variable {rules : Rules} {s : Schema} {t : ObjectType} {f : Field} {k : FieldKind}
  {found : List (Spot × FieldKind)}

theorem Valid.grounded (h : s.Valid rules) (ht : t ∈ s.types) (hf : f ∈ t.declared)
    (hk : s.kindOf f = .ok k) : s.Grounded t f k := by
  cases kinded_of_kindOf hk with
  | connection hc =>
    obtain ⟨hnode, n, r, u, g, hends⟩ := h.connects ht hf hc
    rw [hends.ofType, hends.reverseName]
    exact .connection hnode hends
  | scalarList _ _ ho => exact .scalarList (Scalar.eq_of_named? ho)
  | objectList _ _ _ hn =>
    obtain ⟨u, hu, hembedded⟩ := h.embedded_of_objectList ht hf hk
    exact .objectList hn hu hembedded
  | scalar _ _ hc => exact .scalar (Scalar.eq_of_named? hc)
  | reference _ _ _ hn hu => exact .reference hn hu

theorem Valid.spots_nodup (h : s.Valid rules) : s.spots.Nodup := by
  refine List.nodup_flatMap.mpr ⟨fun t ht => ?_, ?_⟩
  · have hnames := h.fieldNames_nodup ht
    refine List.Nodup.of_map Spot.fieldName ?_
    rwa [List.map_map]
  · have hnames := List.pairwise_map.mp h.names_nodup
    refine hnames.imp fun {t u} hne => ?_
    intro spot ht hu
    obtain ⟨f, _, rfl⟩ := List.mem_map.mp ht
    obtain ⟨g, _, hspot⟩ := List.mem_map.mp hu
    exact hne (congrArg Spot.typeName hspot).symm

/-- The kinds of the fields of a type, one behind the other. -/
theorem forall₂_of_kindsIn (h : s.kindsIn t = .ok found) :
    List.Forall₂ (fun f e => e.1 = ⟨t.name, f.name⟩ ∧ s.kindOf f = .ok e.2) t.declared found := by
  refine (mapM_eq_ok.mp h).imp fun f e he => ?_
  obtain ⟨k, hk, he⟩ := bind_eq_ok.mp he
  cases he
  exact ⟨rfl, hk⟩

theorem spots_of_kindsIn (h : s.kindsIn t = .ok found) :
    found.map Prod.fst = t.declared.map fun f => ⟨t.name, f.name⟩ := by
  rw [← List.forall₂_eq_eq_eq, List.forall₂_map_left_iff, List.forall₂_map_right_iff]
  exact (forall₂_of_kindsIn h).flip.imp fun _ _ he => he.1

theorem spots_of_kinds (h : s.kinds = .ok found) : found.map Prod.fst = s.spots := by
  obtain ⟨parts, hparts, h⟩ := bind_eq_ok.mp h
  cases h
  rw [List.map_flatten, spots, List.flatMap_def]
  congr 1
  rw [← List.forall₂_eq_eq_eq, List.forall₂_map_left_iff, List.forall₂_map_right_iff]
  exact (mapM_eq_ok.mp hparts).flip.imp fun _ _ hin => spots_of_kindsIn hin

theorem Valid.grounded_of_kinds (h : s.Valid rules) (hkinds : s.kinds = .ok found) :
    ∀ e ∈ found, ∃ t ∈ s.types, ∃ f ∈ t.declared,
      e.1 = ⟨t.name, f.name⟩ ∧ s.kindOf f = .ok e.2 ∧ s.Grounded t f e.2 := by
  obtain ⟨parts, hparts, hflat⟩ := bind_eq_ok.mp hkinds
  cases hflat
  intro e he
  obtain ⟨part, hpart, he⟩ := List.mem_flatten.mp he
  obtain ⟨t, ht, hin⟩ := exists_of_mem_mapM hparts hpart
  obtain ⟨f, hf, hspot, hk⟩ := exists_left_of_mem (forall₂_of_kindsIn hin) he
  exact ⟨t, ht, f, hf, hspot, hk, h.grounded ht hf hk⟩

end

end Schema

/-- A schema that passes validation resolves. -/
theorem Snapshot.exists_resolved {rules : Rules} {s : Schema} (h : s.Valid rules) :
    ∃ i, Snapshot.ofSchema rules s = .ok i ∧ i.schema = s ∧ i.rules = rules ∧
      s.Resolves i.kinds := by
  obtain ⟨i, hi, rfl, rfl⟩ := Snapshot.exists_of_valid h
  exact ⟨i, hi, rfl, rfl, Schema.spots_of_kinds i.kinds_eq, h.spots_nodup,
    h.grounded_of_kinds i.kinds_eq⟩

/-- Wholes and parts refer to each other; items have lists. -/
theorem nested_and_stock_resolved :
    (∃ i, Snapshot.ofSchema Nested.rules (Nested.schema "Part" .null) = .ok i ∧
      (Nested.schema "Part" .null).Resolves i.kinds) ∧
    ∃ i, Snapshot.ofSchema Stock.rules (Stock.schema "Part") = .ok i ∧
      (Stock.schema "Part").Resolves i.kinds := by
  have hnested : (Nested.schema "Part" .null).Valid Nested.rules := by rfl
  obtain ⟨i, hi, _, _, hresolves⟩ := Snapshot.exists_resolved hnested
  obtain ⟨j, hj, _, _, hstock⟩ := Snapshot.exists_resolved Stock.valid
  exact ⟨⟨i, hi, hresolves⟩, j, hj, hstock⟩

end ObjectQuery
