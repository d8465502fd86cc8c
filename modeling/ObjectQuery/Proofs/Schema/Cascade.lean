import ObjectQuery.Proofs.Schema.Remaking

/-!
# What goes with a type

With a type go the fields of other types that are declared with it. That is told by comparing what
they are declared with, while what a field is depends on its kind. The two agree except where a type
is called like a marker: with such a type go all fields that are declared with the marker.
-/

set_option autoImplicit false

namespace ObjectQuery

open Validation

/-- Whether a kind speaks of a type: as what it refers to, or as what a connection or a list is
of. -/
def FieldKind.mentions (n : String) : FieldKind → Bool
  | .reference target _ => target == n
  | .connection target _ => target.spells n
  | .objectList element => element == n
  | .scalar _ => false
  | .scalarList _ => false

/-- Whether a field is declared with a marker that a type is called like. -/
def Field.isMarked (n : String) (f : Field) : Bool :=
  (f.isConnection || f.isList) && f.type.spells n

namespace Schema

/-- Whether the kind of a field speaks of a type. -/
def mentions (s : Schema) (n : String) (f : Field) : Bool :=
  (s.kindOf f).toOption.any (·.mentions n)

/-- A schema without a type, and without the fields whose kind speaks of it. -/
def cascaded (s : Schema) (n : String) : Schema :=
  s.restricted (!·.name.spells n) fun _ f => !s.mentions n f

variable {rules : Rules} {s s' : Schema} {t u : ObjectType} {f g : Field} {v : Value} {n : String}
  {keep : ObjectType → Bool} {p q : ObjectType → Field → Bool}

theorem mentions_eq {k : FieldKind} (hk : s.kindOf f = .ok k) : s.mentions n f = k.mentions n := by
  rw [mentions, hk]
  rfl

theorem Valid.not_scalar (h : s.Valid rules) (hu : s.type? n = some u) {c : Scalar}
    (hc : Scalar.named? v = some c) : v.spells n = false := by
  rw [Bool.eq_false_iff]
  intro hv
  have hnone := h.named?_eq_none (mem_of_type? hu)
  rw [type?_name hu, ← Value.spells_iff.mp hv, hc] at hnone
  cases hnone

/-- A field refers to a type if its kind speaks of the type or if it is declared with a marker that
the type is called like. -/
theorem Valid.refersTo_eq (h : s.Valid rules) (hu : s.type? n = some u) (ht : t ∈ s.types)
    (hf : f ∈ t.declared) : f.refersTo (.text n) = (s.mentions n f || f.isMarked n) := by
  obtain ⟨k, hk⟩ := h.exists_kindOf ht hf
  have hnull (hc : f.isConnection = false) (hl : f.isList = false) : f.ofType.spells n = false := by
    rw [(h.fieldFacts ht hf).ofType_eq_null hc hl]
    rfl
  rw [mentions_eq hk, Field.refersTo, Field.isMarked, Value.equal_text_eq, Value.equal_text_eq]
  cases kinded_of_kindOf hk with
  | connection hc => simp [FieldKind.mentions, hc, Bool.or_comm]
  | scalarList hc hl ho => simp [FieldKind.mentions, hl, h.not_scalar hu ho]
  | objectList hc hl ho hn => simp [FieldKind.mentions, hl, hn, Bool.or_comm]
  | scalar hc hl hs => simp [FieldKind.mentions, hc, hl, hnull hc hl, h.not_scalar hu hs]
  | reference hc hl hs hn => simp [FieldKind.mentions, hc, hl, hn, hnull hc hl]

theorem restricted_eq_iff : s.restricted keep p = s.restricted keep q ↔
    ∀ t ∈ s.types, keep t = true → ∀ f ∈ t.declared, p t f = q t f := by
  have hfilter : ∀ t : ObjectType, t.withFields (t.declared.filter (p t)) =
      t.withFields (t.declared.filter (q t)) ↔ ∀ f ∈ t.declared, p t f = q t f := by
    intro t
    constructor
    · intro heq f hf
      have hdeclared := congrArg ObjectType.declared heq
      rw [ObjectType.declared_withFields, ObjectType.declared_withFields] at hdeclared
      have hmem : f ∈ t.declared.filter (p t) ↔ f ∈ t.declared.filter (q t) := by rw [hdeclared]
      rw [List.mem_filter, List.mem_filter, and_iff_right hf, and_iff_right hf] at hmem
      exact Bool.eq_iff_iff.mpr hmem
    · intro heq
      rw [List.filter_congr heq]
  simp only [restricted, remade, mk.injEq, List.map_inj_left, List.mem_filter, hfilter, and_imp]

/-- Deleting a type leaves the other types as they are, but for the fields whose kind speaks of it
and those that are declared with a marker that it is called like. So just the former are lost if
there are none of the latter among the fields of other types, and only then. -/
theorem Valid.deleteType_cascades (h : s.Valid rules) (hu : s.type? n = some u) :
    ∃ s', s.apply (.deleteType (.text n)) = .ok s' ∧
      s' = s.restricted (!·.name.spells n) (fun _ f => !(s.mentions n f || f.isMarked n)) ∧
      (s' = s.cascaded n ↔ ∀ t ∈ s.types, t.name ≠ .text n → ∀ f ∈ t.declared,
        f.isMarked n = true → s.mentions n f = true) := by
  have heq : s.restricted (!·.name.spells n) (fun _ f => !f.refersTo (.text n)) =
      s.restricted (!·.name.spells n) fun _ f => !(s.mentions n f || f.isMarked n) :=
    restricted_eq_iff.mpr fun t ht _ f hf => by rw [h.refersTo_eq hu ht hf]
  refine ⟨_, h.apply_deleteType hu, heq, ?_⟩
  rw [heq, cascaded, restricted_eq_iff]
  refine forall₂_congr fun t ht => ?_
  rw [Value.not_spells_iff]
  refine imp_congr_right fun _ => forall₂_congr fun f hf => ?_
  cases s.mentions n f <;> cases f.isMarked n <;> simp

end Schema

namespace Stock

def partType (name : String) : ObjectType where
  name := .text name
  members := .ofFields [{ name := .text "size", type := .text "int" }]

def tags : Field where
  name := .text "tags"
  type := .text listMarker
  ofType := .text "string"

def parts (name : String) : Field where
  name := .text "parts"
  type := .text listMarker
  ofType := .text name

def itemType (fields : List Field) : ObjectType where
  name := .text "Item"
  members := .ofFields fields
  interfaces := .list [.text nodeInterface]

/-- Items with tags and with parts, the type of which is left open. -/
def schema (name : String) : Schema := ⟨[partType name, itemType [idField, tags, parts name]]⟩

def rules : Rules := ⟨.standard, []⟩

theorem valid : (schema "Part").Valid rules := by rfl

theorem markerFree : (schema "Part").MarkerFree := by
  simp [Schema.MarkerFree, ObjectType.CalledLikeMarker, schema, partType, itemType,
    connectionMarker, listMarker]

end Stock

theorem stock_loses_parts : (Stock.schema "Part").Valid Stock.rules ∧
    (Stock.schema "Part").apply (.deleteType (.text "Part")) =
      .ok ((Stock.schema "Part").cascaded "Part") := by
  have hfound : (Stock.schema "Part").type? "Part" = some (Stock.partType "Part") := rfl
  refine ⟨Stock.valid, ?_⟩
  obtain ⟨s', hs', _, hcascaded⟩ := Stock.valid.deleteType_cascades hfound
  rw [hs', hcascaded.mpr fun t _ _ f _ hmarked => ?_]
  obtain ⟨hmarker, hpart⟩ := Bool.and_eq_true_iff.mp hmarked
  rw [Field.isConnection, Field.isList, Value.spells_iff.mp hpart] at hmarker
  exact absurd hmarker (by decide)

theorem stock_loses_tags : (Stock.schema listMarker).Valid Stock.rules ∧
    (Stock.schema listMarker).apply (.deleteType (.text listMarker)) ≠
      .ok ((Stock.schema listMarker).cascaded listMarker) := by
  have hleft : (Stock.schema listMarker).apply (.deleteType (.text listMarker)) =
      .ok ⟨[Stock.itemType [idField]]⟩ := rfl
  have hright : (Stock.schema listMarker).cascaded listMarker =
      ⟨[Stock.itemType [idField, Stock.tags]]⟩ := rfl
  refine ⟨by rfl, fun heq => ?_⟩
  rw [hleft, hright] at heq
  cases heq

end ObjectQuery
