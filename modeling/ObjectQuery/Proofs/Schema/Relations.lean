import ObjectQuery.Proofs.Schema.Kinds

/-!
# The two ends of a relation

A relation is a reference at one end and a connection at the other. Validation compares what the two
ends are declared with, and a declared type is read as a marker before it is read as the name of a
type. So a reference always has a connection at its other end that leads back. A connection has a
field there that names it, but where its owner is called like a marker, that field is a list or a
connection itself.
-/

set_option autoImplicit false

namespace ObjectQuery

open Outcome Validation

/-- Whether a type has a name that fields are never references with. -/
def ObjectType.CalledLikeMarker (t : ObjectType) : Prop :=
  t.name = .text connectionMarker ∨ t.name = .text listMarker

/-- What is declared with a type that is not called like a marker is neither a connection nor a
list. -/
theorem Field.unmarked {f : Field} {u : ObjectType} (hf : f.type = u.name)
    (hu : ¬u.CalledLikeMarker) :
    f.isConnection = false ∧ f.isList = false := by
  constructor
  · rw [Bool.eq_false_iff]
    intro hc
    exact hu (.inl (hf.symm.trans (Value.spells_iff.mp hc)))
  · rw [Bool.eq_false_iff]
    intro hl
    exact hu (.inr (hf.symm.trans (Value.spells_iff.mp hl)))

namespace Schema

/-- At the other end of a connection from `t` is a reference to `t`. -/
def ReferredBack (s : Schema) (t : ObjectType) (g : Field) : Prop :=
  ∃ owner, t.name = .text owner ∧ s.kindOf g = .ok (.reference owner true)

/-- The field `g` of the node type `u` is where a connection `f` leads, and names it. -/
structure FarEnd (s : Schema) (f : Field) (target reverse : Value) (u : ObjectType) (g : Field) :
    Prop where
  type : target.text?.bind s.type? = some u
  isNode : u.isNode
  field : reverse.text?.bind u.field? = some g
  reverseName : g.reverseName = f.name

/-- What a connection leads to is a reference back. -/
def ConnectionInverted (s : Schema) (t : ObjectType) (f : Field) : Prop :=
  ∀ target reverse, s.kindOf f = .ok (.connection target reverse) →
    ∃ u g, s.FarEnd f target reverse u g ∧ s.ReferredBack t g

/-- What a reference to a node leads to is a connection back. -/
def ReferenceInverted (s : Schema) (t : ObjectType) (f : Field) : Prop :=
  ∀ target, s.kindOf f = .ok (.reference target true) →
    ∃ u g, s.type? target = some u ∧ f.reverseName.text?.bind u.field? = some g ∧
      s.kindOf g = .ok (.connection t.name f.name)

/-- Whether the relations of a schema are each other's inverses. -/
def RelationsInverse (s : Schema) : Prop :=
  ∀ t ∈ s.types, ∀ f ∈ t.declared, s.ConnectionInverted t f ∧ s.ReferenceInverted t f

variable {rules : Rules} {s : Schema} {t u : ObjectType} {f g : Field} {n r : String}

theorem kindOf_connection {target reverse : Value} (hc : f.isConnection = true)
    (ho : f.ofType = target) (hr : f.reverseName = reverse) (hot : target.isNull = false)
    (hrt : reverse.isNull = false) : s.kindOf f = .ok (.connection target reverse) := by
  unfold kindOf
  rw [if_pos hc, ho, hr, hot, hrt]
  rfl

theorem kindOf_reference (hc : f.isConnection = false) (hl : f.isList = false)
    (hs : Scalar.named? f.type = none) (hn : f.type = .text n) (hu : s.type? n = some u) :
    s.kindOf f = .ok (.reference n u.isNode) := by
  have hnamed : s.named f.type (.unknownType f) = .ok (n, u) := named_eq_ok.mpr ⟨hn, hu⟩
  unfold kindOf
  rw [if_neg (by simp [hc]), if_neg (by simp [hl]), hs, hnamed]
  rfl

/-- A reference to a node leads back, whatever the types are called. -/
theorem Valid.referenceInverted (h : s.Valid rules) (ht : t ∈ s.types) (hf : f ∈ t.declared) :
    s.ReferenceInverted t f := by
  intro target hk
  have hkinded := kinded_of_kindOf hk
  generalize hnode : true = isNode at hkinded
  cases hkinded with
  | @reference _ u hc hl hs hn hu =>
    have htarget : namesType s ObjectType.isNode f.target := by
      rw [Field.target, hc, if_neg Bool.false_ne_true]
      exact namesType_eq_true_iff.mpr ⟨target, u, hn, hu, hnode.symm⟩
    have hreverse := (h.reverseViolations ht hf htarget).2
    obtain ⟨owner, howner⟩ := h.exists_name ht
    obtain ⟨origin, horigin⟩ := h.exists_fieldName ht hf
    unfold Validation.reverseViolations at hreverse
    simp only [counterpart, hc, Bool.false_eq_true, if_false, hn, Value.text?_text,
      Option.bind_some, hu] at hreverse
    split at hreverse
    · cases hreverse
    · rename_i g hg
      simp only [List.append_eq_nil_iff, check_eq_nil_iff, howner, horigin,
        Value.equal_text_iff] at hreverse
      obtain ⟨⟨hback, htype⟩, hof⟩ := hreverse
      obtain ⟨r, hr, hfield⟩ := h.reverseField (mem_of_type? hu) hg
      refine ⟨u, g, hu, ?_, ?_⟩
      · rw [hr, Value.text?_text, Option.bind_some, hfield]
      · rw [howner, horigin]
        exact kindOf_connection (Value.spells_iff.mpr htype) hof hback rfl rfl

/-- The field at the other end of a connection names it. -/
theorem Valid.reverseName_of_connects (h : s.Valid rules) (ht : t ∈ s.types)
    (hf : f ∈ t.declared) (hc : f.isConnection = true) (hcon : Connects s t f n r u g) :
    g.reverseName = f.name := by
  have htarget : namesType s ObjectType.isNode f.target := by
    rw [Field.target, if_pos hc]
    exact namesType_eq_true_iff.mpr ⟨n, u, hcon.ofType, hcon.target, hcon.isNode⟩
  have hreverse := (h.reverseViolations ht hf htarget).2
  obtain ⟨origin, horigin⟩ := h.exists_fieldName ht hf
  unfold Validation.reverseViolations at hreverse
  simp only [counterpart, if_pos hc, hcon.ofType, Value.text?_text, Option.bind_some,
    hcon.target] at hreverse
  split at hreverse
  · cases hreverse
  · rename_i g' hg'
    obtain ⟨r', hr', hfield⟩ := h.reverseField (mem_of_type? hcon.target) hg'
    cases hcon.reverseName.symm.trans hr'
    cases hcon.field.symm.trans hfield
    simp only [List.append_nil, List.append_eq_nil_iff, check_eq_nil_iff, horigin,
      Value.equal_text_iff] at hreverse
    exact hreverse.1.trans horigin.symm

/-- A connection leads to a field of a node that names it and is declared with its owner. -/
theorem Valid.exists_farEnd (h : s.Valid rules) (ht : t ∈ s.types) (hf : f ∈ t.declared)
    {target reverse : Value} (hk : s.kindOf f = .ok (.connection target reverse)) :
    t.isNode ∧ ∃ u g, s.FarEnd f target reverse u g ∧ g.type = t.name := by
  obtain ⟨hc, rfl, rfl⟩ := connection_of_kindOf hk
  obtain ⟨hnode, n, r, u, g, hcon⟩ := h.connects ht hf hc
  refine ⟨hnode, u, g, ⟨?_, hcon.isNode, ?_, h.reverseName_of_connects ht hf hc hcon⟩, hcon.type⟩
  · rw [hcon.ofType, Value.text?_text, Option.bind_some, hcon.target]
  · rw [hcon.reverseName, Value.text?_text, Option.bind_some, hcon.field]

theorem FarEnd.unique {target reverse : Value} {u' : ObjectType} {g' : Field}
    (h : s.FarEnd f target reverse u g) (h' : s.FarEnd f target reverse u' g') : g = g' := by
  obtain rfl := Option.some.inj (h.type.symm.trans h'.type)
  exact Option.some.inj (h.field.symm.trans h'.field)

/-- A field that is declared with the name of a node refers to it, unless the name is a marker. -/
theorem Valid.referredBack_iff (h : s.Valid rules) (ht : t ∈ s.types) (hnode : t.isNode = true)
    (hg : g.type = t.name) : s.ReferredBack t g ↔ ¬t.CalledLikeMarker := by
  obtain ⟨owner, howner⟩ := h.exists_name ht
  constructor
  · rintro ⟨_, _, hk⟩ hmarker
    have hkinded := kinded_of_kindOf hk
    generalize true = isNode at hkinded
    cases hkinded with
    | reference hc hl =>
      rcases hmarker with hm | hm
      · exact Bool.eq_false_iff.mp hc (Value.spells_iff.mpr (hg.trans hm))
      · exact Bool.eq_false_iff.mp hl (Value.spells_iff.mpr (hg.trans hm))
  · intro hmarker
    obtain ⟨hc, hl⟩ := Field.unmarked hg hmarker
    have hs : Scalar.named? g.type = none := by
      rw [hg]
      exact h.named?_eq_none ht
    refine ⟨owner, howner, ?_⟩
    rw [← hnode]
    exact kindOf_reference hc hl hs (hg.trans howner) (h.type?_of_mem ht howner)

/-- Whether no type that is called like a marker declares a connection. -/
def NoConnectionFromMarker (s : Schema) : Prop :=
  ∀ t ∈ s.types, t.CalledLikeMarker → ∀ f ∈ t.declared, f.isConnection = false

theorem Valid.connectionInverted (h : s.Valid rules) (hm : s.NoConnectionFromMarker)
    (ht : t ∈ s.types) (hf : f ∈ t.declared) : s.ConnectionInverted t f := by
  intro target reverse hk
  obtain ⟨hnode, u, g, hfar, hg⟩ := h.exists_farEnd ht hf hk
  refine ⟨u, g, hfar, (h.referredBack_iff ht hnode hg).mpr fun hmarker => ?_⟩
  have hc := (connection_of_kindOf hk).1
  rw [hm t ht hmarker f hf] at hc
  cases hc

theorem Valid.not_calledLikeMarker (h : s.Valid rules) (hi : s.RelationsInverse)
    (ht : t ∈ s.types) (hf : f ∈ t.declared) (hc : f.isConnection = true) :
    ¬t.CalledLikeMarker := by
  obtain ⟨_, n, r, u, g, hcon⟩ := h.connects ht hf hc
  have hk : s.kindOf f = .ok (.connection (.text n) (.text r)) :=
    kindOf_connection hc hcon.ofType hcon.reverseName rfl rfl
  obtain ⟨hnode, u', g', hfar, hg'⟩ := h.exists_farEnd ht hf hk
  obtain ⟨u'', g'', hfar', hback⟩ := (hi t ht f hf).1 _ _ hk
  rw [← hfar.unique hfar'] at hback
  exact (h.referredBack_iff ht hnode hg').mp hback

/-- In a valid schema every reference to a node leads back; every connection leads to a field of a
node that names it, and that field is a reference back unless the owner of the connection is called
like a marker. So the relations are inverses if no type called like a marker declares a
connection, and only then. -/
theorem Valid.relationsInverse_iff (h : s.Valid rules) :
    (∀ t ∈ s.types, ∀ f ∈ t.declared, s.ReferenceInverted t f ∧
      ∀ target reverse, s.kindOf f = .ok (.connection target reverse) →
        ∃ u g, s.FarEnd f target reverse u g ∧ (s.ReferredBack t g ↔ ¬t.CalledLikeMarker)) ∧
      (s.RelationsInverse ↔ s.NoConnectionFromMarker) := by
  refine ⟨fun t ht f hf => ⟨h.referenceInverted ht hf, fun target reverse hk => ?_⟩, ?_, ?_⟩
  · obtain ⟨hnode, u, g, hfar, hg⟩ := h.exists_farEnd ht hf hk
    exact ⟨u, g, hfar, h.referredBack_iff ht hnode hg⟩
  · intro hi t ht hmarker f hf
    by_contra hc
    rw [Bool.not_eq_false] at hc
    exact h.not_calledLikeMarker hi ht hf hc hmarker
  · intro hm t ht f hf
    exact ⟨h.connectionInverted hm ht hf, h.referenceInverted ht hf⟩

end Schema

namespace Nested

/-- Wholes and their parts, all of one type, the name of which is left open. -/
def type (name : String) (ofType : Value) : ObjectType where
  name := .text name
  members := .ofFields [
    idField,
    { name := .text "parts", type := .text connectionMarker, ofType := .text name,
      reverseName := .text "whole" },
    { name := .text "whole", type := .text name, ofType := ofType, reverseName := .text "parts" }]
  interfaces := .list [.text nodeInterface]

def schema (name : String) (ofType : Value) : Schema := ⟨[type name ofType]⟩

def rules : Rules := ⟨.standard, []⟩

end Nested

theorem nested_relationsInverse : (Nested.schema "Part" .null).Valid Nested.rules ∧
    (Nested.schema "Part" .null).RelationsInverse := by
  have hvalid : (Nested.schema "Part" .null).Valid Nested.rules := by rfl
  refine ⟨hvalid, hvalid.relationsInverse_iff.2.mpr ?_⟩
  intro t ht hmarker
  obtain rfl := List.mem_singleton.mp ht
  rcases hmarker with hm | hm <;> exact absurd (Value.text.inj hm) (by decide)

theorem nested_lists_not_inverse :
    (Nested.schema listMarker (.text "string")).Valid Nested.rules ∧
      ¬(Nested.schema listMarker (.text "string")).RelationsInverse := by
  have hvalid : (Nested.schema listMarker (.text "string")).Valid Nested.rules := by rfl
  have ht : Nested.type listMarker (.text "string") ∈
      (Nested.schema listMarker (.text "string")).types := List.mem_singleton_self _
  refine ⟨hvalid, fun hi => ?_⟩
  exact hvalid.not_calledLikeMarker hi ht (List.mem_cons_of_mem _ List.mem_cons_self) rfl (.inr rfl)

end ObjectQuery
