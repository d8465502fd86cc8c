import ObjectQuery.Proofs.Schema.Conditions
import ObjectQuery.Proofs.Schema.Relations

/-!
# Relations come in pairs

Where no type is called like a marker, a relation is a connection at one end and a reference at the
other, and each of the two fields names the other. So neither is in order without the other one:
a schema that has one end of a relation has a field of the name at the other.
-/

set_option autoImplicit false

namespace ObjectQuery

open Validation

/-- Whether a field is a connection, or declared with a node. -/
def Schema.isRelation (s : Schema) (f : Field) : Bool :=
  f.isConnection || namesType s ObjectType.isNode f.type

/-- Whether no type is called like a marker. -/
def Schema.MarkerFree (s : Schema) : Prop := ∀ t ∈ s.types, ¬t.CalledLikeMarker

/-- A connection of a type and the reference of another one that it leads to. -/
structure Coupled (t : ObjectType) (f : Field) (u : ObjectType) (g : Field) : Prop where
  isConnection : f.isConnection = true
  ofType : f.ofType = u.name
  reverseName : f.reverseName = g.name
  type : g.type = t.name
  backName : g.reverseName = f.name

/-- The two ends of a relation, either of which may be the connection. -/
inductive Opposite (t : ObjectType) (f : Field) (u : ObjectType) (g : Field) : Prop where
  | connection (h : Coupled t f u g)
  | reference (h : Coupled u g t f)

namespace Opposite

variable {s : Schema} {t t' u u' : ObjectType} {f g : Field} {n : String}

theorem symm (h : Opposite t f u g) : Opposite u g t f := by
  cases h with
  | connection h => exact .reference h
  | reference h => exact .connection h

theorem reverseName (h : Opposite t f u g) : f.reverseName = g.name := by
  cases h with
  | connection h => exact h.reverseName
  | reference h => exact h.backName

theorem congr (h : Opposite t f u g) (ht : t'.name = t.name) (hu : u'.name = u.name) :
    Opposite t' f u' g := by
  cases h with
  | connection h =>
    exact .connection ⟨h.isConnection, h.ofType.trans hu.symm, h.reverseName,
      h.type.trans ht.symm, h.backName⟩
  | reference h =>
    exact .reference ⟨h.isConnection, h.ofType.trans ht.symm, h.reverseName,
      h.type.trans hu.symm, h.backName⟩

theorem target (h : Opposite t f u g) (hu : ¬u.CalledLikeMarker) : f.target = u.name := by
  cases h with
  | connection h => rw [Field.target, if_pos h.isConnection, h.ofType]
  | reference h =>
    rw [Field.target, (Field.unmarked h.type hu).1, if_neg Bool.false_ne_true, h.type]

/-- An end of a relation refers to the type at the other end of it and to no other type. -/
theorem refersTo_eq {rules : Rules} (h : Opposite t f u g) (hf : Schema.FieldFacts rules s t f)
    (hu : ¬u.CalledLikeMarker) (hn : n ≠ connectionMarker) :
    f.refersTo (.text n) = u.name.spells n := by
  rw [Field.refersTo, Value.equal_text_eq, Value.equal_text_eq]
  cases h with
  | connection h =>
    rw [Value.spells_iff.mp h.isConnection, h.ofType, Value.spells_text,
      beq_false_of_ne hn.symm, Bool.false_or]
  | reference h =>
    obtain ⟨hc, hl⟩ := Field.unmarked h.type hu
    rw [hf.ofType_eq_null hc hl, h.type, show Value.null.spells n = false from rfl, Bool.or_false]

/-- One end is a connection and the other is not. -/
theorem ne (h : Opposite t f u g) (ht : ¬t.CalledLikeMarker) (hu : ¬u.CalledLikeMarker) :
    f ≠ g := by
  rintro rfl
  cases h with
  | connection h =>
    exact Bool.false_ne_true ((Field.unmarked h.type ht).1.symm.trans h.isConnection)
  | reference h =>
    exact Bool.false_ne_true ((Field.unmarked h.type hu).1.symm.trans h.isConnection)

end Opposite

namespace Validation

variable {rules : Rules} {s : Schema} {t u : ObjectType} {f g : Field} {n : String}

theorem exists_of_fieldName {v : Value} (h : textSatisfies isFieldName v = true) :
    ∃ n, v = .text n ∧ n ≠ "" := by
  cases v with
  | text n =>
    refine ⟨n, rfl, ?_⟩
    rintro rfl
    cases h
  | _ => cases h

theorem reverseField?_eq (hfields : (u.declared.map (·.name)).Nodup) (hg : g ∈ u.declared)
    (hgn : textSatisfies isFieldName g.name = true) (h : f.reverseName = g.name) :
    reverseField? u f = some g := by
  obtain ⟨m, hm, hne⟩ := exists_of_fieldName hgn
  have htrue : f.reverseName.isTrue = true := by
    rw [h, hm]
    simpa [Value.isTrue] using hne
  rw [reverseField?, if_pos htrue, h, hm]
  simp only [Value.equal_text_eq]
  exact Schema.field?_of_nodup hfields hg hm

/-- With the other end in its place there is nothing wrong with a relation of a node. -/
theorem relationViolations_of_opposite (h : Opposite t f u g) (hnames : s.typeNames.Nodup)
    (hfields : (u.declared.map (·.name)).Nodup) (hu : u ∈ s.types) (hg : g ∈ u.declared)
    (hun : u.name = .text n) (htn : ∃ m, t.name = .text m) (hnode : t.isNode = true)
    (hfn : textSatisfies isFieldName f.name = true)
    (hgn : textSatisfies isFieldName g.name = true) (hmarker : ¬u.CalledLikeMarker) :
    relationViolations s t f = [] := by
  obtain ⟨m, htn⟩ := htn
  obtain ⟨k, hfn, _⟩ := exists_of_fieldName hfn
  have htype := Schema.type?_of_nodup hnames hu hun
  have hreverse := reverseField?_eq hfields hg hgn h.reverseName
  have hback : g.reverseName = .text k := h.symm.reverseName.trans hfn
  have htarget := (h.target hmarker).trans hun
  unfold relationViolations
  split
  · rw [reverseViolations]
    rw [Field.target] at htarget
    cases h with
    | connection h =>
      rw [if_pos h.isConnection] at htarget
      simp [counterpart, h.isConnection, htarget, htype, hreverse, hback, hfn, h.type, htn]
    | reference h =>
      have hmarked := Value.spells_iff.mp h.isConnection
      have hnot := (Field.unmarked h.type hmarker).1
      rw [hnot, if_neg Bool.false_ne_true] at htarget
      simp [counterpart, hnot, htarget, htype, hreverse, hback, hfn, hmarked, h.ofType, htn]
  · rfl

end Validation

namespace Schema

variable {rules : Rules} {s s' : Schema} {t t' u u' : ObjectType} {f g : Field} {n : String}

/-- What a relation points at is a node, and what points at a node is a relation. -/
theorem FieldFacts.isRelation_eq (h : FieldFacts rules s t f) :
    s.isRelation f = namesType s ObjectType.isNode f.target := by
  have ho := h.ofType
  rw [isRelation, Field.target]
  cases hc : f.isConnection with
  | true =>
    rw [ofTypeViolations, if_pos hc, check_eq_nil_iff] at ho
    rw [if_pos rfl, ho, Bool.true_or]
  | false => rw [if_neg Bool.false_ne_true, Bool.false_or]

/-- A relation is declared by a node, and so is the field at its other end. -/
theorem Valid.exists_opposite (h : s.Valid rules) (hm : s.MarkerFree) (ht : t ∈ s.types)
    (hf : f ∈ t.declared) (hr : s.isRelation f = true) :
    t.isNode = true ∧ ∃ u ∈ s.types, ∃ g ∈ u.declared, u.isNode = true ∧ Opposite t f u g := by
  have htarget := (h.fieldFacts ht hf).isRelation_eq.symm.trans hr
  obtain ⟨hnode, _⟩ := h.reverseViolations ht hf htarget
  refine ⟨hnode, ?_⟩
  cases hc : f.isConnection with
  | true =>
    obtain ⟨_, n, r, u, g, hcon⟩ := h.connects ht hf hc
    refine ⟨u, mem_of_type? hcon.target, g, ObjectType.mem_of_field? hcon.field, hcon.isNode, ?_⟩
    exact .connection ⟨hc, hcon.ofType.trans (type?_name hcon.target).symm,
      hcon.reverseName.trans (ObjectType.field?_name hcon.field).symm, hcon.type,
      h.reverseName_of_connects ht hf hc hcon⟩
  | false =>
    rw [Field.target, hc, if_neg Bool.false_ne_true] at htarget
    obtain ⟨n, u, hn, hu, hunode⟩ := namesType_eq_true_iff.mp htarget
    have hun := type?_name hu
    have hl := (Field.unmarked (hn.trans hun.symm) (hm u (mem_of_type? hu))).2
    have hs : Scalar.named? f.type = none := by
      rw [hn, ← hun]
      exact h.named?_eq_none (mem_of_type? hu)
    have hk := kindOf_reference hc hl hs hn hu
    rw [hunode] at hk
    obtain ⟨u', g, hu', hg, hkind⟩ := h.referenceInverted ht hf n hk
    cases hu.symm.trans hu'
    obtain ⟨r, hr, hg⟩ := Option.bind_eq_some_iff.mp hg
    obtain ⟨hgc, hgo, hgr⟩ := connection_of_kindOf hkind
    refine ⟨u, mem_of_type? hu, g, ObjectType.mem_of_field? hg, hunode, ?_⟩
    exact .reference ⟨hgc, hgo.symm, hgr.symm, hn.trans hun.symm,
      (Value.text?_eq_some_iff.mp hr).trans (ObjectType.field?_name hg).symm⟩

/-- The other end of a relation is a relation. -/
theorem Valid.isRelation_of_opposite (h : s.Valid rules) (hm : s.MarkerFree) (ht : t ∈ s.types)
    (hf : f ∈ t.declared) (ho : Opposite t f u g) : s.isRelation g = true := by
  cases ho with
  | connection hc =>
    have hr : s.isRelation f = true := by rw [isRelation, hc.isConnection, Bool.true_or]
    obtain ⟨hnode, _⟩ := h.exists_opposite hm ht hf hr
    obtain ⟨n, hn⟩ := h.exists_name ht
    have htarget : namesType s ObjectType.isNode g.type = true :=
      namesType_eq_true_iff.mpr ⟨n, t, hc.type.trans hn, h.type?_of_mem ht hn, hnode⟩
    rw [isRelation, htarget, Bool.or_true]
  | reference hc => rw [isRelation, hc.isConnection, Bool.true_or]

/-- A field of a valid schema stays in order where what it is declared with is what it was and the
other end of it is still there. -/
theorem Valid.fieldFacts_in (h : s.Valid rules) (hm : s.MarkerFree) (ht : t ∈ s.types)
    (hf : f ∈ t.declared) (hname : t'.name = t.name) (hnode : t'.isNode = t.isNode)
    (htype : s'.standing f.type = s.standing f.type)
    (hof : s'.standing f.ofType = s.standing f.ofType) (hnames : s'.typeNames.Nodup)
    (hfields : ∀ u ∈ s'.types, (u.declared.map (·.name)).Nodup)
    (hends : ∀ u ∈ s.types, ∀ g ∈ u.declared, Opposite t f u g →
      ∃ u' ∈ s'.types, u'.name = u.name ∧ g ∈ u'.declared) : FieldFacts rules s' t' f := by
  have hfacts := h.fieldFacts ht hf
  refine hfacts.transfer hname htype hof ?_
  cases hr : s.isRelation f with
  | true =>
    obtain ⟨htnode, u, hu, g, hg, _, ho⟩ := h.exists_opposite hm ht hf hr
    obtain ⟨u', hu', hun, hg'⟩ := hends u hu g hg ho
    obtain ⟨n, hn⟩ := h.exists_name hu
    have hmarker : ¬u'.CalledLikeMarker := by
      rw [ObjectType.CalledLikeMarker, hun]
      exact hm u hu
    refine relationViolations_of_opposite (ho.congr hname hun) hnames (hfields u' hu') hu' hg'
      (hun.trans hn) ?_ (hnode.trans htnode) hfacts.name (h.fieldFacts hu hg).name hmarker
    rw [hname]
    exact h.exists_name ht
  | false =>
    have htarget : s'.standing f.target = s.standing f.target := by
      rw [Field.target]
      split
      · exact hof
      · exact htype
    rw [relationViolations, if_neg]
    rw [namesType_isNode, htarget, ← namesType_isNode, Bool.not_eq_true]
    exact hfacts.isRelation_eq.symm.trans hr

/-- A valid schema with one end of a relation has a field of the name at the other. -/
theorem Valid.exists_named (h : s.Valid rules) (hm : s.MarkerFree) (hu : u' ∈ s.types)
    (hg : g ∈ u'.declared) (hr : s.isRelation g = true) (ho : Opposite t f u g)
    (ht : ¬t.CalledLikeMarker) :
    ∃ t' ∈ s.types, t'.name = t.name ∧ ∃ f' ∈ t'.declared, f'.name = f.name := by
  obtain ⟨_, t', ht', f', hf', _, ho'⟩ := h.exists_opposite hm hu hg hr
  refine ⟨t', ht', ?_, f', hf', ?_⟩
  · exact (ho'.target (hm t' ht')).symm.trans (ho.symm.target ht)
  · exact ho'.reverseName.symm.trans ho.symm.reverseName

theorem isRelation_congr (h : s'.standing f.type = s.standing f.type) :
    s'.isRelation f = s.isRelation f := by
  rw [isRelation, isRelation, namesType_isNode, namesType_isNode, h]

/-- A field that one valid schema has and another one lacks is no relation, if the fields that it
could be the opposite of are in both. -/
theorem Valid.isRelation_eq_false (h : s.Valid rules) (hm : s.MarkerFree) (ht : t ∈ s.types)
    (hf : f ∈ t.declared) (h' : s'.Valid rules) (hm' : s'.MarkerFree)
    (hstanding : ∀ v, s'.standing v = s.standing v)
    (hothers : ∀ u ∈ s.types, ∀ g ∈ u.declared, g ≠ f → ∃ u' ∈ s'.types, g ∈ u'.declared)
    (hlacks : ∀ t' ∈ s'.types, t'.name = t.name → ∀ f' ∈ t'.declared, f'.name ≠ f.name) :
    s.isRelation f = false := by
  by_contra hr
  rw [Bool.not_eq_false] at hr
  obtain ⟨_, u, hu, g, hg, _, ho⟩ := h.exists_opposite hm ht hf hr
  have hgr := h.isRelation_of_opposite hm ht hf ho
  rw [← isRelation_congr (hstanding g.type)] at hgr
  obtain ⟨u', hu', hg'⟩ := hothers u hu g hg (ho.ne (hm t ht) (hm u hu)).symm
  obtain ⟨t', ht', htn, f', hf', hfn⟩ := h'.exists_named hm' hu' hg' hgr ho (hm t ht)
  exact hlacks t' ht' htn f' hf' hfn

end Schema

end ObjectQuery
