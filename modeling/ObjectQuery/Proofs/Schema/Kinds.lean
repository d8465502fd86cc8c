import ObjectQuery.Proofs.Schema.Validity

/-!
# Kinds of fields of a valid schema

In a valid schema every field has a kind, the type that a kind speaks of is there, and whether it is
a node is as the kind has it. Connections and references lead from nodes to nodes.
-/

set_option autoImplicit false

namespace ObjectQuery

open Outcome Validation

namespace Validation

theorem namesType_eq_true_iff {s : Schema} {p : ObjectType → Bool} {v : Value} :
    namesType s p v = true ↔ ∃ n t, v = .text n ∧ s.type? n = some t ∧ p t = true := by
  cases v <;> simp [namesType, Option.any_eq_true]

end Validation

namespace Schema

variable {rules : Rules} {s : Schema} {t u : ObjectType} {f : Field} {k : FieldKind} {n : String}

theorem named_eq_ok {v : Value} {missing : KindDefect} {m : String × ObjectType} :
    s.named v missing = .ok m ↔ v = .text m.1 ∧ s.type? m.1 = some m.2 := by
  obtain ⟨n, u⟩ := m
  cases v with
  | text m =>
    simp only [named]
    split
    · rename_i w hw
      simp only [Except.ok.injEq, Prod.mk.injEq, Value.text.injEq]
      constructor
      · rintro ⟨rfl, rfl⟩
        exact ⟨rfl, hw⟩
      · rintro ⟨rfl, hu⟩
        exact ⟨rfl, Option.some.inj (hw.symm.trans hu)⟩
    · rename_i hw
      simp only [reduceCtorEq, Value.text.injEq, false_iff, not_and]
      rintro rfl hu
      simp [hw] at hu
  | _ => simp [named]

/-- The kind of a field, by what the field is declared with. -/
inductive Kinded (s : Schema) (f : Field) : FieldKind → Prop where
  | connection (hc : f.isConnection = true) : Kinded s f (.connection f.ofType f.reverseName)
  | scalarList {c : Scalar} (hc : f.isConnection = false) (hl : f.isList = true)
      (ho : Scalar.named? f.ofType = some c) : Kinded s f (.scalarList c)
  | objectList {n : String} {u : ObjectType} (hc : f.isConnection = false) (hl : f.isList = true)
      (ho : Scalar.named? f.ofType = none) (hn : f.ofType = .text n) (hu : s.type? n = some u) :
      Kinded s f (.objectList n)
  | scalar {c : Scalar} (hc : f.isConnection = false) (hl : f.isList = false)
      (ht : Scalar.named? f.type = some c) : Kinded s f (.scalar c)
  | reference {n : String} {u : ObjectType} (hc : f.isConnection = false) (hl : f.isList = false)
      (ht : Scalar.named? f.type = none) (hn : f.type = .text n) (hu : s.type? n = some u) :
      Kinded s f (.reference n u.isNode)

theorem kinded_of_kindOf (h : s.kindOf f = .ok k) : Kinded s f k := by
  unfold kindOf at h
  split at h
  · rename_i hc
    split at h
    · cases h
    · cases h
      exact .connection hc
  · rename_i hc
    rw [Bool.not_eq_true] at hc
    split at h
    · rename_i hl
      split at h
      · rename_i c ho
        cases h
        exact .scalarList hc hl ho
      · rename_i ho
        obtain ⟨m, hm, hr⟩ := bind_eq_ok.mp h
        obtain ⟨hn, hu⟩ := named_eq_ok.mp hm
        cases hr
        exact .objectList hc hl ho hn hu
    · rename_i hl
      rw [Bool.not_eq_true] at hl
      split at h
      · rename_i c ht
        cases h
        exact .scalar hc hl ht
      · rename_i ht
        obtain ⟨m, hm, hr⟩ := bind_eq_ok.mp h
        obtain ⟨hn, hu⟩ := named_eq_ok.mp hm
        cases hr
        exact .reference hc hl ht hn hu

theorem connection_of_kindOf {target reverse : Value}
    (h : s.kindOf f = .ok (.connection target reverse)) :
    f.isConnection = true ∧ target = f.ofType ∧ reverse = f.reverseName := by
  cases kinded_of_kindOf h with
  | connection hc => exact ⟨hc, rfl, rfl⟩

theorem Valid.connection_target (h : s.Valid rules) (ht : t ∈ s.types) (hf : f ∈ t.declared)
    (hc : f.isConnection = true) : ∃ n u, f.ofType = .text n ∧ s.type? n = some u ∧ u.isNode := by
  have ho := (h.fieldFacts ht hf).ofType
  rw [ofTypeViolations, if_pos hc, check_eq_nil_iff] at ho
  exact namesType_eq_true_iff.mp ho

theorem Valid.reverseViolations (h : s.Valid rules) (ht : t ∈ s.types) (hf : f ∈ t.declared)
    (hn : namesType s ObjectType.isNode f.target) :
    t.isNode ∧ Validation.reverseViolations s t f = [] := by
  have hr := (h.fieldFacts ht hf).relation
  rw [relationViolations, if_pos hn] at hr
  split at hr
  · rename_i hnode
    exact ⟨hnode, hr⟩
  · cases hr

theorem Valid.reverseField (h : s.Valid rules) (hu : u ∈ s.types) {g : Field}
    (hg : reverseField? u f = some g) : ∃ r, f.reverseName = .text r ∧ u.field? r = some g := by
  unfold reverseField? at hg
  split at hg
  · have hmem := List.mem_of_find?_eq_some hg
    have heq := List.find?_some hg
    obtain ⟨r, hr⟩ := h.exists_fieldName hu hmem
    rw [hr] at heq
    exact ⟨r, Value.text_equal_iff.mp heq, h.field?_of_mem hu hmem hr⟩
  · cases hg

/-- At the other end of a connection is a field that is declared with its owner. -/
structure Connects (s : Schema) (t : ObjectType) (f : Field) (n r : String) (u : ObjectType)
    (g : Field) : Prop where
  ofType : f.ofType = .text n
  reverseName : f.reverseName = .text r
  target : s.type? n = some u
  isNode : u.isNode
  field : u.field? r = some g
  type : g.type = t.name

theorem Valid.connects (h : s.Valid rules) (ht : t ∈ s.types) (hf : f ∈ t.declared)
    (hc : f.isConnection = true) : t.isNode ∧ ∃ n r u g, Connects s t f n r u g := by
  obtain ⟨n, u, ho, hu, hnode⟩ := h.connection_target ht hf hc
  have htarget : namesType s ObjectType.isNode f.target := by
    rw [Field.target, if_pos hc]
    exact namesType_eq_true_iff.mpr ⟨n, u, ho, hu, hnode⟩
  obtain ⟨htnode, hr⟩ := h.reverseViolations ht hf htarget
  refine ⟨htnode, ?_⟩
  unfold Validation.reverseViolations at hr
  simp only [counterpart, if_pos hc, ho, Value.text?_text, Option.bind_some, hu] at hr
  split at hr
  · cases hr
  · rename_i g hg
    simp only [List.append_nil, List.append_eq_nil_iff, check_eq_nil_iff] at hr
    obtain ⟨r, hrn, hgf⟩ := h.reverseField (mem_of_type? hu) hg
    obtain ⟨tn, htn⟩ := h.exists_name ht
    rw [htn, Value.equal_text_iff] at hr
    exact ⟨n, r, u, g, ho, hrn, hu, hnode, hgf, hr.2.trans htn.symm⟩

/-- Objects without an id have no references to those that have one. -/
theorem Valid.isNode_of_related (h : s.Valid rules) (ht : t ∈ s.types) (hf : f ∈ t.declared)
    (hk : s.kindOf f = .ok (.reference n true)) : t.isNode = true := by
  have hkinded := kinded_of_kindOf hk
  generalize hnode : true = isNode at hkinded
  cases hkinded with
  | @reference _ u hc _ _ hn hu =>
    have htarget : namesType s ObjectType.isNode f.target := by
      rw [Field.target, hc, if_neg Bool.false_ne_true]
      exact namesType_eq_true_iff.mpr ⟨n, u, hn, hu, hnode.symm⟩
    exact (h.reverseViolations ht hf htarget).1.trans hnode

/-- The names of scalars do not begin with a capital letter. -/
theorem named?_eq_none_of_isTypeName (h : isTypeName n = true) :
    Scalar.named? (.text n) = none := by
  rw [Scalar.named?, Scalar.ofName?, List.find?_eq_none]
  intro c _ hc
  rw [← beq_iff_eq.mp hc] at h
  cases c <;> revert h <;> decide

/-- No type is called like a scalar. -/
theorem Valid.named?_eq_none (h : s.Valid rules) (ht : t ∈ s.types) :
    Scalar.named? t.name = none := by
  have hname := (h.typeFacts ht).names
  obtain ⟨n, hn⟩ := h.exists_name ht
  simp only [nameViolations, List.append_eq_nil_iff, check_eq_nil_iff, hn] at hname
  have hcapital : isTypeName n = true := by simpa [Value.isNull, textSatisfies] using hname.1
  rw [hn, named?_eq_none_of_isTypeName hcapital]

/-- The field at the other end of a connection refers to the owner, unless the owner is called like
one of the markers. -/
theorem Valid.kindOf_reverse (h : s.Valid rules) (ht : t ∈ s.types) {r : String} {g : Field}
    (hc : Connects s t f n r u g) (hl : t.name ≠ .text listMarker) (hk : s.kindOf g = .ok k) :
    (∃ target reverse, k = .connection target reverse) ∨
      ∃ owner, k = .reference owner t.isNode := by
  cases kinded_of_kindOf hk with
  | connection => exact .inl ⟨_, _, rfl⟩
  | scalarList _ hlist => exact absurd (hc.type.symm.trans (Value.spells_iff.mp hlist)) hl
  | objectList _ hlist => exact absurd (hc.type.symm.trans (Value.spells_iff.mp hlist)) hl
  | scalar _ _ hscalar =>
    rw [hc.type, h.named?_eq_none ht] at hscalar
    cases hscalar
  | @reference owner w _ _ _ hn hw =>
    rw [h.type?_of_mem ht (hc.type.symm.trans hn)] at hw
    cases hw
    exact .inr ⟨owner, rfl⟩

theorem Valid.exists_kindOf (h : s.Valid rules) (ht : t ∈ s.types) (hf : f ∈ t.declared) :
    ∃ k, s.kindOf f = .ok k := by
  unfold kindOf
  by_cases hc : f.isConnection = true
  · obtain ⟨_, n, r, u, g, hcon⟩ := h.connects ht hf hc
    simp [hc, hcon.ofType, hcon.reverseName, Value.isNull]
  · have hfacts := h.fieldFacts ht hf
    rw [Bool.not_eq_true] at hc
    by_cases hl : f.isList = true
    · have ho := hfacts.ofType
      rw [ofTypeViolations, if_neg (by simp [hc]), if_pos hl, check_eq_nil_iff, Bool.or_eq_true,
        namesType_eq_true_iff] at ho
      rw [if_neg (by simp [hc]), if_pos hl]
      split
      · exact ⟨_, rfl⟩
      · rename_i hs
        rcases ho with ho | ⟨n, u, hn, hu, _⟩
        · simp [Scalar.isNamedBy, hs] at ho
        · rw [named_eq_ok (m := (n, u)) |>.mpr ⟨hn, hu⟩]
          exact ⟨_, rfl⟩
    · have hk := hfacts.typeKnown
      rw [Bool.not_eq_true] at hl
      rw [if_neg (by simp [hc]), if_neg (by simp [hl])]
      split
      · exact ⟨_, rfl⟩
      · rename_i hs
        simp only [Scalar.isNamedBy, hs, Option.isSome_none, hc, hl, Bool.or_false,
          Bool.false_or, namesType_eq_true_iff] at hk
        obtain ⟨n, u, hn, hu, _⟩ := hk
        rw [named_eq_ok (m := (n, u)) |>.mpr ⟨hn, hu⟩]
        exact ⟨_, rfl⟩

/-- Whether a reference is to a node is for its target to say. -/
theorem isNode_of_reference {isNode : Bool} (hk : s.kindOf f = .ok (.reference n isNode))
    (hu : s.type? n = some u) : u.isNode = isNode := by
  cases kinded_of_kindOf hk with
  | reference _ _ _ _ hw =>
    cases hu.symm.trans hw
    rfl

/-- A list of objects is of objects without an id. -/
theorem Valid.embedded_of_objectList (h : s.Valid rules) (ht : t ∈ s.types) (hf : f ∈ t.declared)
    (hk : s.kindOf f = .ok (.objectList n)) : ∃ u, s.type? n = some u ∧ u.isNode = false := by
  cases kinded_of_kindOf hk with
  | @objectList _ u hc hl hs hn hu =>
    have ho := (h.fieldFacts ht hf).ofType
    rw [ofTypeViolations, if_neg (by simp [hc]), if_pos hl, check_eq_nil_iff, Bool.or_eq_true,
      namesType_eq_true_iff] at ho
    rcases ho with ho | ⟨m, w, hm, hw, hnode⟩
    · simp [Scalar.isNamedBy, hs] at ho
    · cases hn.symm.trans hm
      cases hu.symm.trans hw
      exact ⟨u, hu, by simpa using hnode⟩

theorem Valid.exists_kinds (h : s.Valid rules) : ∃ kinds, s.kinds = .ok kinds := by
  have hin : ∀ t ∈ s.types, ∃ found, s.kindsIn t = .ok found := by
    intro t ht
    apply exists_mapM_ok
    intro f hf
    obtain ⟨k, hk⟩ := h.exists_kindOf ht hf
    exact ⟨(⟨t.name, f.name⟩, k), by rw [hk]; rfl⟩
  obtain ⟨found, hfound⟩ := exists_mapM_ok hin
  exact ⟨found.flatten, by rw [kinds, hfound]; rfl⟩

end Schema

/-- A snapshot can be taken of every valid schema. -/
theorem Snapshot.exists_of_valid {rules : Rules} {s : Schema} (h : s.Valid rules) :
    ∃ i, Snapshot.ofSchema rules s = .ok i ∧ i.schema = s ∧ i.rules = rules := by
  obtain ⟨kinds, hkinds⟩ := h.exists_kinds
  have hi : ∃ i, Snapshot.ofSchema rules s = .ok i := by
    unfold ofSchema
    split
    · rename_i e
      cases e.symm.trans h
    · split
      · exact ⟨_, rfl⟩
      · rename_i e
        cases e.symm.trans hkinds
    · rename_i e
      cases e.symm.trans h
  obtain ⟨i, hi⟩ := hi
  exact ⟨i, hi, ofSchema_schema hi⟩

end ObjectQuery
