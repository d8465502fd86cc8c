import Mathlib.Data.List.Perm.Basic
import ObjectQuery.Proofs.Schema.Cascade
import ObjectQuery.Proofs.Schema.Required

/-!
# Schemas in another order

Where two types or two fields of a type have one name, what is found under it depends on the order
in which they are declared. But a schema with such names is not valid in any order, and in a valid
one the same is found under every name whatever the order. So a schema stays valid, or stays
invalid, when its types and required names are put in another order, and so are the fields and the
interfaces of each type.
-/

set_option autoImplicit false

namespace ObjectQuery

open Outcome Validation

/-- The same entries in another order. What is no list has no order. -/
inductive Members.Reordered : Members → Members → Prop
  | listed {es fs : List Member} (h : es.Perm fs) : Reordered (.listed es) (.listed fs)
  | other (v : Value) : Reordered (.other v) (.other v)

/-- The same values in another order, if a value is a list, and the same value otherwise. -/
inductive Value.Reordered : Value → Value → Prop
  | list {vs ws : List Value} (h : vs.Perm ws) : Reordered (.list vs) (.list ws)
  | same (v : Value) : Reordered v v

/-- Two types that differ in the order of their fields and of their interfaces only. -/
structure ObjectType.Reordered (t u : ObjectType) : Prop where
  name : t.name = u.name
  members : t.members.Reordered u.members
  interfaces : t.interfaces.Reordered u.interfaces
  kind : t.kind = u.kind
  pluralName : t.pluralName = u.pluralName
  description : t.description = u.description

/-- Two schemas that differ in the order of their types, and of what is in each type, only. -/
def Schema.Reordered (s s' : Schema) : Prop :=
  ∃ ts, s.types.Perm ts ∧ List.Forall₂ ObjectType.Reordered ts s'.types

theorem Members.Reordered.symm {ms ns : Members} (h : ms.Reordered ns) : ns.Reordered ms := by
  cases h with
  | listed h => exact .listed h.symm
  | other v => exact .other v

theorem Value.Reordered.symm {v w : Value} (h : v.Reordered w) : w.Reordered v := by
  cases h with
  | list h => exact .list h.symm
  | same v => exact .same v

theorem Members.Reordered.ofFields {fs gs : List Field} (h : fs.Perm gs) :
    (Members.ofFields fs).Reordered (.ofFields gs) :=
  .listed (h.map _)

theorem Members.Reordered.of_ofFields {fs : List Field} {members : Members}
    (h : (Members.ofFields fs).Reordered members) :
    ∃ gs, members = .ofFields gs ∧ fs.Perm gs := by
  cases h with
  | @listed _ es h =>
    have hcomp : Relation.Comp (fun es gs => es = gs.map Member.field) List.Perm es fs := by
      rw [List.eq_map_comp_perm]
      exact h.symm
    obtain ⟨gs, rfl, hperm⟩ := hcomp
    exact ⟨gs, rfl, hperm.symm⟩

namespace ObjectType.Reordered

variable {rules : Rules} {t u : ObjectType} {v : Value}

theorem symm (h : t.Reordered u) : u.Reordered t :=
  ⟨h.name.symm, h.members.symm, h.interfaces.symm, h.kind.symm, h.pluralName.symm,
    h.description.symm⟩

theorem plural (h : t.Reordered u) : u.plural = t.plural := by
  rw [ObjectType.plural, ObjectType.plural, h.name, h.pluralName]

theorem perm_interfaceNames (h : t.Reordered u) :
    (interfaceNames t).Perm (interfaceNames u) := by
  have hinterfaces := h.interfaces
  unfold interfaceNames
  generalize t.interfaces = v at hinterfaces
  generalize u.interfaces = w at hinterfaces
  cases hinterfaces with
  | list h => exact h
  | same v => exact .refl _

theorem known_interfaces (h : t.Reordered u) :
    interfacesKnown rules u.interfaces = interfacesKnown rules t.interfaces := by
  have hinterfaces := h.interfaces
  generalize t.interfaces = v at hinterfaces
  generalize u.interfaces = w at hinterfaces
  cases hinterfaces with
  | list h => exact h.symm.all_eq
  | same v => rfl

theorem isNode (h : t.Reordered u) : u.isNode = t.isNode := by
  rw [Bool.eq_iff_iff, isNode_iff, isNode_iff]
  exact h.perm_interfaceNames.mem_iff.symm

theorem declared (h : t.Reordered u) (ht : t.members = .ofFields t.declared) :
    u.members = .ofFields u.declared ∧ t.declared.Perm u.declared := by
  have hmembers := h.members
  rw [ht] at hmembers
  obtain ⟨gs, hgs, hperm⟩ := hmembers.of_ofFields
  have hdeclared : u.declared = gs := by
    rw [ObjectType.declared, hgs, Members.fields?_ofFields]
    rfl
  rw [hdeclared]
  exact ⟨hgs, hperm⟩

end ObjectType.Reordered

/-- A field is found at the other end of a relation whatever the order of the fields there. -/
theorem Validation.reverseField?_of_perm {f : Field} {t u : ObjectType}
    (hperm : t.declared.Perm u.declared) (htexts : ∀ g ∈ t.declared, ∃ n, g.name = .text n)
    (hnodup : (t.declared.map (·.name)).Nodup) : reverseField? u f = reverseField? t f := by
  have hone : {g ∈ t.declared | g.name.equal f.reverseName = true}.Subsingleton := by
    have hname : ∀ g ∈ t.declared, g.name.equal f.reverseName = true → g.name = f.reverseName := by
      intro g hg hequal
      obtain ⟨n, hn⟩ := htexts g hg
      rw [hn] at hequal ⊢
      exact (Value.text_equal_iff.mp hequal).symm
    rintro g ⟨hg, hgr⟩ g' ⟨hg', hgr'⟩
    exact List.inj_on_of_nodup_map hnodup hg hg' ((hname g hg hgr).trans (hname g' hg' hgr').symm)
  rw [reverseField?, reverseField?, List.find?_eq_find?_of_perm hperm hone]

namespace Schema

variable {rules : Rules} {s s' : Schema} {t u : ObjectType} {f : Field} {n : String} {v : Value}

namespace Reordered

theorem symm (h : s.Reordered s') : s'.Reordered s := by
  obtain ⟨ts, hperm, hsame⟩ := h
  obtain ⟨us, hsame, hperm⟩ := List.perm_comp_forall₂ hperm hsame
  exact ⟨us, hperm.symm, hsame.flip.imp fun _ _ h => h.symm⟩

theorem perm_map {α : Type} {g : ObjectType → α} (h : s.Reordered s')
    (hg : ∀ t u, t.Reordered u → g u = g t) : (s.types.map g).Perm (s'.types.map g) := by
  obtain ⟨ts, hperm, hsame⟩ := h
  have heq : ts.map g = s'.types.map g := by
    rw [← List.forall₂_eq_eq_eq, List.forall₂_map_left_iff, List.forall₂_map_right_iff]
    exact hsame.imp fun t u htu => (hg t u htu).symm
  rw [← heq]
  exact hperm.map g

theorem perm_typeNames (h : s.Reordered s') : s.typeNames.Perm s'.typeNames :=
  h.perm_map fun _ _ h => h.name.symm

theorem exists_of_mem (h : s.Reordered s') (hu : u ∈ s'.types) :
    ∃ t ∈ s.types, t.Reordered u := by
  obtain ⟨ts, hperm, hsame⟩ := h
  obtain ⟨t, ht, htu⟩ := exists_left_of_mem hsame hu
  exact ⟨t, hperm.mem_iff.mpr ht, htu⟩

/-- Where names are unique, one finds the same type under a name whatever the order. -/
theorem exists_type? (h : s.Reordered s') (hn : s.typeNames.Nodup) (ht : s.type? n = some t) :
    ∃ u, s'.type? n = some u ∧ t.Reordered u := by
  obtain ⟨u, hu, hut⟩ := h.symm.exists_of_mem (mem_of_type? ht)
  have hname : u.name = .text n := hut.name.trans (type?_name ht)
  exact ⟨u, type?_of_nodup (h.perm_typeNames.nodup hn) hu hname, hut.symm⟩

/-- What does not depend on the order within a type does not depend on the order of the types. -/
theorem bind_type? {α : Type} {k : ObjectType → Option α} (h : s.Reordered s')
    (hn : s.typeNames.Nodup) (hk : ∀ t ∈ s.types, ∀ u, t.Reordered u → k u = k t) (v : Value) :
    (v.text?.bind s'.type?).bind k = (v.text?.bind s.type?).bind k := by
  cases v.text? with
  | none => rfl
  | some n =>
    rw [Option.bind_some, Option.bind_some]
    cases hs : s.type? n with
    | some t =>
      obtain ⟨u, hu, htu⟩ := h.exists_type? hn hs
      rw [hu]
      exact hk t (mem_of_type? hs) u htu
    | none =>
      cases hs' : s'.type? n with
      | none => rfl
      | some u =>
        obtain ⟨t, ht, _⟩ := h.symm.exists_type? (h.perm_typeNames.nodup hn) hs'
        cases hs.symm.trans ht

theorem standing (h : s.Reordered s') (hn : s.typeNames.Nodup) (v : Value) :
    s'.standing v = s.standing v := by
  rw [Schema.standing, Schema.standing, Option.map_eq_bind, Option.map_eq_bind]
  exact h.bind_type? hn (fun _ _ _ htu => congrArg some htu.isNode) v

theorem typeFacts (h : s.Reordered s') (htu : t.Reordered u) (hfacts : TypeFacts rules s t)
    (ht : t.members = .ofFields t.declared) (htexts : ∀ f ∈ t.declared, ∃ n, f.name = .text n) :
    TypeFacts rules s' u where
  nameText := htu.name ▸ hfacts.nameText
  names := htu.name ▸ hfacts.names
  plurals := htu.pluralName ▸ hfacts.plurals
  pluralFree := by
    obtain ⟨p, hp⟩ := hfacts.exists_plural
    have hfree := (pluralIsFree_iff hp).mp hfacts.pluralFree
    refine (pluralIsFree_iff (htu.plural.trans hp)).mpr fun w hw hname => ?_
    obtain ⟨x, hx, hxw⟩ := h.exists_of_mem hw
    exact htu.name.symm.trans (hfree x hx (hxw.name.trans hname))
  kind := htu.kind ▸ hfacts.kind
  description := htu.description ▸ hfacts.description
  interfaces := htu.known_interfaces ▸ hfacts.interfaces
  fieldList := by
    obtain ⟨hu, hperm⟩ := htu.declared ht
    obtain ⟨hne, hnodup⟩ := (fieldListViolations_eq_nil_iff ht htexts).mp hfacts.fieldList
    refine (fieldListViolations_eq_nil_iff hu fun f hf => htexts f (hperm.mem_iff.mpr hf)).mpr ?_
    exact ⟨fun hnil => hne (List.perm_nil.mp (hnil ▸ hperm)), (hperm.map _).nodup hnodup⟩

theorem relationViolations (h : s.Reordered s') (hv : s.Valid rules) (htu : t.Reordered u)
    (f : Field) : Validation.relationViolations s' u f = Validation.relationViolations s t f := by
  have hreverse : ∀ v : Value, (v.text?.bind s'.type?).bind (reverseField? · f) =
      (v.text?.bind s.type?).bind (reverseField? · f) := by
    refine h.bind_type? hv.names_nodup fun w hw x hwx => ?_
    exact reverseField?_of_perm (hwx.declared (hv.members_eq hw)).2
      (fun g hg => hv.exists_fieldName hw hg) (hv.fieldNames_nodup hw)
  have hsame : reverseViolations s' u f = reverseViolations s t f := by
    rw [reverseViolations, reverseViolations, counterpart, counterpart, htu.name, hreverse]
  rw [Validation.relationViolations, Validation.relationViolations, namesType_isNode,
    namesType_isNode, h.standing hv.names_nodup, htu.isNode, hsame, htu.name]

end Reordered

theorem Valid.of_reordered (hv : s.Valid rules) (h : s.Reordered s') : s'.Valid rules := by
  have hf := hv.facts
  refine Facts.valid ⟨h.perm_typeNames.nodup hf.names, ?_, ?_, fun u hu => ?_, fun u hu => ?_,
    fun u hu f hmem => ?_⟩
  · exact (h.perm_map fun _ _ htu => htu.plural).nodup hf.plurals
  · exact fun v hmem => h.perm_typeNames.mem_iff.mp (hf.required v hmem)
  · obtain ⟨t, ht, htu⟩ := h.exists_of_mem hu
    have htexts : ∀ f ∈ t.declared, ∃ n, f.name = .text n := fun _ hf => hv.exists_fieldName ht hf
    exact h.typeFacts htu (hf.types t ht) (hv.members_eq ht) htexts
  · obtain ⟨t, ht, htu⟩ := h.exists_of_mem hu
    intro interface hinterface wanted hwanted
    obtain ⟨f, hmem, hsame⟩ :=
      hf.mandated t ht interface (htu.perm_interfaceNames.mem_iff.mpr hinterface) wanted hwanted
    exact ⟨f, (htu.declared (hv.members_eq ht)).2.mem_iff.mp hmem, hsame⟩
  · obtain ⟨t, ht, htu⟩ := h.exists_of_mem hu
    have hmem : f ∈ t.declared := (htu.declared (hv.members_eq ht)).2.mem_iff.mpr hmem
    have hfacts := hf.fields t ht f hmem
    refine hfacts.transfer htu.name.symm (h.standing hf.names _) (h.standing hf.names _) ?_
    rw [h.relationViolations hv htu, hfacts.relation]

/-- A schema is valid if and only if it is with its types, their fields and their interfaces, and
the names of the types that are required, in another order. -/
theorem valid_iff_of_reordered {registry : Registry} {required required' : List Value}
    (h : s.Reordered s') (hr : required.Perm required') :
    s.Valid ⟨registry, required⟩ ↔ s'.Valid ⟨registry, required'⟩ := by
  constructor
  · intro hv
    exact (hv.of_reordered h).of_subset hr.symm.subset
  · intro hv
    exact (hv.of_reordered h.symm).of_subset hr.subset

end Schema

/-- The stock with the items in front of the parts, and with the parts in front of all else that
there is in an item. -/
theorem stock_turned_around :
    (Stock.schema "Part").Valid ⟨.standard, [.text "Item", .text "Part"]⟩ ∧
    Schema.Valid ⟨.standard, [.text "Part", .text "Item"]⟩
      ⟨[Stock.itemType [Stock.parts "Part", idField, Stock.tags], Stock.partType "Part"]⟩ := by
  have hvalid : (Stock.schema "Part").Valid ⟨.standard, [.text "Item", .text "Part"]⟩ := by rfl
  have hitem : (Stock.itemType [idField, Stock.tags, Stock.parts "Part"]).Reordered
      (Stock.itemType [Stock.parts "Part", idField, Stock.tags]) :=
    ⟨rfl, .ofFields (List.perm_append_singleton _ [idField, Stock.tags]), .same _, rfl, rfl, rfl⟩
  have hpart : (Stock.partType "Part").Reordered (Stock.partType "Part") :=
    ⟨rfl, .listed (.refl _), .same _, rfl, rfl, rfl⟩
  have hschema : (Stock.schema "Part").Reordered
      ⟨[Stock.itemType [Stock.parts "Part", idField, Stock.tags], Stock.partType "Part"]⟩ :=
    ⟨_, .swap .., .cons hitem (.cons hpart .nil)⟩
  have hrequired : [Value.text "Item", .text "Part"].Perm [.text "Part", .text "Item"] := .swap ..
  exact ⟨hvalid, (Schema.valid_iff_of_reordered hschema hrequired).mp hvalid⟩

end ObjectQuery
