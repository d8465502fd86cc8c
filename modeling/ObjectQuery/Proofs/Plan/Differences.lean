import ObjectQuery.Proofs.Plan.Authority
import ObjectQuery.Proofs.Query.MutationReports
import ObjectQuery.Proofs.Schema.Difference
import ObjectQuery.Proofs.Store.Removal

/-!
# The types that are told of

A call that changes the schema tells of the types that its change makes a difference to. These are
found without the change being made type by type: one type for all changes but a deletion, and for a
deletion those that have fewer fields after it. The list is exact, and what the other types lose by
a deletion is what is found by looking for fields that refer to the deleted type.
-/

set_option autoImplicit false

namespace ObjectQuery

open Outcome

namespace ObjectType

variable {t : ObjectType} {v : Value}

theorem dropping_ne_iff : t.dropping v ≠ t ↔ (t.unrelated v).length ≠ t.declared.length := by
  constructor
  · intro hne hlength
    exact hne (if_pos hlength)
  · intro hlength heq
    exact hlength (by rw [← declared_dropping, heq])

/-- What a type without the fields that refer to another one lacks are those fields. -/
theorem losses_dropping (hnames : ∀ f ∈ t.declared, ∃ n, f.name = .text n)
    (hn : (t.declared.map (·.name)).Nodup) (hv : t.name.equal v = false) :
    TypeChange.losses ⟨some t, some (t.dropping v)⟩ = t.referringSpots v := by
  have hlost : ∀ f ∈ t.declared,
      (!(t.unrelated v).any (·.name.equal f.name)) = f.refersTo v := by
    intro f hf
    obtain ⟨n, hname⟩ := hnames f hf
    rw [Bool.eq_iff_iff, Bool.not_eq_true', List.any_eq_false, hname]
    simp only [Value.equal_text_iff, unrelated, List.mem_filter, Bool.not_eq_true']
    constructor
    · intro h
      by_contra hrefers
      exact h f ⟨hf, Bool.eq_false_of_not_eq_true hrefers⟩ hname
    · rintro hrefers g ⟨hg, hkept⟩ hgn
      rw [List.inj_on_of_nodup_map hn hg hf (hgn.trans hname.symm), hrefers] at hkept
      cases hkept
  rw [TypeChange.losses, declared_dropping, List.filter_congr hlost, referringSpots, hv,
    if_neg Bool.false_ne_true]

theorem referringSpots_eq_nil (h : (t.unrelated v).length = t.declared.length) :
    t.referringSpots v = [] := by
  have hnone : t.declared.filter (·.refersTo v) = [] := by
    refine List.filter_eq_nil_iff.mpr fun f hf hrefers => ?_
    have hkept := List.length_filter_eq_length_iff.mp h f hf
    rw [hrefers] at hkept
    cases hkept
  rw [referringSpots, hnone]
  exact ite_self _

end ObjectType

namespace Schema

/-- Some fields are all that the types told of lose: of each of them, those that are its own. -/
structure Cascades (changes : List TypeChange) (spots : List Spot) : Prop where
  losses : changes.flatMap TypeChange.losses = spots
  kept : ∀ t u, ⟨some t, some u⟩ ∈ changes → ∃ fields, u = t.withFields fields ∧
    fields.Sublist t.declared ∧ ∀ f ∈ t.declared, f ∈ fields ↔ ⟨t.name, f.name⟩ ∉ spots

end Schema

namespace Mutation

variable {i : Snapshot} {c : Call} {m : Mutation} {s s' : Schema} {n : String} {t : ObjectType}

/-- What is told of a deletion besides the type that is deleted. -/
theorem differences_eq_map (hs' : i.schema.apply (.deleteType (.text n)) = .ok s') :
    differences i.schema s' n =
      (i.schema.types.filter (loses n)).map fun t => ⟨some t, some (t.dropping (.text n))⟩ := by
  rw [differences_eq hs', List.map_map]
  refine List.map_congr_left fun t ht => ?_
  obtain ⟨ht, hloses⟩ := List.mem_filter.mp ht
  obtain ⟨m, hm⟩ := i.valid.exists_name ht
  have hne : n ≠ m := by
    rintro rfl
    rw [loses, hm, Value.spells_text, BEq.rfl] at hloses
    cases hloses
  rw [Function.comp_apply, ObjectType.label, hm, Value.inline_text, type?_deleted hs', if_neg hne,
    i.valid.type?_of_mem ht hm]
  rfl

theorem differsBy_deleteType (ht : i.schema.type? n = some t)
    (hs' : i.schema.apply (.deleteType (.text n)) = .ok s') :
    i.schema.DiffersBy s' (⟨some t, none⟩ :: differences i.schema s' n) := by
  have hname := Schema.type?_name ht
  have hnames := i.valid.names_nodup
  have hloses : i.schema.types.filter (loses n) =
      (i.schema.types.filter (!·.name.equal (.text n))).filter fun t =>
        (t.unrelated (.text n)).length != t.declared.length := by
    rw [List.filter_filter]
    refine List.filter_congr fun t _ => ?_
    rw [loses, Value.equal_text_eq, Bool.and_comm]
  rw [differences_eq_map hs', hloses]
  obtain ⟨_, rfl⟩ := Schema.apply_deleteType_eq_ok i.valid.legible hs'
  refine Schema.DiffersBy.cons_removed hnames (Schema.mem_of_type? ht) ?_ hname ?_
  · refine List.forall_mem_map.mpr fun u hu => ?_
    obtain ⟨_, hu⟩ := List.mem_filter.mp hu
    rw [ObjectType.name_dropping, hname]
    rw [Bool.not_eq_true', ← Bool.not_eq_true, Value.equal_text_iff] at hu
    exact hu
  · rw [hname]
    refine Schema.differsBy_map (fun u => u.name_dropping _)
      (hnames.sublist (List.filter_sublist.map _))
      (fun u hu => i.valid.exists_name (List.mem_of_mem_filter hu)) fun u _ => ?_
    rw [bne_iff_ne]
    exact ObjectType.dropping_ne_iff.symm

/-- A type with more or fewer fields than before is the one that differs. -/
theorem differsBy_withFields (ht : i.schema.type? n = some t) {fields : List Field}
    (hs' : s' = i.schema.replace (.text n) (t.withFields fields))
    (hlength : t.declared.length ≠ fields.length) :
    i.schema.DiffersBy s' [⟨some t, s'.type? n⟩] := by
  have hname : (t.withFields fields).name = .text n :=
    (t.name_withFields fields).trans (Schema.type?_name ht)
  have hnew : s'.type? n = some (t.withFields fields) := by
    rw [hs', Schema.type?_replace hname, if_pos rfl, ht]
    rfl
  rw [hnew, hs']
  refine Schema.differsBy_replace i.valid.names_nodup (fun u hu => i.valid.exists_name hu) ht hname
    fun heq => hlength ?_
  rw [← heq, ObjectType.declared_withFields]

/-- What a mutation tells of is how the schema after its change differs from the one before. -/
theorem Made.differsBy (h : Made i m) (hs' : i.schema.apply m.change = .ok s') :
    i.schema.DiffersBy s' m.changes := by
  have hlegible := i.valid.legible
  cases h with
  | createType hfree _ _ =>
    cases hs'
    refine Schema.differsBy_append i.valid.names_nodup fun t ht hname => ?_
    rw [ObjectType.name_created] at hname
    rw [i.valid.type?_of_mem ht hname] at hfree
    cases hfree
  | deleteType ht hs'' _ =>
    cases hs''.symm.trans hs'
    exact differsBy_deleteType ht hs'
  | @addField n t f _ ht hs'' _ =>
    cases hs''.symm.trans hs'
    obtain ⟨_, _, hn, ht', hreplaced⟩ := Schema.apply_addField_eq_ok hlegible hs'
    cases hn
    cases ht.symm.trans ht'
    have hwith : s' = i.schema.replace (.text n) (t.withFields (t.declared ++ [f])) := by
      rw [hreplaced, ObjectType.withFields, Members.ofFields, List.map_append]
      rfl
    exact differsBy_withFields ht hwith (by simp)
  | removeField ht hf hs'' _ =>
    cases hs''.symm.trans hs'
    obtain ⟨_, _, _, hn, ht', _, hreplaced⟩ := Schema.apply_removeField_eq_ok hlegible hs'
    cases hn
    cases ht.symm.trans ht'
    obtain ⟨f, hf⟩ := Option.isSome_iff_exists.mp hf
    refine differsBy_withFields ht hreplaced fun hlength => ?_
    have hall := List.length_filter_eq_length_iff.mp hlength.symm f (ObjectType.mem_of_field? hf)
    rw [ObjectType.field?_name hf] at hall
    simp at hall

theorem flatMap_losses (hs' : i.schema.apply (.deleteType (.text n)) = .ok s') :
    (differences i.schema s' n).flatMap TypeChange.losses =
      i.schema.types.flatMap (·.referringSpots (.text n)) := by
  rw [differences_eq_map hs', List.flatMap_map]
  have hvalid := i.valid
  generalize hts : i.schema.types = ts
  have hsub : ∀ t ∈ ts, t ∈ i.schema.types := fun t ht => hts ▸ ht
  clear hts
  induction ts with
  | nil => rfl
  | cons t ts ih =>
    obtain ⟨ht, hsub⟩ := List.forall_mem_cons.mp hsub
    rw [List.flatMap_cons, ← ih hsub, List.filter_cons]
    cases hloses : loses n t with
    | true =>
      have hother : t.name.equal (.text n) = false := by
        rw [loses, Bool.and_eq_true, Bool.not_eq_true'] at hloses
        rw [Value.equal_text_eq, hloses.1]
      rw [if_pos rfl, List.flatMap_cons, ObjectType.losses_dropping
        (fun f hf => hvalid.exists_fieldName ht hf) (hvalid.fieldNames_nodup ht) hother]
    | false =>
      have hnone : t.referringSpots (.text n) = [] := by
        rw [loses, Bool.and_eq_false_iff, Bool.not_eq_false', bne_eq_false_iff_eq] at hloses
        rcases hloses with hown | hlength
        · rw [ObjectType.referringSpots, Value.equal_text_eq, hown, if_pos rfl]
        · exact ObjectType.referringSpots_eq_nil hlength
      rw [if_neg Bool.false_ne_true, hnone, List.nil_append]

theorem cascades_deleteType (hs' : i.schema.apply (.deleteType (.text n)) = .ok s') :
    Schema.Cascades (⟨some t, none⟩ :: differences i.schema s' n)
      (i.schema.types.flatMap (·.referringSpots (.text n))) := by
  refine ⟨flatMap_losses hs', fun u w hmem => ?_⟩
  rcases List.mem_cons.mp hmem with heq | hmem
  · cases heq
  rw [differences_eq_map hs'] at hmem
  obtain ⟨u', hu, heq⟩ := List.mem_map.mp hmem
  cases heq
  obtain ⟨hu, hloses⟩ := List.mem_filter.mp hu
  rw [loses, Bool.and_eq_true, Bool.not_eq_true', bne_iff_ne] at hloses
  have hspotted := i.valid.spotted_referring (i.valid.referring (.text n))
  refine ⟨_, if_neg hloses.2, List.filter_sublist, fun f hf => ?_⟩
  have hnames := i.valid.fieldNames_nodup hu
  have hrefers : ⟨u.name, f.name⟩ ∈ i.schema.types.flatMap (·.referringSpots (.text n)) ↔
      f.refersTo (.text n) = true := by
    rw [hspotted.mem_iff u hu, Value.equal_text_eq, hloses.1]
    constructor
    · rintro ⟨g, hg, hname, hgone⟩
      rw [List.inj_on_of_nodup_map hnames hg hf hname] at hgone
      exact hgone
    · exact fun hrefers => ⟨f, hf, rfl, hrefers⟩
  rw [ObjectType.unrelated, List.mem_filter, hrefers, Bool.not_eq_true', Bool.not_eq_true]
  exact and_iff_right hf

end Mutation

namespace Compile

variable {credentials : Credentials} {i : Snapshot} {limit : Int} {c : Call} {p : CallPlan}

/-- What a call that changes the schema tells of is exactly how its change makes the schema differ:
each type that is another one after it, or is there only before it or only after it, is told of
once, and going through what is told leads from the one schema to the other. When a type is deleted,
the others lose just the fields that refer to it. -/
theorem call_tells_differences (hc : c.ChangesSchema) (h : call credentials i limit c = .ok p) :
    ∃ m projection s', Mutation.Compiled i c m ∧
      p = .mutation m.change (TypeChange.success m.changes) TypeChange.failure projection ∧
      i.schema.apply m.change = .ok s' ∧ i.schema.DiffersBy s' m.changes ∧
      ∀ v, m.change = .deleteType v →
        ∃ spots, i.schema.referring v = .ok spots ∧ Schema.Cascades m.changes spots := by
  obtain ⟨o, ho, hmutation⟩ := Call.changesSchema_iff.mp hc
  rw [call, ho] at h
  obtain ⟨_, _, h⟩ := bind_eq_ok.mp h
  obtain ⟨m, t, projection, hm, _, _, hp⟩ :=
    exists_compiled (Operation.ofName?_eq_some_iff.mp ho) hmutation h
  obtain ⟨s', hs', _⟩ := hm.made.keeps
  refine ⟨m, projection, s', hm, hp, hs', hm.made.differsBy hs', fun v hv => ?_⟩
  cases hm.made with
  | deleteType ht hs'' _ =>
    cases hv
    exact ⟨_, i.valid.referring _, Mutation.cascades_deleteType hs''⟩
  | _ => cases hv

end Compile

namespace Library

def deletion : Call := call "deleteType" [(none, .name "Book")] [call "success" [] []]

end Library

set_option maxRecDepth 8000 in
/-- When books are deleted, authors are told of as well. -/
theorem library_deletion_told : ∃ p m projection s',
    Library.deletion.ChangesSchema ∧
    Compile.call Library.admin Library.snapshot defaultLimit Library.deletion = .ok p ∧
    Mutation.Compiled Library.snapshot Library.deletion m ∧
    p = .mutation m.change (TypeChange.success m.changes) TypeChange.failure projection ∧
    Library.schema.apply m.change = .ok s' ∧ Library.schema.DiffersBy s' m.changes ∧
    ∀ v, m.change = .deleteType v →
      ∃ spots, Library.schema.referring v = .ok spots ∧ Schema.Cascades m.changes spots := by
  have hc : Library.deletion.ChangesSchema := by
    unfold Call.ChangesSchema
    decide
  have hcall : ∃ p,
      Compile.call Library.admin Library.snapshot defaultLimit Library.deletion = .ok p := ⟨_, rfl⟩
  obtain ⟨p, hp⟩ := hcall
  obtain ⟨m, projection, s', h⟩ := Compile.call_tells_differences hc hp
  exact ⟨p, m, projection, s', hc, hp, h⟩

end ObjectQuery
