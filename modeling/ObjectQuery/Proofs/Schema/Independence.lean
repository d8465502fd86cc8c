import ObjectQuery.Proofs.Schema.Cascade

/-!
# Changes that are independent of each other

Where no two types have one name, a change leaves some of the types and makes each of them over by
itself. What it makes of a type keeps the name, so of two changes that are about different fields
and types each finds what it is about after the other one as well, and on each type it does not
matter which of them comes first.
-/

set_option autoImplicit false

namespace ObjectQuery

open Outcome

namespace ObjectType

variable {t : ObjectType} {f : Field} {v w : Value} {fs : List Field} {n m : String}

/-- What a type declares as its fields, one after the other. -/
def listing (t : ObjectType) : List Member := t.members.entries.toOption.getD []

namespace Readable

variable (h : t.Readable)
include h

theorem listing : t.listing = t.declared.map .field := by
  rw [ObjectType.listing, h.entries]
  rfl

theorem dropping (v : Value) : (t.dropping v).Readable := by
  unfold ObjectType.dropping
  split
  · exact h
  · exact readable_withFields _ _

theorem withListing : t.withMembers (.listed (t.listing ++ [.field f])) =
    t.withFields (t.declared ++ [f]) := by
  rw [h.listing, withFields, Members.ofFields, List.map_append]
  rfl

theorem exists_find_iff : (∃ f, t.find (.text m) = .ok (some f)) ↔
    ∃ f ∈ t.declared, f.name = .text m := by
  rw [h.find]
  simp only [Except.ok.injEq, ← Option.isSome_iff_exists, List.find?_isSome, Value.equal_text_iff]

end Readable

theorem dropping_withFields (t : ObjectType) (fs : List Field) (v : Value) :
    (t.withFields fs).dropping v = t.withFields (fs.filter (!·.refersTo v)) := by
  rw [dropping, unrelated, declared_withFields]
  split
  · rename_i hlength
    rw [List.filter_sublist.eq_of_length hlength]
  · rfl

theorem withMembers_dropping (t : ObjectType) (v : Value) (members : Members) :
    (t.dropping v).withMembers members = t.withMembers members := by
  unfold dropping
  split <;> rfl

theorem withFields_dropping (t : ObjectType) (v : Value) (fs : List Field) :
    (t.dropping v).withFields fs = t.withFields fs :=
  withMembers_dropping t v (.ofFields fs)

theorem dropping_eq_self (h : t.unrelated v = t.declared) : t.dropping v = t :=
  if_pos (congrArg List.length h)

theorem dropping_eq_withFields (h : t.unrelated v ≠ t.declared) :
    t.dropping v = t.withFields (t.unrelated v) :=
  if_neg fun hlength => h (List.filter_sublist.eq_of_length hlength)

/-- Where no field refers to a type, none does once other fields are left out. -/
theorem dropping_dropping (h : t.unrelated v = t.declared) (w : Value) :
    (t.dropping w).dropping v = t.dropping w := by
  apply dropping_eq_self
  rw [unrelated, declared_dropping, unrelated, List.filter_comm]
  exact congrArg _ h

theorem dropping_comm (t : ObjectType) (v w : Value) :
    (t.dropping v).dropping w = (t.dropping w).dropping v := by
  by_cases hv : t.unrelated v = t.declared
  · rw [dropping_dropping hv, dropping_eq_self hv]
  · by_cases hw : t.unrelated w = t.declared
    · rw [dropping_dropping hw, dropping_eq_self hw]
    · rw [dropping_eq_withFields hv, dropping_eq_withFields hw, dropping_withFields,
        dropping_withFields, unrelated, unrelated, List.filter_comm]

end ObjectType

namespace SchemaChange

variable {c d : SchemaChange} {t : ObjectType} {f : Field} {n m k : String}

/-- A deletion, or an addition or a removal of a field, that names what it is about by texts. -/
inductive IsEdit : SchemaChange → Prop
  | deletion (n : String) : IsEdit (.deleteType (.text n))
  | addition (n : String) (f : Field) : IsEdit (.addField (.text n) (.field f))
  | removal (n m : String) : IsEdit (.removeField (.text n) (.text m))

/-- Whether a change adds or removes a field of a name to or from the type of a name. -/
inductive Concerns : SchemaChange → String → Value → Prop
  | addition (n : String) (f : Field) : Concerns (.addField (.text n) (.field f)) n f.name
  | removal (n m : String) : Concerns (.removeField (.text n) (.text m)) n (.text m)

/-- Whether a type is there after a change if it was there before. -/
def leaves : SchemaChange → ObjectType → Bool
  | .deleteType v, t => !t.name.equal v
  | _, _ => true

/-- What a change makes of a type that it leaves. -/
def remake : SchemaChange → ObjectType → ObjectType
  | .deleteType v, t => t.dropping v
  | .addField v member, t =>
    if t.name.equal v then t.withMembers (.listed (t.listing ++ [member])) else t
  | .removeField v w, t =>
    if t.name.equal v then t.withFields (t.declared.filter (!·.name.equal w)) else t
  | .createType _, t => t

@[simp] theorem name_remake (c : SchemaChange) (t : ObjectType) : (c.remake t).name = t.name := by
  cases c with
  | createType new => rfl
  | deleteType v => exact t.name_dropping v
  | addField v member =>
    rw [remake]
    split <;> rfl
  | removeField v w =>
    rw [remake]
    split <;> rfl

theorem leaves_remake (c d : SchemaChange) (t : ObjectType) :
    d.leaves (c.remake t) = d.leaves t := by
  cases d <;> simp [leaves]

theorem readable_remake (hc : c.IsEdit) (h : t.Readable) : (c.remake t).Readable := by
  cases hc with
  | deletion n => exact h.dropping _
  | addition n f =>
    rw [remake]
    split
    · rw [h.withListing]
      exact ObjectType.readable_withFields _ _
    · exact h
  | removal n m =>
    rw [remake]
    split
    · exact ObjectType.readable_withFields _ _
    · exact h

theorem entries_remake (h : ∃ es, t.members.entries = .ok es) :
    ∃ es, (c.remake t).members.entries = .ok es := by
  cases c with
  | createType new => exact h
  | deleteType v =>
    rw [remake, ObjectType.dropping]
    split
    · exact h
    · exact ⟨_, rfl⟩
  | addField v member =>
    rw [remake]
    split
    · exact ⟨_, rfl⟩
    · exact h
  | removeField v w =>
    rw [remake]
    split
    · exact ⟨_, rfl⟩
    · exact h

theorem remake_delete_add (h : t.Readable) (hf : f.refersTo (.text m) = false) :
    (addField (.text n) (.field f)).remake ((deleteType (.text m)).remake t) =
      (deleteType (.text m)).remake ((addField (.text n) (.field f)).remake t) := by
  have hkept : (t.declared ++ [f]).filter (!·.refersTo (.text m)) =
      t.unrelated (.text m) ++ [f] := by
    rw [List.filter_append, List.filter_singleton, hf]
    rfl
  simp only [remake, ObjectType.name_dropping]
  split
  · rw [(h.dropping _).withListing, h.withListing, ObjectType.dropping_withFields,
      ObjectType.declared_dropping, ObjectType.withFields_dropping, hkept]
  · rfl

theorem remake_delete_remove (t : ObjectType) (n m k : String) :
    (removeField (.text n) (.text k)).remake ((deleteType (.text m)).remake t) =
      (deleteType (.text m)).remake ((removeField (.text n) (.text k)).remake t) := by
  simp only [remake, ObjectType.name_dropping]
  split
  · rw [ObjectType.dropping_withFields, ObjectType.declared_dropping,
      ObjectType.withFields_dropping, ObjectType.unrelated, List.filter_comm]
  · rfl

theorem remake_add_remove (h : t.Readable) (hf : f.name ≠ .text m) :
    (removeField (.text n) (.text m)).remake ((addField (.text n) (.field f)).remake t) =
      (addField (.text n) (.field f)).remake ((removeField (.text n) (.text m)).remake t) := by
  have hkept : (t.declared ++ [f]).filter (!·.name.equal (.text m)) =
      t.declared.filter (!·.name.equal (.text m)) ++ [f] := by
    have hother : f.name.equal (.text m) = false :=
      Bool.eq_false_iff.mpr (mt Value.equal_text_iff.mp hf)
    rw [List.filter_append, List.filter_singleton, hother]
    rfl
  by_cases hn : t.name.equal (.text n) = true
  · simp only [remake, if_pos hn, h.withListing, ObjectType.name_withFields,
      ObjectType.declared_withFields, hkept, (ObjectType.readable_withFields _ _).withListing]
    rfl
  · simp only [remake, if_neg hn]

theorem remake_remove_remove (t : ObjectType) (n m k : String) :
    (removeField (.text n) (.text k)).remake ((removeField (.text n) (.text m)).remake t) =
      (removeField (.text n) (.text m)).remake ((removeField (.text n) (.text k)).remake t) := by
  by_cases hn : t.name.equal (.text n) = true
  · simp only [remake, if_pos hn, ObjectType.name_withFields, ObjectType.declared_withFields]
    rw [List.filter_comm]
    rfl
  · simp only [remake, if_neg hn]

theorem remake_elsewhere {w : Value} (hc : c.Concerns n w) (ht : t.name ≠ .text n) :
    c.remake t = t := by
  have hne := mt Value.equal_text_iff.mp ht
  cases hc with
  | addition n f => exact if_neg hne
  | removal n m => exact if_neg hne

/-- A change of the fields of another type comes to nothing before and after any change. -/
theorem remake_comm_elsewhere {w : Value} (hc : c.Concerns n w) (ht : t.name ≠ .text n) :
    d.remake (c.remake t) = c.remake (d.remake t) := by
  rw [remake_elsewhere hc ht, remake_elsewhere hc (by rwa [name_remake])]

theorem remake_comm_apart {v w : Value} (hc : c.Concerns n v) (hd : d.Concerns m w) (hnm : n ≠ m) :
    d.remake (c.remake t) = c.remake (d.remake t) := by
  by_cases ht : t.name = .text n
  · have hother : t.name ≠ .text m := fun hm => hnm (Value.text.inj (ht.symm.trans hm))
    exact (remake_comm_elsewhere hd hother).symm
  · exact remake_comm_elsewhere hc ht

end SchemaChange

namespace SchemaChange

/-- Whether a field is one that a change adds to a schema or removes from it. -/
inductive Alters (s : Schema) : SchemaChange → Field → Prop
  | addition (n : String) (f : Field) : Alters s (.addField (.text n) (.field f)) f
  | removal {n m : String} {t : ObjectType} {f : Field} (ht : s.type? n = some t)
      (hf : f ∈ t.declared) (hm : f.name = .text m) : Alters s (.removeField (.text n) (.text m)) f

/-- Whether a change deletes no type that another one names, or that a field which the other one
adds or removes is declared with. -/
def Spares (s : Schema) (d c : SchemaChange) : Prop :=
  ∀ n, d = .deleteType (.text n) →
    (∀ k w, c.Concerns k w → k ≠ n) ∧ ∀ f, c.Alters s f → f.type ≠ .text n ∧ f.ofType ≠ .text n

end SchemaChange

namespace Schema

/-- Two changes of a schema that are about different things. -/
structure Independent (s : Schema) (c d : SchemaChange) : Prop where
  additions : ∀ n f g, c = .addField (.text n) f → d ≠ .addField (.text n) g
  fields : ∀ n w, c.Concerns n w → ¬d.Concerns n w
  deletions : ∀ n, c = .deleteType (.text n) → d ≠ .deleteType (.text n)
  spares : c.Spares s d
  spared : d.Spares s c

variable {s s' s₁ s₂ : Schema} {c d : SchemaChange} {t u : ObjectType} {n m : String}

theorem Independent.symm (h : s.Independent c d) : s.Independent d c where
  additions n f g hd hc := h.additions n g f hc hd
  fields n w hd hc := h.fields n w hc hd
  deletions n hd hc := h.deletions n hc hd
  spares := h.spared
  spared := h.spares

/-- A change that can be made of a schema. -/
inductive Applies (s : Schema) : SchemaChange → Prop
  | deletion {n : String} {t : ObjectType} (ht : s.type? n = some t)
      (hread : ∀ u ∈ s.types, u.name ≠ .text n → u.Readable) : Applies s (.deleteType (.text n))
  | addition {n : String} {t : ObjectType} (f : Field) (ht : s.type? n = some t)
      (hlist : ∃ es, t.members.entries = .ok es) : Applies s (.addField (.text n) (.field f))
  | removal {n m : String} {t : ObjectType} (ht : s.type? n = some t) (hread : t.Readable)
      (hfound : ∃ f ∈ t.declared, f.name = .text m) : Applies s (.removeField (.text n) (.text m))

/-- What a change makes of a schema, type by type. -/
def made (s : Schema) (c : SchemaChange) : Schema :=
  ⟨(s.types.filter c.leaves).map c.remake⟩

theorem Applies.isEdit (h : s.Applies c) : c.IsEdit := by
  cases h with
  | deletion => exact .deletion _
  | addition f => exact .addition _ f
  | removal => exact .removal _ _

theorem made_of_leaves (h : ∀ u, c.leaves u = true) : s.made c = ⟨s.types.map c.remake⟩ := by
  rw [made, List.filter_eq_self.mpr fun u _ => h u]

/-- Replacing the type of a name makes one type over. -/
theorem replace_eq_map (hn : s.typeNames.Nodup) (ht : s.type? n = some t)
    (make : ObjectType → ObjectType) : s.replace (.text n) (make t) =
      ⟨s.types.map fun u => if u.name.equal (.text n) then make u else u⟩ := by
  refine congrArg Schema.mk (List.map_congr_left fun u hu => ?_)
  split
  · rename_i hname
    have hfound := type?_of_nodup hn hu (Value.equal_text_iff.mp hname)
    rw [Option.some.inj (ht.symm.trans hfound)]
  · rfl

theorem delete_eq_ok_iff : s.delete (.text n) = .ok s' ↔
    (∀ u ∈ s.types, u.name ≠ .text n → u.Readable) ∧ s' = s.made (.deleteType (.text n)) := by
  have hkept {u : ObjectType} : u ∈ s.types.filter (!·.name.equal (.text n)) ↔
      u ∈ s.types ∧ u.name ≠ .text n := by
    rw [List.mem_filter, Bool.not_eq_true', ← Bool.not_eq_true, Value.equal_text_iff]
  have hmade (hread : ∀ u ∈ s.types, u.name ≠ .text n → u.Readable) :
      s.delete (.text n) = .ok (s.made (.deleteType (.text n))) :=
    delete_of_readable fun u hu => hread u (hkept.mp hu).1 (hkept.mp hu).2
  constructor
  · intro h
    obtain ⟨ts, hts, _⟩ := bind_eq_ok.mp h
    have hread : ∀ u ∈ s.types, u.name ≠ .text n → u.Readable := by
      intro u hu hun
      obtain ⟨_, _, hwithout⟩ := ok_of_mem_mapM hts (hkept.mpr ⟨hu, hun⟩)
      obtain ⟨fs, hfs, _⟩ := bind_eq_ok.mp hwithout
      exact .of_fields hfs
    rw [hmade hread] at h
    exact ⟨hread, (Except.ok.inj h).symm⟩
  · rintro ⟨hread, rfl⟩
    exact hmade hread

theorem existing_eq_ok_iff : s.existing (.text n) = .ok t ↔ s.type? n = some t := by
  constructor
  · intro h
    obtain ⟨_, hm, ht⟩ := existing_eq_ok h
    cases hm
    exact ht
  · exact existing_of_type?

theorem replace_added {es : List Member} (hn : s.typeNames.Nodup) (ht : s.type? n = some t)
    (hes : t.members.entries = .ok es) (member : Member) :
    s.replace (.text n) { t with members := .listed (es ++ [member]) } =
      s.made (.addField (.text n) member) := by
  have hlisting : t.listing = es := by
    rw [ObjectType.listing, hes]
    rfl
  have hnew := replace_eq_map hn ht fun u => u.withMembers (.listed (u.listing ++ [member]))
  rw [hlisting] at hnew
  rw [made_of_leaves fun _ => rfl]
  exact hnew

theorem replace_removed (hn : s.typeNames.Nodup) (ht : s.type? n = some t) (v : Value) :
    s.replace (.text n) (t.withFields (t.declared.filter (!·.name.equal v))) =
      s.made (.removeField (.text n) v) := by
  rw [made_of_leaves fun _ => rfl]
  exact replace_eq_map hn ht fun u => u.withFields (u.declared.filter (!·.name.equal v))

/-- A change is made of a schema type by type, if it can be made at all. -/
theorem apply_eq_ok_iff (hn : s.typeNames.Nodup) (hc : c.IsEdit) :
    s.apply c = .ok s' ↔ s.Applies c ∧ s' = s.made c := by
  cases hc with
  | deletion n =>
    simp only [apply, bind_eq_ok, existing_eq_ok_iff, mapError_eq_ok, delete_eq_ok_iff]
    constructor
    · rintro ⟨t, ht, hread, hs'⟩
      exact ⟨.deletion ht hread, hs'⟩
    · rintro ⟨⟨ht, hread⟩, hs'⟩
      exact ⟨_, ht, hread, hs'⟩
  | addition n f =>
    simp only [apply, bind_eq_ok, existing_eq_ok_iff, mapError_eq_ok, pure_eq_ok, Except.ok.injEq]
    constructor
    · rintro ⟨t, ht, es, hes, rfl⟩
      exact ⟨.addition f ht ⟨es, hes⟩, replace_added hn ht hes _⟩
    · rintro ⟨happlies, rfl⟩
      cases happlies with
      | addition _ ht hlist =>
        obtain ⟨es, hes⟩ := hlist
        exact ⟨_, ht, es, hes, replace_added hn ht hes _⟩
  | removal n m =>
    simp only [apply, bind_eq_ok, existing_eq_ok_iff, mapError_eq_ok]
    constructor
    · rintro ⟨t, ht, found, hfind, h⟩
      cases found with
      | none => cases h
      | some f =>
        obtain ⟨fs, hfs, h⟩ := bind_eq_ok.mp h
        have hread := ObjectType.Readable.of_fields (mapError_eq_ok.mp hfs)
        cases (mapError_eq_ok.mp hfs).symm.trans hread
        cases h
        exact ⟨.removal ht hread (hread.exists_find_iff.mp ⟨f, hfind⟩), replace_removed hn ht _⟩
    · rintro ⟨happlies, rfl⟩
      cases happlies with
      | removal ht hread hfound =>
        obtain ⟨f, hfind⟩ := hread.exists_find_iff.mpr hfound
        refine ⟨_, ht, some f, hfind, ?_⟩
        rw [hread]
        exact congrArg Except.ok (replace_removed hn ht _)

theorem nodup_typeNames_made (hn : s.typeNames.Nodup) : (s.made c).typeNames.Nodup := by
  have hnames : (s.made c).typeNames = (s.types.filter c.leaves).map (·.name) := by
    rw [made, typeNames, List.map_map]
    exact List.map_congr_left fun t _ => c.name_remake t
  rw [hnames]
  exact hn.sublist (List.filter_sublist.map _)

theorem type?_made (hn : s.typeNames.Nodup) (ht : s.type? n = some t)
    (hleaves : c.leaves t = true) : (s.made c).type? n = some (c.remake t) := by
  refine type?_of_nodup (nodup_typeNames_made hn) ?_ ((c.name_remake t).trans (type?_name ht))
  exact List.mem_map_of_mem (List.mem_filter.mpr ⟨mem_of_type? ht, hleaves⟩)

/-- A type that only another change is about is left. -/
theorem leaves_of_not_deleted (hc : c.IsEdit) (ht : t.name = .text n)
    (h : c ≠ .deleteType (.text n)) : c.leaves t = true := by
  cases hc with
  | deletion m =>
    have hne : n ≠ m := fun hnm => h (hnm ▸ rfl)
    rw [SchemaChange.leaves, ht, Value.equal_text, beq_false_of_ne hne, Bool.not_false]
  | addition m f => rfl
  | removal m k => rfl

theorem Independent.leaves {w : Value} (hi : s.Independent c d) (hc : c.IsEdit)
    (hd : d.Concerns n w) (ht : t.name = .text n) : c.leaves t = true := by
  refine leaves_of_not_deleted hc ht ?_
  rintro rfl
  exact (hi.spares n rfl).1 n w hd rfl

/-- A field that is to be removed is still there after an independent change. -/
theorem Independent.survives {f : Field} (hi : s.Independent c (.removeField (.text n) (.text m)))
    (hc : s.Applies c) (ht : s.type? n = some t) (hread : t.Readable) (hf : f ∈ t.declared)
    (hm : f.name = .text m) : f ∈ (c.remake t).declared := by
  have hname := type?_name ht
  cases hc with
  | @deletion k _ _ _ =>
    have hspared := (hi.spares k rfl).2 f (.removal ht hf hm)
    rw [SchemaChange.remake, ObjectType.declared_dropping]
    exact List.mem_filter.mpr ⟨hf, by rw [Field.refersTo_eq_false_iff.mpr hspared]; rfl⟩
  | @addition k _ g _ _ =>
    rw [SchemaChange.remake]
    split
    · rw [hread.withListing, ObjectType.declared_withFields]
      exact List.mem_append_left _ hf
    · exact hf
  | @removal k l _ _ _ _ =>
    rw [SchemaChange.remake]
    split
    · rename_i hk
      rw [ObjectType.declared_withFields]
      refine List.mem_filter.mpr ⟨hf, ?_⟩
      have hother : f.name ≠ .text l := by
        intro hl
        have hnk : n = k := Value.text.inj (hname.symm.trans (Value.equal_text_iff.mp hk))
        have hml : m = l := Value.text.inj (hm.symm.trans hl)
        subst hnk hml
        exact hi.fields n _ (.removal n m) (.removal n m)
      rw [Bool.eq_false_iff.mpr (mt Value.equal_text_iff.mp hother)]
      rfl
    · exact hf

/-- A change that can be made can be made after an independent one as well. -/
theorem Applies.after (hd : s.Applies d) (hc : s.Applies c) (hn : s.typeNames.Nodup)
    (hi : s.Independent c d) : (s.made c).Applies d := by
  cases hd with
  | deletion ht hread =>
    refine .deletion (type?_made hn ht ?_) ?_
    · refine leaves_of_not_deleted hc.isEdit (type?_name ht) fun h => ?_
      exact hi.deletions _ h rfl
    · intro u hu hun
      obtain ⟨u, hmem, rfl⟩ := List.mem_map.mp hu
      rw [SchemaChange.name_remake] at hun
      exact SchemaChange.readable_remake hc.isEdit (hread u (List.mem_of_mem_filter hmem) hun)
  | addition f ht hlist =>
    have hleaves := hi.leaves hc.isEdit (.addition _ f) (type?_name ht)
    exact .addition f (type?_made hn ht hleaves) (SchemaChange.entries_remake hlist)
  | removal ht hread hfound =>
    have hleaves := hi.leaves hc.isEdit (.removal _ _) (type?_name ht)
    obtain ⟨f, hf, hm⟩ := hfound
    exact .removal (type?_made hn ht hleaves) (SchemaChange.readable_remake hc.isEdit hread)
      ⟨f, hi.survives hc ht hread hf hm, hm⟩

theorem Independent.remake_deletion (hi : s.Independent (.deleteType (.text n)) d)
    (hc : s.Applies (.deleteType (.text n))) (hd : d.IsEdit) (ht : t ∈ s.types)
    (hleaves : SchemaChange.leaves (.deleteType (.text n)) t = true) :
    d.remake (SchemaChange.remake (.deleteType (.text n)) t) =
      SchemaChange.remake (.deleteType (.text n)) (d.remake t) := by
  cases hd with
  | deletion m => exact t.dropping_comm _ _
  | addition m f =>
    have hspared := (hi.spares n rfl).2 f (.addition m f)
    have hread : t.Readable := by
      cases hc with
      | deletion _ hread =>
        refine hread t ht fun hname => ?_
        rw [SchemaChange.leaves, Value.equal_text_iff.mpr hname] at hleaves
        cases hleaves
    exact SchemaChange.remake_delete_add hread (Field.refersTo_eq_false_iff.mpr hspared)
  | removal m k => exact SchemaChange.remake_delete_remove t m n k

theorem Independent.remake_addition {f : Field} {k : String}
    (hi : s.Independent (.addField (.text n) (.field f)) (.removeField (.text m) (.text k)))
    (hd : s.Applies (.removeField (.text m) (.text k))) (hn : s.typeNames.Nodup)
    (ht : t ∈ s.types) :
    SchemaChange.remake (.removeField (.text m) (.text k))
        (SchemaChange.remake (.addField (.text n) (.field f)) t) =
      SchemaChange.remake (.addField (.text n) (.field f))
        (SchemaChange.remake (.removeField (.text m) (.text k)) t) := by
  by_cases hnm : n = m
  · subst hnm
    by_cases hname : t.name = .text n
    · have hread : t.Readable := by
        cases hd with
        | removal hu hread _ =>
          cases hu.symm.trans (type?_of_nodup hn ht hname)
          exact hread
      refine SchemaChange.remake_add_remove hread fun hf => ?_
      exact hi.fields n _ (.addition n f) (hf ▸ .removal n k)
    · exact SchemaChange.remake_comm_elsewhere (.addition n f) hname
  · exact SchemaChange.remake_comm_apart (.addition n f) (.removal m k) hnm

/-- It does not matter to a type which of two independent changes comes first. -/
theorem Independent.remake_comm (hi : s.Independent c d) (hc : s.Applies c) (hd : s.Applies d)
    (hn : s.typeNames.Nodup) (ht : t ∈ s.types) (hleft : c.leaves t = true)
    (hleft' : d.leaves t = true) : d.remake (c.remake t) = c.remake (d.remake t) := by
  cases hc.isEdit with
  | deletion n => exact hi.remake_deletion hc hd.isEdit ht hleft
  | addition n f =>
    cases hd.isEdit with
    | deletion m => exact (hi.symm.remake_deletion hd hc.isEdit ht hleft').symm
    | addition m g =>
      refine SchemaChange.remake_comm_apart (.addition n f) (.addition m g) ?_
      rintro rfl
      exact hi.additions n _ _ rfl rfl
    | removal m k => exact hi.remake_addition hd hn ht
  | removal n k =>
    cases hd.isEdit with
    | deletion m => exact (hi.symm.remake_deletion hd hc.isEdit ht hleft').symm
    | addition m g => exact (hi.symm.remake_addition hc hn ht).symm
    | removal m l =>
      by_cases hnm : n = m
      · subst hnm
        exact SchemaChange.remake_remove_remove t n k l
      · exact SchemaChange.remake_comm_apart (.removal n k) (.removal m l) hnm

theorem made_made (s : Schema) (c d : SchemaChange) : (s.made c).made d =
    ⟨((s.types.filter c.leaves).filter d.leaves).map fun t => d.remake (c.remake t)⟩ := by
  have hleaves : d.leaves ∘ c.remake = d.leaves := funext (SchemaChange.leaves_remake c d)
  rw [made, made, List.filter_map, hleaves, List.map_map]
  rfl

theorem Independent.made_comm (hi : s.Independent c d) (hc : s.Applies c) (hd : s.Applies d)
    (hn : s.typeNames.Nodup) : (s.made c).made d = (s.made d).made c := by
  rw [made_made, made_made, List.filter_comm]
  refine congrArg Schema.mk (List.map_congr_left fun t ht => ?_)
  obtain ⟨ht, hleft⟩ := List.mem_filter.mp ht
  obtain ⟨ht, hleft'⟩ := List.mem_filter.mp ht
  exact hi.remake_comm hc hd hn ht hleft hleft'

/-- Of two independent changes that can each be made of a schema, each can be made after the other
one, and the schema that comes of both does not depend on which of them came first. -/
theorem independent_changes_commute (hn : s.typeNames.Nodup) (hc : c.IsEdit) (hd : d.IsEdit)
    (hi : s.Independent c d) (h₁ : s.apply c = .ok s₁) (h₂ : s.apply d = .ok s₂) :
    ∃ s', s₁.apply d = .ok s' ∧ s₂.apply c = .ok s' := by
  obtain ⟨hc', rfl⟩ := (apply_eq_ok_iff hn hc).mp h₁
  obtain ⟨hd', rfl⟩ := (apply_eq_ok_iff hn hd).mp h₂
  refine ⟨(s.made c).made d, ?_, ?_⟩
  · exact (apply_eq_ok_iff (nodup_typeNames_made hn) hd).mpr ⟨hd'.after hc' hn hi, rfl⟩
  · rw [apply_eq_ok_iff (nodup_typeNames_made hn) hc]
    exact ⟨hc'.after hd' hn hi.symm, hi.made_comm hc' hd' hn⟩

end Schema

namespace Stock

/-- Deleting the type of the parts takes the field for them from the items, but not their tags. -/
theorem independent : (schema "Part").Independent (.deleteType (.text "Part"))
    (.removeField (.text "Item") (.text "tags")) where
  additions n f g h := by cases h
  fields n w h := by cases h
  deletions n h h' := by cases h'
  spares n h := by
    cases h
    refine ⟨fun k w hk => by cases hk; decide, fun f hf => ?_⟩
    cases hf with
    | removal ht hf hm =>
      cases (rfl : (schema "Part").type? "Item" = _).symm.trans ht
      rcases List.mem_cons.mp hf with rfl | hf
      · exact absurd (Value.text.inj hm) (by decide)
      rcases List.mem_cons.mp hf with rfl | hf
      · exact Field.refersTo_eq_false_iff.mp (by decide)
      · obtain rfl := List.mem_singleton.mp hf
        exact absurd (Value.text.inj hm) (by decide)
  spared n h := by cases h

end Stock

theorem stock_loses_either_first : (Stock.schema "Part").typeNames.Nodup ∧
    ∃ s₁ s₂ s', (Stock.schema "Part").apply (.deleteType (.text "Part")) = .ok s₁ ∧
      (Stock.schema "Part").apply (.removeField (.text "Item") (.text "tags")) = .ok s₂ ∧
      s₁.apply (.removeField (.text "Item") (.text "tags")) = .ok s' ∧
      s₂.apply (.deleteType (.text "Part")) = .ok s' := by
  have hn : (Stock.schema "Part").typeNames.Nodup := by
    simp [Schema.typeNames, Stock.schema, Stock.partType, Stock.itemType]
  obtain ⟨s', h₁, h₂⟩ := Schema.independent_changes_commute hn (.deletion "Part")
    (.removal "Item" "tags") Stock.independent rfl rfl
  exact ⟨hn, _, _, s', rfl, rfl, h₁, h₂⟩

end ObjectQuery
