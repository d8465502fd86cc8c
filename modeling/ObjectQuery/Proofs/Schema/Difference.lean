import ObjectQuery.Introspection.Records
import ObjectQuery.Proofs.Schema.Effect

/-!
# How two schemas differ

Types are told by their names, so a type differs between two schemas if one of them has no type of
its name, or has another type of that name. A list of all such differences is exact if it has each
of them once and leads from the first schema to the second.
-/

set_option autoImplicit false

namespace ObjectQuery

/-- The ways in which two schemas can differ in the type of a name. -/
inductive Schema.Differs (before after : Schema) : TypeChange → Prop
  | changed {t u : ObjectType} (ht : t ∈ before.types) (hu : u ∈ after.types)
      (hname : u.name = t.name) (hne : u ≠ t) : Differs before after ⟨some t, some u⟩
  | added {u : ObjectType} (hu : u ∈ after.types) (hnew : ∀ t ∈ before.types, t.name ≠ u.name) :
      Differs before after ⟨none, some u⟩
  | removed {t : ObjectType} (ht : t ∈ before.types) (hgone : ∀ u ∈ after.types, u.name ≠ t.name) :
      Differs before after ⟨some t, none⟩

namespace TypeChange

/-- Makes in a schema what is told of a type: it takes the place of what it was, or comes after all
other types if it was not there. -/
def replay (s : Schema) : TypeChange → Schema
  | ⟨some t, some u⟩ => s.replace t.name u
  | ⟨some t, none⟩ => ⟨s.types.filter (!·.name.equal t.name)⟩
  | ⟨none, some u⟩ => ⟨s.types ++ [u]⟩
  | ⟨none, none⟩ => s

/-- The fields that a type has before a change and, if it is still there, not after it. -/
def losses : TypeChange → List Spot
  | ⟨some t, some u⟩ =>
    (t.declared.filter fun f => !u.declared.any (·.name.equal f.name)).map fun f => ⟨t.name, f.name⟩
  | _ => []

end TypeChange

namespace Schema

/-- Two schemas differ by these changes and no others, each of which is told of once. -/
structure DiffersBy (before after : Schema) (changes : List TypeChange) : Prop where
  nodup : changes.Nodup
  mem_iff : ∀ d, d ∈ changes ↔ before.Differs after d
  replay : changes.foldl TypeChange.replay before = after

variable {s after : Schema} {t u : ObjectType} {n : String} {changes : List TypeChange}

theorem eq_of_name_eq (hn : s.typeNames.Nodup) (ht : t ∈ s.types) (hu : u ∈ s.types)
    (h : t.name = u.name) : t = u :=
  List.inj_on_of_nodup_map hn ht hu h

theorem differsBy_append (hn : s.typeNames.Nodup) (hnew : ∀ t ∈ s.types, t.name ≠ u.name) :
    s.DiffersBy ⟨s.types ++ [u]⟩ [⟨none, some u⟩] := by
  refine ⟨List.nodup_singleton _, fun d => ?_, rfl⟩
  rw [List.mem_singleton]
  constructor
  · rintro rfl
    exact .added (List.mem_append_right _ (List.mem_singleton_self u)) hnew
  · intro hd
    cases hd with
    | changed ht hu hname hne =>
      rcases List.mem_append.mp hu with hu | hu
      · exact absurd (eq_of_name_eq hn hu ht hname) hne
      · obtain rfl := List.mem_singleton.mp hu
        exact absurd hname.symm (hnew _ ht)
    | added hu hfree =>
      rcases List.mem_append.mp hu with hu | hu
      · exact absurd rfl (hfree _ hu)
      · obtain rfl := List.mem_singleton.mp hu
        rfl
    | removed ht hgone => exact absurd rfl (hgone _ (List.mem_append_left _ ht))

theorem replace_between {xs ys : List ObjectType} (ht : t.name = .text n)
    (hxs : ∀ x ∈ xs, x.name ≠ .text n) (hys : ∀ y ∈ ys, y.name ≠ .text n) :
    (⟨xs ++ t :: ys⟩ : Schema).replace t.name u = ⟨xs ++ u :: ys⟩ := by
  have hkeep (zs : List ObjectType) (hzs : ∀ z ∈ zs, z.name ≠ .text n) :
      zs.map (fun z => if z.name.equal t.name then u else z) = zs := by
    refine (List.map_congr_left fun z hz => if_neg ?_).trans (List.map_id zs)
    rw [ht, Value.equal_text_iff]
    exact hzs z hz
  have hself : t.name.equal t.name = true := by rw [ht, Value.equal_text_iff]
  rw [replace, List.map_append, List.map_cons, hkeep xs hxs, hkeep ys hys, if_pos hself]

section MadeOver

variable {f : ObjectType → ObjectType} {p : ObjectType → Bool}

/-- Going through the types that are made over, one by one, makes them all over: those in front are
made over already. -/
theorem foldl_replay_map (hf : ∀ t, (f t).name = t.name) {front rest : List ObjectType}
    (hn : ((front ++ rest).map (·.name)).Nodup) (htext : ∀ t ∈ rest, ∃ n, t.name = .text n)
    (hp : ∀ t ∈ rest, p t = true ↔ f t ≠ t) :
    ((rest.filter p).map fun t => ⟨some t, some (f t)⟩).foldl TypeChange.replay
      ⟨front.map f ++ rest⟩ = ⟨(front ++ rest).map f⟩ := by
  induction rest generalizing front with
  | nil => simp
  | cons t rest ih =>
    obtain ⟨⟨n, hname⟩, htext⟩ := List.forall_mem_cons.mp htext
    obtain ⟨hpt, hp⟩ := List.forall_mem_cons.mp hp
    have hsplit : front ++ t :: rest = (front ++ [t]) ++ rest := by simp
    have ih := ih (hsplit ▸ hn) htext hp
    rw [List.map_append, List.map_singleton, List.append_assoc, List.singleton_append] at ih
    rw [hsplit, ← ih, List.filter_cons]
    by_cases ht : p t = true
    · rw [List.map_append, List.map_cons, List.nodup_middle] at hn
      obtain ⟨hnew, _⟩ := List.nodup_cons.mp hn
      rw [List.mem_append, not_or] at hnew
      rw [if_pos ht, List.map_cons, List.foldl_cons, TypeChange.replay,
        replace_between hname]
      · rintro x hx hxn
        obtain ⟨y, hy, rfl⟩ := List.mem_map.mp hx
        exact hnew.1 (List.mem_map.mpr ⟨y, hy, by rw [← hf y, hxn, hname]⟩)
      · rintro y hy hyn
        exact hnew.2 (List.mem_map.mpr ⟨y, hy, by rw [hyn, hname]⟩)
    · have hsame : f t = t := by
        by_contra hne
        exact ht (hpt.mpr hne)
      rw [if_neg ht, hsame]

/-- Types made over, each under its name, differ from what they were where they are not the same. -/
theorem differsBy_map (hf : ∀ t, (f t).name = t.name) (hn : s.typeNames.Nodup)
    (htext : ∀ t ∈ s.types, ∃ n, t.name = .text n) (hp : ∀ t ∈ s.types, p t = true ↔ f t ≠ t) :
    s.DiffersBy ⟨s.types.map f⟩ ((s.types.filter p).map fun t => ⟨some t, some (f t)⟩) := by
  have hnodup : (s.types.filter p).Nodup := (List.Nodup.of_map _ hn).filter p
  refine ⟨hnodup.map fun t u h => ?_, fun d => ?_, @foldl_replay_map f p hf [] s.types hn htext hp⟩
  · injection h with hold
    exact Option.some.inj hold
  · rw [List.mem_map]
    constructor
    · rintro ⟨t, ht, rfl⟩
      obtain ⟨ht, hpt⟩ := List.mem_filter.mp ht
      exact .changed ht (List.mem_map_of_mem ht) (hf t) ((hp t ht).mp hpt)
    · intro hd
      cases hd with
      | @changed t u ht hu hname hne =>
        obtain ⟨v, hv, rfl⟩ := List.mem_map.mp hu
        obtain rfl := eq_of_name_eq hn hv ht ((hf v).symm.trans hname)
        exact ⟨v, List.mem_filter.mpr ⟨ht, (hp v ht).mpr hne⟩, rfl⟩
      | added hu hnew =>
        obtain ⟨v, hv, rfl⟩ := List.mem_map.mp hu
        exact absurd (hf v).symm (hnew v hv)
      | removed ht hgone => exact absurd (hf _) (hgone _ (List.mem_map_of_mem ht))

theorem filter_name (hn : s.typeNames.Nodup) (ht : t ∈ s.types) (hname : t.name = .text n) :
    s.types.filter (·.name.equal (.text n)) = [t] := by
  obtain ⟨xs, ys, hsplit⟩ := List.append_of_mem ht
  rw [typeNames, hsplit, List.map_append, List.map_cons, List.nodup_middle, List.nodup_cons,
    List.mem_append, not_or] at hn
  have hnone (zs : List ObjectType) (hzs : t.name ∉ zs.map (·.name)) :
      zs.filter (·.name.equal (.text n)) = [] := by
    refine List.filter_eq_nil_iff.mpr fun z hz hzn => hzs ?_
    exact List.mem_map.mpr ⟨z, hz, (Value.equal_text_iff.mp hzn).trans hname.symm⟩
  rw [hsplit, List.filter_append, List.filter_cons, hnone xs hn.1.1, hnone ys hn.1.2,
    if_pos (Value.equal_text_iff.mpr hname), List.nil_append]

theorem differsBy_replace (hn : s.typeNames.Nodup) (htext : ∀ t ∈ s.types, ∃ n, t.name = .text n)
    (ht : s.type? n = some t) (hu : u.name = .text n) (hne : u ≠ t) :
    s.DiffersBy (s.replace (.text n) u) [⟨some t, some u⟩] := by
  have hname := type?_name ht
  have hmap := differsBy_map (s := s) (p := (·.name.equal (.text n)))
    (f := fun x => if x.name.equal (.text n) then u else x) (fun x => ?_) hn htext fun x hx => ?_
  · rw [filter_name hn (mem_of_type? ht) hname, List.map_singleton,
      if_pos (Value.equal_text_iff.mpr hname)] at hmap
    exact hmap
  · split
    · rename_i hx
      rw [hu, Value.equal_text_iff.mp hx]
    · rfl
  · constructor
    · intro hxn
      rw [if_pos hxn, eq_of_name_eq hn hx (mem_of_type? ht)
        ((Value.equal_text_iff.mp hxn).trans hname.symm)]
      exact hne
    · intro hx
      by_contra hxn
      exact hx (if_neg hxn)

end MadeOver

/-- What differs when a type is left out is that type, and what differs from the rest. -/
theorem differs_iff_of_removed (hn : s.typeNames.Nodup) (ht : t ∈ s.types)
    (hgone : ∀ u ∈ after.types, u.name ≠ t.name) (hname : t.name = .text n) (d : TypeChange) :
    s.Differs after d ↔ d = ⟨some t, none⟩ ∨
      (⟨s.types.filter (!·.name.equal t.name)⟩ : Schema).Differs after d := by
  have hrest (x : ObjectType) :
      x ∈ s.types.filter (!·.name.equal t.name) ↔ x ∈ s.types ∧ x.name ≠ t.name := by
    rw [List.mem_filter, hname, Bool.not_eq_true', ← Bool.not_eq_true, Value.equal_text_iff]
  constructor
  · intro hd
    cases hd with
    | changed hx hu hux hne =>
      exact .inr (.changed ((hrest _).mpr ⟨hx, hux ▸ hgone _ hu⟩) hu hux hne)
    | added hu hnew => exact .inr (.added hu fun x hx => hnew x ((hrest x).mp hx).1)
    | @removed x hx hxgone =>
      by_cases hxt : x.name = t.name
      · exact .inl (by rw [eq_of_name_eq hn hx ht hxt])
      · exact .inr (.removed ((hrest x).mpr ⟨hx, hxt⟩) hxgone)
  · rintro (rfl | hd)
    · exact .removed ht hgone
    · cases hd with
      | changed hx hu hux hne => exact .changed ((hrest _).mp hx).1 hu hux hne
      | added hu hnew =>
        refine .added hu fun x hx hxu => ?_
        exact hnew x ((hrest x).mpr ⟨hx, hxu ▸ hgone _ hu⟩) hxu
      | removed hx hxgone => exact .removed ((hrest _).mp hx).1 hxgone

theorem DiffersBy.cons_removed (hn : s.typeNames.Nodup) (ht : t ∈ s.types)
    (hgone : ∀ u ∈ after.types, u.name ≠ t.name) (hname : t.name = .text n)
    (h : (⟨s.types.filter (!·.name.equal t.name)⟩ : Schema).DiffersBy after changes) :
    s.DiffersBy after (⟨some t, none⟩ :: changes) := by
  refine ⟨List.nodup_cons.mpr ⟨fun hmem => ?_, h.nodup⟩, fun d => ?_, h.replay⟩
  · cases (h.mem_iff _).mp hmem with
    | removed hx _ =>
      obtain ⟨_, hx⟩ := List.mem_filter.mp hx
      rw [hname, Value.equal_text, BEq.rfl] at hx
      cases hx
  · rw [List.mem_cons, h.mem_iff, differs_iff_of_removed hn ht hgone hname]

end Schema

end ObjectQuery
