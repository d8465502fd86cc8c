import ObjectQuery.Proofs.Schema.Effect
import ObjectQuery.Proofs.Store.Insertion

/-!
# Tables for a changed schema

What a field has as its column depends on its kind, and the kind of a field that a change leaves is
the one it had: a change does not make a node of what was none, or the other way round. So the
tables for a schema that gets one more type or field are those for the schema before, but for the
table or the column that is new.
-/

set_option autoImplicit false

namespace ObjectQuery

open Outcome Validation

namespace Schema

variable {rules : Rules} {s s' : Schema} {r : Registry} {t t' : ObjectType} {f : Field}
  {l : TableLayout} {ls ls' : List TableLayout} {n : String}

/-- The column for a field, if it is stored. -/
def columnOf (s : Schema) (f : Field) : Option Column :=
  (s.kindOf f).toOption.bind (·.column? (columnName f))

def layoutOf (s : Schema) (r : Registry) (t : ObjectType) : TableLayout :=
  ⟨t.name.inline, t.declared.filterMap s.columnOf ++ builtInColumns r t⟩

theorem name_layoutOf (h : t.name = .text n) (r : Registry) : (s.layoutOf r t).name = n := by
  rw [layoutOf, h]
  rfl

theorem name_of_columnOf {c : Column} (h : s.columnOf f = some c) : c.name = columnName f := by
  obtain ⟨k, _, hk⟩ := Option.bind_eq_some_iff.mp h
  exact FieldKind.name_of_column? hk

theorem columnOf_eq {k : FieldKind} (hk : s.kindOf f = .ok k) :
    s.columnOf f = k.column? (columnName f) := by
  rw [columnOf, hk]
  rfl

theorem columns_of_fields {fs : List Field} (h : ∀ f ∈ fs, ∃ k, s.kindOf f = .ok k) :
    ∃ kinds, ((fs.map Member.field).mapM fun m => do
        let f ← m.get.mapError KindError.misuse
        return (columnName f, ← s.kindOf f)) = .ok kinds ∧
      (kinds.filterMap fun k => k.2.column? k.1) = fs.filterMap s.columnOf := by
  induction fs with
  | nil => exact ⟨[], rfl, rfl⟩
  | cons f fs ih =>
    obtain ⟨k, hk⟩ := h f List.mem_cons_self
    obtain ⟨kinds, hkinds, hcolumns⟩ := ih fun g hg => h g (List.mem_cons_of_mem f hg)
    refine ⟨(columnName f, k) :: kinds, ?_, ?_⟩
    · rw [List.map_cons, List.mapM_cons, hkinds]
      show ((s.kindOf f >>= _) >>= _) = _
      rw [hk]
      rfl
    · rw [List.filterMap_cons, List.filterMap_cons, hcolumns, columnOf_eq hk]

theorem Valid.columns_eq (h : s.Valid rules) (ht : t ∈ s.types) :
    s.columns t = .ok (t.declared.filterMap s.columnOf) := by
  obtain ⟨kinds, hkinds, hcolumns⟩ := columns_of_fields fun f hf => h.exists_kindOf ht hf
  unfold columns
  rw [(h.legible t ht).entries]
  refine bind_eq_ok.mpr ⟨_, rfl, bind_eq_ok.mpr ⟨kinds, hkinds, ?_⟩⟩
  rw [hcolumns]
  rfl

theorem Valid.eq_layoutOf (h : s.Valid rules) (ht : t ∈ s.types) (hl : LaidOut s r t l) :
    l = s.layoutOf r t := by
  obtain ⟨cs, hcs, hcolumns⟩ := hl.columns
  rw [h.columns_eq ht] at hcs
  cases hcs
  obtain ⟨name, columns⟩ := l
  cases hl.name
  cases hcolumns
  rfl

theorem Valid.foldlM_addLayout_eq (h : s.Valid rules) {ts : List ObjectType} (hts : ts ⊆ s.types)
    {tables tables' : List TableLayout} (hf : ts.foldlM (s.addLayout r) tables = .ok tables') :
    tables' = tables ++ ts.map (s.layoutOf r) := by
  induction ts generalizing tables with
  | nil =>
    cases hf
    rw [List.map_nil, List.append_nil]
  | cons t ts ih =>
    obtain ⟨ht, hts⟩ := List.cons_subset.mp hts
    rw [List.foldlM_cons] at hf
    obtain ⟨tables₁, h₁, hf⟩ := bind_eq_ok.mp hf
    obtain ⟨l, rfl, _, hl⟩ := addLayout_eq_ok h₁
    rw [ih hts hf, h.eq_layoutOf ht hl, List.map_cons, List.append_assoc, List.singleton_append]

/-- The tables of a valid schema, one for each node. -/
theorem Valid.layouts_eq (h : s.Valid rules) (hl : s.layouts r = .ok ls) :
    ls = (s.types.filter ObjectType.isNode).map (s.layoutOf r) := by
  have heq := h.foldlM_addLayout_eq (List.filter_subset_self _) hl
  rwa [List.nil_append] at heq

theorem Valid.layoutOf_mem (h : s.Valid rules) (hl : s.layouts r = .ok ls) (ht : t ∈ s.types)
    (hnode : t.isNode = true) : s.layoutOf r t ∈ ls := by
  rw [h.layouts_eq hl]
  exact List.mem_map_of_mem (List.mem_filter.mpr ⟨ht, hnode⟩)

theorem Valid.eq_of_sameName (h : s.Valid rules) (hl : s.layouts r = .ok ls) (hsep : Separate ls)
    {u : ObjectType} {m : String} (hu : u ∈ s.types) (ht : t ∈ s.types) (hunode : u.isNode = true)
    (hnode : t.isNode = true) (hm : u.name = .text m) (hn : t.name = .text n)
    (hs : sameName m n = true) : m = n := by
  rw [← name_layoutOf (s := s) hm r, ← name_layoutOf (s := s) hn r] at hs ⊢
  rw [hsep.eq_of_sameName (h.layoutOf_mem hl hu hunode) (h.layoutOf_mem hl ht hnode) hs]

/-- The table for the type of a name. -/
theorem Valid.layout?_eq_some (h : s.Valid rules) (hl : s.layouts r = .ok ls) {v : Value} :
    Relational.layout? ls v = some l ↔
      ∃ n t, v = .text n ∧ s.type? n = some t ∧ t.isNode ∧ l = s.layoutOf r t := by
  have hls := h.layouts_eq hl
  constructor
  · intro hfound
    have hname := List.find?_some hfound
    have hmem := List.mem_of_find?_eq_some hfound
    rw [hls] at hmem
    obtain ⟨t, ht, rfl⟩ := List.mem_map.mp hmem
    obtain ⟨ht, hnode⟩ := List.mem_filter.mp ht
    obtain ⟨n, hn⟩ := h.exists_name ht
    have hv : v = .text n := by
      rw [Value.spells_iff.mp hname, name_layoutOf hn]
    exact ⟨n, t, hv, h.type?_of_mem ht hn, hnode, rfl⟩
  · rintro ⟨n, t, rfl, ht, hnode, rfl⟩
    have hmem := h.layoutOf_mem hl (mem_of_type? ht) hnode
    have hsome : (Relational.layout? ls (.text n)).isSome := by
      rw [Relational.layout?, List.find?_isSome]
      refine ⟨_, hmem, ?_⟩
      rw [name_layoutOf (type?_name ht)]
      exact Value.spells_iff.mpr rfl
    obtain ⟨l, hl⟩ := Option.isSome_iff_exists.mp hsome
    have hname := List.find?_some hl
    have hlmem := List.mem_of_find?_eq_some hl
    rw [hls] at hlmem
    obtain ⟨u, hu, rfl⟩ := List.mem_map.mp hlmem
    obtain ⟨hu, _⟩ := List.mem_filter.mp hu
    obtain ⟨m, hm⟩ := h.exists_name hu
    have hnm : m = n := by
      have hspelled := Value.spells_iff.mp hname
      rw [name_layoutOf hm] at hspelled
      exact (Value.text.inj hspelled).symm
    subst hnm
    cases (h.type?_of_mem hu hm).symm.trans ht
    exact hl

theorem Valid.layout?_eq (h : s.Valid rules) (hl : s.layouts r = .ok ls)
    (ht : s.type? n = some t) :
    Relational.layout? ls (.text n) = if t.isNode then some (s.layoutOf r t) else none := by
  split
  · rename_i hnode
    exact (h.layout?_eq_some hl).mpr ⟨n, t, rfl, ht, hnode, rfl⟩
  · rename_i hnode
    refine Option.eq_none_iff_forall_ne_some.mpr fun l hfound => hnode ?_
    obtain ⟨m, u, hm, hu, hunode, _⟩ := (h.layout?_eq_some hl).mp hfound
    obtain rfl := Value.text.inj hm
    rwa [Option.some.inj (ht.symm.trans hu)]

theorem Valid.column?_layoutOf (h : s.Valid rules) (hr : rules.registry = .standard)
    (hl : s.layouts .standard = .ok ls) (ht : t ∈ s.types) (hnode : t.isNode = true)
    (hf : f ∈ t.declared) (hn : f.name = .text n) :
    (s.layoutOf .standard t).column? n = s.columnOf f := by
  obtain ⟨k, hk⟩ := h.exists_kindOf ht hf
  obtain ⟨l, _, hlaid⟩ := exists_mem_layouts hl ht hnode
  rw [← h.eq_layoutOf ht hlaid, hlaid.column?_eq h hr ht (h.field?_of_mem ht hf hn) hk,
    columnOf_eq hk, columnName_eq hn]

/-- Whether the types that two schemas have a name for in common are nodes in both or in none. -/
def SameNodes (s s' : Schema) : Prop :=
  ∀ n u u', s.type? n = some u → s'.type? n = some u' → u'.isNode = u.isNode

theorem SameNodes.kindOf_eq {k k' : FieldKind} (h : SameNodes s s') (hk : s.kindOf f = .ok k)
    (hk' : s'.kindOf f = .ok k') : k' = k := by
  cases kinded_of_kindOf hk with
  | connection hc =>
    cases kinded_of_kindOf hk' with
    | connection => rfl
    | _ hc' => simp_all
  | scalarList hc hl ho =>
    cases kinded_of_kindOf hk' with
    | scalarList _ _ ho' =>
      cases ho.symm.trans ho'
      rfl
    | _ => simp_all
  | objectList hc hl ho hn hu =>
    cases kinded_of_kindOf hk' with
    | objectList _ _ _ hn' =>
      cases hn.symm.trans hn'
      rfl
    | _ => simp_all
  | scalar hc hl ht =>
    cases kinded_of_kindOf hk' with
    | scalar _ _ ht' =>
      cases ht.symm.trans ht'
      rfl
    | _ => simp_all
  | reference hc hl ht hn hu =>
    generalize hb : ObjectType.isNode _ = isNode at *
    cases kinded_of_kindOf hk' with
    | reference _ _ _ hn' hu' =>
      cases hn.symm.trans hn'
      rw [h _ _ _ hu hu', hb]
    | _ => simp_all

theorem SameNodes.columnOf_eq (h : SameNodes s s') (hk : ∃ k, s.kindOf f = .ok k)
    (hk' : ∃ k, s'.kindOf f = .ok k) : s'.columnOf f = s.columnOf f := by
  obtain ⟨k, hk⟩ := hk
  obtain ⟨k', hk'⟩ := hk'
  rw [Schema.columnOf_eq hk, Schema.columnOf_eq hk', h.kindOf_eq hk hk']

/-- No change makes a node of a type that was none, or the other way round. -/
theorem sameNodes_apply {c : SchemaChange} (hs : ∀ t ∈ s.types, t.Legible)
    (h : s.apply c = .ok s') : SameNodes s s' := by
  intro n u u' hu hu'
  rw [type?_apply hs h n, hu] at hu'
  cases c with
  | createType new =>
    cases hu'
    rfl
  | deleteType v =>
    simp only [SchemaChange.effect] at hu'
    split at hu'
    · cases hu'
    · cases hu'
      exact u.isNode_dropping v
  | addField v member =>
    simp only [SchemaChange.effect] at hu'
    split at hu' <;> cases hu' <;> rfl
  | removeField v fieldName =>
    simp only [SchemaChange.effect] at hu'
    split at hu' <;> cases hu' <;> rfl

/-- The table for a type that a change leaves as it is. -/
theorem Valid.layoutOf_congr (h : s.Valid rules) (h' : s'.Valid rules) (hn : SameNodes s s')
    (ht : t ∈ s.types) (ht' : t ∈ s'.types) (r : Registry) : s'.layoutOf r t = s.layoutOf r t := by
  have hcolumns : t.declared.filterMap s'.columnOf = t.declared.filterMap s.columnOf :=
    List.filterMap_congr fun f hf =>
      hn.columnOf_eq (h.exists_kindOf ht hf) (h'.exists_kindOf ht' hf)
  rw [layoutOf, layoutOf, hcolumns]

/-- The tables of a schema that gets one more type. -/
theorem Valid.layouts_createType (h : s.Valid rules) (h' : s'.Valid rules)
    (hls : s.layouts r = .ok ls) (hls' : s'.layouts r = .ok ls')
    (hc : s.apply (.createType (some t)) = .ok s') :
    ls' = ls ++ if t.isNode then [s'.layoutOf r t] else [] := by
  have hn := sameNodes_apply h.legible hc
  cases hc
  have hold : (s.types.filter ObjectType.isNode).map (Schema.layoutOf ⟨s.types ++ [t]⟩ r) = ls := by
    rw [h.layouts_eq hls]
    refine List.map_congr_left fun u hu => ?_
    have hu := List.mem_of_mem_filter hu
    exact h.layoutOf_congr h' hn hu (List.mem_append_left _ hu) r
  rw [h'.layouts_eq hls', List.filter_append, List.map_append, hold, List.filter_singleton]
  cases t.isNode <;> rfl

namespace Gains

variable (hg : s.Gains s' n t t' f) (h : s.Valid rules) (h' : s'.Valid rules)
  (hn : SameNodes s s') (hls : s.layouts r = .ok ls) (hls' : s'.layouts r = .ok ls')

include hg h

theorem nodes : s'.types.filter ObjectType.isNode = (s.types.filter ObjectType.isNode).map
    fun u => if u.name.equal (.text n) then t' else u := by
  rw [hg.types, List.filter_map]
  congr 1
  refine List.filter_congr fun u hu => ?_
  rw [Function.comp_apply]
  split
  · rename_i hun
    have hu := h.type?_of_mem hu (Value.equal_text_iff.mp hun)
    rw [hg.isNode, Option.some.inj (hg.found.symm.trans hu)]
  · rfl

include h' hn

theorem layoutOf_of_ne {u : ObjectType} (hu : u ∈ s.types) (hun : u.name ≠ .text n) :
    s'.layoutOf r u = s.layoutOf r u := by
  refine h.layoutOf_congr h' hn hu ?_ r
  rw [hg.types]
  refine List.mem_map.mpr ⟨u, hu, ?_⟩
  rw [if_neg (mt Value.equal_text_iff.mp hun)]

theorem columns_eq : (s'.layoutOf r t').columns =
    t.declared.filterMap s.columnOf ++ (s'.columnOf f).toList ++ builtInColumns r t := by
  have ht := mem_of_type? hg.found
  have hold : t.declared.filterMap s'.columnOf = t.declared.filterMap s.columnOf := by
    refine List.filterMap_congr fun g hgt => ?_
    have hgt' : g ∈ t'.declared := by
      rw [hg.declared]
      exact List.mem_append_left _ hgt
    exact hn.columnOf_eq (h.exists_kindOf ht hgt) (h'.exists_kindOf hg.mem hgt')
  have hbuiltIn : builtInColumns r t' = builtInColumns r t := by
    rw [builtInColumns, builtInColumns, hg.name, type?_name hg.found]
  have hnew : [f].filterMap s'.columnOf = (s'.columnOf f).toList := by
    cases hc : s'.columnOf f <;> simp [hc]
  rw [layoutOf, hg.declared, List.filterMap_append, hold, hbuiltIn, hnew]

include hls hls'

/-- A field that is not stored changes no table. -/
theorem layouts_eq (hf : t.isNode = true → s'.columnOf f = none) : ls' = ls := by
  rw [h'.layouts_eq hls', hg.nodes h, List.map_map, h.layouts_eq hls]
  refine List.map_congr_left fun u hu => ?_
  obtain ⟨hu, hunode⟩ := List.mem_filter.mp hu
  rw [Function.comp_apply]
  split
  · rename_i hun
    have hut := h.type?_of_mem hu (Value.equal_text_iff.mp hun)
    obtain rfl := Option.some.inj (hg.found.symm.trans hut)
    have hcolumns := hg.columns_eq (r := r) h h' hn
    rw [hf hunode, Option.toList_none, List.append_nil] at hcolumns
    have hname : t'.name.inline = (s.layoutOf r t).name := by
      rw [hg.name, name_layoutOf (type?_name hg.found)]
      rfl
    exact (TableLayout.mk.injEq ..).mpr ⟨hname, hcolumns⟩
  · rename_i hun
    exact hg.layoutOf_of_ne h h' hn hu (mt Value.equal_text_iff.mpr hun)

/-- The table for the type has the column for the field besides the columns that it had. -/
theorem layouts_perm (hsep : Separate ls) (hnode : t.isNode = true) {c : Column}
    (hf : s'.columnOf f = some c) :
    List.Forall₂ (fun l l' => l'.name = l.name ∧ l'.columns.Perm
      (l.columns ++ if sameName l.name n then [c] else [])) ls ls' := by
  have hall : List.Forall₂ (fun l l' => l'.name = l.name ∧ l'.columns.Perm
      (l.columns ++ if sameName l.name n then [c] else []))
      ((s.types.filter ObjectType.isNode).map (s.layoutOf r))
      ((s'.types.filter ObjectType.isNode).map (s'.layoutOf r)) := by
    rw [hg.nodes h, List.map_map, List.forall₂_map_left_iff, List.forall₂_map_right_iff,
      List.forall₂_same]
    intro u hu
    obtain ⟨hu, hunode⟩ := List.mem_filter.mp hu
    obtain ⟨m, hm⟩ := h.exists_name hu
    rw [Function.comp_apply, name_layoutOf hm]
    by_cases hmn : m = n
    · subst hmn
      have hut := h.type?_of_mem hu hm
      obtain rfl := Option.some.inj (hg.found.symm.trans hut)
      rw [if_pos (Value.equal_text_iff.mpr hm), if_pos (sameName_self m), name_layoutOf hg.name,
        hg.columns_eq h h' hn, hf]
      refine ⟨rfl, ?_⟩
      rw [layoutOf, List.append_assoc, List.append_assoc]
      exact List.perm_append_comm.append_left _
    · have hne : u.name ≠ .text n := fun hun => hmn (Value.text.inj (hm.symm.trans hun))
      have hdiffer : ¬sameName m n = true := by
        intro hsame
        exact hmn (h.eq_of_sameName hls hsep hu (mem_of_type? hg.found) hunode hnode hm
          (type?_name hg.found) hsame)
      rw [if_neg (mt Value.equal_text_iff.mp hne), if_neg hdiffer,
        hg.layoutOf_of_ne h h' hn hu hne, name_layoutOf hm, List.append_nil]
      exact ⟨rfl, .refl _⟩
  rwa [← h.layouts_eq hls, ← h'.layouts_eq hls'] at hall

end Gains

end Schema

end ObjectQuery
