import ObjectQuery.Proofs.Store.Reshaping
import ObjectQuery.Proofs.Store.Statements

/-!
# Tables that lose columns

The fields that a change takes away are given by their spots. The columns at different spots are
different, and they are the ones that the tables for the schema before have and those for the
changed schema lack.
-/

set_option autoImplicit false

namespace ObjectQuery

open Outcome Validation

theorem Separate.eq_of_sameColumn {ls : List TableLayout} {l : TableLayout} {c d : Column}
    (h : Separate ls) (hl : l ∈ ls) (hc : c ∈ l.columns) (hd : d ∈ l.columns)
    (hs : sameName c.name d.name = true) : c = d :=
  List.inj_on_of_nodup_map (h.columns l hl) hc hd (sameName_iff.mp hs)

namespace ColumnName

variable {ls : List TableLayout} {l : TableLayout} {c : Column} {spot : Spot} {spots : List Spot}
  {x : ColumnName}

/-- The column for a field, if it is stored. -/
def ofSpot (ls : List TableLayout) (spot : Spot) : Option ColumnName :=
  match Relational.layout? ls spot.typeName, spot.fieldName with
  | some l, .text name => if (l.column? name).isSome then some ⟨l.name, name⟩ else none
  | _, _ => none

def ofSpots (ls : List TableLayout) (spots : List Spot) : List ColumnName :=
  spots.filterMap (ofSpot ls)

theorem dropStored_eq (ls : List TableLayout) (spot : Spot) :
    Relational.dropStored ls spot = (ofSpot ls spot).toList.map drop := by
  unfold Relational.dropStored ofSpot
  cases Relational.layout? ls spot.typeName with
  | none => rfl
  | some l =>
    cases spot.fieldName with
    | text name =>
      dsimp only
      split <;> rfl
    | _ => rfl

theorem flatMap_dropStored (ls : List TableLayout) (spots : List Spot) :
    spots.flatMap (Relational.dropStored ls) = (ofSpots ls spots).map drop := by
  rw [ofSpots, List.filterMap_eq_flatMap_toList, List.map_flatMap]
  exact congrArg (spots.flatMap ·) (funext (dropStored_eq ls))

theorem ofSpot_eq_some (h : Separate ls) : ofSpot ls spot = some x ↔
    spot = ⟨.text x.table, .text x.column⟩ ∧
      ∃ l ∈ ls, l.name = x.table ∧ ∃ c ∈ l.columns, c.name = x.column := by
  constructor
  · intro hx
    unfold ofSpot at hx
    split at hx
    · rename_i l name hl hname
      split at hx
      · rename_i hcolumn
        cases hx
        rw [Relational.layout?] at hl
        have hspells := List.find?_some hl
        have htable := Value.spells_iff.mp hspells
        obtain ⟨c, hc⟩ := Option.isSome_iff_exists.mp hcolumn
        refine ⟨?_, l, List.mem_of_find?_eq_some hl, rfl, c, TableLayout.mem_of_column? hc⟩
        rw [← htable, ← hname]
      · cases hx
    · cases hx
  · obtain ⟨table, column⟩ := x
    rintro ⟨rfl, l, hl, rfl, c, hc, rfl⟩
    have hfound : Relational.layout? ls (.text l.name) = some l := by
      have hsome : (Relational.layout? ls (.text l.name)).isSome := by
        rw [Relational.layout?, List.find?_isSome]
        exact ⟨l, hl, Value.spells_iff.mpr rfl⟩
      obtain ⟨l', hl'⟩ := Option.isSome_iff_exists.mp hsome
      rw [hl']
      rw [Relational.layout?] at hl'
      have hspells := List.find?_some hl'
      have hname := Value.text.inj (Value.spells_iff.mp hspells)
      rw [h.eq_of_sameName hl (List.mem_of_find?_eq_some hl') (hname ▸ sameName_self l.name)]
    have hcolumn : (l.column? c.name).isSome := by
      rw [TableLayout.column?, List.find?_isSome]
      exact ⟨c, hc, BEq.rfl⟩
    rw [ofSpot, hfound]
    dsimp only
    rw [if_pos hcolumn]

theorem exists_of_mem_ofSpots (h : Separate ls) (hx : x ∈ ofSpots ls spots) :
    ∃ l ∈ ls, l.name = x.table ∧ ∃ c ∈ l.columns, c.name = x.column := by
  obtain ⟨spot, _, hspot⟩ := List.mem_filterMap.mp hx
  exact ((ofSpot_eq_some h).mp hspot).2

theorem same_iff (h : Separate ls) (hl : l ∈ ls) (hc : c ∈ l.columns)
    (hx : x ∈ ofSpots ls spots) : same ⟨l.name, c.name⟩ x = true ↔ x = ⟨l.name, c.name⟩ := by
  constructor
  · intro hsame
    obtain ⟨htable, hcolumn⟩ := Bool.and_eq_true_iff.mp hsame
    obtain ⟨table, column⟩ := x
    obtain ⟨l', hl', rfl, c', hc', rfl⟩ := exists_of_mem_ofSpots h hx
    obtain rfl := h.eq_of_sameName hl hl' htable
    obtain rfl := Separate.eq_of_sameColumn h hl hc hc' hcolumn
    rfl
  · rintro rfl
    exact Bool.and_eq_true_iff.mpr ⟨sameName_self _, sameName_self _⟩

/-- The columns at different spots are different. -/
theorem pairwise_ofSpots (h : Separate ls) (hs : spots.Nodup) :
    (ofSpots ls spots).Pairwise fun x y => x.same y = false := by
  have hnodup : (ofSpots ls spots).Nodup := by
    refine hs.filterMap fun a b x ha hb => ?_
    rw [((ofSpot_eq_some h).mp ha).1, ((ofSpot_eq_some h).mp hb).1]
  refine hnodup.imp_of_mem fun {x y} hx hy hne => Bool.eq_false_iff.mpr fun hsame => hne ?_
  obtain ⟨table, column⟩ := x
  obtain ⟨l, hl, rfl, c, hc, rfl⟩ := exists_of_mem_ofSpots h hx
  exact ((same_iff h hl hc hy).mp hsame).symm

/-- A column is among those at some spots if its own spot is among them. -/
theorem isIn_ofSpots (h : Separate ls) (hl : l ∈ ls) (hc : c ∈ l.columns) :
    isIn (ofSpots ls spots) l.name c.name = true ↔ ⟨.text l.name, .text c.name⟩ ∈ spots := by
  rw [isIn, List.any_eq_true]
  constructor
  · rintro ⟨x, hx, hsame⟩
    obtain rfl := (same_iff h hl hc hx).mp hsame
    obtain ⟨spot, hspot, hfound⟩ := List.mem_filterMap.mp hx
    rwa [((ofSpot_eq_some h).mp hfound).1] at hspot
  · intro hspot
    have hfound : ofSpot ls ⟨.text l.name, .text c.name⟩ = some ⟨l.name, c.name⟩ :=
      (ofSpot_eq_some h).mpr ⟨rfl, l, hl, rfl, c, hc, rfl⟩
    have hx : ⟨l.name, c.name⟩ ∈ ofSpots ls spots := List.mem_filterMap.mpr ⟨_, hspot, hfound⟩
    exact ⟨_, hx, (same_iff h hl hc hx).mpr rfl⟩

end ColumnName

namespace ObjectType

variable {t : ObjectType} {v : Value} {spot : Spot}

def referringSpots (t : ObjectType) (v : Value) : List Spot :=
  if t.name.equal v then []
  else (t.declared.filter (·.refersTo v)).map fun f => ⟨t.name, f.name⟩

theorem Legible.referring (h : t.Legible) (v : Value) :
    t.referring v = .ok (t.referringSpots v) := by
  rw [ObjectType.referring, referringSpots, h.fields]
  split <;> rfl

theorem mem_referringSpots : spot ∈ t.referringSpots v ↔
    t.name.equal v = false ∧ ∃ f ∈ t.declared, f.refersTo v = true ∧ ⟨t.name, f.name⟩ = spot := by
  unfold referringSpots
  cases hv : t.name.equal v with
  | true => simp
  | false => simp [and_assoc]

theorem nodup_referringSpots (h : (t.declared.map (·.name)).Nodup) (v : Value) :
    (t.referringSpots v).Nodup := by
  unfold referringSpots
  split
  · exact .nil
  · refine List.Nodup.of_map Spot.fieldName ?_
    rw [List.map_map]
    exact h.sublist (List.filter_sublist.map Field.name)

end ObjectType

def TableLayout.without (l : TableLayout) (xs : List ColumnName) : TableLayout :=
  { l with columns := l.columns.filter fun c => !ColumnName.isIn xs l.name c.name }

namespace Schema

open ColumnName

variable {rules : Rules} {s s' : Schema} {t t' : ObjectType} {f : Field} {ls ls' : List TableLayout}
  {spots : List Spot} {gone : ObjectType → Field → Bool} {n : String}

/-- Whether spots are those of the fields of which something holds. -/
structure Spotted (s : Schema) (gone : ObjectType → Field → Bool) (spots : List Spot) : Prop where
  nodup : spots.Nodup
  mem_iff : ∀ t ∈ s.types, ∀ v,
    ⟨t.name, v⟩ ∈ spots ↔ ∃ f ∈ t.declared, f.name = v ∧ gone t f = true

theorem Valid.referring (h : s.Valid rules) (v : Value) :
    s.referring v = .ok (s.types.flatMap (·.referringSpots v)) := by
  rw [Schema.referring, mapM_ok fun t ht => (h.legible t ht).referring v, ok_bind, pure_eq_ok,
    List.flatMap_def]

theorem Valid.exists_referring (h : s.Valid rules) (c : SchemaChange) :
    ∃ spots, Relational.referring s c = .ok spots := by
  cases c with
  | deleteType v => exact ⟨_, h.referring v⟩
  | createType | addField | removeField => exact ⟨[], rfl⟩

/-- The fields that refer to a type, but for those of the type itself. -/
theorem Valid.spotted_referring (h : s.Valid rules) {v : Value}
    (hspots : s.referring v = .ok spots) :
    s.Spotted (fun t f => !t.name.equal v && f.refersTo v) spots := by
  cases (h.referring v).symm.trans hspots
  constructor
  · refine List.nodup_flatMap.mpr ⟨fun t ht => ?_, ?_⟩
    · exact ObjectType.nodup_referringSpots (h.fieldNames_nodup ht) v
    · refine (List.pairwise_map.mp h.names_nodup).imp fun {t u} hne => ?_
      intro spot ht hu
      obtain ⟨_, _, _, _, rfl⟩ := ObjectType.mem_referringSpots.mp ht
      obtain ⟨_, _, _, _, heq⟩ := ObjectType.mem_referringSpots.mp hu
      exact hne (Spot.mk.inj heq).1.symm
  · intro t ht w
    rw [List.mem_flatMap]
    constructor
    · rintro ⟨u, hu, hspot⟩
      obtain ⟨hv, f, hf, hrefers, heq⟩ := ObjectType.mem_referringSpots.mp hspot
      obtain ⟨hname, rfl⟩ := Spot.mk.inj heq
      obtain rfl := List.inj_on_of_nodup_map h.names_nodup hu ht hname
      exact ⟨f, hf, rfl, by rw [hv, hrefers]; rfl⟩
    · rintro ⟨f, hf, rfl, hgone⟩
      rw [Bool.and_eq_true, Bool.not_eq_true'] at hgone
      exact ⟨t, ht, ObjectType.mem_referringSpots.mpr ⟨hgone.1, f, hf, hgone.2, rfl⟩⟩

/-- A single field. -/
theorem Valid.spotted_field (h : s.Valid rules) {n m : String} (ht : s.type? n = some t)
    (hf : t.field? m = some f) :
    s.Spotted (fun t f => t.name.equal (.text n) && f.name.equal (.text m))
      [⟨.text n, .text m⟩] := by
  refine ⟨List.nodup_singleton _, fun u hu w => ?_⟩
  rw [List.mem_singleton, Spot.mk.injEq]
  simp only [Bool.and_eq_true, Value.equal_text_iff]
  constructor
  · rintro ⟨hname, rfl⟩
    obtain rfl := Option.some.inj (ht.symm.trans (h.type?_of_mem hu hname))
    have hfm := ObjectType.field?_name hf
    exact ⟨f, ObjectType.mem_of_field? hf, hfm, hname, hfm⟩
  · rintro ⟨g, _, rfl, hname, hg⟩
    exact ⟨hname, hg⟩

theorem Valid.isIn_column (h : s.Valid rules) (hls : s.layouts .standard = .ok ls)
    (hsep : Separate ls) (hspots : s.Spotted gone spots) (ht : t ∈ s.types)
    (hnode : t.isNode = true) {c : Column} (hc : c ∈ (s.layoutOf .standard t).columns) :
    isIn (ofSpots ls spots) t.name.inline c.name = true ↔
      ∃ f ∈ t.declared, f.name = .text c.name ∧ gone t f = true := by
  obtain ⟨n, hn⟩ := h.exists_name ht
  have hname : t.name = .text (s.layoutOf .standard t).name := by
    rw [name_layoutOf hn, hn]
  rw [← hspots.mem_iff t ht, hname]
  exact isIn_ofSpots hsep (h.layoutOf_mem hls ht hnode) hc

theorem Valid.isIn_columnOf (h : s.Valid rules) (hls : s.layouts .standard = .ok ls)
    (hsep : Separate ls) (hspots : s.Spotted gone spots) (ht : t ∈ s.types)
    (hnode : t.isNode = true) (hf : f ∈ t.declared) {c : Column} (hc : s.columnOf f = some c) :
    isIn (ofSpots ls spots) t.name.inline c.name = gone t f := by
  obtain ⟨m, hm⟩ := h.exists_fieldName ht hf
  have hfc : f.name = .text c.name := by
    rw [name_of_columnOf hc, columnName_eq hm, hm]
  have hmem : c ∈ (s.layoutOf .standard t).columns :=
    List.mem_append_left _ (List.mem_filterMap.mpr ⟨f, hf, hc⟩)
  rw [Bool.eq_iff_iff, h.isIn_column hls hsep hspots ht hnode hmem]
  constructor
  · rintro ⟨g, hg, hgc, hgone⟩
    have hgf := List.inj_on_of_nodup_map (h.fieldNames_nodup ht) hg hf (hgc.trans hfc.symm)
    rwa [← hgf]
  · exact fun hgone => ⟨f, hf, hfc, hgone⟩

/-- A change takes no built-in column away: no field of the type is called like it. -/
theorem Valid.filter_builtInColumns (h : s.Valid rules) (hr : rules.registry = .standard)
    (hls : s.layouts .standard = .ok ls) (hsep : Separate ls) (hspots : s.Spotted gone spots)
    (ht : t ∈ s.types) (hnode : t.isNode = true) :
    (builtInColumns .standard t).filter
        (fun c => !isIn (ofSpots ls spots) t.name.inline c.name) =
      builtInColumns .standard t := by
  refine List.filter_eq_self.mpr fun c hc => ?_
  have hmem : c ∈ (s.layoutOf .standard t).columns := List.mem_append_right _ hc
  rw [Bool.not_eq_true', Bool.eq_false_iff]
  intro hin
  obtain ⟨f, hf, hname, _⟩ := (h.isIn_column hls hsep hspots ht hnode hmem).mp hin
  obtain ⟨g, hg, rfl⟩ := List.mem_map.mp hc
  have hfresh := (h.fieldFacts ht hf).fresh
  rw [hr, List.all_eq_true] at hfresh
  have hne := hfresh g hg
  obtain rfl := Registry.eq_of_mem_typeFields hg
  rw [hname] at hne
  cases hne

/-- The table for a type some of whose fields are gone lacks their columns, and no other ones. -/
theorem Valid.layoutOf_eq_without (h : s.Valid rules) (hr : rules.registry = .standard)
    (h' : s'.Valid rules) (hn : SameNodes s s') (hls : s.layouts .standard = .ok ls)
    (hsep : Separate ls) (hspots : s.Spotted gone spots) (ht : t ∈ s.types)
    (hnode : t.isNode = true) (ht' : t' ∈ s'.types) (hname : t'.name = t.name)
    (hdeclared : t'.declared = t.declared.filter (!gone t ·)) :
    s'.layoutOf .standard t' = (s.layoutOf .standard t).without (ofSpots ls spots) := by
  have hkept : t'.declared.filterMap s'.columnOf = t'.declared.filterMap s.columnOf := by
    refine List.filterMap_congr fun f hf => ?_
    have hf₀ : f ∈ t.declared := by
      rw [hdeclared] at hf
      exact List.mem_of_mem_filter hf
    exact hn.columnOf_eq (h.exists_kindOf ht hf₀) (h'.exists_kindOf ht' hf)
  have hfields : t'.declared.filterMap s'.columnOf =
      (t.declared.filterMap s.columnOf).filter
        fun c => !isIn (ofSpots ls spots) t.name.inline c.name := by
    rw [hkept, hdeclared, List.filterMap_filter, List.filter_filterMap]
    refine List.filterMap_congr fun f hf => ?_
    cases hc : s.columnOf f with
    | none => simp
    | some c => rw [Option.filter_some, h.isIn_columnOf hls hsep hspots ht hnode hf hc]
  have hregistry : builtInColumns .standard t' = builtInColumns .standard t := by
    rw [builtInColumns, builtInColumns, hname]
  simp only [layoutOf, TableLayout.without, hname, hfields, hregistry, List.filter_append,
    h.filter_builtInColumns hr hls hsep hspots ht hnode]

/-- The tables of a schema that a change leaves with fewer types and fewer fields. -/
theorem Valid.layouts_eq_without (h : s.Valid rules) (hr : rules.registry = .standard)
    (h' : s'.Valid rules) (hn : SameNodes s s') (hls : s.layouts .standard = .ok ls)
    (hls' : s'.layouts .standard = .ok ls') (hsep : Separate ls) (hspots : s.Spotted gone spots)
    {keep : ObjectType → Bool} {g : ObjectType → ObjectType} {q : String → Bool}
    (htypes : s'.types = (s.types.filter keep).map g)
    (hg : ∀ t ∈ s.types, keep t = true → (g t).name = t.name ∧ (g t).isNode = t.isNode ∧
      (g t).declared = t.declared.filter (!gone t ·))
    (hq : ∀ t ∈ s.types, t.isNode = true → q t.name.inline = keep t) :
    ls' = (ls.filter (q ·.name)).map (·.without (ofSpots ls spots)) := by
  have hnodes : s'.types.filter ObjectType.isNode =
      ((s.types.filter ObjectType.isNode).filter (q ·.name.inline)).map g := by
    rw [htypes, List.filter_map, List.filter_filter, List.filter_filter]
    congr 1
    refine List.filter_congr fun t ht => ?_
    rw [Function.comp_apply]
    cases hkeep : keep t with
    | true =>
      rw [(hg t ht hkeep).2.1]
      cases hnode : t.isNode with
      | true => rw [hq t ht hnode, hkeep]
      | false => simp
    | false =>
      cases hnode : t.isNode with
      | true => simp [hq t ht hnode, hkeep]
      | false => simp
  have hnames : (fun t => q (s.layoutOf .standard t).name) = fun t => q t.name.inline := rfl
  rw [h'.layouts_eq hls', hnodes, h.layouts_eq hls, List.filter_map, Function.comp_def, hnames,
    List.map_map, List.map_map]
  refine List.map_congr_left fun t ht => ?_
  obtain ⟨hnode, hq'⟩ := List.mem_filter.mp ht
  obtain ⟨ht, hnode⟩ := List.mem_filter.mp hnode
  have hkeep : keep t = true := (hq t ht hnode).symm.trans hq'
  obtain ⟨hname, _, hdeclared⟩ := hg t ht hkeep
  have ht' : g t ∈ s'.types := by
    rw [htypes]
    exact List.mem_map_of_mem (List.mem_filter.mpr ⟨ht, hkeep⟩)
  rw [Function.comp_apply, Function.comp_apply, ← h.layouts_eq hls]
  exact h.layoutOf_eq_without hr h' hn hls hsep hspots ht hnode ht' hname hdeclared

/-- The tables left by deleting a type. Only a node has one to lose. -/
theorem Valid.layouts_deleteType (h : s.Valid rules) (hr : rules.registry = .standard)
    (h' : s'.Valid rules) (hls : s.layouts .standard = .ok ls)
    (hls' : s'.layouts .standard = .ok ls') (hsep : Separate ls) (ht : s.type? n = some t)
    (hspots : s.referring (.text n) = .ok spots) (hc : s.apply (.deleteType (.text n)) = .ok s') :
    ls' = (ls.filter fun l => !(t.isNode && sameName l.name n)).map
      (·.without (ofSpots ls spots)) := by
  have hn := sameNodes_apply h.legible hc
  obtain ⟨_, rfl⟩ := apply_deleteType_eq_ok h.legible hc
  refine h.layouts_eq_without hr h' hn hls hls' hsep (h.spotted_referring hspots) rfl
    (q := fun m => !(t.isNode && sameName m n)) ?_ ?_
  · intro u hu hkeep
    rw [Bool.not_eq_true'] at hkeep
    refine ⟨u.name_dropping _, u.isNode_dropping _, ?_⟩
    simp only [ObjectType.declared_dropping, ObjectType.unrelated, hkeep, Bool.not_false,
      Bool.true_and]
  · intro u hu hunode
    obtain ⟨m, hm⟩ := h.exists_name hu
    rw [hm, Value.equal_text, Value.inline_text]
    refine congrArg (!·) (Bool.eq_iff_iff.mpr ?_)
    rw [beq_iff_eq, Bool.and_eq_true]
    constructor
    · rintro ⟨hnode, hsame⟩
      exact h.eq_of_sameName hls hsep hu (mem_of_type? ht) hunode hnode hm (type?_name ht) hsame
    · rintro rfl
      have hut := h.type?_of_mem hu hm
      rw [Option.some.inj (ht.symm.trans hut)]
      exact ⟨hunode, sameName_self m⟩

/-- The tables left by removing a field. -/
theorem Valid.layouts_removeField (h : s.Valid rules) (hr : rules.registry = .standard)
    (h' : s'.Valid rules) (hls : s.layouts .standard = .ok ls)
    (hls' : s'.layouts .standard = .ok ls') (hsep : Separate ls) (ht : s.type? n = some t)
    {m : String} (hf : t.field? m = some f)
    (hc : s.apply (.removeField (.text n) (.text m)) = .ok s') :
    ls' = ls.map (·.without (ofSpots ls [⟨.text n, .text m⟩])) := by
  have hn := sameNodes_apply h.legible hc
  obtain ⟨_, _, _, hname, ht₀, _, rfl⟩ := apply_removeField_eq_ok h.legible hc
  cases hname
  cases ht.symm.trans ht₀
  have hnew : (s.replace (.text n) (t.withFields (t.declared.filter
      (!·.name.equal (.text m))))).types = (s.types.filter fun _ => true).map fun u =>
        if u.name.equal (.text n) then t.withFields (t.declared.filter (!·.name.equal (.text m)))
        else u := by
    rw [List.filter_true]
    rfl
  have hremoved := h.layouts_eq_without hr h' hn hls hls' hsep (h.spotted_field ht hf) hnew
    (q := fun _ => true) ?_ fun _ _ _ => rfl
  · rwa [List.filter_true] at hremoved
  · intro u hu _
    split
    · rename_i hun
      have hut := h.type?_of_mem hu (Value.equal_text_iff.mp hun)
      obtain rfl := Option.some.inj (ht.symm.trans hut)
      refine ⟨rfl, rfl, ?_⟩
      simp only [ObjectType.declared_withFields, hun, Bool.true_and]
    · rename_i hun
      simp [hun]

end Schema

end ObjectQuery
