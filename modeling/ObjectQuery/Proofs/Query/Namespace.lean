import Mathlib.Data.List.Infix
import ObjectQuery.Plan.Compile
import ObjectQuery.Proofs.Query.Execution
import ObjectQuery.Proofs.Schema.Conditions

/-!
# Names of types

The types of a valid schema and the ones that describe schemas are called differently: no name or
plural of one of them is a name or plural of another one. The rules ask this of the types of the
schema, and the reserved prefix keeps them apart from the others. It is only looked for in what is
declared, but pluralising a name does not give it a prefix that ends in a letter of no ending.
-/

set_option autoImplicit false

namespace ObjectQuery

open Validation

/-- What a type is called, one and many of it. -/
def ObjectType.callings (t : ObjectType) : List Value := [t.name, t.plural]

/-- The types that can be described, in the order in which they are listed. -/
def Schema.describable (s : Schema) : List ObjectType := s.types ++ Metadata.types

section Prefixes

variable {p stem ending : List Char} {c : Char}

/-- What begins with letters of which the last one is not in its ending has them before that. -/
theorem prefix_of_last_not_mem (h : p ++ [c] <+: stem ++ ending) (hc : c ∉ ending) :
    p ++ [c] <+: stem := by
  rcases List.prefix_or_prefix_of_prefix h (List.prefix_append stem ending) with hp | ⟨q, hq⟩
  · exact hp
  · rcases List.eq_nil_or_concat q with rfl | ⟨q, d, rfl⟩
    · rw [← hq, List.append_nil]
    · -- the last letter is in what the ending begins with
      rw [← hq] at h
      have hmem : d ∈ ending := ((List.prefix_append_right_inj stem).mp h).subset (by simp)
      rw [List.concat_eq_append, ← List.append_assoc] at hq
      obtain rfl := List.singleton_inj.mp (List.append_inj' hq rfl).2
      exact absurd hmem hc

/-- A plural is what a name begins with and one of three endings. -/
theorem Plural.exists_stem (cs : List Char) :
    ∃ stem, stem <+: cs ∧ ∃ ending ∈ [['i', 'e', 's'], ['e', 's'], ['s']],
      ofChars cs = stem ++ ending := by
  unfold ofChars
  split
  · exact ⟨cs.dropLast, List.dropLast_prefix cs, _, by simp, rfl⟩
  · split
    · exact ⟨cs, List.prefix_rfl, _, by simp, rfl⟩
    · exact ⟨cs, List.prefix_rfl, _, by simp, rfl⟩

end Prefixes

theorem reserved_of_pluralize {n : String} (h : reservedPrefix.toList <+: (pluralize n).toList) :
    reservedPrefix.toList <+: n.toList := by
  obtain ⟨stem, hstem, ending, hending, heq⟩ := Plural.exists_stem n.toList
  rw [pluralize, String.toList_ofList, heq] at h
  have hall : ∀ ending ∈ [['i', 'e', 's'], ['e', 's'], ['s']], 'L' ∉ ending := by decide
  have hsplit : reservedPrefix.toList = "SchemaQ".toList ++ ['L'] := by decide
  rw [hsplit] at h ⊢
  exact (prefix_of_last_not_mem h (hall ending hending)).trans hstem

namespace Schema

variable {rules : Rules} {s : Schema} {t u : ObjectType} {v : Value} {n : String}

/-- Neither the name of a type nor its plural, declared or not, begins with the reserved prefix. -/
theorem TypeFacts.unreserved (h : TypeFacts rules s t) (hv : v ∈ t.callings) :
    ∃ n, v = .text n ∧ ¬reservedPrefix.toList <+: n.toList := by
  obtain ⟨n, hn⟩ := h.exists_name
  have hnames := h.names
  rw [hn] at hnames
  have hname := (nameViolations_text.mp hnames).2
  rcases List.mem_cons.mp hv with rfl | hv
  · exact ⟨n, hn, hname⟩
  obtain rfl := List.mem_singleton.mp hv
  rw [ObjectType.plural, hn]
  split
  · exact ⟨_, rfl, fun hplural => hname (reserved_of_pluralize hplural)⟩
  · rename_i hgiven
    have hdeclared : t.plural = t.pluralName := by
      rw [ObjectType.plural, if_neg hgiven]
    obtain ⟨p, hp⟩ := h.exists_plural
    have hplurals := h.plurals
    rw [← hdeclared, hp] at hplurals
    exact ⟨p, hdeclared.symm.trans hp, (nameViolations_text.mp hplurals).2⟩

/-- The plural of a type is no other type's name. -/
theorem Valid.plural_ne_name (h : s.Valid rules) (ht : t ∈ s.types) (hu : u ∈ s.types)
    (hne : t.name ≠ u.name) : t.plural ≠ u.name := by
  obtain ⟨p, hp⟩ := (h.typeFacts ht).exists_plural
  intro heq
  have hown := (pluralIsFree_iff hp).mp (h.typeFacts ht).pluralFree u hu (heq.symm.trans hp)
  exact hne (hown.trans (hp.symm.trans heq))

theorem Valid.callings_disjoint (h : s.Valid rules) :
    s.types.Pairwise fun t u => t.callings.Disjoint u.callings := by
  have hnames := List.pairwise_map.mp h.facts.names
  have hplurals := List.pairwise_map.mp h.facts.plurals
  refine (hnames.and hplurals).imp_of_mem ?_
  rintro t u ht hu ⟨hname, hplural⟩
  simp only [ObjectType.callings, List.disjoint_cons_left, List.disjoint_nil_left, List.mem_cons,
    List.not_mem_nil, or_false, not_or, and_true]
  exact ⟨⟨hname, (h.plural_ne_name hu ht (Ne.symm hname)).symm⟩,
    h.plural_ne_name ht hu hname, hplural⟩

end Schema

namespace Metadata

/-- The names and plurals of the types that describe schemas. -/
def callings : List String :=
  ["SchemaQLSchema", "SchemaQLSchemas", "SchemaQLCall", "SchemaQLCalls", "SchemaQLType",
    "SchemaQLTypes", "SchemaQLField", "SchemaQLFields", "SchemaQLSchemaResult",
    "SchemaQLSchemaResults", "SchemaQLMutationResult", "SchemaQLMutationResults",
    "SchemaQLChange", "SchemaQLChanges"]

theorem flatMap_callings : types.flatMap ObjectType.callings = callings.map .text := by
  rfl

theorem callings_disjoint : types.Pairwise fun t u => t.callings.Disjoint u.callings := by
  have hnodup : (types.flatMap ObjectType.callings).Nodup := by
    rw [flatMap_callings]
    exact (by decide : callings.Nodup).map fun _ _ => Value.text.inj
  exact (List.nodup_flatMap.mp hnodup).2

theorem reserved_of_mem {t : ObjectType} {v : Value} (ht : t ∈ types) (hv : v ∈ t.callings) :
    ∃ n, v = .text n ∧ reservedPrefix.toList <+: n.toList := by
  have hmem : v ∈ types.flatMap ObjectType.callings := List.mem_flatMap.mpr ⟨t, ht, hv⟩
  rw [flatMap_callings] at hmem
  obtain ⟨n, hn, rfl⟩ := List.mem_map.mp hmem
  have hall : ∀ n ∈ callings, reservedPrefix.toList.isPrefixOf n.toList = true := by decide
  exact ⟨n, rfl, List.isPrefixOf_iff_prefix.mp (hall n hn)⟩

end Metadata

namespace Schema

variable {rules : Rules} {s : Schema} {i : Snapshot} {t : ObjectType} {n : String}

theorem Valid.describable_disjoint (h : s.Valid rules) :
    s.describable.Pairwise fun t u => t.callings.Disjoint u.callings := by
  refine List.pairwise_append.mpr ⟨h.callings_disjoint, Metadata.callings_disjoint, ?_⟩
  intro t ht u hu v hvt hvu
  obtain ⟨n, rfl, hfree⟩ := (h.typeFacts ht).unreserved hvt
  obtain ⟨m, hm, hreserved⟩ := Metadata.reserved_of_mem hu hvu
  obtain rfl := Value.text.inj hm
  exact hfree hreserved

/-- The name of a type that can be described stands for it. -/
theorem described_iff : Compile.describedType? i n = some t ↔
    t ∈ i.schema.describable ∧ t.name = .text n := by
  have hnames : (i.schema.describable.map (·.name)).Nodup := by
    refine List.pairwise_map.mpr (i.valid.describable_disjoint.imp fun hdisjoint heq => ?_)
    exact hdisjoint List.mem_cons_self (heq ▸ List.mem_cons_self)
  have hdescribed : Compile.describedType? i n =
      Schema.type? ⟨i.schema.describable⟩ n := by
    rw [Compile.describedType?, Schema.type?, Schema.type?, Schema.type?, describable,
      List.find?_append, Option.orElse_eq_orElse, Option.orElse_eq_or]
    rfl
  rw [hdescribed]
  exact ⟨fun h => ⟨mem_of_type? h, type?_name h⟩, fun h => type?_of_nodup hnames h.1 h.2⟩

/-- Where no two types are called alike, at most one is called by a text. -/
theorem length_filter_callings_le {ts : List ObjectType}
    (h : ts.Pairwise fun t u => t.callings.Disjoint u.callings) (n : String) :
    (ts.filter fun t => t.callings.any (·.spells n)).length ≤ 1 := by
  have hcalled : ∀ t ∈ ts.filter (fun t => t.callings.any (·.spells n)),
      .text n ∈ t.callings := by
    intro t ht
    obtain ⟨v, hv, hspells⟩ := List.any_eq_true.mp (List.mem_filter.mp ht).2
    rwa [← Value.spells_iff.mp hspells]
  have hpairs := h.filter fun t => t.callings.any (·.spells n)
  generalize ts.filter (fun t => t.callings.any (·.spells n)) = called at hcalled hpairs ⊢
  match called with
  | [] => exact Nat.zero_le 1
  | [_] => exact Nat.le_refl 1
  | t :: u :: _ =>
    have hdisjoint := (List.pairwise_cons.mp hpairs).1 u List.mem_cons_self
    exact absurd (hcalled u (by simp)) (hdisjoint (hcalled t (by simp)))

/-- No two of the types that can be described are called alike, those of the schema are not called
like the others could be, and so a name or a plural is that of one type at most. -/
theorem Valid.names_unambiguous (h : s.Valid rules) :
    s.describable.Pairwise (fun t u => t.callings.Disjoint u.callings) ∧
    (∀ t ∈ s.types, ∀ v ∈ t.callings, ∃ n, v = .text n ∧ ¬reservedPrefix.toList <+: n.toList) ∧
    ∀ n, (s.describable.filter fun t => t.callings.any (·.spells n)).length ≤ 1 ∧
      ∀ i : Snapshot, i.schema = s → ∀ t, Compile.describedType? i n = some t ↔
        t ∈ s.describable ∧ t.name = .text n := by
  refine ⟨h.describable_disjoint, fun t ht v hv => (h.typeFacts ht).unreserved hv, fun n => ?_⟩
  refine ⟨length_filter_callings_le h.describable_disjoint n, ?_⟩
  rintro i rfl t
  exact described_iff

end Schema

/-- Eleven types can be described where four are declared, addresses as the plural of one. -/
theorem library_names_unambiguous : Library.schema.Valid .standard ∧
    Library.addressType.plural = .text "Addresses" ∧
    (Library.schema.describable.filter
      fun t => t.callings.any (·.spells "Addresses")).length ≤ 1 ∧
    Compile.describedType? Library.snapshot "Address" = some Library.addressType := by
  have hvalid : Library.schema.Valid .standard := by rfl
  obtain ⟨_, _, hunique⟩ := Schema.Valid.names_unambiguous hvalid
  refine ⟨hvalid, by rfl, (hunique "Addresses").1, ?_⟩
  exact ((hunique "Address").2 Library.snapshot rfl Library.addressType).mpr
    ⟨by simp [Schema.describable, Library.schema], rfl⟩

end ObjectQuery
