import ObjectQuery.Proofs.Schema.Evolution
import ObjectQuery.Proofs.Schema.Required

/-!
# Additions undone

What an accepted change adds to a valid schema nothing else in the schema speaks of: no field can be
declared with a type that is not there yet, and no field has the name of one that is added. So
taking it away leaves all else as it was, in its order, and a run of additions is undone by taking
away what was added, the latest first.
-/

set_option autoImplicit false

namespace ObjectQuery

open Outcome Validation

namespace SchemaChange

/-- Whether a change adds a type that is not called like a marker, or a field. -/
def Additive : SchemaChange → Prop
  | createType type => ∀ t, type = some t → ¬t.CalledLikeMarker
  | addField _ _ => True
  | _ => False

/-- The change that takes away what a change adds. A change that adds nothing is left as it is. -/
def inverse : SchemaChange → SchemaChange
  | createType type => deleteType (type.elim .null (·.name))
  | addField typeName member => removeField typeName (member.field?.elim .null (·.name))
  | c => c

end SchemaChange

namespace Schema

variable {rules : Rules} {s s' s'' : Schema} {t u : ObjectType} {f : Field} {n m : String}
  {c : SchemaChange} {cs : List SchemaChange} {ss : List Schema}

/-- The schemas that accepted changes lead through, from the first one to the last. -/
inductive Passes (rules : Rules) : Schema → List SchemaChange → List Schema → Schema → Prop
  | stay (s : Schema) : Passes rules s [] [s] s
  | change {s s' s'' : Schema} {c : SchemaChange} {cs : List SchemaChange} {ss : List Schema}
      (ha : s.applyValidated rules c = .ok (.ok s')) (h : Passes rules s' cs ss s'') :
      Passes rules s (c :: cs) (s :: ss) s''

theorem Passes.snoc (h : Passes rules s cs ss s')
    (ha : s'.applyValidated rules c = .ok (.ok s'')) :
    Passes rules s (cs ++ [c]) (ss ++ [s'']) s'' := by
  induction h with
  | stay s => exact .change ha (.stay s'')
  | change hfirst _ ih => exact .change hfirst (ih ha)

theorem map_withFields_eq_self {ts : List ObjectType} {fields : ObjectType → List Field}
    (h : ∀ t ∈ ts, t.Legible) (hfields : ∀ t ∈ ts, fields t = t.declared) :
    ts.map (fun t => t.withFields (fields t)) = ts := by
  have hsame : ∀ t ∈ ts, t.withFields (fields t) = id t := by
    intro t ht
    rw [hfields t ht, (h t ht).withFields_declared, id]
  rw [List.map_congr_left hsame, List.map_id]

/-- Nothing in a schema refers to a type that is created. -/
theorem Valid.delete_created (h : s.Valid rules)
    (hs' : (⟨s.types ++ [t]⟩ : Schema).Valid rules) (hm : ¬t.CalledLikeMarker) :
    (⟨s.types ++ [t]⟩ : Schema).apply (.deleteType t.name) = .ok s := by
  have ht : t ∈ (⟨s.types ++ [t]⟩ : Schema).types :=
    List.mem_append_right _ (List.mem_singleton_self t)
  obtain ⟨n, hn⟩ := hs'.exists_name ht
  have hfree : ∀ u ∈ s.types, u.name ≠ .text n := by
    have hnames := (nodup_map_append_singleton.mp hs'.names_nodup).2
    rwa [hn] at hnames
  have hadmissible : isTypeName n = true := by
    have hnames := (hs'.facts.types t ht).names
    rw [hn] at hnames
    exact (nameViolations_text.mp hnames).1
  have hmarker : n ≠ connectionMarker ∧ n ≠ listMarker := by
    rw [← not_or]
    rintro (rfl | rfl)
    · exact hm (.inl hn)
    · exact hm (.inr hn)
  have hkept : (s.types ++ [t]).filter (!·.name.spells n) = s.types := by
    rw [List.filter_append, List.filter_singleton, hn, Value.spells_text, BEq.rfl,
      List.filter_eq_self.mpr fun u hu => Value.not_spells_iff.mpr (hfree u hu)]
    exact List.append_nil _
  -- The schema was valid without the type, so none of its fields can have been declared with it.
  have hfields : ∀ u ∈ s.types, u.declared.filter (!·.refersTo (.text n)) = u.declared := by
    intro u hu
    refine List.filter_eq_self.mpr fun f hf => ?_
    obtain ⟨htype, hof⟩ := h.not_declared_with hu hf hfree hadmissible hmarker
    rw [Field.refersTo, Bool.not_or, Value.equal_text_eq, Value.equal_text_eq,
      Value.not_spells_iff.mpr htype, Value.not_spells_iff.mpr hof]
    rfl
  rw [hn, hs'.apply_deleteType (hs'.type?_of_mem ht hn), restricted, remade, hkept,
    map_withFields_eq_self h.legible hfields]

/-- What is left of a type without a field that none of its fields has the name of. -/
theorem filter_isSpared (hfresh : t.name = .text n → ∀ g ∈ t.declared, g.name ≠ f.name)
    (hf : f.name = .text m) : (t.edited n (· ++ [f])).filter (isSpared n m t) = t.declared := by
  rw [ObjectType.edited]
  split
  · rename_i hname
    have hgone : isSpared n m t f = false := by
      rw [isSpared, hname, hf, Value.spells_text, BEq.rfl]
      rfl
    rw [List.filter_append, List.filter_singleton, hgone]
    refine (List.append_nil _).trans (List.filter_eq_self.mpr fun g hg => ?_)
    have hne := hfresh (Value.spells_iff.mp hname) g hg
    rw [hf] at hne
    rw [isSpared, hname, Bool.true_and, Value.not_spells_iff]
    exact hne
  · rename_i hname
    refine List.filter_eq_self.mpr fun g _ => ?_
    rw [isSpared, Bool.eq_false_iff.mpr hname]
    rfl

/-- Nothing in a type has the name of a field that is added. -/
theorem Valid.remove_added (h : s.Valid rules) (hs' : (s.enlarged n f).Valid rules)
    (ht : s.type? n = some t) :
    (s.enlarged n f).apply (.removeField (.text n) f.name) = .ok s := by
  have hfound : (s.enlarged n f).type? n = some (t.withFields (t.edited n (· ++ [f]))) := by
    rw [enlarged, type?_remade fun _ _ _ => rfl, ht]
    rfl
  have hmem : f ∈ (t.withFields (t.edited n (· ++ [f]))).declared := by
    rw [ObjectType.declared_withFields, mem_edited]
    exact .inr ⟨type?_name ht, rfl⟩
  obtain ⟨m, hm⟩ := hs'.exists_fieldName (mem_of_type? hfound) hmem
  have hfield := hs'.field?_of_mem (mem_of_type? hfound) hmem hm
  have hfields : ∀ u ∈ s.types,
      (u.edited n (· ++ [f])).filter (isSpared n m u) = u.declared := by
    refine fun u hu => filter_isSpared (fun hun => ?_) hm
    cases (h.type?_of_mem hu hun).symm.trans ht
    exact hs'.fresh_of_added ht
  have hagain : (s.enlarged n f).restricted (fun _ => true) (isSpared n m) =
      ⟨s.types.map fun u => u.withFields ((u.edited n (· ++ [f])).filter (isSpared n m u))⟩ := by
    simp only [restricted, enlarged, remade, List.filter_true, List.map_map]
    refine congrArg Schema.mk (List.map_congr_left fun u _ => ?_)
    rw [Function.comp_apply, ObjectType.declared_withFields]
    rfl
  rw [hm, hs'.apply_removeField hfound hfield, hagain, map_withFields_eq_self h.legible hfields]

/-- An accepted addition is undone by its inverse, which is accepted as well. -/
theorem Valid.undone (h : s.Valid rules) (hc : c.Additive)
    (ha : s.applyValidated rules c = .ok (.ok s')) :
    s'.applyValidated rules c.inverse = .ok (.ok s) := by
  obtain ⟨hs', hv⟩ := applyValidated_eq_ok ha
  cases c with
  | createType type =>
    cases type with
    | none => cases hs'
    | some t =>
      obtain rfl : s' = ⟨s.types ++ [t]⟩ := (Except.ok.inj hs').symm
      exact applyValidated_of_valid (h.delete_created hv (hc t rfl)) h
  | addField v member =>
    obtain ⟨n, t, f, rfl, rfl, ht, rfl⟩ := h.eq_enlarged ha
    exact applyValidated_of_valid (h.remove_added hv ht) h
  | deleteType v => exact hc.elim
  | removeField v w => exact hc.elim

/-- Accepted additions are undone by their inverses in reverse order, through the same schemas. -/
theorem Valid.additions_undone (h : s.Valid rules) (hcs : ∀ c ∈ cs, c.Additive)
    (hp : Passes rules s cs ss s') :
    Passes rules s' (cs.reverse.map SchemaChange.inverse) ss.reverse s := by
  induction hp with
  | stay s => exact .stay s
  | @change s s₁ s' c cs ss ha hp ih =>
    obtain ⟨hc, hcs⟩ := List.forall_mem_cons.mp hcs
    have hback := ih (applyValidated_eq_ok ha).2 hcs
    rw [List.reverse_cons, List.map_append, List.reverse_cons]
    exact hback.snoc (h.undone hc ha)

end Schema

namespace Stock

/-- A type of boxes, and a field for the part that is in a box. -/
def additions : List SchemaChange :=
  [.createType (some (.created "Box" none none)),
    .addField (.text "Box") (.field { name := .text "content", type := .text "Part" })]

end Stock

theorem stock_additions_undone : (Stock.schema "Part").Valid Stock.rules ∧
    ∃ s ss, ss.length = 3 ∧
      Schema.Passes Stock.rules (Stock.schema "Part") Stock.additions ss s ∧
      Schema.Passes Stock.rules s
        [.removeField (.text "Box") (.text "content"), .deleteType (.text "Box")] ss.reverse
        (Stock.schema "Part") := by
  have hadditive : ∀ c ∈ Stock.additions, c.Additive := by
    refine List.forall_mem_cons.mpr ⟨?_, List.forall_mem_singleton.mpr trivial⟩
    rintro t ⟨⟩ (hc | hl)
    · exact absurd (Value.text.inj hc) (by decide)
    · exact absurd (Value.text.inj hl) (by decide)
  have hpasses : Schema.Passes Stock.rules (Stock.schema "Part") Stock.additions _ _ :=
    .change rfl (.change rfl (.stay _))
  exact ⟨Stock.valid, _, _, rfl, hpasses, Stock.valid.additions_undone hadditive hpasses⟩

end ObjectQuery
