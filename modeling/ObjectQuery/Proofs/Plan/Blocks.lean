import ObjectQuery.Proofs.Plan.Selections

/-!
# Blocks of selections

A block is accepted if it is not nested too deeply, is not empty and selects nothing twice. How
deeply the blocks of a call are nested decides whether they all pass the first of these checks.
-/

set_option autoImplicit false

namespace ObjectQuery

open Outcome

theorem firstRepeated_eq_none_iff {cs : List Call} {seen : List String} :
    firstRepeated seen cs = none ↔ (cs.map Call.name).Nodup ∧ ∀ c ∈ cs, c.name ∉ seen := by
  induction cs generalizing seen with
  | nil => simp [firstRepeated]
  | cons c cs ih =>
    rw [firstRepeated]
    split
    · rename_i hseen
      have hmem : c.name ∈ seen := by simpa using hseen
      simp [hmem]
    · rename_i hseen
      have hmem : c.name ∉ seen := by simpa using hseen
      rw [ih, List.map_cons, List.nodup_cons, List.forall_mem_cons]
      simp only [List.mem_cons, not_or, List.mem_map, not_exists, not_and]
      constructor
      · rintro ⟨hnodup, hnew⟩
        exact ⟨⟨fun d hd => (hnew d hd).1, hnodup⟩, hmem, fun d hd => (hnew d hd).2⟩
      · rintro ⟨⟨hfirst, hnodup⟩, _, hnew⟩
        exact ⟨hnodup, fun d hd => ⟨hfirst d hd, hnew d hd⟩⟩

namespace Call

variable {c : Call} {limit : Int} {path : Path} {depth : Nat}

theorem checkBlock_eq_ok_iff : c.checkBlock limit path depth = .ok () ↔
    depth ≤ limit ∧ c.selections ≠ [] ∧ (c.selections.map name).Nodup := by
  unfold checkBlock
  split
  · rename_i hdeep
    simp [refuse, Int.not_le.mpr hdeep]
  · rename_i hdeep
    have hfits : (depth : Int) ≤ limit := Int.not_lt.mp hdeep
    split
    · rename_i hempty
      simp [refuse, List.isEmpty_iff.mp hempty]
    · rename_i hnonempty
      have hne : c.selections ≠ [] := fun h => hnonempty (List.isEmpty_iff.mpr h)
      have hnone : firstRepeated [] c.selections = none ↔ _ := firstRepeated_eq_none_iff
      split
      · rename_i d hd
        rw [hd] at hnone
        refine iff_of_false nofun fun h => ?_
        cases hnone.mpr ⟨h.2.2, fun _ _ => List.not_mem_nil⟩
      · rename_i hunrepeated
        exact iff_of_true rfl ⟨hfits, hne, (hnone.mp hunrepeated).1⟩

theorem withoutArguments_eq_ok_iff : c.withoutArguments = .ok () ↔ c.arguments = [] := by
  unfold withoutArguments
  cases c.arguments <;> simp [refuse]

theorem asLeaf_eq_ok_iff {kind : LeafKind} : c.asLeaf kind = .ok () ↔ c.selections = [] := by
  unfold asLeaf
  cases c.selections <;> simp [refuse]

end Call

theorem Selected.plain_eq_ok_iff {c : Call} {kind : LeafKind} {l : Leaf} {selected : Selected} :
    plain c kind l = .ok selected ↔
      c.arguments = [] ∧ c.selections = [] ∧ selected = .leaf l := by
  constructor
  · intro h
    obtain ⟨_, ha, hrest⟩ := bind_eq_ok.mp h
    obtain ⟨_, hs, _⟩ := bind_eq_ok.mp hrest
    exact ⟨Call.withoutArguments_eq_ok_iff.mp ha, Call.asLeaf_eq_ok_iff.mp hs, plain_eq_ok h⟩
  · rintro ⟨ha, hs, rfl⟩
    exact bind_eq_ok.mpr ⟨(), Call.withoutArguments_eq_ok_iff.mpr ha,
      bind_eq_ok.mpr ⟨(), Call.asLeaf_eq_ok_iff.mpr hs, rfl⟩⟩

theorem Selected.selections_of_plain {c : Call} {kind : LeafKind} {l : Leaf}
    {selected : Selected} (h : plain c kind l = .ok selected) : c.selections = [] :=
  (plain_eq_ok_iff.mp h).2.1

theorem Metadata.selections_of_select {t : ObjectType} {c : Call} {l : Leaf}
    (h : select t c = .ok (.leaf l)) : c.selections = [] := by
  cases selects_of_select h with
  | leaf h => exact Selected.selections_of_plain h

theorem Snapshot.selections_of_select {i : Snapshot} {t : ObjectType} {c : Call} {l : Leaf}
    (h : i.select t c = .ok (.leaf l)) : c.selections = [] := by
  unfold select at h
  split at h
  · exact Selected.selections_of_plain h
  · split at h
    · obtain ⟨k, _, h⟩ := bind_eq_ok.mp h
      cases k with
      | scalar s => exact Selected.selections_of_plain h
      | scalarList s => exact Selected.selections_of_plain h
      | objectList n =>
        obtain ⟨_, _, h⟩ := bind_eq_ok.mp h
        obtain ⟨_, _, h⟩ := bind_eq_ok.mp h
        cases h
      | reference n isNode =>
        obtain ⟨_, _, h⟩ := bind_eq_ok.mp h
        obtain ⟨_, _, h⟩ := bind_eq_ok.mp h
        cases h
      | connection typeName reverse =>
        simp only [selectConnection] at h
        split at h
        · obtain ⟨_, hr, _⟩ := bind_eq_ok.mp h
          cases hr
        · obtain ⟨_, _, h⟩ := bind_eq_ok.mp h
          obtain ⟨_, _, h⟩ := bind_eq_ok.mp h
          obtain ⟨_, _, h⟩ := bind_eq_ok.mp h
          cases h
    · split at h
      · exact Selected.selections_of_plain h
      · cases h

/-- What is a leaf has no selections. -/
theorem Context.selections_of_select {context : Context} {c : Call} {l : Leaf}
    (h : context.select c = .ok (.leaf l)) : c.selections = [] := by
  cases context with
  | object realm t =>
    cases realm with
    | data i => exact Snapshot.selections_of_select h
    | metadata => exact Metadata.selections_of_select h
  | connection parent realm t =>
    obtain ⟨_, _, h⟩ := bind_eq_ok.mp h
    split at h
    · exact Selected.selections_of_plain h
    · split at h
      · cases h
      · split at h <;> cases h
  | edges realm t =>
    obtain ⟨_, _, h⟩ := bind_eq_ok.mp h
    split at h
    · exact Selected.selections_of_plain h
    · split at h <;> cases h

namespace Call

mutual

/-- How many blocks there are within each other, in a call and with its own. -/
def nesting : Call → Nat
  | mk _ _ selections _ => nestingAll selections

def nestingAll : List Call → Nat
  | [] => 0
  | c :: cs => max (c.nesting + 1) (nestingAll cs)

end

theorem nesting_eq (c : Call) : c.nesting = nestingAll c.selections := by
  cases c
  rfl

theorem nesting_lt_of_mem {c : Call} {cs : List Call} (h : c ∈ cs) : c.nesting < nestingAll cs := by
  induction cs with
  | nil => cases h
  | cons d ds ih =>
    rw [nestingAll]
    rcases List.mem_cons.mp h with rfl | h
    · omega
    · have := ih h
      omega

theorem nestingAll_pos {cs : List Call} (h : cs ≠ []) : 0 < nestingAll cs := by
  obtain ⟨c, cs, rfl⟩ := List.exists_cons_of_ne_nil h
  rw [nestingAll]
  omega

end Call

end ObjectQuery
