import Mathlib.Data.List.Nodup
import ObjectQuery.Plan.Arena

/-!
# Dictionaries

A list of keys with what belongs to them, looked up by key. Where no key comes twice, what is found
for a key is what the list has for it.
-/

set_option autoImplicit false

namespace ObjectQuery.Dictionary

variable {κ α : Type} [BEq κ] [LawfulBEq κ] {entries : List (κ × α)} {k : κ} {a : α}

theorem mem_of_lookup (h : entries.lookup k = some a) : (k, a) ∈ entries := by
  obtain ⟨before, after, rfl, _⟩ := List.lookup_eq_some_iff.mp h
  exact List.mem_append_right before List.mem_cons_self

theorem lookup_of_mem (hd : (entries.map Prod.fst).Nodup) (h : (k, a) ∈ entries) :
    entries.lookup k = some a := by
  obtain ⟨before, after, rfl⟩ := List.mem_iff_append.mp h
  refine List.lookup_eq_some_iff.mpr ⟨before, after, rfl, fun p hp => ?_⟩
  rw [List.map_append, List.nodup_append] at hd
  have hne := hd.2.2 p.1 (List.mem_map_of_mem hp) k (List.mem_map.mpr ⟨(k, a), by simp, rfl⟩)
  simpa using Ne.symm hne

theorem lookup_eq_some_iff_mem (hd : (entries.map Prod.fst).Nodup) :
    entries.lookup k = some a ↔ (k, a) ∈ entries :=
  ⟨mem_of_lookup, lookup_of_mem hd⟩

/-- What is set for a new key comes last. -/
theorem put_of_notMem (h : k ∉ entries.map Prod.fst) (a : α) :
    put entries k a = entries ++ [(k, a)] := by
  refine if_neg fun hany => ?_
  obtain ⟨e, he, hk⟩ := List.any_eq_true.mp hany
  exact h (List.mem_map.mpr ⟨e, he, eq_of_beq hk⟩)

end ObjectQuery.Dictionary
