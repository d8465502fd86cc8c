import Mathlib.Data.List.Nodup
import Mathlib.Data.String.Basic
import ObjectQuery.Proofs.Outcome
import ObjectQuery.Store.Memory

/-!
# Order of records

Where the comparison is that of keys, sorting succeeds and its result is in order of the keys. Where
keys are distinct there is one such order, whichever way it is found.
-/

set_option autoImplicit false

namespace ObjectQuery

open Outcome

namespace Sorting

variable {ε α κ : Type} [LinearOrder κ] {below : α → α → Except ε Bool} {key : α → κ}

/-- A list in which keys do not go down. -/
def Ascends (key : α → κ) (xs : List α) : Prop := xs.Pairwise fun a b => key a ≤ key b

theorem Ascends.append {xs ys : List α} (hx : Ascends key xs) (hy : Ascends key ys)
    (h : ∀ a ∈ xs, ∀ b ∈ ys, key a ≤ key b) : Ascends key (xs ++ ys) :=
  List.pairwise_append.mpr ⟨hx, hy, h⟩

theorem place_ok {x : α} {xs : List α}
    (hb : ∀ y ∈ xs, below x y = .ok (decide (key x < key y))) (hs : Ascends key xs) :
    ∃ ys, place below x xs = .ok ys ∧ Ascends key ys := by
  fun_induction place below x xs with
  | case1 xs empty =>
    have hnil : xs = [] := by
      have hlen := congrArg List.length empty
      simp only [List.length_drop, List.length_nil] at hlen
      exact List.length_eq_zero_iff.mp (by omega)
    subst hnil
    exact ⟨[x], rfl, List.pairwise_singleton _ _⟩
  | case2 xs middle back parts front ihFront ihBack =>
    have whole : xs = front ++ middle :: back := by
      rw [← parts]
      exact (List.take_append_drop _ _).symm
    rw [whole] at hb hs
    obtain ⟨hfront, hrest, hacross⟩ := List.pairwise_append.mp hs
    obtain ⟨hmiddle, hback⟩ := List.pairwise_cons.mp hrest
    rw [hb middle (by simp), ok_bind]
    by_cases hlt : key x < key middle
    · obtain ⟨ys, hys, hasc⟩ := ihFront (fun y hy => hb y (by simp [hy])) hfront
      refine ⟨ys ++ middle :: back, by simp [hlt, hys], hasc.append hrest ?_⟩
      intro a ha b hbm
      have hmb : key middle ≤ key b := by
        rcases List.mem_cons.mp hbm with rfl | hbm
        · exact le_refl _
        · exact hmiddle b hbm
      rcases List.mem_cons.mp ((place_perm below hys).mem_iff.mp ha) with rfl | ha
      · exact hlt.le.trans hmb
      · exact hacross a ha b hbm
    · obtain ⟨ys, hys, hasc⟩ := ihBack (fun y hy => hb y (by simp [hy])) hback
      have hle : key middle ≤ key x := not_lt.mp hlt
      refine ⟨front ++ middle :: ys, by simp [hlt, hys], Ascends.append hfront ?_ ?_⟩
      · refine List.pairwise_cons.mpr ⟨fun b hbm => ?_, hasc⟩
        rcases List.mem_cons.mp ((place_perm below hys).mem_iff.mp hbm) with rfl | hbm
        · exact hle
        · exact hmiddle b hbm
      · intro a ha b hbm
        have ham : key a ≤ key middle := hacross a ha middle List.mem_cons_self
        rcases List.mem_cons.mp hbm with rfl | hbm
        · exact ham
        · rcases List.mem_cons.mp ((place_perm below hys).mem_iff.mp hbm) with rfl | hbm
          · exact ham.trans hle
          · exact hacross a ha b (List.mem_cons_of_mem middle hbm)

theorem foldlM_place_ok {xs sorted : List α}
    (hb : ∀ x ∈ xs, ∀ y ∈ sorted ++ xs, below x y = .ok (decide (key x < key y)))
    (hs : Ascends key sorted) :
    ∃ ys, xs.foldlM (fun sorted z => place below z sorted) sorted = .ok ys ∧ Ascends key ys := by
  induction xs generalizing sorted with
  | nil => exact ⟨sorted, rfl, hs⟩
  | cons x xs ih =>
    obtain ⟨ys, hys, hasc⟩ := place_ok (fun y hy => hb x List.mem_cons_self y (by simp [hy])) hs
    have hperm := place_perm below hys
    rw [List.foldlM_cons, hys, ok_bind]
    refine ih (fun z hz y hy => hb z (List.mem_cons_of_mem x hz) y ?_) hasc
    rw [List.mem_append, hperm.mem_iff] at hy
    simp only [List.mem_append, List.mem_cons] at hy ⊢
    tauto

/-- The run that a list begins with goes down strictly, or does not go down. -/
theorem takeRun_ok (last : α) (xs : List α) (descending : Bool)
    (hb : ∀ x ∈ last :: xs, ∀ y ∈ last :: xs, below x y = .ok (decide (key x < key y))) :
    ∃ taken rest, takeRun below descending last xs = .ok (taken, rest) ∧
      (last :: taken).Pairwise fun a b => if descending then key b < key a else key a ≤ key b := by
  induction xs generalizing last with
  | nil => exact ⟨[], [], rfl, List.pairwise_singleton _ _⟩
  | cons x xs ih =>
    rw [takeRun, hb x (by simp) last (by simp), ok_bind]
    by_cases hrun : decide (key x < key last) = descending
    · obtain ⟨taken, rest, htaken, hpair⟩ := ih x fun y hy z hz =>
        hb y (List.mem_cons_of_mem last hy) z (List.mem_cons_of_mem last hz)
      refine ⟨x :: taken, rest, by simp [hrun, htaken], List.pairwise_cons.mpr ⟨?_, hpair⟩⟩
      have hfirst := (List.pairwise_cons.mp hpair).1
      intro y hy
      cases descending with
      | true =>
        have hx : key x < key last := of_decide_eq_true hrun
        rcases List.mem_cons.mp hy with rfl | hy
        · exact hx
        · exact (hfirst y hy).trans hx
      | false =>
        have hx : key last ≤ key x := not_lt.mp (of_decide_eq_false hrun)
        rcases List.mem_cons.mp hy with rfl | hy
        · exact hx
        · exact hx.trans (hfirst y hy)
    · exact ⟨[], x :: xs, by simp [hrun], List.pairwise_singleton _ _⟩

theorem sort_ok {xs : List α}
    (hb : ∀ x ∈ xs, ∀ y ∈ xs, below x y = .ok (decide (key x < key y))) :
    ∃ ys, sort below xs = .ok ys ∧ ys.Perm xs ∧ Ascends key ys := by
  suffices h : ∃ ys, sort below xs = .ok ys ∧ Ascends key ys by
    obtain ⟨ys, hys, hasc⟩ := h
    exact ⟨ys, hys, sort_perm below hys, hasc⟩
  match xs, hb with
  | [], _ => exact ⟨[], rfl, .nil⟩
  | [x], _ => exact ⟨[x], rfl, List.pairwise_singleton _ _⟩
  | x :: y :: rest, hb =>
    rw [sort, hb y (by simp) x (by simp), ok_bind]
    obtain ⟨taken, left, htaken, hpair⟩ := takeRun_ok y rest (decide (key y < key x))
      fun a ha b hb' => hb a (List.mem_cons_of_mem x ha) b (List.mem_cons_of_mem x hb')
    have happ := takeRun_append below htaken
    rw [htaken, ok_bind]
    have hfirst := (List.pairwise_cons.mp hpair).1
    apply foldlM_place_ok
    · intro a ha b hbm
      refine hb a (by simp [← happ, ha]) b ?_
      rw [← happ]
      by_cases hd : key y < key x <;> simp [hd] at hbm <;> simp <;> tauto
    · by_cases hd : key y < key x
      · simp only [hd, decide_true, if_true] at hpair hfirst ⊢
        rw [Ascends, List.pairwise_reverse]
        refine List.pairwise_cons.mpr ⟨fun z hz => ?_, hpair.imp fun h => h.le⟩
        rcases List.mem_cons.mp hz with rfl | hz
        · exact hd.le
        · exact ((hfirst z hz).trans hd).le
      · simp only [hd, decide_false, Bool.false_eq_true, if_false] at hpair hfirst ⊢
        have hxy : key x ≤ key y := not_lt.mp hd
        refine List.pairwise_cons.mpr ⟨fun z hz => ?_, hpair⟩
        rcases List.mem_cons.mp hz with rfl | hz
        · exact hxy
        · exact hxy.trans (hfirst z hz)

/-- There is one order of distinct keys. -/
theorem Ascends.eq_of_perm {xs ys : List α} (hx : Ascends key xs) (hy : Ascends key ys)
    (h : xs.Perm ys) (hd : (xs.map key).Nodup) : xs = ys := by
  refine h.eq_of_pairwise (fun a b ha hb hab hba => ?_) hx hy
  exact List.inj_on_of_nodup_map hd ha (h.mem_iff.mpr hb) (le_antisymm hab hba)

theorem ascends_mergeSort (key : α → κ) (xs : List α) :
    Ascends key (xs.mergeSort fun a b => decide (key a ≤ key b)) := by
  have hsorted : (xs.mergeSort fun a b => decide (key a ≤ key b)).Pairwise
      fun a b => decide (key a ≤ key b) = true := by
    apply List.pairwise_mergeSort
    · intro a b c hab hbc
      simp only [decide_eq_true_eq] at hab hbc ⊢
      exact hab.trans hbc
    · intro a b
      simp only [Bool.or_eq_true, decide_eq_true_eq]
      exact le_total (key a) (key b)
  exact hsorted.imp fun hab => of_decide_eq_true hab

end Sorting

end ObjectQuery
