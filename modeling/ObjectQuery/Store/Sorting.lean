import ObjectQuery.Value.Basic

/-!
# Sorting

Elements are sorted by a comparison that may fail and need not be an order. The run that a list
begins with is kept, turned round if it goes down, and every element after it is put into its place
by halving. Where the comparison is an order, the result is sorted and elements that compare alike
stay as they were; where it is none, the result depends on which elements are compared.

Main statement: whatever the comparison says, a result holds the elements of the list and no others.
-/

set_option autoImplicit false

namespace ObjectQuery.Sorting

variable {ε α : Type} (below : α → α → Except ε Bool)

/-- Puts an element into its place: behind the middle of a list and then into the rest if it is not
below the middle, and into the front otherwise. -/
def place (x : α) (xs : List α) : Except ε (List α) :=
  match _parts : xs.drop (xs.length / 2) with
  | [] => .ok (xs ++ [x])
  | middle :: back => do
    let front := xs.take (xs.length / 2)
    if ← below x middle then return (← place x front) ++ middle :: back
    else return front ++ middle :: (← place x back)
termination_by xs.length
decreasing_by
  all_goals
    have size := congrArg List.length _parts
    simp only [List.length_drop, List.length_cons, List.length_take] at size ⊢
    omega

/-- Takes elements for as long as every one is below the one before it, or as none is. -/
def takeRun (descending : Bool) : α → List α → Except ε (List α × List α)
  | _, [] => .ok ([], [])
  | last, x :: xs => do
    if (← below x last) == descending then
      let (taken, rest) ← takeRun descending x xs
      return (x :: taken, rest)
    else return ([], x :: xs)

def sort : List α → Except ε (List α)
  | [] => .ok []
  | [x] => .ok [x]
  | x :: y :: rest => do
    let descending ← below y x
    let (taken, rest) ← takeRun below descending y rest
    let run := x :: y :: taken
    rest.foldlM (fun sorted z => place below z sorted) (if descending then run.reverse else run)

theorem place_perm {x : α} {xs ys : List α} (h : place below x xs = .ok ys) :
    ys.Perm (x :: xs) := by
  fun_induction place below x xs generalizing ys with
  | case1 xs empty =>
    cases h
    exact List.perm_append_comm
  | case2 xs middle back parts front inFront =>
    rename_i inBack
    have whole : xs = front ++ middle :: back := by
      rw [← parts]
      exact (List.take_append_drop _ _).symm
    simp only [bind, Except.bind, pure, Except.pure] at h
    split at h
    · cases h
    · split at h
      · split at h
        · cases h
        · next placed =>
          cases h
          rw [whole]
          exact (inFront placed).append_right _
      · split at h
        · cases h
        · next placed =>
          cases h
          rw [whole]
          have moved := ((inBack placed).cons middle).trans (.swap ..)
          exact (moved.append_left front).trans List.perm_middle

theorem takeRun_append {descending : Bool} {last : α} {xs taken rest : List α}
    (h : takeRun below descending last xs = .ok (taken, rest)) : taken ++ rest = xs := by
  induction xs generalizing last taken with
  | nil =>
    cases h
    rfl
  | cons x xs ih =>
    simp only [takeRun, bind, Except.bind, pure, Except.pure] at h
    split at h
    · cases h
    · split at h
      · split at h
        · cases h
        · next r found =>
          cases h
          simpa using ih found
      · cases h
        rfl

theorem foldlM_place_perm {xs sorted ys : List α}
    (h : xs.foldlM (fun sorted z => place below z sorted) sorted = .ok ys) :
    ys.Perm (sorted ++ xs) := by
  induction xs generalizing sorted with
  | nil =>
    cases h
    simp
  | cons x xs ih =>
    simp only [List.foldlM_cons, bind, Except.bind] at h
    split at h
    · cases h
    · next placed =>
      refine (ih h).trans ?_
      exact ((place_perm below placed).append_right xs).trans List.perm_middle.symm

theorem sort_perm {xs ys : List α} (h : sort below xs = .ok ys) : ys.Perm xs := by
  match xs, h with
  | [], h =>
    cases h
    exact .refl _
  | [x], h =>
    cases h
    exact .refl _
  | x :: y :: rest, h =>
    simp only [sort, bind, Except.bind] at h
    split at h
    · cases h
    · next descending found =>
      split at h
      · cases h
      · next run taken =>
        have kept := takeRun_append below taken
        have reached := foldlM_place_perm below h
        rw [← kept]
        split at reached
        · exact reached.trans ((List.reverse_perm _).append_right _)
        · exact reached

end ObjectQuery.Sorting
