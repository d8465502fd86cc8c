import ObjectQuery.Proofs.Store.Cells

/-!
# Coercion settles a value

What a value is coerced to is one of the values of the scalar, a whole number one of 32 bits. Those
are the values that coercion leaves alone, so coercing once more changes nothing.
-/

set_option autoImplicit false

namespace ObjectQuery.Scalar

open Outcome

/-- A value of a scalar that calls can ask for: its whole numbers have 32 bits. -/
structure Proper (s : Scalar) (w : Value) : Prop where
  holds : s.Holds w
  narrow : ∀ n, w = .int n → -2 ^ 31 ≤ n ∧ n ≤ 2 ^ 31 - 1

variable {s : Scalar} {v w : Value}

theorem range_iff {n : Int} :
    leastInt ≤ n ∧ n ≤ greatestInt ↔ -2 ^ 31 ≤ n ∧ n ≤ 2 ^ 31 - 1 := Iff.rfl

theorem intOf_eq_ok {n : Int} :
    intOf v = .ok n ↔ whole? v = some n ∧ -2 ^ 31 ≤ n ∧ n ≤ 2 ^ 31 - 1 := by
  rw [intOf, ← range_iff]
  cases whole? v with
  | none => simp
  | some m =>
    dsimp only
    split
    · rename_i hrange
      simp only [Except.ok.injEq, Option.some.injEq]
      exact ⟨fun h => ⟨h, h ▸ hrange⟩, And.left⟩
    · rename_i hrange
      simp only [reduceCtorEq, Option.some.injEq, false_iff, not_and]
      rintro rfl
      exact not_and.mp hrange

theorem Holds.scalar_of_int {n : Int} (h : s.Holds (.int n)) : s = .int := by
  cases h
  rfl

theorem proper_of_coerce (h : s.coerce v = .ok w) : s.Proper w := by
  have hholds := holds_of_coerce h
  refine ⟨hholds, ?_⟩
  rintro n rfl
  obtain rfl := hholds.scalar_of_int
  obtain ⟨m, hm, hmn⟩ := map_eq_ok.mp (mapError_eq_ok.mp h)
  cases hmn
  exact (intOf_eq_ok.mp hm).2

/-- Coercion leaves the values of a scalar alone. -/
theorem Proper.coerce (h : s.Proper w) : s.coerce w = .ok w := by
  obtain ⟨hholds, hnarrow⟩ := h
  cases hholds with
  | id x => rfl
  | string x => rfl
  | boolean b => rfl
  | int n =>
    rw [Scalar.coerce, intOf_eq_ok.mpr ⟨rfl, hnarrow n rfl⟩]
    rfl
  | float hx =>
    rw [Scalar.coerce, floatOf, if_pos hx]
  | datetime hm =>
    rw [Scalar.coerce, Moment.ofValue, if_pos hm]

/-- What a value is coerced to is a value of the scalar, and is coerced to itself. -/
theorem coerce_settles (h : s.coerce v = .ok w) : s.Proper w ∧ s.coerce w = .ok w :=
  ⟨proper_of_coerce h, (proper_of_coerce h).coerce⟩

/-- A whole number for an id, a word for a truth value and a day for a moment. -/
theorem samples_settle :
    id.coerce (.int (-7)) = .ok (.text "-7") ∧ id.coerce (.text "-7") = .ok (.text "-7") ∧
    boolean.coerce (.text "true") = .ok (.bool true) ∧ boolean.Proper (.bool true) ∧
    ∃ m, datetime.coerce (.date ⟨2024, 2, 29, by decide⟩) = .ok (.moment m) ∧
      datetime.coerce (.moment m) = .ok (.moment m) := by
  have hid : id.coerce (.int (-7)) = .ok (.text "-7") := by rfl
  have hboolean : boolean.coerce (.text "true") = .ok (.bool true) := by rfl
  exact ⟨hid, (coerce_settles hid).2, hboolean, (coerce_settles hboolean).1, _, rfl,
    (coerce_settles (s := datetime) (v := .date ⟨2024, 2, 29, by decide⟩) rfl).2⟩

end ObjectQuery.Scalar
