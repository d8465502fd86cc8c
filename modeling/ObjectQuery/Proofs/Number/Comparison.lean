import ObjectQuery.Proofs.Number.Reading
import ObjectQuery.Store.Cell

/-!
# Numbers by their value

A finite number, whole or not, is a whole number of units, and two finite numbers are equal if they
are as many units. What a database does to a number before it is stored or compared leaves its value
as it is.
-/

set_option autoImplicit false

namespace ObjectQuery

namespace Binary64

theorem units_injective : Function.Injective units :=
  Function.LeftInverse.injective (g := fun n => nearestRank n one) nearestRank_units

theorem units_zero : units 0 = 0 := if_pos (by decide)

theorem withSign_inj {s t : Bool} {m n : Nat} :
    withSign s m = withSign t n ↔ m = n ∧ (s = t ∨ m = 0) := by
  cases s <;> cases t <;> simp [withSign] <;> omega

theorem withSign_units_inj {s t : Bool} {p q : Nat} :
    withSign s (units p) = withSign t (units q) ↔ withSign s p = withSign t q := by
  have hzero : units p = 0 ↔ p = 0 :=
    ⟨fun h => units_injective (h.trans units_zero.symm), fun h => h ▸ units_zero⟩
  rw [withSign_inj, withSign_inj, units_injective.eq_iff, hzero]

theorem withSign_mul (s : Bool) (m n : Nat) : withSign s (m * n) = withSign s m * n := by
  cases s <;> simp [withSign]

end Binary64

open Binary64

namespace Value.Number

/-- How many units a number is, if it is finite. -/
def scaled? : Number → Option Int
  | whole n => some (n * one)
  | float .nan => none
  | float (.signed s rank) => if rank.val < infinite then some (withSign s (units rank)) else none

variable {a b : Number} {x y : Int}

theorem scaled?_float {z : Binary64} (h : z.isFinite = true) :
    ∃ s rank, z = .signed s rank ∧ (float z).scaled? = some (withSign s (units rank)) := by
  cases z with
  | nan => cases h
  | signed s rank => exact ⟨s, rank, rfl, if_pos (of_decide_eq_true h)⟩

/-- Finite numbers are equal if they are as many units. -/
theorem compare?_eq_iff (ha : a.scaled? = some x) (hb : b.scaled? = some y) :
    a.compare? b = some .eq ↔ x = y := by
  have hone : (one : Int) ≠ 0 := by exact_mod_cast Nat.ne_of_gt Binary64.one_pos
  have hfloat {s : Bool} {rank : Fin (infinite + 1)} {z : Int}
      (h : (float (.signed s rank)).scaled? = some z) :
      rank.val < infinite ∧ withSign s (units rank) = z := by
    simpa [scaled?] using h
  rcases a with m | (_ | ⟨s, p⟩) <;> rcases b with n | (_ | ⟨t, q⟩)
  case whole.whole =>
    cases ha
    cases hb
    simp only [compare?, Option.some.injEq, compare_eq_iff_eq]
    exact ⟨fun h => h ▸ rfl, fun h => Int.eq_of_mul_eq_mul_right hone h⟩
  case whole.float.signed =>
    cases ha
    obtain ⟨hq, rfl⟩ := hfloat hb
    simp only [compare?, compareInt?, if_pos hq, Option.map_some, Option.some.injEq,
      Ordering.swap_eq_eq, compare_eq_iff_eq]
    exact eq_comm
  case float.signed.whole =>
    cases hb
    obtain ⟨hp, rfl⟩ := hfloat ha
    simp only [compare?, compareInt?, if_pos hp, Option.some.injEq, compare_eq_iff_eq]
  case float.signed.float.signed =>
    obtain ⟨_, rfl⟩ := hfloat ha
    obtain ⟨_, rfl⟩ := hfloat hb
    simp only [compare?, Binary64.compare?, Option.some.injEq, compare_eq_iff_eq]
    exact withSign_units_inj.symm
  case whole.float.nan => cases hb
  case float.signed.float.nan => cases hb
  all_goals cases ha

/-- An integer that a floating point number is has its value. -/
theorem scaled?_of_toInt? {z : Binary64} {n : Int} (h : z.toInt? = some n) :
    (float z).scaled? = (whole n).scaled? := by
  cases z with
  | nan => cases h
  | signed s rank =>
    simp only [toInt?] at h
    split at h
    · rename_i hrank
      cases h
      have hdiv : units rank / one * one = units rank :=
        Nat.div_mul_cancel (Nat.dvd_of_mod_eq_zero hrank.2)
      simp only [scaled?, if_pos hrank.1, ← withSign_mul, hdiv]
    · cases h

end Value.Number

namespace Datum

open Value

theorem scaled?_settle (a : Number) : (settle a).scaled? = a.scaled? := by
  cases a with
  | whole n => rfl
  | float z =>
    simp only [settle]
    split
    · rename_i n hn
      split
      · exact (Number.scaled?_of_toInt? hn).symm
      · rfl
    · rfl

theorem scaled?_unsigned (z : Binary64) :
    (Number.float (if z.isZero then .zero else z)).scaled? = (Number.float z).scaled? := by
  split
  · rename_i hz
    cases z with
    | nan => cases hz
    | signed s rank =>
      have hrank : rank.val = 0 := of_decide_eq_true hz
      have hsign : withSign s (units rank) = withSign false (units 0) := by
        rw [hrank, units_zero, withSign_inj]
        exact ⟨rfl, .inr rfl⟩
      have hlt : rank.val < infinite := by rw [hrank]; decide
      simp only [Number.scaled?, Binary64.zero, if_pos hlt, hsign]
      exact if_pos (by decide)
  · rfl

end Datum

end ObjectQuery
