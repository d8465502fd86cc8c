import ObjectQuery.Proofs.Number.Reading

/-!
# Integers beyond the range of floating point numbers

The closest number to an integer is infinite from half way between the greatest finite number and
the next power of two on: a tie there goes to the power of two, which is even.
-/

set_option autoImplicit false

namespace ObjectQuery

theorem powerOfTwo_add (m n : Nat) : powerOfTwo (m + n) = powerOfTwo m * powerOfTwo n :=
  Nat.pow_add 2 m n

theorem powerOfTwo_succ (n : Nat) : powerOfTwo (n + 1) = 2 * powerOfTwo n :=
  Nat.pow_succ'

theorem powerOfTwo_le {m n : Nat} (h : m ≤ n) : powerOfTwo m ≤ powerOfTwo n :=
  Nat.pow_le_pow_right (by decide) h

theorem log2_eq_iff_powerOfTwo {n l : Nat} (hn : n ≠ 0) :
    n.log2 = l ↔ powerOfTwo l ≤ n ∧ n < powerOfTwo (l + 1) :=
  Nat.log2_eq_iff hn

namespace Binary64

/-- The least natural number that no finite number is closest to. -/
def tooLarge : Nat := powerOfTwo 1024 - powerOfTwo 970

theorem binade_eq : binade = powerOfTwo 52 := by decide

theorem tooLarge_eq : tooLarge = (4 * binade - 1) * powerOfTwo 970 := by
  have hbinade : 4 * binade = powerOfTwo 54 := by decide
  rw [tooLarge, hbinade, Nat.sub_mul, Nat.one_mul, ← powerOfTwo_add]

/-- A quotient is rounded to more than an odd number from half way to the next one on. -/
theorem lt_roundQuotient_iff {k num den : Nat} (hk : k % 2 = 1) (hd : 0 < den) :
    k < roundQuotient num den ↔ 2 * (den * k) + den ≤ 2 * num := by
  have hsplit : den * (num / den) + num % den = num := Nat.div_add_mod num den
  have hrest : num % den < den := Nat.mod_lt num hd
  have hrounded := roundQuotient_neighbour num den
  rcases Nat.lt_trichotomy (num / den) k with hlt | heq | hgt
  · have hmul : den * (num / den + 1) ≤ den * k := Nat.mul_le_mul_left den hlt
    rw [Nat.mul_succ] at hmul
    omega
  · rw [heq] at hsplit
    simp only [roundQuotient, heq]
    split
    · omega
    · split <;> omega
  · have hmul : den * (k + 1) ≤ den * (num / den) := Nat.mul_le_mul_left den hgt
    rw [Nat.mul_succ] at hmul
    omega

variable {n : Nat}

theorem log2_scaled (hn : n ≠ 0) : (n * one).log2 = n.log2 + 1074 := by
  obtain ⟨hlow, hhigh⟩ := (log2_eq_iff_powerOfTwo hn).mp rfl
  rw [log2_eq_iff_powerOfTwo (Nat.mul_ne_zero hn (Nat.ne_of_gt one_pos)), Nat.add_right_comm,
    powerOfTwo_add, powerOfTwo_add]
  exact ⟨Nat.mul_le_mul_right one hlow, Nat.mul_lt_mul_of_pos_right hhigh one_pos⟩

theorem nearestRank_nat (hn : n ≠ 0) : nearestRank n 1 =
    (n.log2 + 1022) * binade + roundQuotient (n * one) (powerOfTwo (n.log2 + 1022)) := by
  simp only [nearestRank, Nat.div_one, Nat.one_mul, log2_scaled hn]
  rfl

/-- The whole part of a scaled number over its spacing has 53 bits. -/
theorem quotient_bounds (hn : n ≠ 0) :
    binade ≤ n * one / powerOfTwo (n.log2 + 1022) ∧
      n * one / powerOfTwo (n.log2 + 1022) < 2 * binade := by
  have hpos := powerOfTwo_pos (n.log2 + 1022)
  obtain ⟨hlow, hhigh⟩ := (log2_eq_iff_powerOfTwo (Nat.mul_ne_zero hn (Nat.ne_of_gt one_pos))).mp
    (log2_scaled hn)
  have hsplit : powerOfTwo (n.log2 + 1074) = binade * powerOfTwo (n.log2 + 1022) := by
    rw [binade_eq, ← powerOfTwo_add, Nat.add_left_comm]
  rw [hsplit] at hlow
  rw [powerOfTwo_add, hsplit] at hhigh
  constructor
  · exact (Nat.le_div_iff_mul_le hpos).mpr hlow
  · rw [Nat.div_lt_iff_lt_mul hpos, Nat.mul_comm 2, Nat.mul_right_comm]
    exact hhigh

/-- Among the numbers of 1024 bits the last half of a spacing rounds to the next power of two. -/
theorem last_binade_iff (n : Nat) :
    2 * binade ≤ roundQuotient (n * one) (powerOfTwo 2045) ↔ tooLarge ≤ n := by
  obtain ⟨half, hscale, hlast⟩ : ∃ half, powerOfTwo (970 + 1 + unitScale) = 2 * half ∧
      tooLarge * one = (4 * binade - 1) * half := by
    refine ⟨powerOfTwo 970 * one, ?_, ?_⟩
    · rw [powerOfTwo_add, powerOfTwo_succ, one, Nat.mul_assoc]
    · rw [tooLarge_eq, Nat.mul_assoc]
  have hscale : powerOfTwo 2045 = 2 * half := hscale
  have hiff : 2 * binade - 1 < roundQuotient (n * one) (powerOfTwo 2045) ↔ _ :=
    lt_roundQuotient_iff (by decide) (powerOfTwo_pos 2045)
  have hcancel : tooLarge * one ≤ n * one ↔ tooLarge ≤ n := Nat.mul_le_mul_right_iff one_pos
  rw [hscale] at hiff ⊢
  rw [hlast] at hcancel
  simp only [binade] at *
  omega

theorem infinite_le_nearestRank_iff (hn : n ≠ 0) :
    infinite ≤ nearestRank n 1 ↔ tooLarge ≤ n := by
  obtain ⟨hlow, hhigh⟩ := quotient_bounds hn
  have hrounded := roundQuotient_neighbour (n * one) (powerOfTwo (n.log2 + 1022))
  obtain ⟨hn_low, hn_high⟩ := (log2_eq_iff_powerOfTwo hn).mp rfl
  have hdouble : powerOfTwo 1024 = 2 * powerOfTwo 1023 := powerOfTwo_succ 1023
  have hsmall : powerOfTwo 970 ≤ powerOfTwo 1023 := powerOfTwo_le (by decide)
  rw [nearestRank_nat hn]
  -- With fewer bits than 1024 all ranks are finite, with more bits none is.
  rcases Nat.lt_trichotomy n.log2 1023 with hlt | heq | hgt
  · have hbelow : powerOfTwo (n.log2 + 1) ≤ powerOfTwo 1023 := powerOfTwo_le hlt
    simp only [infinite, tooLarge, binade] at *
    omega
  · have hshift : n.log2 + 1022 = 2045 := by omega
    rw [← last_binade_iff, hshift, infinite]
    omega
  · have habove : powerOfTwo 1024 ≤ powerOfTwo n.log2 := powerOfTwo_le hgt
    simp only [infinite, tooLarge, binade] at *
    omega

theorem tooLarge_pos : 0 < tooLarge := by
  rw [tooLarge_eq]
  exact Nat.mul_pos (by decide) (powerOfTwo_pos 970)

theorem isFinite_ofInt (n : Int) : (ofInt n).isFinite = false ↔ tooLarge ≤ n.natAbs := by
  have hfinite : (ofInt n).isFinite = false ↔ infinite ≤ nearestRank n.natAbs 1 := by
    simp only [ofInt, isFinite, nearest, decide_eq_false_iff_not]
    omega
  rw [hfinite]
  by_cases hn : n.natAbs = 0
  · have hzero : nearestRank 0 1 = 0 := by
      simp [nearestRank, roundQuotient, powerOfTwo_zero]
    have hpos := tooLarge_pos
    rw [hn, hzero]
    exact iff_of_false (by decide) (by omega)
  · exact infinite_le_nearestRank_iff hn

end Binary64

end ObjectQuery
