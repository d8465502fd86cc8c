import Mathlib.Tactic.Ring
import ObjectQuery.Query.Token

/-!
# Numbers read back

Rounding depends only on the quotient, so a decimal may be moved to another power of ten before it
is rounded. The shortest digits of a finite magnitude round to it, and so does the text that lays
them out without an exponent. Infinity has no such text.
-/

set_option autoImplicit false

namespace ObjectQuery

theorem powerOfTen_pos (n : Nat) : 0 < powerOfTen n := Nat.pow_pos (by decide)

theorem powerOfTen_succ (n : Nat) : powerOfTen (n + 1) = powerOfTen n * 10 := rfl

theorem powerOfTwo_pos (n : Nat) : 0 < powerOfTwo n := Nat.pow_pos (by decide)

theorem powerOfTwo_zero : powerOfTwo 0 = 1 := rfl

theorem powerOfTen_eq (n : Nat) : powerOfTen n = Nat.pow 5 n * powerOfTwo n :=
  Nat.mul_pow 5 2 n

namespace Binary64

theorem one_pos : 0 < one := powerOfTwo_pos _

theorem roundQuotient_mul_right (num den : Nat) {k : Nat} (hk : 0 < k) :
    roundQuotient (num * k) (den * k) = roundQuotient num den := by
  have hq : num * k / (den * k) = num / den := Nat.mul_div_mul_right num den hk
  have hr : 2 * (num * k % (den * k)) = 2 * (num % den) * k := by
    rw [Nat.mul_mod_mul_right, Nat.mul_assoc]
  simp only [roundQuotient, hq, hr, Nat.mul_lt_mul_right hk]

theorem roundQuotient_mul_self (n : Nat) {den : Nat} (hd : 0 < den) :
    roundQuotient (n * den) den = n := by
  simp only [roundQuotient, Nat.mul_div_cancel n hd, Nat.mul_mod_left]
  rw [if_pos (by omega)]

theorem roundQuotient_neighbour (num den : Nat) :
    roundQuotient num den = num / den ∨ roundQuotient num den = num / den + 1 := by
  simp only [roundQuotient]
  split
  · exact .inl rfl
  · split
    · exact .inr rfl
    · omega

theorem nearest_mul_right (num den : Nat) {k : Nat} (hk : 0 < k) :
    nearest (num * k) (den * k) = nearest num den := by
  have hs : num * k * one = num * one * k := Nat.mul_right_comm num k one
  have hd (s : Nat) : den * k * s = den * s * k := Nat.mul_right_comm den k s
  have h : nearestRank (num * k) (den * k) = nearestRank num den := by
    simp only [nearestRank, hs, hd, Nat.mul_div_mul_right _ _ hk, roundQuotient_mul_right _ _ hk]
  simp only [nearest, h]

/-- Only the quotient counts. -/
theorem nearest_congr {a b c d : Nat} (hb : 0 < b) (hd : 0 < d) (h : a * d = c * b) :
    nearest a b = nearest c d := by
  rw [← nearest_mul_right a b hd, ← nearest_mul_right c d hb, h, Nat.mul_comm d b]

theorem log2_units {rank : Nat} (h : binade ≤ rank) :
    (units rank).log2 = 52 + spacing rank := by
  have hpos := powerOfTwo_pos (spacing rank)
  have hlt : rank % binade < binade := Nat.mod_lt _ (by decide)
  have hb : binade = 2 ^ 52 := by decide
  have hu : units rank = (binade + rank % binade) * powerOfTwo (spacing rank) :=
    if_neg (by omega)
  rw [Nat.log2_eq_iff (by rw [hu]; exact Nat.mul_ne_zero (by omega) (Nat.ne_of_gt hpos)), hu]
  constructor
  · rw [Nat.pow_add, ← hb]
    exact Nat.mul_le_mul_right _ (by omega)
  · rw [Nat.add_right_comm, Nat.pow_add]
    exact Nat.mul_lt_mul_of_pos_right (by rw [Nat.pow_succ, ← hb]; omega) hpos

/-- A magnitude rounds to its own rank. -/
theorem nearestRank_units (rank : Nat) : nearestRank (units rank) one = rank := by
  have hq : units rank * one / one = units rank := Nat.mul_div_cancel _ one_pos
  simp only [nearestRank, hq]
  by_cases h : rank < binade
  · have hu : units rank = rank := if_pos h
    have hlog : rank.log2 - 52 = 0 := by
      by_cases h0 : rank = 0
      · rw [h0, Nat.log2_zero]
      · have hb : binade = 2 ^ 52 := by decide
        have := (Nat.log2_lt h0).mpr (hb ▸ h)
        omega
    rw [hu, hlog, powerOfTwo_zero, Nat.mul_one, roundQuotient_mul_self rank one_pos]
    omega
  · have hle : binade ≤ rank := by omega
    have hu : units rank = (binade + rank % binade) * powerOfTwo (spacing rank) := if_neg h
    have hpos := powerOfTwo_pos (spacing rank)
    rw [log2_units hle, Nat.add_sub_cancel_left, hu, Nat.mul_assoc,
      Nat.mul_comm one (powerOfTwo _), roundQuotient_mul_self _ (Nat.mul_pos hpos one_pos)]
    have hdiv : 1 ≤ rank / binade := (Nat.one_le_div_iff (by decide)).mpr hle
    have hsplit := Nat.div_add_mod rank binade
    have hs : spacing rank + 1 = rank / binade := by
      simp only [spacing]
      omega
    rw [← hs] at hsplit
    calc spacing rank * binade + (binade + rank % binade)
        = binade * (spacing rank + 1) + rank % binade := by ring
      _ = rank := hsplit

theorem nearest_units {rank : Nat} (h : rank ≤ infinite) :
    (nearest (units rank) one).val = rank := by
  simp only [nearest, nearestRank_units, Nat.min_eq_left h]

end Binary64

namespace Decimal

open Binary64

/-- The numerator of a decimal over its denominator. -/
def numerator (d : Decimal) : Nat := d.digits * powerOfTen d.exponent.toNat

def denominator (d : Decimal) : Nat := powerOfTen (-d.exponent).toNat

theorem denominator_pos (d : Decimal) : 0 < d.denominator := powerOfTen_pos _

theorem rank_eq (d : Decimal) : d.rank = (nearest d.numerator d.denominator).val := by
  simp only [rank, numerator, denominator]
  split
  · rename_i h
    have h0 : d.exponent.toNat = 0 := by omega
    have ha : (-d.exponent).toNat = d.exponent.natAbs := by omega
    rw [h0, ha]
    exact congrArg (fun n => (nearest n _).val) (Nat.mul_one _).symm
  · rename_i h
    have h0 : (-d.exponent).toNat = 0 := by omega
    have ha : d.exponent.toNat = d.exponent.natAbs := by omega
    rw [h0, ha]
    rfl

theorem rank_zero (e : Int) : (⟨0, e⟩ : Decimal).rank = 0 := by
  rw [rank_eq]
  have h : nearest (numerator ⟨0, e⟩) (denominator ⟨0, e⟩) = nearest (units 0) one := by
    refine nearest_congr (denominator_pos _) Binary64.one_pos ?_
    have hn : numerator ⟨0, e⟩ = 0 := Nat.zero_mul _
    have hu : units 0 = 0 := rfl
    rw [hn, hu]
    exact (Nat.zero_mul _).trans (Nat.zero_mul _).symm
  rw [h]
  exact nearest_units (Nat.zero_le _)

/-- A zero at the end of the digits is a power of ten. -/
theorem rank_shift (n : Nat) (e : Int) :
    (⟨n * 10, e⟩ : Decimal).rank = (⟨n, e + 1⟩ : Decimal).rank := by
  rw [rank_eq, rank_eq]
  refine congrArg Fin.val (nearest_congr (denominator_pos _) (denominator_pos _) ?_)
  simp only [numerator, denominator]
  by_cases h : 0 ≤ e
  · have h1 : (e + 1).toNat = e.toNat + 1 := by omega
    have h2 : (-(e + 1)).toNat = 0 := by omega
    have h3 : (-e).toNat = 0 := by omega
    rw [h1, h2, h3, powerOfTen_succ]
    ring
  · have h1 : e.toNat = 0 := by omega
    have h2 : (e + 1).toNat = 0 := by omega
    have h3 : (-e).toNat = (-(e + 1)).toNat + 1 := by omega
    rw [h1, h2, h3, powerOfTen_succ]
    ring

theorem rank_trimZeros (fuel : Nat) (d : Decimal) : (trimZeros fuel d).rank = d.rank := by
  induction fuel generalizing d with
  | zero => rfl
  | succ fuel ih =>
    simp only [trimZeros]
    split
    · rename_i h
      obtain ⟨digits, e⟩ := d
      have hd : digits / 10 * 10 = digits := by
        have h10 : digits % 10 = 0 := h.2
        omega
      rw [ih]
      exact (rank_shift (digits / 10) e).symm.trans (by rw [hd])
    · rfl

theorem rank_trim (d : Decimal) : d.trim.rank = d.rank := rank_trimZeros _ d

end Decimal

namespace Binary64

theorem onGrid?_rank {rank : Nat} {e : Int} {d : Decimal} (h : onGrid? rank e = some d) :
    d.rank = rank := by
  simp only [onGrid?] at h
  split at h
  · rename_i hb ha
    have hbelow := of_decide_eq_true hb
    have habove := of_decide_eq_true ha
    obtain rfl := Option.some.inj h
    rcases roundQuotient_neighbour (inTens rank e).1 (inTens rank e).2 with hr | hr
    · rw [hr]
      exact hbelow
    · rw [hr]
      exact habove
  · rename_i hb _
    obtain rfl := Option.some.inj h
    exact of_decide_eq_true hb
  · rename_i _ ha
    obtain rfl := Option.some.inj h
    exact of_decide_eq_true ha
  · cases h

theorem exactly_rank {rank : Nat} (h : rank ≤ infinite) : (exactly rank).rank = rank := by
  rw [Decimal.rank_eq]
  have hn : nearest (exactly rank).numerator (exactly rank).denominator
      = nearest (units rank) one := by
    refine nearest_congr (Decimal.denominator_pos _) one_pos ?_
    have hnum : (exactly rank).numerator = units rank * Nat.pow 5 unitScale :=
      Nat.mul_one _
    have hden : (exactly rank).denominator = powerOfTen unitScale := rfl
    rw [hnum, hden, powerOfTen_eq, Nat.mul_assoc, one]
  rw [hn]
  exact nearest_units h

/-- The shortest digits of a finite magnitude round to it. -/
theorem shortest_rank {rank : Nat} (h : rank ≤ infinite) : (shortest rank).rank = rank := by
  simp only [shortest]
  split
  · rename_i h0
    rw [h0]
    exact Decimal.rank_zero 0
  · rw [Decimal.rank_trim]
    cases hf : ((List.range 17).map fun (n : Nat) => leadingExponent rank - (n : Int)).findSome?
        (onGrid? rank) with
    | none => exact exactly_rank h
    | some d =>
      obtain ⟨e, _, he⟩ := List.exists_of_findSome?_eq_some hf
      exact onGrid?_rank he

end Binary64

theorem digitsValue_eq (cs : List Char) : digitsValue cs = Nat.ofDigitChars 10 cs 0 := by
  simp only [digitsValue, Nat.ofDigitChars_eq_foldl, Nat.mul_comm]
  rfl

theorem digitsValue_repr (n : Nat) : digitsValue n.repr.toList = n := by
  rw [digitsValue_eq, Nat.toList_repr, Nat.ofDigitChars_ten_toDigits]

theorem digitsValue_zeros_append (n : Nat) (cs : List Char) :
    digitsValue (Layout.zeros n ++ cs) = digitsValue cs := by
  rw [digitsValue_eq, digitsValue_eq, Nat.ofDigitChars_append, Layout.zeros,
    Nat.ofDigitChars_replicate_zero, Nat.mul_zero]

theorem digitsValue_append_zeros (cs : List Char) (n : Nat) :
    digitsValue (cs ++ Layout.zeros n) = digitsValue cs * powerOfTen n := by
  rw [digitsValue_eq, digitsValue_eq, Nat.ofDigitChars_append, Layout.zeros,
    Nat.ofDigitChars_replicate_zero, Nat.mul_comm]
  rfl

theorem repr_digits (n : Nat) : n.repr.toList.all Char.isDigit = true := by
  rw [Nat.toList_repr, List.all_eq_true]
  intro c hc
  exact Nat.isDigit_of_mem_toDigits (by decide) (by decide) hc

theorem repr_length_pos (n : Nat) : 0 < n.repr.toList.length := by
  rw [Nat.toList_repr]
  exact List.length_pos_iff.mpr Nat.toDigits_ne_nil

theorem digitsValue_lt {cs : List Char} (h : cs.all Char.isDigit = true) :
    digitsValue cs < 10 ^ cs.length := by
  -- The digits so far count for more with each digit that follows.
  have hfold (n : Nat) : cs.foldl (fun n c => n * 10 + (c.toNat - 48)) n
      < (n + 1) * 10 ^ cs.length := by
    induction cs generalizing n with
    | nil => simp
    | cons c cs ih =>
      rw [List.all_cons, Bool.and_eq_true] at h
      have hc : c.toNat - 48 < 10 := by
        have hdigit := h.1
        simp only [Char.isDigit, Bool.and_eq_true, decide_eq_true_eq] at hdigit
        have hle : c.toNat ≤ 57 := UInt32.le_iff_toNat_le.mp hdigit.2
        omega
      have hle : n * 10 + (c.toNat - 48) + 1 ≤ (n + 1) * 10 := by omega
      rw [List.foldl_cons, List.length_cons, Nat.pow_succ']
      calc cs.foldl (fun n c => n * 10 + (c.toNat - 48)) (n * 10 + (c.toNat - 48))
          < (n * 10 + (c.toNat - 48) + 1) * 10 ^ cs.length := ih h.2 _
        _ ≤ (n + 1) * 10 * 10 ^ cs.length := Nat.mul_le_mul_right _ hle
        _ = (n + 1) * (10 * 10 ^ cs.length) := Nat.mul_assoc ..
  exact (hfold 0).trans_eq (by rw [Nat.zero_add, Nat.one_mul])

/-- No digits of a number are fewer than its canonical ones. -/
theorem repr_length_le {cs : List Char} (hne : cs ≠ []) (h : cs.all Char.isDigit = true) :
    (digitsValue cs).repr.toList.length ≤ cs.length := by
  rw [String.length_toList]
  exact (Nat.length_repr_le_iff (List.length_pos_iff.mpr hne)).mpr (digitsValue_lt h)

theorem zeros_digits (n : Nat) : (Layout.zeros n).all Char.isDigit = true := by
  rw [List.all_eq_true]
  intro c hc
  rw [List.eq_of_mem_replicate hc]
  decide

namespace Layout

/-- The digits before and behind a point write a decimal. -/
structure Pointed (whole fraction : List Char) (d : Decimal) : Prop where
  before : whole ≠ []
  behind : fraction ≠ []
  digits : (whole ++ fraction).all Char.isDigit = true
  value : digitsValue (whole ++ fraction) * d.denominator
    = d.numerator * powerOfTen fraction.length

section
variable {d : Decimal} {cs : List Char} {point : Int} (hdigits : cs.all Char.isDigit = true)
  (hvalue : digitsValue cs = d.digits) (hlen : 0 < cs.length)
  (hpoint : point = cs.length + d.exponent)

include hdigits hvalue hlen hpoint

theorem pointed_in_front (h : point ≤ 0) : Pointed ['0'] (zeros point.natAbs ++ cs) d := by
  refine ⟨List.cons_ne_nil _ _, ?_, ?_, ?_⟩
  · intro hnil
    rw [List.append_eq_nil_iff] at hnil
    rw [hnil.2] at hlen
    exact Nat.lt_irrefl 0 hlen
  · rw [List.all_append, List.all_append, zeros_digits, hdigits]
    rfl
  · have hzeros : digitsValue ('0' :: (zeros point.natAbs ++ cs)) = d.digits :=
      (digitsValue_zeros_append (point.natAbs + 1) cs).trans hvalue
    have hlength : (zeros point.natAbs ++ cs).length = (-d.exponent).toNat := by
      rw [List.length_append, zeros, List.length_replicate]
      omega
    have h0 : d.exponent.toNat = 0 := by omega
    rw [hlength, List.singleton_append, hzeros, Decimal.numerator, Decimal.denominator, h0]
    exact congrArg (· * _) (Nat.mul_one _).symm

theorem pointed_behind (h : cs.length ≤ point) :
    Pointed (cs ++ zeros (point.natAbs - cs.length)) ['0'] d := by
  have hpad : point.natAbs - cs.length = d.exponent.toNat := by omega
  rw [hpad]
  refine ⟨?_, List.cons_ne_nil _ _, ?_, ?_⟩
  · intro hnil
    rw [(List.append_eq_nil_iff.mp hnil).1] at hlen
    exact Nat.lt_irrefl 0 hlen
  · rw [List.all_append, List.all_append, zeros_digits, hdigits]
    rfl
  · have hd : digitsValue (cs ++ zeros d.exponent.toNat ++ ['0']) = d.numerator * powerOfTen 1 := by
      rw [Decimal.numerator, ← hvalue, ← digitsValue_append_zeros]
      exact digitsValue_append_zeros (cs ++ zeros d.exponent.toNat) 1
    have h0 : (-d.exponent).toNat = 0 := by omega
    rw [hd, Decimal.denominator, h0]
    exact Nat.mul_one _

theorem pointed_within (h : 0 < point) (h' : point < cs.length) :
    Pointed (cs.take point.natAbs) (cs.drop point.natAbs) d := by
  have hsplit := List.take_append_drop point.natAbs cs
  refine ⟨?_, ?_, ?_, ?_⟩
  · rw [Ne, List.take_eq_nil_iff, ← List.length_eq_zero_iff]
    omega
  · rw [Ne, List.drop_eq_nil_iff]
    omega
  · rw [hsplit]
    exact hdigits
  · have hlength : (cs.drop point.natAbs).length = (-d.exponent).toNat := by
      rw [List.length_drop]
      omega
    have h0 : d.exponent.toNat = 0 := by omega
    rw [hsplit, hvalue, hlength, Decimal.numerator, Decimal.denominator, h0]
    exact congrArg (· * _) (Nat.mul_one _).symm

end

theorem exists_pointed (d : Decimal) :
    ∃ whole fraction, Pointed whole fraction d ∧
      placePoint d.digits.repr.toList (d.digits.repr.toList.length + d.exponent)
        = whole ++ '.' :: fraction := by
  have hdigits := repr_digits d.digits
  have hvalue := digitsValue_repr d.digits
  have hlen := repr_length_pos d.digits
  unfold placePoint
  split
  · rename_i hfront
    exact ⟨_, _, pointed_in_front hdigits hvalue hlen rfl hfront, rfl⟩
  · rename_i hfront
    split
    · rename_i hbehind
      exact ⟨_, _, pointed_behind hdigits hvalue hlen rfl hbehind, rfl⟩
    · rename_i hbehind
      exact ⟨_, _, pointed_within hdigits hvalue hlen rfl (by omega) (by omega), rfl⟩

theorem Pointed.ofFraction_eq {whole fraction : List Char} {d : Decimal}
    (h : Pointed whole fraction d) (negative : Bool) :
    Binary64.ofFraction negative (digitsValue (whole ++ fraction)) fraction.length
      = .signed negative (Binary64.nearest d.numerator d.denominator) := by
  rw [Binary64.ofFraction,
    Binary64.nearest_congr (powerOfTen_pos _) d.denominator_pos h.value]

end Layout

namespace Word

theorem unsigned?_digits (negative : Bool) {cs : List Char} (hne : cs ≠ [])
    (hd : cs.all Char.isDigit = true) :
    unsigned? negative cs = some (.whole (Binary64.withSign negative (digitsValue cs))) := by
  have hall := List.all_eq_true.mp hd
  have ht : cs.takeWhile Char.isDigit = cs := by
    rw [← List.append_nil cs, List.takeWhile_append_of_pos hall, List.takeWhile_nil]
  have hdrop : cs.dropWhile Char.isDigit = [] := by
    rw [← List.append_nil cs, List.dropWhile_append_of_pos hall, List.dropWhile_nil]
  have hempty : cs.isEmpty = false := List.isEmpty_eq_false_iff.mpr hne
  simp only [unsigned?, ht, hdrop, hempty, Bool.false_eq_true, if_false]

theorem digits_of_unsigned? {negative : Bool} {cs : List Char} {n : Int}
    (h : unsigned? negative cs = some (.whole n)) :
    cs ≠ [] ∧ cs.all Char.isDigit = true ∧ n = Binary64.withSign negative (digitsValue cs) := by
  simp only [unsigned?] at h
  split at h
  · cases h
  · rename_i hne
    split at h
    · rename_i hdrop
      have hcs : cs.takeWhile Char.isDigit = cs := by
        have happend := List.takeWhile_append_dropWhile (p := Char.isDigit) (l := cs)
        rwa [hdrop, List.append_nil] at happend
      rw [hcs] at h hne
      cases h
      have hall : (cs.takeWhile Char.isDigit).all Char.isDigit = true := List.all_takeWhile
      rw [hcs] at hall
      exact ⟨by rintro rfl; exact hne rfl, hall, rfl⟩
    · split at h <;> cases h
    · cases h

theorem unsigned?_pointed (negative : Bool) {whole fraction : List Char} {d : Decimal}
    (h : Layout.Pointed whole fraction d) :
    unsigned? negative (whole ++ '.' :: fraction)
      = some (.fraction (.signed negative (Binary64.nearest d.numerator d.denominator))) := by
  have hdigits := h.digits
  rw [List.all_append, Bool.and_eq_true] at hdigits
  have hwhole := List.all_eq_true.mp hdigits.1
  have ht : (whole ++ '.' :: fraction).takeWhile Char.isDigit = whole := by
    rw [List.takeWhile_append_of_pos hwhole, List.takeWhile_cons_of_neg (by decide),
      List.append_nil]
  have hdrop : (whole ++ '.' :: fraction).dropWhile Char.isDigit = '.' :: fraction := by
    rw [List.dropWhile_append_of_pos hwhole, List.dropWhile_cons_of_neg (by decide)]
  have hbefore : whole.isEmpty = false := List.isEmpty_eq_false_iff.mpr h.before
  have hbehind : fraction.isEmpty = false := List.isEmpty_eq_false_iff.mpr h.behind
  simp only [unsigned?, ht, hdrop, hbefore, hbehind, hdigits.2, Bool.not_true, Bool.or_false,
    Bool.false_eq_true, if_false, h.ofFraction_eq]

end Word

end ObjectQuery
