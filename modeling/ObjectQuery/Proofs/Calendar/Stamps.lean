import Mathlib.Data.List.Basic
import Mathlib.Order.Monotone.Basic
import ObjectQuery.Calendar.Moment
import ObjectQuery.Proofs.Number.Reading

/-!
# Moments as numbers and as texts

No two days have the same number, and no two local moments the same instant or the same stamp. So
local moments are equal as points in time, as texts of one length and as records all at once. A
stamp is not a numeral.
-/

set_option autoImplicit false

namespace ObjectQuery

namespace Date

/-- A place within one of several spans that follow each other is in no other one. -/
theorem place_inj {before : Nat → Nat} (hm : Monotone before) {k l a b : Nat} (ha : 1 ≤ a)
    (ha' : before k + a ≤ before (k + 1)) (hb : 1 ≤ b) (hb' : before l + b ≤ before (l + 1))
    (h : before k + a = before l + b) : k = l ∧ a = b := by
  rcases Nat.lt_trichotomy k l with hlt | rfl | hlt
  · have hle : before (k + 1) ≤ before l := hm hlt
    omega
  · exact ⟨rfl, by omega⟩
  · have hle : before (l + 1) ≤ before k := hm hlt
    omega

theorem daysBeforeMonth_succ (year : Nat) {month : Nat} (h : 1 ≤ month) :
    daysBeforeMonth year (month + 1) = daysBeforeMonth year month + daysInMonth year month := by
  obtain ⟨k, rfl⟩ := Nat.exists_eq_add_of_le' h
  simp only [daysBeforeMonth, Nat.add_sub_cancel, List.range'_1_concat, List.foldl_append,
    List.foldl_cons, List.foldl_nil, Nat.add_comm 1 k]

theorem daysBeforeMonth_monotone (year : Nat) : Monotone (daysBeforeMonth year) := by
  refine monotone_nat_of_le_succ fun month => ?_
  rcases Nat.eq_zero_or_pos month with rfl | h
  · exact Nat.le_refl _
  · rw [daysBeforeMonth_succ year h]
    exact Nat.le_add_right _ _

theorem daysBeforeMonth_end (year : Nat) : daysBeforeMonth year 13 = daysInYear year := by
  cases h : isLeap year <;> simp [daysBeforeMonth, daysInYear, daysInMonth, h, List.range']

theorem daysBeforeYear_succ {year : Nat} (h : 1 ≤ year) :
    daysBeforeYear (year + 1) = daysBeforeYear year + daysInYear year := by
  obtain ⟨past, rfl⟩ := Nat.exists_eq_add_of_le' h
  have hle : past / 100 ≤ past / 4 := by omega
  have hdiv (n : Nat) : (past + 1) / n = past / n + if (past + 1) % n = 0 then 1 else 0 := by
    rw [Nat.succ_div]
    simp only [Nat.dvd_iff_mod_eq_zero]
  have h400 : (past + 1) % 400 = 0 → (past + 1) % 100 = 0 := by omega
  have h100 : (past + 1) % 100 = 0 → (past + 1) % 4 = 0 := by omega
  simp only [daysBeforeYear, Nat.add_sub_cancel, hdiv]
  by_cases h4 : (past + 1) % 4 = 0 <;> by_cases hb : (past + 1) % 100 = 0 <;>
    by_cases hc : (past + 1) % 400 = 0 <;> simp [daysInYear, isLeap, h4, hb, hc] <;> omega

theorem daysBeforeYear_monotone : Monotone daysBeforeYear := by
  refine monotone_nat_of_le_succ fun year => ?_
  rcases Nat.eq_zero_or_pos year with rfl | h
  · exact Nat.le_refl _
  · rw [daysBeforeYear_succ h]
    exact Nat.le_add_right _ _

/-- The place of a day in its month, and of the month in the year. -/
theorem dayOfYear_le (d : Date) :
    daysBeforeMonth d.year d.month + d.day ≤ daysBeforeMonth d.year (d.month + 1) ∧
      daysBeforeMonth d.year (d.month + 1) ≤ daysInYear d.year := by
  obtain ⟨_, ⟨hm, hm'⟩, _, hd⟩ := d.isDay
  rw [← daysBeforeMonth_end]
  refine ⟨?_, daysBeforeMonth_monotone d.year (by omega)⟩
  rw [daysBeforeMonth_succ d.year hm]
  omega

theorem number_injective : Function.Injective number := by
  intro d e h
  obtain ⟨hdm, hdy⟩ := d.dayOfYear_le
  obtain ⟨hem, hey⟩ := e.dayOfYear_le
  obtain ⟨⟨hd, _⟩, _, hd', _⟩ := d.isDay
  obtain ⟨⟨he, _⟩, _, he', _⟩ := e.isDay
  simp only [number, Nat.add_assoc] at h
  obtain ⟨hyear, h⟩ := place_inj daysBeforeYear_monotone (by omega)
    (by rw [daysBeforeYear_succ hd]; omega) (by omega) (by rw [daysBeforeYear_succ he]; omega) h
  rw [← hyear] at h hem
  obtain ⟨hmonth, hday⟩ := place_inj (daysBeforeMonth_monotone d.year) hd' hdm he' hem h
  cases d
  cases e
  cases hyear
  cases hmonth
  cases hday
  rfl

end Date

theorem TimeOfDay.microseconds_injective : Function.Injective TimeOfDay.microseconds := by
  intro t u h
  obtain ⟨a, b, c, d, ht⟩ := t
  obtain ⟨a', b', c', d', hu⟩ := u
  simp only [microseconds] at h
  have hparts : a = a' ∧ b = b' ∧ c = c' ∧ d = d' := by omega
  obtain ⟨rfl, rfl, rfl, rfl⟩ := hparts
  rfl

theorem TimeOfDay.microseconds_lt (t : TimeOfDay) : t.microseconds < 86400000000 := by
  have := t.inRange
  simp only [microseconds]
  omega

theorem Moment.equal_iff {m n : Moment} (hm : m.isLocal = true) (hn : n.isLocal = true) :
    m.equal n = true ↔ m = n := by
  obtain ⟨d, t, _ | o⟩ := m
  · obtain ⟨e, u, _ | o⟩ := n
    · have ht := t.microseconds_lt
      have hu := u.microseconds_lt
      simp only [equal, compare?, isLocal, Option.isNone_none, if_true, instant, Option.getD_none,
        decide_eq_true_eq, Option.some.injEq, compare_eq_iff_eq, Moment.mk.injEq, and_true]
      constructor
      · intro h
        have hparts : d.number = e.number ∧ t.microseconds = u.microseconds := by omega
        exact ⟨Date.number_injective hparts.1, TimeOfDay.microseconds_injective hparts.2⟩
      · rintro ⟨rfl, rfl⟩
        rfl
    · cases hn
  · cases hm

theorem trimBlanks_eq {cs : List Char} (hf : ∀ c, cs.head? = some c → c.isDigit = true)
    (hl : ∀ c, cs.getLast? = some c → c.isDigit = true) : trimBlanks cs = cs := by
  have hblank {c : Char} (h : c.isDigit = true) : isAsciiBlank c = false := by
    simp only [Char.isDigit, Bool.and_eq_true, decide_eq_true_eq, UInt32.le_iff_toNat_le] at h
    simp only [isAsciiBlank, Bool.or_eq_false_iff, Bool.and_eq_false_iff, decide_eq_false_iff_not,
      Char.le_def, UInt32.le_iff_toNat_le]
    refine ⟨?_, .inr fun hle => ?_⟩
    · rintro rfl
      exact absurd h.1 (by decide)
    · exact absurd (h.1.trans hle) (by decide)
  have hdrop {ds : List Char} (h : ∀ c, ds.head? = some c → c.isDigit = true) :
      ds.dropWhile isAsciiBlank = ds := by
    cases ds with
    | nil => rfl
    | cons d ds => rw [List.dropWhile_cons_of_neg (by simp [hblank (h d rfl)])]
  rw [trimBlanks, hdrop hf, hdrop (by simpa using hl), List.reverse_reverse]

/-- There is no hyphen in a numeral right after its first digits. -/
theorem Written.ofNumeral?_hyphen {ds : List Char} (hd : ds.all Char.isDigit = true) (hne : ds ≠ [])
    (rest : List Char) : ofNumeral? (ds ++ '-' :: rest) = none := by
  have hsign : splitSign (ds ++ '-' :: rest) = (false, ds ++ '-' :: rest) := by
    cases ds with
    | nil => exact absurd rfl hne
    | cons d ds =>
      rw [List.cons_append]
      unfold splitSign
      split
      · rename_i h
        cases h
        cases hd
      · rename_i h
        cases h
        cases hd
      · rfl
  have hsplit : splitDigits (ds ++ '-' :: rest) = (ds, '-' :: rest) := by
    rw [splitDigits, List.takeWhile_append_of_pos (List.all_eq_true.mp hd),
      List.dropWhile_append_of_pos (List.all_eq_true.mp hd)]
    simp
  have hpower : Written.exponent? ('-' :: rest) = none := by
    simp [Written.exponent?]
  simp [Written.ofNumeral?, hsign, hsplit, hpower]

/-- Digits end where the first character stands that is none. -/
theorem digits_append_inj {xs ys s t : List Char} {c d : Char} (hx : xs.all Char.isDigit = true)
    (hy : ys.all Char.isDigit = true) (hc : c.isDigit = false) (hd : d.isDigit = false)
    (h : xs ++ c :: s = ys ++ d :: t) : xs = ys ∧ s = t := by
  have htake {zs u : List Char} {e : Char} (hz : zs.all Char.isDigit = true)
      (he : e.isDigit = false) : (zs ++ e :: u).takeWhile Char.isDigit = zs := by
    rw [List.takeWhile_append_of_pos (List.all_eq_true.mp hz),
      List.takeWhile_cons_of_neg (by simp [he]), List.append_nil]
  obtain rfl : xs = ys := by rw [← htake hx hc (u := s), h, htake hy hd]
  exact ⟨rfl, (List.cons.inj (List.append_cancel_left h)).2⟩

namespace Date

theorem padded_digits (width n : Nat) : (padded width n).all Char.isDigit = true := by
  rw [padded, List.all_append, repr_digits, Bool.and_true]
  exact zeros_digits _

theorem digitsValue_padded (width n : Nat) : digitsValue (padded width n) = n :=
  (digitsValue_zeros_append _ _).trans (digitsValue_repr n)

theorem padded_injective (width : Nat) : Function.Injective (padded width) :=
  Function.LeftInverse.injective (digitsValue_padded width)

theorem padded_ne_nil (width n : Nat) : padded width n ≠ [] := by
  have := repr_length_pos n
  intro h
  have hlen := congrArg List.length h
  simp only [padded, List.length_append, List.length_nil] at hlen
  omega

end Date

namespace Moment

theorem stamp_toList (m : Moment) : m.stamp.toList =
    Date.padded 4 m.date.year ++ '-' :: (Date.padded 2 m.date.month ++ '-' ::
      (Date.padded 2 m.date.day ++ ' ' :: (Date.padded 2 m.time.hour ++ ':' ::
        (Date.padded 2 m.time.minute ++ ':' :: (Date.padded 2 m.time.second ++ '.' ::
          Date.padded 6 m.time.microsecond))))) := by
  simp [stamp, Date.text, TimeOfDay.clock, TimeOfDay.fraction]

/-- A stamp says all there is to a local moment. -/
theorem stamp_inj {m n : Moment} (hm : m.isLocal = true) (hn : n.isLocal = true) :
    m.stamp = n.stamp ↔ m = n := by
  refine ⟨fun h => ?_, fun h => h ▸ rfl⟩
  have hd := Date.padded_digits
  have hlist := congrArg String.toList h
  rw [stamp_toList, stamp_toList] at hlist
  obtain ⟨hyear, hlist⟩ := digits_append_inj (hd ..) (hd ..) (by decide) (by decide) hlist
  obtain ⟨hmonth, hlist⟩ := digits_append_inj (hd ..) (hd ..) (by decide) (by decide) hlist
  obtain ⟨hday, hlist⟩ := digits_append_inj (hd ..) (hd ..) (by decide) (by decide) hlist
  obtain ⟨hhour, hlist⟩ := digits_append_inj (hd ..) (hd ..) (by decide) (by decide) hlist
  obtain ⟨hminute, hlist⟩ := digits_append_inj (hd ..) (hd ..) (by decide) (by decide) hlist
  obtain ⟨hsecond, hmicrosecond⟩ :=
    digits_append_inj (hd ..) (hd ..) (by decide) (by decide) hlist
  obtain ⟨⟨y, mo, da, _⟩, ⟨ho, mi, se, us, _⟩, _ | o⟩ := m
  · obtain ⟨⟨y', mo', da', _⟩, ⟨ho', mi', se', us', _⟩, _ | o⟩ := n
    · cases Date.padded_injective 4 hyear
      cases Date.padded_injective 2 hmonth
      cases Date.padded_injective 2 hday
      cases Date.padded_injective 2 hhour
      cases Date.padded_injective 2 hminute
      cases Date.padded_injective 2 hsecond
      cases Date.padded_injective 6 hmicrosecond
      rfl
    · cases hn
  · cases hm

/-- The first hyphen of a stamp is not where a numeral could have one. -/
theorem read?_stamp (m : Moment) : Written.read? m.stamp = none := by
  have hdigits := Date.padded_digits 4 m.date.year
  have hne := Date.padded_ne_nil 4 m.date.year
  have hsplit : m.stamp.toList = (m.date.text ++ ' ' :: m.time.clock ++ ['.']) ++
      Date.padded 6 m.time.microsecond := by
    simp [stamp, TimeOfDay.fraction]
  have htrim : trimBlanks m.stamp.toList = m.stamp.toList := by
    refine trimBlanks_eq (fun c hc => ?_) fun c hc => ?_
    · rw [stamp_toList, List.head?_append_of_ne_nil _ hne] at hc
      exact List.all_eq_true.mp hdigits c (List.mem_of_head? hc)
    · rw [hsplit, List.getLast?_append_of_ne_nil _ (Date.padded_ne_nil 6 _)] at hc
      exact List.all_eq_true.mp (Date.padded_digits ..) c (List.mem_of_getLast? hc)
  rw [Written.read?, htrim, stamp_toList]
  exact Written.ofNumeral?_hyphen hdigits hne _

end Moment

end ObjectQuery
