import Mathlib.Data.List.TakeWhile
import ObjectQuery.Calendar.Reading
import ObjectQuery.Proofs.Outcome

/-!
# The end of the calendar

Hour 24 of a day is the midnight that the next day begins with, and the last day of the calendar has
no next one. A text that says that midnight is the only one of the right shape that is refused with
no part of it out of range.
-/

set_option autoImplicit false

namespace ObjectQuery

open Outcome

namespace Date

theorem daysInMonth_pos (year month : Nat) : 1 ≤ daysInMonth year month := by
  unfold daysInMonth
  split
  · split <;> decide
  · split <;> decide

theorem of?_eq_none {year month day : Nat} : of? year month day = none ↔ ¬IsDay year month day :=
  dite_eq_right_iff.trans (by simp)

theorem next?_eq_none {d : Date} :
    d.next? = none ↔ d.year = lastYear ∧ d.month = 12 ∧ d.day = 31 := by
  obtain ⟨hyear, hmonth, hday⟩ := d.isDay
  have hdecember : daysInMonth d.year 12 = 31 := rfl
  unfold next?
  split
  · rename_i hbefore
    rw [of?_eq_none]
    refine iff_of_false (fun hnone => hnone ⟨hyear, hmonth, by omega, hbefore⟩) ?_
    rintro ⟨_, hm, hd⟩
    rw [hm, hd] at hbefore
    omega
  · split
    · rename_i hbefore
      rw [of?_eq_none]
      refine iff_of_false (fun hnone => hnone ⟨hyear, ?_, Nat.le_refl 1, daysInMonth_pos _ _⟩) ?_
      · omega
      · omega
    · rename_i hlast hlastMonth
      have hm : d.month = 12 := by omega
      rw [hm, hdecember] at hlast hday
      have hd : d.day = 31 := by omega
      have hfirst : IsDay (d.year + 1) 1 1 ↔ d.year ≠ lastYear := by
        have hsize := daysInMonth_pos (d.year + 1) 1
        simp only [IsDay, lastYear] at hyear ⊢
        omega
      rw [of?_eq_none, hfirst, not_not]
      simp [hm, hd]

end Date

namespace Moment

variable {size year : Nat} {cs : List Char}

/-- Whether a text is misread for another reason than that its moment is past the calendar. -/
def Misreading.Earlier (d : Misreading) : Prop := d ≠ .pastCalendar

theorem earlier_refuse {α : Type} (part : Part) (missing : Nat) :
    FailsWith Misreading.Earlier (refuse size part missing cs : Except Misreading α) := by
  cases cs <;> exact failsWith_error nofun

theorem earlier_readDigits (part : Part) (count value : Nat) (cs : List Char) :
    FailsWith Misreading.Earlier (readDigits size part count value cs) := by
  induction count generalizing value cs with
  | zero => exact failsWith_ok _
  | succ count ih =>
    unfold readDigits
    cases cs with
    | nil => exact earlier_refuse part _
    | cons c rest =>
      dsimp only
      split
      · exact ih _ rest
      · exact earlier_refuse part _

theorem earlier_ofDayOfYear (extended : Bool) (day : Nat) :
    FailsWith Misreading.Earlier (ofDayOfYear extended year day) := by
  unfold ofDayOfYear
  split
  · exact failsWith_ok _
  · exact failsWith_error nofun

theorem earlier_ofWeek (extended : Bool) (week day : Nat) :
    FailsWith Misreading.Earlier (ofWeek extended year week day) := by
  unfold ofWeek
  split
  · exact failsWith_ok _
  · exact failsWith_error nofun

theorem earlier_readExtendedDate :
    FailsWith Misreading.Earlier (readExtendedDate size year cs) := by
  unfold readExtendedDate
  split
  · refine (earlier_readDigits _ _ _ _).bind fun _ _ => ?_
    dsimp only
    split
    · exact (earlier_ofWeek _ _ _).bind fun _ _ => failsWith_ok _
    · split
      · refine (earlier_readDigits _ _ _ _).bind fun _ _ => ?_
        exact (earlier_ofWeek _ _ _).bind fun _ _ => failsWith_ok _
      · exact earlier_refuse _ _
  · refine (earlier_readDigits _ _ _ _).bind fun _ _ => ?_
    dsimp only
    split
    · exact failsWith_ok _
    · split
      · exact (earlier_readDigits _ _ _ _).bind fun _ _ => failsWith_ok _
      · refine (earlier_readDigits _ _ _ _).bind fun _ _ => ?_
        exact (earlier_ofDayOfYear _ _).bind fun _ _ => failsWith_ok _

theorem earlier_readBasicDate : FailsWith Misreading.Earlier (readBasicDate size year cs) := by
  unfold readBasicDate
  split
  · refine (earlier_readDigits _ _ _ _).bind fun _ _ => ?_
    dsimp only
    split
    · exact (earlier_ofWeek _ _ _).bind fun _ _ => failsWith_ok _
    · refine (earlier_readDigits _ _ _ _).bind fun _ _ => ?_
      exact (earlier_ofWeek _ _ _).bind fun _ _ => failsWith_ok _
  · refine (earlier_readDigits _ _ _ _).bind fun _ _ => ?_
    refine (earlier_readDigits _ _ _ _).bind fun _ _ => ?_
    dsimp only
    split
    · exact (earlier_ofDayOfYear _ _).bind fun _ _ => failsWith_ok _
    · exact (earlier_readDigits _ _ _ _).bind fun _ _ => failsWith_ok _

theorem earlier_readDate : FailsWith Misreading.Earlier (readDate size cs) := by
  refine (earlier_readDigits _ _ _ _).bind fun _ _ => ?_
  dsimp only
  split
  · exact earlier_readExtendedDate
  · exact earlier_readBasicDate

theorem earlier_readFraction : FailsWith Misreading.Earlier (readFraction size cs) := by
  unfold readFraction
  split
  · exact failsWith_ok _
  · split
    · split
      · exact earlier_refuse _ _
      · exact failsWith_ok _
    · exact failsWith_ok _

theorem earlier_readExtendedTime (hour : Nat) :
    FailsWith Misreading.Earlier (readExtendedTime size hour cs) := by
  refine (earlier_readDigits _ _ _ _).bind fun _ _ => ?_
  dsimp only
  split
  · exact failsWith_ok _
  · split
    · refine (earlier_readDigits _ _ _ _).bind fun _ _ => ?_
      exact earlier_readFraction.bind fun _ _ => failsWith_ok _
    · exact earlier_refuse _ _

theorem earlier_readBasicTime (hour : Nat) :
    FailsWith Misreading.Earlier (readBasicTime size hour cs) := by
  refine (earlier_readDigits _ _ _ _).bind fun _ _ => ?_
  dsimp only
  split
  · exact failsWith_ok _
  · refine (earlier_readDigits _ _ _ _).bind fun _ _ => ?_
    exact earlier_readFraction.bind fun _ _ => failsWith_ok _

theorem earlier_readTime (extended : Bool) :
    FailsWith Misreading.Earlier (readTime size extended cs) := by
  refine (earlier_readDigits _ _ _ _).bind fun _ _ => ?_
  dsimp only
  split
  · exact failsWith_ok _
  · split
    · refine (earlier_readExtendedTime _).bind fun _ _ => ?_
      split
      · exact failsWith_ok _
      · exact failsWith_error nofun
    · refine (earlier_readBasicTime _).bind fun _ _ => ?_
      split
      · exact failsWith_error nofun
      · exact failsWith_ok _

theorem earlier_readZoneMinutes : FailsWith Misreading.Earlier (readZoneMinutes size cs) := by
  refine (earlier_readDigits _ _ _ _).bind fun _ _ => ?_
  dsimp only
  split
  · exact failsWith_ok _
  · refine (earlier_readDigits _ _ _ _).bind fun _ _ => ?_
    split
    · exact failsWith_error (by rintro ⟨⟩)
    · exact failsWith_ok _

theorem earlier_zoneOf (minutes : Int) : FailsWith Misreading.Earlier (zoneOf minutes) := by
  unfold zoneOf
  split
  · exact failsWith_ok _
  · exact failsWith_error nofun

theorem earlier_readZone : FailsWith Misreading.Earlier (readZone size cs) := by
  unfold readZone
  split
  · exact failsWith_ok _
  · split
    · exact failsWith_ok _
    · split
      · refine earlier_readZoneMinutes.bind fun _ _ => ?_
        exact (earlier_zoneOf _).bind fun _ _ => failsWith_ok _
      · split
        · refine earlier_readZoneMinutes.bind fun _ _ => ?_
          exact (earlier_zoneOf _).bind fun _ _ => failsWith_ok _
        · exact failsWith_ok _

theorem earlier_readWritten : FailsWith Misreading.Earlier (readWritten cs) := by
  refine earlier_readDate.bind fun _ _ => ?_
  dsimp only
  split
  · exact failsWith_ok _
  · split
    · refine (earlier_readTime _).bind fun _ _ => earlier_readZone.bind fun _ _ => ?_
      split
      · exact failsWith_ok _
      · exact failsWith_error (by rintro ⟨⟩)
    · exact earlier_refuse _ _

/-- The midnight that ends the last day of the calendar. -/
def Written.EndsCalendar (w : Written) : Prop :=
  w.date.year = Date.lastYear ∧ w.date.month = 12 ∧ w.date.day = 31 ∧ w.time.endsDay = true

/-- Whether a text says that midnight. -/
def EndsCalendar (s : String) : Prop :=
  (∀ c ∈ s.toList, isNull c = false) ∧ ∃ w, readWritten s.toList = .ok w ∧ w.EndsCalendar

theorem WrittenDate.check_eq_ok {w : WrittenDate} {d : Date} :
    w.check = .ok d ↔ w.year = d.year ∧ w.month = d.month ∧ w.day = d.day := by
  constructor
  · intro h
    unfold check at h
    split at h
    · rename_i date hdate
      cases h
      unfold Date.of? at hdate
      split at hdate
      · cases hdate
        exact ⟨rfl, rfl, rfl⟩
      · cases hdate
    · split at h
      · cases h
      · split at h <;> cases h
  · rintro ⟨hyear, hmonth, hday⟩
    rw [check, hyear, hmonth, hday, Date.of?_self]

theorem WrittenDate.earlier_check (w : WrittenDate) : FailsWith Misreading.Earlier w.check := by
  unfold check
  split
  · exact failsWith_ok _
  · split
    · exact failsWith_error nofun
    · split <;> exact failsWith_error nofun

theorem WrittenTime.earlier_check (w : WrittenTime) : FailsWith Misreading.Earlier w.check := by
  unfold check
  split
  · exact failsWith_ok _
  · split
    · exact failsWith_error nofun
    · split <;> exact failsWith_error nofun

theorem Written.check_eq_pastCalendar {w : Written} :
    w.check = .error .pastCalendar ↔ w.EndsCalendar := by
  have hpast : ¬Misreading.Earlier .pastCalendar := fun h => h rfl
  unfold check
  rw [(w.date.earlier_check).bind_eq_error hpast]
  constructor
  · rintro ⟨d, hd, h⟩
    obtain ⟨hyear, hmonth, hday⟩ := WrittenDate.check_eq_ok.mp hd
    split at h
    · rename_i hends
      split at h
      · cases h
      · rename_i hnext
        rw [Date.next?_eq_none, ← hyear, ← hmonth, ← hday] at hnext
        exact ⟨hnext.1, hnext.2.1, hnext.2.2, hends⟩
    · have hlater := w.time.earlier_check.bind fun time _ =>
        failsWith_ok (p := Misreading.Earlier) (⟨d, time, w.zone⟩ : Moment)
      exact absurd h (fun h => hpast (hlater _ h))
  · rintro ⟨hyear, hmonth, hday, hends⟩
    let last : Date := ⟨Date.lastYear, 12, 31, by decide⟩
    have hnext : last.next? = none := Date.next?_eq_none.mpr ⟨rfl, rfl, rfl⟩
    refine ⟨last, WrittenDate.check_eq_ok.mpr ⟨hyear, hmonth, hday⟩, ?_⟩
    rw [if_pos hends, hnext]

/-- Without null characters, reading a text is reading what is written and checking it. -/
theorem read_of_clean {s : String} (h : ∀ c ∈ s.toList, isNull c = false) :
    read s = readWritten s.toList >>= Written.check := by
  have hnone : s.toList.any isNull = false := by simpa using h
  have htake : s.toList.takeWhile (!isNull ·) = s.toList := by
    rw [List.takeWhile_eq_self_iff]
    simpa using h
  rw [read, htake, hnone]
  rfl

theorem read_of_null {s : String} (h : ¬∀ c ∈ s.toList, isNull c = false) :
    read s = readWritten (s.toList.takeWhile (!isNull ·)) >>= fun _ => .error .nullLeft := by
  have hnull : s.toList.any isNull = true := by simpa using h
  rw [read, hnull]
  rfl

theorem read_eq_pastCalendar {s : String} : read s = .error .pastCalendar ↔ EndsCalendar s := by
  have hpast : ¬Misreading.Earlier .pastCalendar := fun h => h rfl
  unfold EndsCalendar
  by_cases hclean : ∀ c ∈ s.toList, isNull c = false
  · rw [read_of_clean hclean, earlier_readWritten.bind_eq_error hpast, and_iff_right hclean]
    simp only [Written.check_eq_pastCalendar]
  · rw [read_of_null hclean, earlier_readWritten.bind_eq_error hpast]
    simp only [hclean, false_and, iff_false]
    rintro ⟨_, _, h⟩
    cases h

end Moment

end ObjectQuery
