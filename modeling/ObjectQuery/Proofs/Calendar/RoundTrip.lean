import ObjectQuery.Proofs.Calendar.Stamps
import ObjectQuery.Proofs.Calendar.Zones

/-!
# Local moments read back

The text of a local moment has one of two forms, with a fraction of six digits or with none. Every
part of it has as many digits as are read there, so reading goes through it part by part and comes
to the moment again.
-/

set_option autoImplicit false

namespace ObjectQuery

open Outcome

namespace Date

variable {width n : Nat}

theorem length_padded (hw : 0 < width) (h : n < 10 ^ width) : (padded width n).length = width := by
  have hdigits : n.repr.toList.length ≤ width := by
    rw [Nat.toList_repr]
    exact (Nat.length_toDigits_le_iff (by decide) hw).mpr h
  rw [padded, List.length_append, List.length_replicate]
  omega

theorem daysInMonth_le (year month : Nat) : daysInMonth year month ≤ 31 := by
  unfold daysInMonth
  split
  · split <;> decide
  · split <;> decide

/-- The numbers of a date have as many digits as they are padded to. -/
theorem digits_fit (d : Date) : d.year < 10 ^ 4 ∧ d.month < 10 ^ 2 ∧ d.day < 10 ^ 2 := by
  obtain ⟨⟨_, hyear⟩, ⟨_, hmonth⟩, _, hday⟩ := d.isDay
  have hlong := daysInMonth_le d.year d.month
  rw [lastYear] at hyear
  omega

end Date

theorem TimeOfDay.digits_fit (t : TimeOfDay) :
    t.hour < 10 ^ 2 ∧ t.minute < 10 ^ 2 ∧ t.second < 10 ^ 2 ∧ t.microsecond < 10 ^ 6 := by
  have hrange := t.inRange
  omega

namespace Moment

variable {size width n value hour year : Nat} {part : Part} {ds cs rest : List Char}

/-- Digits are read if there are as many of them as there have to be, whatever follows. -/
theorem readDigits_append (hd : ∀ c ∈ ds, c.isDigit = true) : readDigits size part ds.length value
    (ds ++ rest) = .ok (ds.foldl (fun n c => n * 10 + (c.toNat - 48)) value, rest) := by
  induction ds generalizing value with
  | nil => rfl
  | cons d ds ih =>
    obtain ⟨hd, hds⟩ := List.forall_mem_cons.mp hd
    rw [List.length_cons, List.cons_append, readDigits, if_pos hd, ih hds, List.foldl_cons]

theorem readDigits_padded (hw : 0 < width) (h : n < 10 ^ width) :
    readDigits size part width 0 (Date.padded width n ++ rest) = .ok (n, rest) := by
  have hdigits := List.all_eq_true.mp (Date.padded_digits width n)
  have hread : readDigits size part (Date.padded width n).length 0 (Date.padded width n ++ rest) =
    _ := readDigits_append hdigits
  rw [Date.length_padded hw h] at hread
  rw [hread]
  exact congrArg (fun m => Except.ok (m, rest)) (Date.digitsValue_padded width n)

theorem millionths_padded (h : n < 10 ^ 6) : millionths (Date.padded 6 n) = n := by
  have hlength : (Date.padded 6 n).length = 6 := Date.length_padded (by decide) h
  rw [millionths, List.take_append_of_le_length (by omega), List.take_of_length_le (by omega)]
  exact Date.digitsValue_padded 6 n

theorem readExtendedDate_text {month day : Nat} (hm : month < 10 ^ 2) (hd : day < 10 ^ 2) :
    readExtendedDate size year (Date.padded 2 month ++ '-' :: (Date.padded 2 day ++ rest)) =
      .ok (⟨year, month, day, true⟩, rest) := by
  unfold readExtendedDate
  split
  · -- A week would begin with a letter, and what stands here begins with a digit.
    rename_i hweek
    have hdigits := Date.padded_digits 2 month
    obtain ⟨c, _, hc⟩ := List.exists_cons_of_ne_nil (Date.padded_ne_nil 2 month)
    rw [hc] at hweek hdigits
    cases hweek
    cases hdigits
  · rw [readDigits_padded (by decide) hm, ok_bind]
    dsimp only
    rw [if_neg (by simp [dateEnds, isTimeStart])]
    exact bind_eq_ok.mpr ⟨(day, rest), readDigits_padded (by decide) hd, rfl⟩

theorem readDate_text (d : Date) :
    readDate size (d.text ++ rest) = .ok (⟨d.year, d.month, d.day, true⟩, rest) := by
  obtain ⟨hyear, hmonth, hday⟩ := d.digits_fit
  have hsplit : d.text ++ rest = Date.padded 4 d.year ++ '-' ::
      (Date.padded 2 d.month ++ '-' :: (Date.padded 2 d.day ++ rest)) := by
    simp [Date.text]
  rw [hsplit, readDate, readDigits_padded (by decide) hyear, ok_bind]
  exact readExtendedDate_text hmonth hday

theorem readFraction_text (t : TimeOfDay) :
    readFraction size (if t.microsecond = 0 then [] else t.fraction) = .ok (t.microsecond, []) := by
  split
  · rename_i hzero
    rw [hzero]
    rfl
  · have hdigits := List.all_eq_true.mp (Date.padded_digits 6 t.microsecond)
    have htake := List.takeWhile_eq_self_iff.mpr hdigits
    have hdrop := List.dropWhile_eq_nil_iff.mpr hdigits
    rw [TimeOfDay.fraction, readFraction, if_pos (.inl rfl), htake, hdrop]
    split
    · rename_i hnil
      exact absurd hnil (Date.padded_ne_nil 6 t.microsecond)
    · rw [millionths_padded t.digits_fit.2.2.2]

theorem readTime_text (t : TimeOfDay) :
    readTime size true t.text = .ok (⟨t.hour, t.minute, t.second, t.microsecond⟩, []) := by
  obtain ⟨hhour, hminute, hsecond, _⟩ := t.digits_fit
  have hsplit : t.text = Date.padded 2 t.hour ++ ':' :: (Date.padded 2 t.minute ++ ':' ::
      (Date.padded 2 t.second ++ if t.microsecond = 0 then [] else t.fraction)) := by
    simp [TimeOfDay.text, TimeOfDay.clock]
  have hextended : readExtendedTime size t.hour (Date.padded 2 t.minute ++ ':' ::
      (Date.padded 2 t.second ++ if t.microsecond = 0 then [] else t.fraction)) =
        .ok (⟨t.hour, t.minute, t.second, t.microsecond⟩, []) := by
    rw [readExtendedTime, readDigits_padded (by decide) hminute, ok_bind]
    dsimp only
    rw [if_neg (by simp [timeEnds, isZoneStart])]
    refine bind_eq_ok.mpr ⟨_, readDigits_padded (by decide) hsecond, ?_⟩
    exact bind_eq_ok.mpr ⟨_, readFraction_text t, rfl⟩
  rw [hsplit, readTime, readDigits_padded (by decide) hhour, ok_bind]
  dsimp only
  rw [if_neg (by simp [timeEnds, isZoneStart])]
  exact bind_eq_ok.mpr ⟨_, hextended, rfl⟩

/-- Whether a character stands for a place: a digit for a zero, and any other one for itself. -/
def FitsPlace (place c : Char) : Prop := if place = '0' then c.isDigit = true else c = place

/-- Whether a text is a date and a time in extended form, without a zone and with a fraction of six
digits or none. -/
def IsIso (s : String) : Prop :=
  List.Forall₂ FitsPlace "0000-00-00T00:00:00".toList s.toList ∨
    List.Forall₂ FitsPlace "0000-00-00T00:00:00.000000".toList s.toList

theorem fits_digits (h : ∀ c ∈ cs, c.isDigit = true) :
    List.Forall₂ FitsPlace (List.replicate cs.length '0') cs := by
  induction cs with
  | nil => exact .nil
  | cons c cs ih =>
    obtain ⟨hc, hcs⟩ := List.forall_mem_cons.mp h
    exact .cons ((if_pos rfl).mpr hc) (ih hcs)

theorem fits_padded (hw : 0 < width) (h : n < 10 ^ width) :
    List.Forall₂ FitsPlace (List.replicate width '0') (Date.padded width n) := by
  have hfits := fits_digits (List.all_eq_true.mp (Date.padded_digits width n))
  rwa [Date.length_padded hw h] at hfits

theorem fits_mark (c : Char) (hc : c ≠ '0') : FitsPlace c c := (if_neg hc).mpr rfl

theorem fits_date (d : Date) : List.Forall₂ FitsPlace "0000-00-00".toList d.text := by
  obtain ⟨hyear, hmonth, hday⟩ := d.digits_fit
  have hyear := fits_padded (by decide) hyear
  have hmonth := fits_padded (by decide) hmonth
  have hday := fits_padded (by decide) hday
  have hhyphen := fits_mark '-' (by decide)
  rw [Date.text, List.append_assoc, List.cons_append]
  exact List.rel_append hyear (.cons hhyphen (List.rel_append hmonth (.cons hhyphen hday)))

theorem fits_clock (t : TimeOfDay) : List.Forall₂ FitsPlace "00:00:00".toList t.clock := by
  obtain ⟨hhour, hminute, hsecond, _⟩ := t.digits_fit
  have hhour := fits_padded (by decide) hhour
  have hminute := fits_padded (by decide) hminute
  have hsecond := fits_padded (by decide) hsecond
  have hcolon := fits_mark ':' (by decide)
  rw [TimeOfDay.clock, List.append_assoc, List.cons_append]
  exact List.rel_append hhour (.cons hcolon (List.rel_append hminute (.cons hcolon hsecond)))

theorem fits_fraction (t : TimeOfDay) : List.Forall₂ FitsPlace ".000000".toList t.fraction :=
  .cons (fits_mark '.' (by decide)) (fits_padded (by decide) t.digits_fit.2.2.2)

theorem isoText_toList {m : Moment} (hm : m.isLocal = true) :
    m.isoText.toList = m.date.text ++ 'T' :: m.time.text := by
  obtain ⟨d, t, _ | offset⟩ := m
  · simp [isoText, textWith]
  · cases hm

theorem isIso_isoText {m : Moment} (hm : m.isLocal = true) : IsIso m.isoText := by
  have hstart := List.rel_append (fits_date m.date)
    (.cons (fits_mark 'T' (by decide)) (fits_clock m.time))
  rw [IsIso, isoText_toList hm, TimeOfDay.text]
  by_cases hzero : m.time.microsecond = 0
  · rw [if_pos hzero, List.append_nil]
    exact .inl hstart
  · rw [if_neg hzero, ← List.cons_append, ← List.append_assoc]
    exact .inr (List.rel_append hstart (fits_fraction m.time))

theorem isNull_of_fits {pattern : List Char} (hp : '\x00' ∉ pattern)
    (h : List.Forall₂ FitsPlace pattern cs) : ∀ c ∈ cs, isNull c = false := by
  intro c hc
  obtain ⟨place, hplace, hfits⟩ := exists_left_of_mem h hc
  rw [isNull, beq_eq_false_iff_ne]
  rintro rfl
  unfold FitsPlace at hfits
  split at hfits
  · cases hfits
  · exact hp (hfits ▸ hplace)

theorem IsIso.isNull {s : String} (h : IsIso s) : ∀ c ∈ s.toList, isNull c = false := by
  rcases h with h | h
  · exact isNull_of_fits (by decide) h
  · exact isNull_of_fits (by decide) h

theorem readWritten_text (d : Date) (t : TimeOfDay) : readWritten (d.text ++ 'T' :: t.text) =
    .ok ⟨⟨d.year, d.month, d.day, true⟩, ⟨t.hour, t.minute, t.second, t.microsecond⟩, none⟩ := by
  rw [readWritten, readDate_text, ok_bind]
  dsimp only
  rw [if_pos (by simp [isTimeStart]), readTime_text]
  rfl

theorem Written.check_text (d : Date) (t : TimeOfDay) (zone : Option Int) : Written.check
    ⟨⟨d.year, d.month, d.day, true⟩, ⟨t.hour, t.minute, t.second, t.microsecond⟩, zone⟩ =
      .ok ⟨d, t, zone⟩ := by
  have hhour : t.hour ≠ 24 := by
    have hrange := t.inRange
    omega
  have htime : WrittenTime.check ⟨t.hour, t.minute, t.second, t.microsecond⟩ = .ok t := by
    rw [WrittenTime.check, TimeOfDay.of?_self]
  rw [Written.check, WrittenDate.check_eq_ok.mpr ⟨rfl, rfl, rfl⟩, ok_bind, if_neg]
  · rw [htime]
    rfl
  · simp [WrittenTime.endsDay, hhour]

/-- The text of a local moment reads as the moment. -/
theorem read_isoText {m : Moment} (hm : m.isLocal = true) : read m.isoText = .ok m := by
  refine read_eq_ok.mpr ⟨(isIso_isoText hm).isNull, ?_⟩
  rw [isoText_toList hm]
  refine ⟨_, readWritten_text m.date m.time, ?_⟩
  rw [Written.check_text, ← Option.isNone_iff_eq_none.mp hm]

/-- A local moment is written as a text of the ISO form, which stands for it again; and no text
stands for a moment that is not local, so one that says a zone is refused and not shifted. -/
theorem survives_text {m : Moment} (hm : m.isLocal = true) :
    (∃ s, toText (.moment m) = .ok s ∧ IsIso s ∧ ofValue (.text s) = .ok m ∧
      Scalar.datetime.coerce (.text s) = .ok (.moment m)) ∧
    ∀ s, (∀ n, ofValue (.text s) = .ok n → n.isLocal = true) ∧
      (SaysZone s → ∃ e, ofValue (.text s) = .error e) ∧
      ∀ n, read s = .ok n → n.isLocal = false →
        ofValue (.text s) = .error (.defect (.zoned s n)) := by
  have hread := ofValue_text_eq_ok.mpr ⟨read_isoText hm, hm⟩
  refine ⟨⟨m.isoText, if_pos hm, isIso_isoText hm, hread, ?_⟩, fun s => ⟨fun n hn => ?_, ?_, ?_⟩⟩
  · rw [Scalar.coerce, hread]
  · exact (ofValue_text_eq_ok.mp hn).2
  · exact exists_error_of_saysZone
  · intro n hn hzoned
    rw [ofValue, hn]
    exact if_neg (by rw [hzoned]; exact Bool.false_ne_true)

/-- A moment in the last second of a February with a leap day. -/
def leapEvening : Moment := ⟨⟨2024, 2, 29, by decide⟩, ⟨23, 59, 59, 5, by decide⟩, none⟩

theorem leapEvening_survives : leapEvening.isLocal = true ∧
    toText (.moment leapEvening) = .ok "2024-02-29T23:59:59.000005" ∧
    ofValue (.text "2024-02-29T23:59:59.000005") = .ok leapEvening ∧
    ∃ e, ofValue (.text "2024-02-29T23:59:59.000005+02:00") = .error e := by
  have hlocal : leapEvening.isLocal = true := rfl
  obtain ⟨⟨s, hs, _, hread, _⟩, hrefused⟩ := survives_text hlocal
  have htext : toText (.moment leapEvening) = .ok "2024-02-29T23:59:59.000005" := rfl
  obtain rfl : s = "2024-02-29T23:59:59.000005" := Except.ok.inj (hs.symm.trans htext)
  refine ⟨hlocal, htext, hread, (hrefused _).2.1 (.inl ⟨'+', by decide, ?_⟩)⟩
  exact .inr (.inr rfl)

end Moment

end ObjectQuery
