import ObjectQuery.Proofs.Calendar.Midnight
import ObjectQuery.Scalar.Coercion

/-!
# Texts with a zone

Which characters each part of a text is made of. There is no plus and no `Z` among those of dates
and times, and no hyphen among those of times, so a text that has one of them in such a place says
a zone, or nothing at all. Either way no local moment is read from it.
-/

set_option autoImplicit false

namespace ObjectQuery.Moment

open Outcome

/-- What is read off the front of a text is made of some characters only. -/
def Consumes {α : Type} (p : Char → Prop) (cs : List Char)
    (x : Except Misreading (α × List Char)) : Prop :=
  ∀ a rest, x = .ok (a, rest) → ∃ front, cs = front ++ rest ∧ ∀ c ∈ front, p c

section Consumes

variable {α β : Type} {p q : Char → Prop} {c : Char} {cs : List Char}

theorem consumes_ok (a : α) : Consumes p cs (.ok (a, cs)) := by
  rintro _ _ ⟨⟩
  exact ⟨[], rfl, nofun⟩

theorem consumes_error (e : Misreading) : Consumes (α := α) p cs (.error e) := nofun

theorem consumes_refuse (size : Nat) (part : Part) (missing : Nat) (ds : List Char) :
    Consumes (α := α) p cs (refuse size part missing ds) := by
  cases ds <;> exact consumes_error _

theorem Consumes.cons {x : Except Misreading (α × List Char)} (hc : p c) (h : Consumes p cs x) :
    Consumes p (c :: cs) x := by
  intro a rest hx
  obtain ⟨front, rfl, hfront⟩ := h a rest hx
  exact ⟨c :: front, rfl, List.forall_mem_cons.mpr ⟨hc, hfront⟩⟩

theorem Consumes.mono {x : Except Misreading (α × List Char)} (h : Consumes p cs x)
    (hpq : ∀ c, p c → q c) : Consumes q cs x := by
  intro a rest hx
  obtain ⟨front, hfront, hp⟩ := h a rest hx
  exact ⟨front, hfront, fun c hc => hpq c (hp c hc)⟩

theorem Consumes.bind {x : Except Misreading (α × List Char)}
    {f : α × List Char → Except Misreading (β × List Char)} (hx : Consumes p cs x)
    (hf : ∀ a rest, Consumes p rest (f (a, rest))) : Consumes p cs (x >>= f) := by
  intro b rest h
  obtain ⟨⟨a, between⟩, ha, hb⟩ := bind_eq_ok.mp h
  obtain ⟨front, rfl, hfront⟩ := hx a between ha
  obtain ⟨back, rfl, hback⟩ := hf a between b rest hb
  exact ⟨front ++ back, (List.append_assoc ..).symm, List.forall_mem_append.mpr ⟨hfront, hback⟩⟩

/-- What is made of what was read takes no further characters. -/
theorem consumes_made (x : Except Misreading α) :
    Consumes p cs (x >>= fun a => pure (a, cs)) := by
  intro a rest h
  obtain ⟨b, _, hb⟩ := bind_eq_ok.mp h
  cases hb
  exact ⟨[], rfl, nofun⟩

end Consumes

variable {size year hour : Nat} {cs : List Char}

theorem consumes_digits (part : Part) (count value : Nat) (cs : List Char) :
    Consumes (·.isDigit = true) cs (readDigits size part count value cs) := by
  induction count generalizing value cs with
  | zero => exact consumes_ok _
  | succ count ih =>
    unfold readDigits
    cases cs with
    | nil => exact consumes_refuse _ _ _ _
    | cons c rest =>
      dsimp only
      split
      · rename_i hc
        exact (ih _ rest).cons hc
      · exact consumes_refuse _ _ _ _

/-- The characters that dates are made of. -/
def InDate (c : Char) : Prop := c.isDigit = true ∨ c = '-' ∨ c = 'W'

theorem consumes_dateDigits (part : Part) (count value : Nat) (cs : List Char) :
    Consumes InDate cs (readDigits size part count value cs) :=
  (consumes_digits part count value cs).mono fun _ hc => .inl hc

theorem consumes_extendedDate : Consumes InDate cs (readExtendedDate size year cs) := by
  unfold readExtendedDate
  split
  · refine Consumes.cons (.inr (.inr rfl)) ((consumes_dateDigits _ _ _ _).bind fun _ rest => ?_)
    dsimp only
    split
    · exact consumes_made _
    · split
      · refine Consumes.cons (.inr (.inl rfl)) ((consumes_dateDigits _ _ _ _).bind fun _ _ => ?_)
        exact consumes_made _
      · exact consumes_refuse _ _ _ _
  · refine (consumes_dateDigits _ _ _ _).bind fun _ rest => ?_
    dsimp only
    split
    · exact consumes_ok _
    · split
      · refine Consumes.cons (.inr (.inl rfl)) ((consumes_dateDigits _ _ _ _).bind fun _ _ => ?_)
        exact consumes_ok _
      · exact (consumes_dateDigits _ _ _ _).bind fun _ _ => consumes_made _

theorem consumes_basicDate : Consumes InDate cs (readBasicDate size year cs) := by
  unfold readBasicDate
  split
  · refine Consumes.cons (.inr (.inr rfl)) ((consumes_dateDigits _ _ _ _).bind fun _ rest => ?_)
    dsimp only
    split
    · exact consumes_made _
    · exact (consumes_dateDigits _ _ _ _).bind fun _ _ => consumes_made _
  · refine (consumes_dateDigits _ _ _ _).bind fun _ _ => ?_
    refine (consumes_dateDigits _ _ _ _).bind fun _ _ => ?_
    dsimp only
    split
    · exact consumes_made _
    · exact (consumes_dateDigits _ _ _ _).bind fun _ _ => consumes_ok _

theorem consumes_date : Consumes InDate cs (readDate size cs) := by
  refine (consumes_dateDigits _ _ _ _).bind fun _ rest => ?_
  dsimp only
  split
  · exact Consumes.cons (.inr (.inl rfl)) consumes_extendedDate
  · exact consumes_basicDate

/-- The characters that times are made of. -/
def InTime (c : Char) : Prop := c.isDigit = true ∨ c = ':' ∨ c = '.' ∨ c = ','

theorem consumes_timeDigits (part : Part) (count value : Nat) (cs : List Char) :
    Consumes InTime cs (readDigits size part count value cs) :=
  (consumes_digits part count value cs).mono fun _ hc => .inl hc

theorem consumes_fraction : Consumes InTime cs (readFraction size cs) := by
  unfold readFraction
  split
  · exact consumes_ok _
  · rename_i mark cs
    split
    · rename_i hmark
      refine Consumes.cons (.inr (.inr hmark)) ?_
      split
      · exact consumes_refuse _ _ _ _
      · rintro _ _ ⟨⟩
        refine ⟨cs.takeWhile Char.isDigit, List.takeWhile_append_dropWhile.symm, ?_⟩
        exact fun c hc => .inl (List.mem_takeWhile_imp hc)
    · exact consumes_ok _

theorem consumes_extendedTime : Consumes InTime cs (readExtendedTime size hour cs) := by
  refine (consumes_timeDigits _ _ _ _).bind fun _ rest => ?_
  dsimp only
  split
  · exact consumes_ok _
  · split
    · refine Consumes.cons (.inr (.inl rfl)) ((consumes_timeDigits _ _ _ _).bind fun _ _ => ?_)
      exact consumes_fraction.bind fun _ _ => consumes_ok _
    · exact consumes_refuse _ _ _ _

theorem consumes_basicTime : Consumes InTime cs (readBasicTime size hour cs) := by
  refine (consumes_timeDigits _ _ _ _).bind fun _ rest => ?_
  dsimp only
  split
  · exact consumes_ok _
  · refine (consumes_timeDigits _ _ _ _).bind fun _ _ => ?_
    exact consumes_fraction.bind fun _ _ => consumes_ok _

theorem consumes_time (extended : Bool) : Consumes InTime cs (readTime size extended cs) := by
  refine (consumes_timeDigits _ _ _ _).bind fun _ rest => ?_
  dsimp only
  split
  · exact consumes_ok _
  · split
    · refine Consumes.cons (.inr (.inl rfl)) (consumes_extendedTime.bind fun _ _ => ?_)
      split
      · exact consumes_ok _
      · exact consumes_error _
    · refine consumes_basicTime.bind fun _ _ => ?_
      split
      · exact consumes_error _
      · exact consumes_ok _

/-- The characters of a date, or of a date and a time, without a zone behind them. -/
inductive Zoneless : List Char → Prop
  | date {date : List Char} (hd : ∀ c ∈ date, InDate c) : Zoneless date
  | time {date time : List Char} {start : Char} (hd : ∀ c ∈ date, InDate c)
      (hs : isTimeStart start = true) (ht : ∀ c ∈ time, InTime c) :
      Zoneless (date ++ start :: time)

theorem readZone_none {rest : List Char} (h : readZone size cs = .ok (none, rest)) : rest = cs := by
  unfold readZone at h
  split at h
  · cases h
    rfl
  · split at h
    · cases h
    · split at h
      · obtain ⟨_, _, h⟩ := bind_eq_ok.mp h
        obtain ⟨_, _, h⟩ := bind_eq_ok.mp h
        cases h
      · split at h
        · obtain ⟨_, _, h⟩ := bind_eq_ok.mp h
          obtain ⟨_, _, h⟩ := bind_eq_ok.mp h
          cases h
        · cases h
          rfl

theorem zoneless_of_readWritten {w : Written} (h : readWritten cs = .ok w) (hz : w.zone = none) :
    Zoneless cs := by
  obtain ⟨⟨date, rest⟩, hdate, h⟩ := bind_eq_ok.mp h
  obtain ⟨front, rfl, hfront⟩ := consumes_date _ _ hdate
  dsimp only at h
  split at h
  · rw [List.append_nil]
    exact .date hfront
  · split at h
    · rename_i hstart
      obtain ⟨⟨time, rest⟩, htime, h⟩ := bind_eq_ok.mp h
      obtain ⟨back, rfl, hback⟩ := consumes_time _ _ _ htime
      obtain ⟨⟨zone, left⟩, hzone, h⟩ := bind_eq_ok.mp h
      split at h
      · rename_i hleft
        cases h
        cases hz
        have hrest : rest = [] := (readZone_none hzone).symm.trans (List.isEmpty_iff.mp hleft)
        rw [hrest, List.append_nil]
        exact .time hfront hstart hback
      · cases h
    · cases h

theorem read_eq_ok {s : String} {m : Moment} : read s = .ok m ↔
    (∀ c ∈ s.toList, isNull c = false) ∧ ∃ w, readWritten s.toList = .ok w ∧ w.check = .ok m := by
  by_cases hclean : ∀ c ∈ s.toList, isNull c = false
  · rw [read_of_clean hclean, bind_eq_ok, and_iff_right hclean]
  · rw [read_of_null hclean, bind_eq_ok]
    simp [hclean]

theorem Written.zone_of_check {w : Written} {m : Moment} (h : w.check = .ok m) :
    w.zone = m.offset := by
  obtain ⟨_, _, h⟩ := bind_eq_ok.mp h
  split at h
  · split at h
    · cases h
      rfl
    · cases h
  · obtain ⟨_, _, h⟩ := bind_eq_ok.mp h
    cases h
    rfl

/-- A text that a local moment is read from says no zone. -/
theorem zoneless_of_read {s : String} {m : Moment} (h : read s = .ok m) (hm : m.isLocal = true) :
    Zoneless s.toList := by
  obtain ⟨_, w, hw, hcheck⟩ := read_eq_ok.mp h
  exact zoneless_of_readWritten hw
    ((Written.zone_of_check hcheck).trans (Option.isNone_iff_eq_none.mp hm))

/-- Whether there is a plus or a `Z` anywhere in a text, or a hyphen behind the start of a time. -/
def SaysZone (s : String) : Prop :=
  (∃ c ∈ s.toList, c = 'Z' ∨ c = 'z' ∨ c = '+') ∨ '-' ∈ s.toList.dropWhile (!isTimeStart ·)

theorem InDate.not_timeStart {c : Char} (h : InDate c) : isTimeStart c = false := by
  rw [← Bool.not_eq_true]
  intro hs
  simp only [isTimeStart, Bool.or_eq_true, beq_iff_eq] at hs
  rcases hs with (rfl | rfl) | rfl <;> simp [InDate] at h

theorem Zoneless.of_mem {c : Char} (h : Zoneless cs) (hc : c ∈ cs) :
    InDate c ∨ isTimeStart c = true ∨ InTime c := by
  cases h with
  | date hd => exact .inl (hd c hc)
  | time hd hs ht =>
    rcases List.mem_append.mp hc with hc | hc
    · exact .inl (hd c hc)
    · rcases List.mem_cons.mp hc with rfl | hc
      · exact .inr (.inl hs)
      · exact .inr (.inr (ht c hc))

/-- The time is what is left of a text from its first start of a time on. -/
theorem Zoneless.hyphen_not_mem (h : Zoneless cs) : '-' ∉ cs.dropWhile (!isTimeStart ·) := by
  have hdate {date : List Char} (hd : ∀ c ∈ date, InDate c) :
      ∀ c ∈ date, (!isTimeStart c) = true := fun c hc => by
    rw [(hd c hc).not_timeStart, Bool.not_false]
  cases h with
  | date hd =>
    rw [List.dropWhile_eq_nil_iff.mpr (hdate hd)]
    exact List.not_mem_nil
  | time hd hs ht =>
    rw [List.dropWhile_append_of_pos (hdate hd), List.dropWhile_cons_of_neg (by simp [hs])]
    intro hmem
    rcases List.mem_cons.mp hmem with rfl | hmem
    · cases hs
    · have hin := ht _ hmem
      simp [InTime] at hin

theorem Zoneless.not_saysZone {s : String} (h : Zoneless s.toList) : ¬SaysZone s := by
  rintro (⟨c, hc, hmark⟩ | hhyphen)
  · have hin := h.of_mem hc
    rcases hmark with rfl | rfl | rfl <;> simp [InDate, InTime, isTimeStart] at hin
  · exact h.hyphen_not_mem hhyphen

/-- A text stands for the moment that is read from it, if that one is local. -/
theorem ofValue_text_eq_ok {s : String} {m : Moment} :
    ofValue (.text s) = .ok m ↔ read s = .ok m ∧ m.isLocal = true := by
  rw [ofValue]
  cases hread : read s with
  | error e => cases e <;> simp
  | ok n =>
    dsimp only
    split
    · rename_i hlocal
      simp only [Except.ok.injEq]
      exact ⟨fun h => ⟨h, h ▸ hlocal⟩, And.left⟩
    · rename_i hzoned
      simp only [reduceCtorEq, Except.ok.injEq, false_iff, not_and]
      rintro rfl
      exact hzoned

/-- A text that says a zone stands for no local moment, whatever else it says. -/
theorem exists_error_of_saysZone {s : String} (h : SaysZone s) :
    ∃ e, ofValue (.text s) = .error e := by
  cases hread : ofValue (.text s) with
  | error e => exact ⟨e, rfl⟩
  | ok m =>
    obtain ⟨hm, hlocal⟩ := ofValue_text_eq_ok.mp hread
    exact absurd h (zoneless_of_read hm hlocal).not_saysZone

end ObjectQuery.Moment
